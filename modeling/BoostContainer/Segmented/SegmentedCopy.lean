import BoostContainer.Lib.SegmentFill
import BoostContainer.Segmented.SegmentedFindIf

/-!
# Copies between segmented ranges

A copy walks the segments of the source and, under each of their parts, the
segments of the destination, from where the part before it left off. Source and
destination are places in one memory. What a copy is to do is one loop over the
positions of the source, with a step that may write one element; what the code
does is that loop, made in parts, each of which stops where the source or a
segment of the destination ends.

So it does not matter what the step is, nor whether the ranges overlap: the
parts put together make the steps of the loop, in the same order.
-/

namespace Segmented

open Segments Segmentation

variable {α : Type*}

/-! ## Steps -/

/-- What a copy writes to: the memory, and the next position. -/
abbrev Output (α : Type*) := Memory α × ℕ

/-- `transfer_op`: an element is copied, or moved, and the next position is
written to next. -/
def transfer (move : Bool) (p : ℕ) (s : Output α) (x : α) : Output α :=
  (Function.update (if move then Function.update s.1 p none else s.1) s.2 (some x), s.2 + 1)

/-- Nothing else changes. -/
theorem transfer_apply_of_ne {move : Bool} {p q : ℕ} {s : Output α} {x : α} (hp : q ≠ p)
    (hs : q ≠ s.2) : (transfer move p s x).1 q = s.1 q := by
  refine (Function.update_of_ne hs ..).trans ?_
  split
  · exact Function.update_of_ne hp ..
  · rfl

/-- The step of a copy of some elements. -/
def transferIf (move : Bool) (keep : α → Bool) (p : ℕ) (s : Output α) : Option (Output α) :=
  (s.1 p).map (fun x => if keep x then transfer move p s x else s)

/-- The step of a copy. -/
def copyStep (p : ℕ) (s : Output α) : Option (Output α) := (s.1 p).map (transfer false p s)

/-! ## Ranges that are not cut -/

/-- The loop of `segmented_copy_dst_bounded`. The destination may have no end. -/
def copyLoop (dstLast : Option ℕ) (first last : ℕ) (s : Output α) : Option (Output α × ℕ) :=
  (Scan.forRange first last (fun first (s : Output α) =>
    if dstLast = some s.2 then some (Scan.done (s, first))
    else (copyStep first s).map Scan.more) s).map (fun e => match e with
      | .more s => (s, last)
      | .done r => r)

/-- **`segmented_copy_dst_bounded`** for a destination that is not cut. Where both
ranges are of random access, the length of the copy is known before. -/
def segmentedCopyDstBounded (dualRA : Bool) (dstLast : Option ℕ) (first last : ℕ)
    (s : Output α) : Option (Output α × ℕ) :=
  match dualRA, dstLast with
  | true, some dstLast => copyLoop none first (first + min (last - first) (dstLast - s.2)) s
  | _, _ => copyLoop dstLast first last s

/-- `segmented_copy_if_dst_bounded` and `segmented_remove_copy_if_dst_bounded` for a
destination that is not cut. -/
def transferIfBounded (move : Bool) (keep : α → Bool) (dstLast : Option ℕ) (first last : ℕ)
    (s : Output α) : Option (Output α × ℕ) :=
  (Scan.forRange first last (fun first (s : Output α) => (s.1 first).map (fun x =>
    if keep x then
      if dstLast = some s.2 then Scan.done (s, first) else Scan.more (transfer move first s x)
    else Scan.more s)) s).map (fun e => match e with
      | .more s => (s, last)
      | .done r => r)

/-- The loop of `segmented_copy_if`. -/
def segmentedCopyIfDstBounded (pred : α → Bool) (dstLast : Option ℕ) (first last : ℕ)
    (s : Output α) : Option (Output α × ℕ) :=
  transferIfBounded false pred dstLast first last s

/-- The loop of `segmented_remove_copy_if`. -/
def segmentedRemoveCopyIfDstBounded (move : Bool) (pred : α → Bool) (dstLast : Option ℕ)
    (first last : ℕ) (s : Output α) : Option (Output α × ℕ) :=
  transferIfBounded move (fun x => !pred x) dstLast first last s

/-! ## Ranges that are cut -/

/-- A loop over a part of the source, into a part of the destination. -/
abbrev BoundedLoop (α : Type*) := Option ℕ → ℕ → ℕ → Output α → Option (Output α × ℕ)

/-- The copy of a source up to `last`, as a worker: the output, and how far it has
read. -/
def copier (α : Type*) (last : ℕ) : Worker (Output α × ℕ) where
  pos r := r.1.2
  setPos a r := ((r.1.1, a), r.2)
  finished r := decide (r.2 = last)

/-- **The destination dispatch**: a destination that is cut is walked, with the
bounded helper, until the source is used up. -/
def dstDispatch (loop : BoundedLoop α) (d : ℕ) (o : ℕ) (c : Segmentation d) (first last : ℕ)
    (s : Output α) : Option (Output α) :=
  (fillOn (copier α last) (fun dstLast r => loop dstLast r.2 last r.1)
    (fun r => decide (r.2 = last)) d o c (s, first)).map Prod.fst

/-- The source dispatch, with a loop for the elements. A source that ends with a
sentinel is not walked by its segments. -/
def srcDispatch (loop : BoundedLoop α) (sentinel : Bool) {dS dD : ℕ} (oS : ℕ)
    (cS : Segmentation dS) (oD : ℕ) (cD : Segmentation dD) (first last : ℕ) (s : Output α) :
    Option (Output α) :=
  if sentinel then dstDispatch loop dD oD cD first last s
  else scanParts (fun first last s => dstDispatch loop dD oD cD first last s) dS oS cS first last s

/-- **`segmented_copy`.** -/
def segmentedCopy (dualRA sentinel : Bool) {dS dD : ℕ} (oS : ℕ) (cS : Segmentation dS) (oD : ℕ)
    (cD : Segmentation dD) (mem : Memory α) (first last result : ℕ) : Option (Output α) :=
  srcDispatch (segmentedCopyDstBounded (dualRA && !sentinel)) sentinel oS cS oD cD first last
    (mem, result)

/-- **`segmented_copy_if`.** -/
def segmentedCopyIf (pred : α → Bool) (sentinel : Bool) {dS dD : ℕ} (oS : ℕ)
    (cS : Segmentation dS) (oD : ℕ) (cD : Segmentation dD) (mem : Memory α)
    (first last result : ℕ) : Option (Output α) :=
  srcDispatch (segmentedCopyIfDstBounded pred) sentinel oS cS oD cD first last (mem, result)

/-- **`segmented_remove_copy_if`.** -/
def segmentedRemoveCopyIf (pred : α → Bool) (sentinel : Bool) {dS dD : ℕ} (oS : ℕ)
    (cS : Segmentation dS) (oD : ℕ) (cD : Segmentation dD) (mem : Memory α)
    (first last result : ℕ) : Option (Output α) :=
  srcDispatch (segmentedRemoveCopyIfDstBounded false pred) sentinel oS cS oD cD first last
    (mem, result)

/-- **`segmented_remove_if`**: what is kept is moved to the front of the same range. -/
def segmentedRemoveIf (pred : α → Bool) (sentinel : Bool) {d : ℕ} (c : Segmentation d)
    (mem : Memory α) (first last : ℕ) : Option (Output α) :=
  (if sentinel then findIfLoop pred mem first last
    else segmentedFindIfDispatch pred d c mem first last).bind (fun first =>
      if first = last then some (mem, last)
      else srcDispatch (segmentedRemoveCopyIfDstBounded true pred) sentinel 0 c 0 c (first + 1) last
        (mem, first))

/-! ## Loops that can be resumed -/

/-- A step writes at most at the next position. -/
def Advancing (step : ℕ → Output α → Option (Output α)) : Prop :=
  ∀ p s t, step p s = some t → s.2 ≤ t.2

/-- **A loop was made up to a position**: it is at the end of the source, or the
next element has to be written and the destination ends there. -/
structure MadeTo (step : ℕ → Output α → Option (Output α)) (dstLast : Option ℕ)
    (first last : ℕ) (s : Output α) (r : Output α × ℕ) : Prop where
  ge : first ≤ r.2
  le : r.2 ≤ last
  run : runRange step first r.2 s = some r.1
  le_dst : ∀ e, dstLast = some e → r.1.2 ≤ e
  stop : r.2 = last ∨ dstLast = some r.1.2 ∧ ∀ u, step r.2 r.1 = some u → r.1.2 < u.2

/-- **A bounded loop makes the steps it has room for.** -/
def Resumes (step : ℕ → Output α → Option (Output α)) (loop : BoundedLoop α) : Prop :=
  ∀ dstLast first last s, first ≤ last → (∀ e, dstLast = some e → s.2 ≤ e) →
    (∃ t, runRange step first last s = some t) →
    (loop dstLast first last s).Yields (MadeTo step dstLast first last s)

section Steps

variable {step : ℕ → Output α → Option (Output α)} {loop : BoundedLoop α} {dstLast : Option ℕ}
  {first last : ℕ} {s t : Output α}

theorem Advancing.le_of_runRange (h : Advancing step) (hle : first ≤ last)
    (hrun : runRange step first last s = some t) : s.2 ≤ t.2 := by
  induction last, hle using Nat.le_induction generalizing t with
  | base =>
    rw [runRange_self] at hrun
    rw [Option.some.inj hrun]
  | succ last hle ih =>
    rw [runRange_succ step hle] at hrun
    obtain ⟨u, hu, ht⟩ := Option.bind_eq_some_iff.mp hrun
    exact (ih hu).trans (h last u t ht)

theorem advancing_copyStep : Advancing (@copyStep α) := by
  intro p s t h
  obtain ⟨x, -, rfl⟩ := Option.map_eq_some_iff.mp h
  exact Nat.le_succ _

theorem advancing_transferIf (move : Bool) (keep : α → Bool) :
    Advancing (transferIf move keep) := by
  intro p s t h
  obtain ⟨x, -, rfl⟩ := Option.map_eq_some_iff.mp h
  split
  · exact Nat.le_succ _
  · exact le_rfl

/-- The loop of a copy makes the steps it has room for. -/
theorem copyLoop_yields (hle : first ≤ last) (hdst : ∀ e, dstLast = some e → s.2 ≤ e)
    (hrun : ∃ t, runRange copyStep first last s = some t) :
    (copyLoop dstLast first last s).Yields (MadeTo copyStep dstLast first last s) := by
  obtain ⟨u, hu⟩ := hrun
  refine (Scan.forRange_yields (P := fun p t => runRange copyStep first p s = some t
      ∧ ∀ e, dstLast = some e → t.2 ≤ e)
    (Q := MadeTo copyStep dstLast first last s) hle ?_ ⟨runRange_self .., hdst⟩).map ?_
  · rintro p t hfp hpl ⟨ht, hle⟩
    have hrest := (runRange_of_append hfp hpl.le ht).symm.trans hu
    obtain ⟨t', ht', -⟩ := exists_step hpl hrest
    split
    · next hend =>
      refine Option.yields_some ⟨hfp, hpl.le, ht, hle, Or.inr ⟨hend, fun u hu => ?_⟩⟩
      obtain ⟨x, -, rfl⟩ := Option.map_eq_some_iff.mp hu
      exact Nat.lt_succ_self _
    · next hend =>
      rw [ht', Option.map_some]
      refine Option.yields_some ⟨?_, fun e he => ?_⟩
      · rw [runRange_succ copyStep hfp, ht, Option.bind_some, ht']
      · obtain ⟨x, -, rfl⟩ := Option.map_eq_some_iff.mp ht'
        have hne : t.2 ≠ e := fun h => hend (h ▸ he)
        exact lt_of_le_of_ne (hle e he) hne
  · intro e he
    cases e with
    | more t => exact ⟨hle, le_rfl, he.1, he.2, Or.inl rfl⟩
    | done r => exact he

/-- A copy writes as many elements as it reads. -/
theorem snd_of_runRange_copyStep (hle : first ≤ last)
    (hrun : runRange copyStep first last s = some t) : t.2 = s.2 + (last - first) := by
  induction last, hle using Nat.le_induction generalizing t with
  | base =>
    rw [runRange_self] at hrun
    rw [Option.some.inj hrun, Nat.sub_self, Nat.add_zero]
  | succ last hle ih =>
    rw [runRange_succ copyStep hle] at hrun
    obtain ⟨u, hu, ht⟩ := Option.bind_eq_some_iff.mp hrun
    obtain ⟨x, -, rfl⟩ := Option.map_eq_some_iff.mp ht
    rw [transfer, ih hu]
    omega

/-- **Where the room is known before**, a copy of what there is room for is a copy
into a range that ends. -/
theorem MadeTo.of_room {e : ℕ} {r : Output α × ℕ} (hle : first ≤ last) (hse : s.2 ≤ e)
    (h : MadeTo copyStep none first (first + min (last - first) (e - s.2)) s r) :
    MadeTo copyStep (some e) first last s r := by
  have hr2 : r.2 = first + min (last - first) (e - s.2) :=
    h.stop.resolve_right (fun hend => nomatch hend.1)
  have hdst := snd_of_runRange_copyStep h.ge h.run
  refine ⟨h.ge, by omega, h.run, fun e' he' => ?_, ?_⟩
  · obtain rfl := Option.some.inj he'
    omega
  · rcases Nat.le_total (last - first) (e - s.2) with hroom | hroom
    · exact Or.inl (by omega)
    · refine Or.inr ⟨congrArg some (by omega), fun u hu => ?_⟩
      obtain ⟨x, -, rfl⟩ := Option.map_eq_some_iff.mp hu
      exact Nat.lt_succ_self _

/-- **`segmented_copy_dst_bounded` makes the steps it has room for**, also where it
knows their number before. -/
theorem resumes_segmentedCopyDstBounded (dualRA : Bool) :
    Resumes (@copyStep α) (segmentedCopyDstBounded dualRA) := by
  intro dstLast first last s hle hdst hrun
  unfold segmentedCopyDstBounded
  split
  · next e =>
    obtain ⟨u, hu⟩ := hrun
    obtain ⟨t, ht, -⟩ := exists_runRange (Nat.le_add_right first (min (last - first) (e - s.2)))
      (by omega : first + min (last - first) (e - s.2) ≤ last) hu
    have hnone : ∀ e, (none : Option ℕ) = some e → s.2 ≤ e := fun e he => nomatch he
    exact (copyLoop_yields (Nat.le_add_right _ _) hnone ⟨t, ht⟩).imp
      (fun r hr => hr.of_room hle (hdst e rfl))
  · exact copyLoop_yields hle hdst hrun

/-- **The loops with a predicate make the steps they have room for.** -/
theorem resumes_transferIfBounded (move : Bool) (keep : α → Bool) :
    Resumes (transferIf move keep) (transferIfBounded move keep) := by
  rintro dstLast first last s hle hdst ⟨u, hu⟩
  refine (Scan.forRange_yields (P := fun p t => runRange (transferIf move keep) first p s = some t
      ∧ ∀ e, dstLast = some e → t.2 ≤ e)
    (Q := MadeTo (transferIf move keep) dstLast first last s) hle ?_
    ⟨runRange_self .., hdst⟩).map ?_
  · rintro p t hfp hpl ⟨ht, hle⟩
    have hrest := (runRange_of_append hfp hpl.le ht).symm.trans hu
    obtain ⟨t', ht', -⟩ := exists_step hpl hrest
    obtain ⟨x, hx, hkeep⟩ := Option.map_eq_some_iff.mp ht'
    have hsucc : runRange (transferIf move keep) first (p + 1) s
        = some (if keep x then transfer move p t x else t) := by
      rw [runRange_succ _ hfp, ht, Option.bind_some, ht', hkeep]
    rw [hx, Option.map_some]
    by_cases hk : keep x = true
    · rw [if_pos hk] at hsucc ⊢
      split
      · next hend =>
        refine Option.yields_some ⟨hfp, hpl.le, ht, hle, Or.inr ⟨hend, fun u hu => ?_⟩⟩
        rw [transferIf, hx, Option.map_some, if_pos hk] at hu
        rw [← Option.some.inj hu]
        exact Nat.lt_succ_self _
      · next hend =>
        refine Option.yields_some ⟨hsucc, fun e he => ?_⟩
        have hne : t.2 ≠ e := fun h => hend (h ▸ he)
        exact lt_of_le_of_ne (hle e he) hne
    · rw [if_neg hk] at hsucc ⊢
      exact Option.yields_some ⟨hsucc, hle⟩
  · intro e he
    cases e with
    | more t => exact ⟨hle, le_rfl, he.1, he.2, Or.inl rfl⟩
    | done r => exact he

/-- **A resumable loop works** as far as the destination has room. -/
theorem works_copier (hadv : Advancing step) (hloop : Resumes step loop) (t : Output α)
    (last : ℕ) :
    Works (copier α last) (fun dstLast r => loop dstLast r.2 last r.1) s.2 (fun _ _ => True)
      (fun r => r.2 ≤ last ∧ runRange step r.2 last r.1 = some t)
      (fun r r' => r.2 ≤ r'.2 ∧ (r.2 ≤ last → r'.2 ≤ last)
        ∧ runRange step r.2 r'.2 r.1 = some r'.1) t.2 where
  refl r := ⟨le_rfl, fun h => h, runRange_self ..⟩
  trans h h' := ⟨h.1.trans h'.1, fun hle => h'.2.1 (h.2.1 hle),
    (runRange_of_append h.1 h'.1 h.2.2).trans h'.2.2⟩
  keeps h hr := ⟨h.2.1 hr.1, (runRange_of_append h.1 (h.2.1 hr.1) h.2.2).symm.trans hr.2⟩
  setPos _ := rfl
  le_lim hr := hadv.le_of_runRange hr.1 hr.2
  work := by
    rintro ⟨s, f⟩ dstLast ⟨hle, hrun⟩ - hdst
    refine (hloop dstLast f last s hle (fun e he => (hdst e he).1) ⟨t, hrun⟩).imp (fun r hr => ?_)
    refine ⟨⟨hr.ge, fun _ => hr.le, hr.run⟩, hr.le_dst, ?_⟩
    by_cases hlast : r.2 = last
    · exact Or.inl (decide_eq_true hlast)
    · obtain ⟨hend, hpending⟩ := hr.stop.resolve_left hlast
      have hlt : r.2 < last := lt_of_le_of_ne hr.le hlast
      -- the element that is left has to be written, so there is more to write
      obtain ⟨u, hu, htail⟩ := exists_step hlt ((runRange_of_append hr.ge hr.le hr.run).symm.trans
        hrun)
      exact Or.inr ⟨hend, (hpending u hu).trans_le (hadv.le_of_runRange hlt htail)⟩

end Steps

/-! ## What is copied -/

/-- **A range that is written to**, from a position up to another. A sequence that
is not cut has as much room as is asked for. -/
structure OutRange {d : ℕ} (o : ℕ) (c : Segmentation d) (result stop : ℕ) : Prop where
  le : o ≤ result
  room : 0 < d → stop ≤ o + size d c
  seg : HasSegment d c

/-- A range of positions of a sequence. -/
structure Positions {d : ℕ} (o : ℕ) (c : Segmentation d) (first last : ℕ) : Prop where
  ge : o ≤ first
  le : first ≤ last
  le_size : last ≤ o + size d c

section Dispatch

variable {step : ℕ → Output α → Option (Output α)} {loop : BoundedLoop α} {sentinel : Bool}
  {dS dD oS oD first last result : ℕ} {cS : Segmentation dS} {cD : Segmentation dD} {s t : Output α}

/-- **A part of the source is copied**, whatever the segments of the destination
are. -/
theorem dstDispatch_eq (hadv : Advancing step) (hloop : Resumes step loop) (hle : first ≤ last)
    (hrun : runRange step first last s = some t) (hout : OutRange oD cD s.2 t.2) :
    dstDispatch loop dD oD cD first last s = some t := by
  have hworks := works_copier (s := s) hadv hloop t last
  refine Option.yields_iff_of_unique (Q := (· = t)) (fun _ h => h)
    ((fillOn_yields hworks (s := (s, first)) (fun _ _ _ _ => trivial) ⟨hle, hrun⟩ rfl (fun h => h)
      hout.le hout.room hout.seg).map ?_)
  rintro ⟨u, f⟩ ⟨⟨hff, hfl, hu⟩, hfin⟩
  obtain rfl : f = last := of_decide_eq_true hfin
  exact Option.some.inj (hu.symm.trans hrun)

/-- **A source is copied, whatever its segments are and those of the
destination.** -/
theorem srcDispatch_eq (hadv : Advancing step) (hloop : Resumes step loop)
    (hsrc : Positions oS cS first last) (hrun : runRange step first last s = some t)
    (hout : OutRange oD cD s.2 t.2) :
    srcDispatch loop sentinel oS cS oD cD first last s = some t := by
  rw [srcDispatch]
  split
  · exact dstDispatch_eq hadv hloop hsrc.le hrun hout
  · refine Option.yields_iff_of_unique (Q := (· = t)) (fun _ h => h) ?_
    refine (scanParts_yields (P := fun p u => runRange step first p s = some u) ?_ hsrc.ge le_rfl
      hsrc.le le_rfl hsrc.le_size (runRange_self ..)).imp
      (fun u hu => Option.some.inj (hu.symm.trans hrun))
    intro a b u hfa hab hbl hu
    obtain ⟨w, hw, htail⟩ := exists_runRange hab hbl
      ((runRange_of_append hfa (hab.trans hbl) hu).symm.trans hrun)
    have hsu := hadv.le_of_runRange hfa hu
    have hwt := hadv.le_of_runRange hbl htail
    rw [dstDispatch_eq hadv hloop hab hw ⟨hout.le.trans hsu, fun h => hwt.trans (hout.room h),
      hout.seg⟩]
    exact Option.yields_some ((runRange_of_append hfa hab hu).trans hw)

variable {mem : Memory α}

theorem segmentedCopy_eq (dualRA : Bool) (hsrc : Positions oS cS first last)
    (hrun : runRange copyStep first last (mem, result) = some t)
    (hout : OutRange oD cD result t.2) :
    segmentedCopy dualRA sentinel oS cS oD cD mem first last result = some t :=
  srcDispatch_eq advancing_copyStep (resumes_segmentedCopyDstBounded _) hsrc hrun hout

theorem segmentedCopyIf_eq (pred : α → Bool) (hsrc : Positions oS cS first last)
    (hrun : runRange (transferIf false pred) first last (mem, result) = some t)
    (hout : OutRange oD cD result t.2) :
    segmentedCopyIf pred sentinel oS cS oD cD mem first last result = some t :=
  srcDispatch_eq (advancing_transferIf _ _) (resumes_transferIfBounded _ _) hsrc hrun hout

theorem segmentedRemoveCopyIf_eq (pred : α → Bool) (hsrc : Positions oS cS first last)
    (hrun : runRange (transferIf false (fun x => !pred x)) first last (mem, result) = some t)
    (hout : OutRange oD cD result t.2) :
    segmentedRemoveCopyIf pred sentinel oS cS oD cD mem first last result = some t :=
  srcDispatch_eq (advancing_transferIf _ _) (resumes_transferIfBounded _ _) hsrc hrun hout

end Dispatch

/-! ## `segmented_remove_if` -/

/-- The removal from a range that is not cut. -/
def removeIf (pred : α → Bool) (mem : Memory α) (first last : ℕ) : Option (Output α) :=
  (findIfLoop pred mem first last).bind (fun first =>
    if first = last then some (mem, last)
    else runRange (transferIf true (fun x => !pred x)) (first + 1) last (mem, first))

section RemoveIf

variable {pred : α → Bool} {mem : Memory α} {v : ℕ → α} {first last : ℕ} {s : Output α}

/-- **A copy to the front of its own range** comes through: it writes before what it
has still to read. -/
theorem exists_runRange_of_le (move : Bool) (keep : α → Bool) (hle : first ≤ last)
    (hmem : ∀ p, first ≤ p → p < last → s.1 p = some (v p)) (hs : s.2 ≤ first) :
    ∃ t, runRange (transferIf move keep) first last s = some t ∧ t.2 ≤ last
      ∧ ∀ p, last ≤ p → t.1 p = s.1 p := by
  induction last, hle using Nat.le_induction with
  | base => exact ⟨s, runRange_self .., hs, fun _ _ => rfl⟩
  | succ last hle ih =>
    obtain ⟨t, ht, htl, hrest⟩ := ih (fun p hp hpl => hmem p hp (Nat.lt_succ_of_lt hpl))
    have hlast := (hrest last le_rfl).trans (hmem last hle (Nat.lt_succ_self last))
    refine ⟨if keep (v last) then transfer move last t (v last) else t, ?_, ?_, fun p hp => ?_⟩
    · rw [runRange_succ _ hle, ht, Option.bind_some, transferIf, hlast, Option.map_some]
    · split
      · exact Nat.succ_le_succ htl
      · exact htl.trans (Nat.le_succ last)
    · rw [← hrest p (Nat.le_of_succ_le hp)]
      split
      · exact transfer_apply_of_ne (by omega) (by omega)
      · rfl

/-- Where the first element that is removed is, there is one answer. -/
theorem IsFirst.unique {r q : ℕ} (h : IsFirst pred v first last r)
    (h' : IsFirst pred v first last q) : r = q := by
  have key : ∀ r q, IsFirst pred v first last r → IsFirst pred v first last q → ¬ r < q := by
    intro r q h h' hlt
    have hfalse := h'.before r h.ge hlt
    rw [h.at_lt (hlt.trans_le h'.le)] at hfalse
    exact absurd hfalse (by decide)
  exact le_antisymm (not_lt.mp (key q r h' h)) (not_lt.mp (key r q h h'))

/-- **The removal from a range, however it is cut.** -/
theorem segmentedRemoveIf_eq {sentinel : Bool} {d : ℕ} {c : Segmentation d}
    (h : InRange c mem v first last) :
    ∃ t, removeIf pred mem first last = some t
      ∧ segmentedRemoveIf pred sentinel c mem first last = some t := by
  obtain ⟨f, hf, hfirst⟩ : (findIfLoop pred mem first last).Yields (IsFirst pred v first last) :=
    findIfLoop_yields h
  obtain ⟨g, hg, hfirst'⟩ : (segmentedFindIfDispatch pred d c mem first last).Yields
      (IsFirst pred v first last) := segmentedFindIfDispatch_yields h
  obtain rfl := hfirst.unique hfirst'
  have hge := hfirst.ge
  have hle := hfirst.le
  have hfind : (if sentinel then findIfLoop pred mem first last
      else segmentedFindIfDispatch pred d c mem first last) = some f := by
    split
    · exact hf
    · exact hg
  rw [removeIf, hf, segmentedRemoveIf, hfind, Option.bind_some, Option.bind_some]
  split
  · exact ⟨_, rfl, rfl⟩
  · next hne =>
    have hlt : f < last := lt_of_le_of_ne hle hne
    obtain ⟨t, ht, htl, -⟩ := exists_runRange_of_le (s := (mem, f)) true (fun x => !pred x)
      hlt (fun p hp hpl => h.mem_eq p (by omega) hpl) (Nat.le_succ f)
    have hsize : last ≤ 0 + size d c := by
      rw [Nat.zero_add]
      exact h.le_size
    have hseg : HasSegment d c := by
      cases d with
      | zero => trivial
      | succ d =>
        intro hnil
        have := h.le_size
        rw [size_succ, hnil] at this
        exact absurd (hlt.trans_le this) (Nat.not_lt_zero f)
    exact ⟨t, ht, srcDispatch_eq (advancing_transferIf _ _) (resumes_transferIfBounded _ _)
      ⟨Nat.zero_le _, hlt, hsize⟩ ht ⟨Nat.zero_le _, fun _ => htl.trans hsize, hseg⟩⟩

end RemoveIf

end Segmented
