import BoostContainer.Segmented.SegmentedPartition

/-!
# Partition from both ends

Bidirectional iterators are partitioned by two positions that walk towards each
other, and an element in front that does not satisfy the predicate is swapped
with one behind that does. While the two are in different segments, a segment of
each side is scanned until one of them is used up, and that side takes its next
segment; once they are in the same one, it is partitioned by itself.

What the two positions have gone over is in order, and what is between them has
not been touched.
-/

namespace Segmented

open Segments Segmentation

variable {α : Type*}

/-! ## What is in order at both ends -/

/-- The elements of a part may be read. -/
def Readable (mem : Memory α) (a b : ℕ) : Prop := ∀ p, a ≤ p → p < b → ∃ x, mem p = some x

/-- **What two positions have gone over is in order**: in front, from `f` to `f'`,
elements that satisfy the predicate, and behind, from `l'` to `l`, those that do
not. -/
structure OrderedEnds (pred : α → Bool) (mem : Memory α) (f l : ℕ) (mem' : Memory α)
    (f' l' : ℕ) : Prop where
  rearranged : Rearranged (Set.Ico f f' ∪ Set.Ico l' l) mem mem'
  ge : f ≤ f'
  between : f' ≤ l'
  le : l' ≤ l
  before : ∀ i, f ≤ i → i < f' → (mem' i).map pred = some true
  after : ∀ i, l' ≤ i → i < l → (mem' i).map pred = some false

namespace OrderedEnds

variable {pred : α → Bool} {mem mem' mem'' : Memory α} {f l f' l' f'' l'' g r : ℕ}

/-- Nothing has been gone over. -/
theorem nil (pred : α → Bool) (mem : Memory α) (h : f ≤ l) :
    OrderedEnds pred mem f l mem f l :=
  ⟨.refl _ _, le_rfl, h, le_rfl, fun _ hi hif => absurd hi (Nat.not_le.mpr hif),
    fun _ hi hif => absurd hi (Nat.not_le.mpr hif)⟩

/-- **What is between has not been touched.** -/
theorem untouched (h : OrderedEnds pred mem f l mem' f' l') {i : ℕ} (hi : f' ≤ i) (hil : i < l') :
    mem' i = mem i := by
  refine h.rearranged.eq_of_notMem (fun hmem => ?_)
  rcases hmem with hmem | hmem
  · exact absurd hmem.2 (Nat.not_lt.mpr hi)
  · exact absurd hmem.1 (Nat.not_le.mpr hil)

theorem readable (h : OrderedEnds pred mem f l mem' f' l') {a b : ℕ} (hr : Readable mem a b)
    (ha : f' ≤ a) (hb : b ≤ l') : Readable mem' a b := by
  intro p hap hpb
  rw [h.untouched (ha.trans hap) (hpb.trans_le hb)]
  exact hr p hap hpb

/-- The two go on. -/
theorem trans (h : OrderedEnds pred mem f l mem' f' l')
    (h' : OrderedEnds pred mem' f' l' mem'' f'' l'') :
    OrderedEnds pred mem f l mem'' f'' l'' := by
  have hge := h.ge
  have hle := h.le
  have hge' := h'.ge
  have hle' := h'.le
  have hbetween := h'.between
  have hfront : ∀ i, i < f' → mem'' i = mem' i := by
    intro i hi
    refine h'.rearranged.eq_of_notMem (fun hmem => ?_)
    rcases hmem with hmem | hmem
    · exact absurd hmem.1 (Nat.not_le.mpr hi)
    · exact absurd hmem.1 (by omega)
  have hback : ∀ i, l' ≤ i → mem'' i = mem' i := by
    intro i hi
    refine h'.rearranged.eq_of_notMem (fun hmem => ?_)
    rcases hmem with hmem | hmem
    · exact absurd hmem.2 (by omega)
    · exact absurd hmem.2 (Nat.not_lt.mpr hi)
  refine ⟨?_, hge.trans hge', hbetween, hle'.trans hle, fun i hi hif => ?_, fun i hi hil => ?_⟩
  · refine (h.rearranged.mono ?_).trans (h'.rearranged.mono ?_)
    · exact Set.union_subset_union (Set.Ico_subset_Ico_right hge')
        (Set.Ico_subset_Ico_left hle')
    · exact Set.union_subset_union (Set.Ico_subset_Ico_left hge) (Set.Ico_subset_Ico_right hle)
  · rcases Nat.lt_or_ge i f' with hlt | hge
    · rw [hfront i hlt]
      exact h.before i hi hlt
    · exact h'.before i hge hif
  · rcases Nat.lt_or_ge i l' with hlt | hge
    · exact h'.after i hi hlt
    · rw [hback i hge]
      exact h.after i hge hil

/-- The front position goes over elements that satisfy the predicate. -/
theorem advance (h : OrderedEnds pred mem f l mem' f' l') (hg : f' ≤ g) (hgl : g ≤ l')
    (hall : ∀ i, f' ≤ i → i < g → (mem' i).map pred = some true) :
    OrderedEnds pred mem f l mem' g l' :=
  h.trans ⟨.refl _ _, hg, hgl, le_rfl, hall, fun _ hi hif => absurd hi (Nat.not_le.mpr hif)⟩

/-- The position behind goes back over elements that do not. -/
theorem retreat (h : OrderedEnds pred mem f l mem' f' l') (hg : f' ≤ g) (hgl : g ≤ l')
    (hall : ∀ i, g ≤ i → i < l' → (mem' i).map pred = some false) :
    OrderedEnds pred mem f l mem' f' g :=
  h.trans ⟨.refl _ _, le_rfl, hg, hgl, fun _ hi hif => absurd hi (Nat.not_le.mpr hif), hall⟩

/-- **An element in front and one behind are swapped.** -/
theorem swap (h : OrderedEnds pred mem f l mem' f' (g + 1)) (hg : f' < g)
    (hf : (mem' f').map pred = some false) (hl : (mem' g).map pred = some true) :
    (mem'.swapAt f' g).Yields (fun mem'' => OrderedEnds pred mem f l mem'' (f' + 1) g) := by
  obtain ⟨x, hx, hpx⟩ := exists_of_map_eq hf
  obtain ⟨y, hy, hpy⟩ := exists_of_map_eq hl
  rw [swapAt_eq hx hy]
  refine Option.yields_some (h.trans ⟨?_, by omega, by omega, by omega, fun i hi hif => ?_,
    fun i hi hil => ?_⟩)
  · have hfmem : f' ∈ Set.Ico f' (f' + 1) ∪ Set.Ico g (g + 1) :=
      Or.inl ⟨le_rfl, Nat.lt_succ_self _⟩
    have hgmem : g ∈ Set.Ico f' (f' + 1) ∪ Set.Ico g (g + 1) :=
      Or.inr ⟨le_rfl, Nat.lt_succ_self _⟩
    exact .swap hfmem hgmem mem'
  · obtain rfl : i = f' := by omega
    rw [Equiv.swap_apply_left, hy, Option.map_some, hpy]
  · obtain rfl : i = g := by omega
    rw [Equiv.swap_apply_right, hx, Option.map_some, hpx]

/-- **What is between is partitioned, and so all is.** -/
theorem partitionedTo (h : OrderedEnds pred mem f l mem' f' l')
    (h' : PartitionedTo pred mem' f' l' mem'' r) : PartitionedTo pred mem f l mem'' r := by
  have hfront : OrderedEnds pred mem' f' l' mem'' r r :=
    ⟨by
      rw [Set.Ico_union_Ico_eq_Ico h'.ge h'.le]
      exact h'.rearranged, h'.ge, le_rfl, h'.le, h'.before, h'.after⟩
  have hall := h.trans hfront
  refine ⟨?_, hall.ge, hall.le, hall.before, hall.after⟩
  have := hall.rearranged
  rwa [Set.Ico_union_Ico_eq_Ico hall.ge hall.le] at this

end OrderedEnds

/-! ## Ranges that are not cut -/

/-- The loop back to an element that satisfies the predicate. -/
def findBackLoop (pred : α → Bool) (mem : Memory α) (first last : ℕ) : Option (Scan Unit ℕ) :=
  Scan.forRangeBack first last (fun p (_ : Unit) => (mem p).map (fun x =>
    if pred x then Scan.done p else Scan.more ())) ()

/-- **`partition_disjoint_bidir_ranges`** for elements that are not cut. -/
def partitionDisjointLoop (pred : α → Bool) (fEnd lBeg : ℕ) (mem : Memory α) (f l : ℕ) :
    Option (Memory α × ℕ × ℕ) :=
  Scan.loop (fun s => (findIfLoop (fun x => !pred x) s.1 s.2.1 fEnd).bind (fun f =>
    if f = fEnd then some (Scan.done (s.1, f, s.2.2))
    else (findBackLoop pred s.1 lBeg s.2.2).bind (fun e => match e with
      | .more _ => some (Scan.done (s.1, f, lBeg))
      | .done l => (s.1.swapAt f l).map (fun mem => Scan.more (mem, f + 1, l)))))
    (fEnd - f + 1) (mem, f, l)

/-- **`partition_scan`** of bidirectional iterators to elements that are not cut. -/
def partitionScanBidirLoop (pred : α → Bool) (mem : Memory α) (first last : ℕ) :
    Option (Memory α × ℕ) :=
  Scan.loop (fun (s : Memory α × ℕ × ℕ) =>
    (findIfLoop (fun x => !pred x) s.1 s.2.1 s.2.2).bind (fun first =>
      if first = s.2.2 then some (Scan.done (s.1, first))
      else (findBackLoop pred s.1 (first + 1) s.2.2).bind (fun e => match e with
        | .more _ => some (Scan.done (s.1, first))
        | .done last => (s.1.swapAt first last).map (fun mem => Scan.more (mem, first + 1, last)))))
    (last - first + 1) (mem, first, last)

section Loops

variable {pred : α → Bool} {mem : Memory α} {f fEnd lBeg l first last : ℕ}

/-- The search for an element in front that has to go. -/
theorem findNot_yields (hle : first ≤ last) (hr : Readable mem first last) :
    (findIfLoop (fun x => !pred x) mem first last).Yields (fun g => first ≤ g ∧ g ≤ last
      ∧ (∀ i, first ≤ i → i < g → (mem i).map pred = some true)
      ∧ (g < last → (mem g).map pred = some false)) := by
  refine (Scan.forRange_yields
    (P := fun p _ => ∀ i, first ≤ i → i < p → (mem i).map pred = some true)
    (Q := fun g => first ≤ g ∧ g < last ∧ (∀ i, first ≤ i → i < g → (mem i).map pred = some true)
      ∧ (mem g).map pred = some false) hle ?_ ?_).map ?_
  · intro p s hfp hpl hP
    obtain ⟨x, hx⟩ := hr p hfp hpl
    rw [hx, Option.map_some]
    by_cases hp : pred x = true
    · rw [if_neg (show ¬ (!pred x) = true by rw [hp]; exact Bool.false_ne_true)]
      refine Option.yields_some (fun i hi hip => ?_)
      rcases Nat.lt_succ_iff_lt_or_eq.mp hip with hlt | rfl
      · exact hP i hi hlt
      · rw [hx, Option.map_some, hp]
    · have hp' := Bool.eq_false_iff.mpr hp
      rw [if_pos (show (!pred x) = true by rw [hp']; rfl)]
      exact Option.yields_some ⟨hfp, hpl, hP, by rw [hx, Option.map_some, hp']⟩
  · exact fun i hi hif => absurd hi (Nat.not_le.mpr hif)
  · intro e he
    cases e with
    | more s => exact ⟨hle, le_rfl, he, fun h => absurd h (lt_irrefl _)⟩
    | done g => exact ⟨he.1, he.2.1.le, he.2.2.1, fun _ => he.2.2.2⟩

/-- The search back for an element that may take its place. -/
theorem findBackLoop_yields (hle : first ≤ last) (hr : Readable mem first last) :
    (findBackLoop pred mem first last).Yields (Scan.Ends
      (fun _ => ∀ i, first ≤ i → i < last → (mem i).map pred = some false)
      (fun g => first ≤ g ∧ g < last ∧ (mem g).map pred = some true
        ∧ ∀ i, g + 1 ≤ i → i < last → (mem i).map pred = some false)) := by
  refine Scan.forRangeBack_yields
    (P := fun p _ => ∀ i, p ≤ i → i < last → (mem i).map pred = some false) hle ?_
    (fun i hi hil => absurd hi (Nat.not_le.mpr hil))
  intro p s hfp hpl hP
  obtain ⟨x, hx⟩ := hr p hfp hpl
  rw [hx, Option.map_some]
  by_cases hp : pred x = true
  · rw [if_pos hp]
    exact Option.yields_some ⟨hfp, hpl, by rw [hx, Option.map_some, hp], hP⟩
  · rw [if_neg hp]
    refine Option.yields_some (fun i hi hil => ?_)
    rcases hi.eq_or_lt with rfl | hlt
    · rw [hx, Option.map_some, Bool.eq_false_iff.mpr hp]
    · exact hP i hlt hil

/-- **Two ranges are gone over until one is used up.** -/
theorem partitionDisjointLoop_yields (hf : f ≤ fEnd) (hfl : fEnd ≤ lBeg) (hl : lBeg ≤ l)
    (hrf : Readable mem f fEnd) (hrl : Readable mem lBeg l) :
    (partitionDisjointLoop pred fEnd lBeg mem f l).Yields (fun s =>
      OrderedEnds pred mem f l s.1 s.2.1 s.2.2 ∧ s.2.1 ≤ fEnd ∧ lBeg ≤ s.2.2
        ∧ (s.2.1 = fEnd ∨ s.2.2 = lBeg)) := by
  refine Scan.loop_yields (fun s => fEnd - s.2.1)
    (I := fun s => OrderedEnds pred mem f l s.1 s.2.1 s.2.2 ∧ s.2.1 ≤ fEnd ∧ lBeg ≤ s.2.2) ?_
    (Nat.lt_succ_self _) ⟨.nil pred mem (by omega), hf, hl⟩
  rintro ⟨mem', f', l'⟩ ⟨hends, hf', hl'⟩
  have hge := hends.ge
  have hle := hends.le
  simp only at hf' hl' hge hle hends ⊢
  refine (findNot_yields hf' (hends.readable (fun p hp hpf => hrf p (by omega) hpf) le_rfl
    (by omega))).bind ?_
  rintro g ⟨hfg, hgf, hall, hg⟩
  have hfront := hends.advance hfg (by omega) hall
  split
  · next heq => exact Option.yields_some ⟨hfront, hgf, hl', Or.inl heq⟩
  · next hne =>
    refine (findBackLoop_yields hl' (hends.readable (fun p hp hpl => hrl p hp (by omega))
      (by omega) le_rfl)).bind (fun e he => ?_)
    cases e with
    | more s =>
      have hgl : g ≤ lBeg := hgf.trans hfl
      exact Option.yields_some ⟨hfront.retreat hgl hl' he, hgf, le_rfl, Or.inr rfl⟩
    | done k =>
      obtain ⟨hlk, hkl, hk, hback⟩ := he
      have hlt : g + 1 ≤ fEnd := by omega
      have hturn : fEnd - (g + 1) < fEnd - f' := by omega
      exact ((hfront.retreat (by omega) hkl hback).swap (by omega) (hg (by omega)) hk).map
        (fun mem'' h => ⟨⟨h, hlt, hlk⟩, hturn⟩)

/-- **A range that is not cut is partitioned.** -/
theorem partitionScanBidirLoop_yields (hle : first ≤ last) (hr : Readable mem first last) :
    (partitionScanBidirLoop pred mem first last).Yields (fun s =>
      PartitionedTo pred mem first last s.1 s.2) := by
  refine Scan.loop_yields (fun s => s.2.2 - s.2.1)
    (I := fun s => OrderedEnds pred mem first last s.1 s.2.1 s.2.2) ?_
    (Nat.lt_succ_self _) (.nil pred mem hle)
  rintro ⟨mem', f', l'⟩ hends
  have hge := hends.ge
  have hle' := hends.le
  have hbetween := hends.between
  simp only at hge hle' hbetween hends ⊢
  have hread : Readable mem' f' l' :=
    hends.readable (fun p hp hpl => hr p (by omega) (by omega)) le_rfl le_rfl
  refine (findNot_yields hbetween hread).bind ?_
  rintro g ⟨hfg, hgl, hall, hg⟩
  have hfront := hends.advance hfg hgl hall
  split
  · next heq =>
    subst heq
    exact Option.yields_some (hfront.partitionedTo (.nil pred mem' g))
  · next hne =>
    refine (findBackLoop_yields (by omega) (fun p hp hpl => hread p (by omega) hpl)).bind
      (fun e he => ?_)
    cases e with
    | more s =>
      have hback := hfront.retreat (g := g) le_rfl hgl (fun i hi hil => by
        rcases hi.eq_or_lt with rfl | hlt
        · exact hg (by omega)
        · exact he i hlt hil)
      exact Option.yields_some (hback.partitionedTo (.nil pred mem' g))
    | done k =>
      obtain ⟨hlk, hkl, hk, hback⟩ := he
      have hturn : k - (g + 1) < l' - f' := by omega
      exact ((hfront.retreat (by omega) hkl hback).swap (by omega) (hg (by omega)) hk).map
        (fun mem'' h => ⟨h, hturn⟩)

end Loops

/-! ## Ranges that are cut -/

/-- Two positions in their segments, and the memory. -/
structure Sides (α : Type*) where
  mem : Memory α
  fs : ℕ
  f : ℕ
  ls : ℕ
  l : ℕ

/-- **`partition_disjoint_bidir_ranges`** of two ranges that are each cut: the side
that is used up takes its next segment. -/
def partitionDisjoint (pred : α → Bool) :
    (d : ℕ) → ℕ → Segmentation d → ℕ → Segmentation d → Memory α → ℕ → ℕ → ℕ → ℕ →
      Option (Memory α × ℕ × ℕ)
  | 0, _, _, _, _, mem, f, fEnd, lBeg, l => partitionDisjointLoop pred fEnd lBeg mem f l
  | d + 1, oF, cF, oL, cL, mem, f, fEnd, lBeg, l =>
    if f = fEnd ∨ l = lBeg then some (mem, f, l)
    else
      let fsEnd := segmentAt oF cF fEnd
      let lsBeg := segmentAt oL cL lBeg
      Scan.loop (fun (s : Sides α) =>
        let fiEnd := if s.fs = fsEnd then fEnd else endAt oF cF s.fs
        let liBeg := if s.ls = lsBeg then lBeg else beginAt oL cL s.ls
        (partitionDisjoint pred d (beginAt oF cF s.fs) (cF.child s.fs) (beginAt oL cL s.ls)
          (cL.child s.ls) s.mem s.f fiEnd liBeg s.l).map (fun r =>
            if r.2.1 = fiEnd ∧ s.fs = fsEnd then Scan.done (r.1, fEnd, r.2.2)
            else
              let fs := if r.2.1 = fiEnd then s.fs + 1 else s.fs
              let fi := if r.2.1 = fiEnd then beginAt oF cF (s.fs + 1) else r.2.1
              if r.2.2 = liBeg then
                if s.ls = lsBeg then Scan.done (r.1, fi, lBeg)
                else Scan.more (Sides.mk r.1 fs fi (s.ls - 1) (endAt oL cL (s.ls - 1)))
              else Scan.more (Sides.mk r.1 fs fi s.ls r.2.2)))
        (fsEnd - segmentAt oF cF f + (segmentAt oL cL l - lsBeg) + 1)
        ⟨mem, segmentAt oF cF f, f, segmentAt oL cL l, l⟩

/-- **`partition_scan`** of bidirectional iterators: from both ends, until the two
positions are in one segment. -/
def partitionScanBidir (pred : α → Bool) :
    (d : ℕ) → ℕ → Segmentation d → Memory α → ℕ → ℕ → Option (Memory α × ℕ)
  | 0, _, _, mem, first, last => partitionScanBidirLoop pred mem first last
  | d + 1, o, c, mem, first, last =>
    let sf := segmentAt o c first
    let sl := segmentAt o c last
    if sf = sl then partitionScanBidir pred d (beginAt o c sf) (c.child sf) mem first last
    else (Scan.loop (fun (s : Sides α) =>
      (partitionDisjoint pred d (beginAt o c s.fs) (c.child s.fs) (beginAt o c s.ls)
        (c.child s.ls) s.mem s.f (endAt o c s.fs) (beginAt o c s.ls) s.l).map (fun r =>
          if r.2.2 = beginAt o c s.ls then
            if r.2.1 = endAt o c s.fs ∧ s.fs + 1 = s.ls then
              Scan.done (Scan.done (r.1, beginAt o c s.ls))
            else
              let sf := if r.2.1 = endAt o c s.fs then s.fs + 1 else s.fs
              let f := if r.2.1 = endAt o c s.fs then beginAt o c (s.fs + 1) else r.2.1
              if sf = s.ls - 1 then Scan.done (Scan.more (Sides.mk r.1 sf f (s.ls - 1) (endAt o c sf)))
              else Scan.more (Sides.mk r.1 sf f (s.ls - 1) (endAt o c (s.ls - 1)))
          else if s.fs + 1 = s.ls then
            Scan.done (Scan.more (Sides.mk r.1 (s.fs + 1) (beginAt o c s.ls) s.ls r.2.2))
          else Scan.more (Sides.mk r.1 (s.fs + 1) (beginAt o c (s.fs + 1)) s.ls r.2.2)))
      (sl - sf + 1) ⟨mem, sf, first, sl, last⟩).bind (fun e => match e with
        | .done r => some r
        | .more s => partitionScanBidir pred d (beginAt o c s.fs) (c.child s.fs) s.mem s.f s.l)

/-- **`segmented_partition`**, by the category of the iterators. A range that ends
with a sentinel is neither walked by its segments nor from behind. -/
def segmentedPartition (pred : α → Bool) (bidir sentinel : Bool) {d : ℕ} (c : Segmentation d)
    (mem : Memory α) (first last : ℕ) : Option (Memory α × ℕ) :=
  if sentinel then
    segmentedPartitionForward (d := 0) pred (size d c) mem first last
  else if bidir then partitionScanBidir pred d 0 c mem first last
  else segmentedPartitionForward pred c mem first last

section Walk

variable {pred : α → Bool} {mem : Memory α} {f fEnd lBeg l first last : ℕ}

theorem beginAt_succ {d o k : ℕ} {c : Segmentation (d + 1)} :
    beginAt o c (k + 1) = endAt o c k := rfl

/-- **Two ranges that are cut are gone over until one is used up.** -/
theorem partitionDisjoint_yields {d oF oL : ℕ} {cF cL : Segmentation d} (hoF : oF ≤ f)
    (hf : f ≤ fEnd) (hFend : fEnd ≤ oF + size d cF) (hfl : fEnd ≤ lBeg) (hoL : oL ≤ lBeg)
    (hl : lBeg ≤ l) (hLend : l ≤ oL + size d cL) (hrf : Readable mem f fEnd)
    (hrl : Readable mem lBeg l) :
    (partitionDisjoint pred d oF cF oL cL mem f fEnd lBeg l).Yields (fun s =>
      OrderedEnds pred mem f l s.1 s.2.1 s.2.2 ∧ s.2.1 ≤ fEnd ∧ lBeg ≤ s.2.2
        ∧ (s.2.1 = fEnd ∨ s.2.2 = lBeg)) := by
  induction d generalizing oF oL mem f fEnd lBeg l with
  | zero => exact partitionDisjointLoop_yields hf hfl hl hrf hrl
  | succ d ih =>
    rw [partitionDisjoint]
    split
    · next hnone =>
      refine Option.yields_some ⟨.nil pred mem (by omega), hf, hl, ?_⟩
      rcases hnone with h | h
      · exact Or.inl h
      · exact Or.inr h
    · next hsome =>
      refine Scan.loop_yields
        (fun s => segmentAt oF cF fEnd - s.fs + (s.ls - segmentAt oL cL lBeg))
        (I := fun s => OrderedEnds pred mem f l s.mem s.f s.l
          ∧ (s.fs ≤ segmentAt oF cF fEnd ∧ beginAt oF cF s.fs ≤ s.f ∧ s.f ≤ endAt oF cF s.fs
            ∧ s.f ≤ fEnd)
          ∧ (segmentAt oL cL lBeg ≤ s.ls ∧ beginAt oL cL s.ls ≤ s.l ∧ s.l ≤ endAt oL cL s.ls
            ∧ lBeg ≤ s.l)) ?_ (Nat.lt_succ_self _) ?_
      · rintro s ⟨hends, ⟨hfs, hbf, hfe, hff⟩, hls, hbl, hle, hll⟩
        have hge := hends.ge
        have hle' := hends.le
        -- the ends of the two parts, with what is used of the last segments
        obtain ⟨fiEnd, hfiEnd, hfi, hfiEnd', hfiSize⟩ : ∃ e, (if s.fs = segmentAt oF cF fEnd then
            fEnd else endAt oF cF s.fs) = e ∧ s.f ≤ e ∧ e ≤ fEnd ∧ e ≤ endAt oF cF s.fs := by
          refine ⟨_, rfl, ?_⟩
          split
          · next heq => exact ⟨hff, le_rfl, heq ▸ le_endAt_segmentAt hFend⟩
          · next hne =>
            exact ⟨hfe, (endAt_le_beginAt (lt_of_le_of_ne hfs hne)).trans
              (beginAt_segmentAt_le (hoF.trans hf)), le_rfl⟩
        obtain ⟨liBeg, hliBeg, hli, hliBeg', hliSize⟩ : ∃ b, (if s.ls = segmentAt oL cL lBeg then
            lBeg else beginAt oL cL s.ls) = b ∧ b ≤ s.l ∧ lBeg ≤ b ∧ beginAt oL cL s.ls ≤ b := by
          refine ⟨_, rfl, ?_⟩
          split
          · next heq => exact ⟨hll, le_rfl, heq ▸ beginAt_segmentAt_le hoL⟩
          · next hne =>
            exact ⟨hbl, (le_endAt_segmentAt (hl.trans hLend)).trans
              (endAt_le_beginAt (lt_of_le_of_ne hls (Ne.symm hne))), le_rfl⟩
        simp only [hfiEnd, hliBeg]
        refine (@ih _ _ _ _ _ (beginAt oF cF s.fs) (beginAt oL cL s.ls) (cF.child s.fs)
          (cL.child s.ls) hbf hfi ?_ (by omega) hliSize hli ?_ ?_ ?_).map ?_
        · rwa [beginAt_add_size]
        · rwa [beginAt_add_size]
        · exact hends.readable (fun p hp hpe => hrf p (by omega) (by omega)) le_rfl (by omega)
        · exact hends.readable (fun p hp hpe => hrl p (by omega) (by omega)) (by omega) le_rfl
        · rintro ⟨mem', f', l'⟩ ⟨hpart, hf', hl', hdone⟩
          have hall := hends.trans hpart
          have hgef := hpart.ge
          have hgel := hpart.le
          simp only at hf' hl' hdone hall hgef hgel ⊢
          have hlBeg : lBeg ≤ l' := hliBeg'.trans hl'
          have hfEnd : f' ≤ fEnd := hf'.trans hfiEnd'
          split
          · next hend =>
            have hfend : f' = fEnd := by
              rw [hend.1, ← hfiEnd, if_pos hend.2]
            exact ⟨hfend ▸ hall, le_rfl, hlBeg, Or.inl rfl⟩
          · next hnot =>
            obtain ⟨fs', hfs', hfsle, hbf', hfe', hturn⟩ : ∃ k,
                (if f' = fiEnd then s.fs + 1 else s.fs) = k ∧ k ≤ segmentAt oF cF fEnd
                ∧ beginAt oF cF k ≤ f' ∧ f' ≤ endAt oF cF k ∧ (f' = fiEnd → k = s.fs + 1)
                ∧ s.fs ≤ k := by
              refine ⟨_, rfl, ?_⟩
              split
              · next heq =>
                have hne : s.fs ≠ segmentAt oF cF fEnd := fun h => hnot ⟨heq, h⟩
                have hend : f' = endAt oF cF s.fs := by rw [heq, ← hfiEnd, if_neg hne]
                refine ⟨lt_of_le_of_ne hfs hne, ?_, ?_, fun _ => rfl, Nat.le_succ _⟩
                · rw [beginAt_succ, hend]
                · rw [hend, ← beginAt_succ]
                  exact beginAt_le_endAt oF cF _
              · next hne => exact ⟨hfs, by omega, by omega, fun h => absurd h hne, le_rfl⟩
            have hfi' : (if f' = fiEnd then beginAt oF cF (s.fs + 1) else f') = f' := by
              split
              · next heq =>
                have hne : s.fs ≠ segmentAt oF cF fEnd := fun h => hnot ⟨heq, h⟩
                rw [beginAt_succ, heq, ← hfiEnd, if_neg hne]
              · rfl
            rw [hfs', hfi']
            have hfside : fs' ≤ segmentAt oF cF fEnd ∧ beginAt oF cF fs' ≤ f'
                ∧ f' ≤ endAt oF cF fs' ∧ f' ≤ fEnd := ⟨hfsle, hbf', hfe', hfEnd⟩
            split
            · next hbeg =>
              split
              · next hlast =>
                have hlbeg : l' = lBeg := by rw [hbeg, ← hliBeg, if_pos hlast]
                exact ⟨hlbeg ▸ hall, hfEnd, le_rfl, Or.inr rfl⟩
              · next hne =>
                have hlt : segmentAt oL cL lBeg < s.ls := lt_of_le_of_ne hls (Ne.symm hne)
                have hpred : s.ls - 1 + 1 = s.ls := by omega
                have hl'' : endAt oL cL (s.ls - 1) = l' := by
                  rw [← beginAt_succ, hpred, hbeg, ← hliBeg, if_neg hne]
                rw [hl'']
                refine ⟨⟨hall, hfside, Nat.le_sub_one_of_lt hlt, ?_, hl''.ge, hlBeg⟩,
                  by simp only; omega⟩
                exact (beginAt_le_endAt oL cL _).trans hl''.le
            · next hne =>
              have hk := hturn.1 (hdone.resolve_right hne)
              exact ⟨⟨hall, hfside, hls, hliSize.trans hl', hgel.trans hle, hlBeg⟩,
                by simp only; omega⟩
      · exact ⟨.nil pred mem (by omega), ⟨segmentAt_mono oF cF hf, beginAt_segmentAt_le hoF,
          le_endAt_segmentAt (hf.trans hFend), hf⟩, segmentAt_mono oL cL hl,
          beginAt_segmentAt_le (hoL.trans hl), le_endAt_segmentAt hLend, hl⟩

/-- **A range that is cut is partitioned**, in place, by the walk from both ends. -/
theorem partitionScanBidir_yields {d o : ℕ} {c : Segmentation d} (ho : o ≤ first)
    (hle : first ≤ last) (hsize : last ≤ o + size d c) (hr : Readable mem first last) :
    (partitionScanBidir pred d o c mem first last).Yields (fun s =>
      PartitionedTo pred mem first last s.1 s.2) := by
  induction d generalizing o mem first last with
  | zero => exact partitionScanBidirLoop_yields hle hr
  | succ d ih =>
    have hbf := beginAt_segmentAt_le (c := c) ho
    have hbl := beginAt_segmentAt_le (c := c) (ho.trans hle)
    have hef := le_endAt_segmentAt (hle.trans hsize)
    have hel := le_endAt_segmentAt hsize
    rw [partitionScanBidir]
    split
    · next heq =>
      refine ih hbf hle ?_ hr
      rw [heq, beginAt_add_size]
      exact hel
    · next hne =>
      have hlt : segmentAt o c first < segmentAt o c last :=
        lt_of_le_of_ne (segmentAt_mono o c hle) hne
      refine Option.Yields.bind (Q := Scan.Ends
        (fun s => OrderedEnds pred mem first last s.mem s.f s.l
          ∧ beginAt o c s.fs ≤ s.f ∧ s.l ≤ endAt o c s.fs)
        (fun s => PartitionedTo pred mem first last s.1 s.2)) ?_ (fun e he => ?_)
      · refine Scan.loop_yields (fun s => s.ls - s.fs)
          (I := fun s => OrderedEnds pred mem first last s.mem s.f s.l ∧ s.fs < s.ls
            ∧ (beginAt o c s.fs ≤ s.f ∧ s.f ≤ endAt o c s.fs)
            ∧ beginAt o c s.ls ≤ s.l ∧ s.l ≤ endAt o c s.ls) ?_ (Nat.lt_succ_self _)
          ⟨.nil pred mem hle, hlt, ⟨hbf, hef⟩, hbl, hel⟩
        rintro s ⟨hends, hs, ⟨hbf, hef⟩, hbl, hel⟩
        have hge := hends.ge
        have hle' := hends.le
        have hcut := endAt_le_beginAt (o := o) (c := c) hs
        refine (partitionDisjoint_yields hbf hef (by rw [beginAt_add_size]) hcut le_rfl hbl
          (by rwa [beginAt_add_size]) ?_ ?_).map ?_
        · exact hends.readable (fun p hp hpe => hr p (by omega) (by omega)) le_rfl (by omega)
        · exact hends.readable (fun p hp hpe => hr p (by omega) (by omega)) (by omega) le_rfl
        · rintro ⟨mem', f', l'⟩ ⟨hpart, hf', hl', hdone⟩
          have hall := hends.trans hpart
          have hgef := hpart.ge
          have hgel := hpart.le
          simp only at hf' hl' hdone hall hgef hgel ⊢
          split
          · next hbeg =>
            split
            · next hmeet =>
              have hfl : f' = l' := by rw [hmeet.1, ← beginAt_succ, hmeet.2, hbeg]
              rw [← hbeg]
              exact hall.partitionedTo (hfl ▸ .nil pred mem' f')
            · next hnot =>
              have hpred : s.ls - 1 + 1 = s.ls := by omega
              have hback : endAt o c (s.ls - 1) = l' := by rw [← beginAt_succ, hpred, hbeg]
              obtain ⟨fs', hfs', hfsle, hbf', hfe'⟩ : ∃ k,
                  (if f' = endAt o c s.fs then s.fs + 1 else s.fs) = k
                  ∧ (s.fs ≤ k ∧ k < s.ls) ∧ beginAt o c k ≤ f' ∧ f' ≤ endAt o c k := by
                refine ⟨_, rfl, ?_⟩
                split
                · next hend =>
                  have hlt' : s.fs + 1 < s.ls := lt_of_le_of_ne hs (fun h => hnot ⟨hend, h⟩)
                  refine ⟨⟨Nat.le_succ _, hlt'⟩, ?_, ?_⟩
                  · rw [beginAt_succ, hend]
                  · rw [hend, ← beginAt_succ]
                    exact beginAt_le_endAt o c _
                · next hend => exact ⟨⟨le_rfl, hs⟩, hbf.trans hgef, hf'⟩
              have hfi' : (if f' = endAt o c s.fs then beginAt o c (s.fs + 1) else f') = f' := by
                split
                · next hend => rw [beginAt_succ, hend]
                · rfl
              rw [hfs', hfi']
              split
              · next hsame =>
                have hend : endAt o c fs' = l' := by rw [hsame, hback]
                rw [hend]
                exact ⟨hall, hbf', hend.ge⟩
              · next hdiff =>
                rw [hback]
                refine ⟨⟨hall, by simp only; omega, ⟨hbf', hfe'⟩, ?_, hback.ge⟩,
                  by simp only; omega⟩
                exact (beginAt_le_endAt o c _).trans hback.le
          · next hne =>
            have hend : f' = endAt o c s.fs := hdone.resolve_right hne
            split
            · next hnext =>
              have hbeg : beginAt o c s.ls = f' := by rw [← hnext, beginAt_succ, hend]
              rw [hbeg]
              refine ⟨hall, ?_, ?_⟩
              · rw [beginAt_succ, hend]
              · rw [hnext]
                exact hgel.trans hel
            · next hdiff =>
              rw [beginAt_succ, ← hend]
              refine ⟨⟨hall, by simp only; omega, ⟨?_, ?_⟩, hl', hgel.trans hel⟩,
                by simp only; omega⟩
              · rw [beginAt_succ, hend]
              · rw [hend, ← beginAt_succ]
                exact beginAt_le_endAt o c _
      · cases e with
        | done r => exact Option.yields_some he
        | more s =>
          obtain ⟨hends, hbeg, hend⟩ := he
          refine (ih hbeg hends.between ?_ ?_).imp (fun r h => hends.partitionedTo h)
          · rwa [beginAt_add_size]
          · have hge := hends.ge
            have hle' := hends.le
            exact hends.readable (fun p hp hpl => hr p (by omega) (by omega)) le_rfl le_rfl

/-- **`segmented_partition` partitions**, whatever the category of the iterators and
however the range is cut. -/
theorem segmentedPartition_yields {bidir sentinel : Bool} {d : ℕ} {c : Segmentation d}
    {v : ℕ → α} (h : InRange c mem v first last) :
    (segmentedPartition pred bidir sentinel c mem first last).Yields (fun s =>
      IsPartition pred (window v first last) first last mem s.1 s.2) := by
  rw [segmentedPartition]
  split
  · exact (segmentedPartitionForward_yields h.flat).imp (fun s hs => hs.isPartition h)
  · split
    · refine (partitionScanBidir_yields (Nat.zero_le _) h.le ?_ ?_).imp
        (fun s hs => hs.isPartition h)
      · rw [Nat.zero_add]
        exact h.le_size
      · exact fun p hp hpl => ⟨v p, h.mem_eq p hp hpl⟩
    · exact (segmentedPartitionForward_yields h).imp (fun s hs => hs.isPartition h)

end Walk

end Segmented
