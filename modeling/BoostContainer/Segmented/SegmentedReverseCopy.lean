import BoostContainer.Lib.SegmentWalks
import BoostContainer.Segmented.SegmentedCopy
import BoostContainer.Segmented.SegmentedReverse

/-!
# Copies that reverse

The source is read back, segment by segment, and under each of its parts the
segments of the destination are walked forward. Each element is copied by one
step, which is left open as a swap is: the steps are those of one loop back over
the source, in the same order.
-/

namespace Segmented

open Segments Segmentation

variable {σ : Type*}

/-! ## Loops -/

/-- The step of a copy: an element is copied, and the next position is written to
next. -/
def copyTo (copy : ℕ → ℕ → σ → Option σ) (p : ℕ) (s : σ × ℕ) : Option (σ × ℕ) :=
  (copy p s.2 s.1).map (fun t => (t, s.2 + 1))

/-- The loop of `segmented_reverse_copy_dst_bounded`. The destination may have no end. -/
def reverseCopyLoop (copy : ℕ → ℕ → σ → Option σ) (dstLast : Option ℕ) (first last : ℕ)
    (s : σ × ℕ) : Option ((σ × ℕ) × ℕ) :=
  (Scan.forRangeBack first last (fun p (s : σ × ℕ) =>
    if dstLast = some s.2 then some (Scan.done (s, p + 1))
    else (copyTo copy p s).map Scan.more) s).map (fun e => match e with
      | .more s => (s, first)
      | .done r => r)

/-- **`segmented_reverse_copy_dst_bounded`** for a destination that is not cut. Where
both ranges are of random access, the length of the copy is known before. -/
def segmentedReverseCopyDstBounded (copy : ℕ → ℕ → σ → Option σ) (dualRA : Bool)
    (dstLast : Option ℕ) (first last : ℕ) (s : σ × ℕ) : Option ((σ × ℕ) × ℕ) :=
  match dualRA, dstLast with
  | true, some dstLast =>
    reverseCopyLoop copy none (last - min (last - first) (dstLast - s.2)) last s
  | _, _ => reverseCopyLoop copy dstLast first last s

/-- The copy of a source down to `first`, as a worker: the output, and how far back it
has read. -/
def backCopier (σ : Type*) (first : ℕ) : Worker ((σ × ℕ) × ℕ) where
  pos r := r.1.2
  setPos a r := ((r.1.1, a), r.2)
  finished r := decide (r.2 = first)

/-- **`segmented_reverse_copy_dst_dispatch`**: a destination that is cut is walked until
the source is used up. -/
def reverseCopyDstDispatch (copy : ℕ → ℕ → σ → Option σ) (dualRA : Bool) {d : ℕ} (o : ℕ)
    (c : Segmentation d) (first last : ℕ) (s : σ × ℕ) : Option (σ × ℕ) :=
  (fillOn (backCopier σ first)
    (fun dstLast r => segmentedReverseCopyDstBounded copy dualRA dstLast first r.2 r.1)
    (fun r => decide (r.2 = first)) d o c (s, last)).map Prod.fst

/-- **`segmented_reverse_copy`**: the segments of the source, from the last to the
first. -/
def segmentedReverseCopy (copy : ℕ → ℕ → σ → Option σ) (dualRA : Bool) {dS dD : ℕ} (oS : ℕ)
    (cS : Segmentation dS) (oD : ℕ) (cD : Segmentation dD) (first last result : ℕ) (s : σ) :
    Option (σ × ℕ) :=
  scanPartsBack (reverseCopyDstDispatch copy dualRA oD cD) dS oS cS first last (s, result)

/-! ## The copies that are made -/

/-- **The elements of a range have been copied**, from the last one back to a
position. -/
structure CopiedBack (copy : ℕ → ℕ → σ → Option σ) (first last result : ℕ) (s : σ)
    (r : (σ × ℕ) × ℕ) : Prop where
  ge : first ≤ r.2
  le : r.2 ≤ last
  pos : r.1.2 + r.2 = result + last
  run : runRangeBack (copyTo copy) r.2 last (s, result) = some r.1

section Copies

variable {copy : ℕ → ℕ → σ → Option σ} {dualRA : Bool} {first last result p a : ℕ} {s : σ}
  {t : σ × ℕ} {r : (σ × ℕ) × ℕ} {dstLast : Option ℕ}

/-- Nothing has been copied. -/
theorem CopiedBack.start (copy : ℕ → ℕ → σ → Option σ) (hle : first ≤ last) (s : σ) :
    CopiedBack copy first last result s ((s, result), last) :=
  ⟨hle, le_rfl, rfl, runRangeBack_self ..⟩

/-- One more element is copied. -/
theorem CopiedBack.next (h : CopiedBack copy first last result s (t, p + 1)) (hp : first ≤ p)
    (hrun : ∃ u, runRangeBack (copyTo copy) first last (s, result) = some u) :
    (copyTo copy p t).Yields (fun t' => CopiedBack copy first last result s (t', p)) := by
  obtain ⟨u, hu⟩ := hrun
  have hpl : p < last := h.le
  obtain ⟨t', ht', -⟩ := exists_runRangeBack hp hpl.le hu
  have hstep := ht'
  rw [runRangeBack_pred _ hpl, h.run, Option.bind_some] at hstep
  refine ⟨t', hstep, hp, hpl.le, ?_, ht'⟩
  have hpos := h.pos
  obtain ⟨w, -, rfl⟩ := Option.map_eq_some_iff.mp hstep
  simp only at hpos ⊢
  omega

/-- **The loop copies what there is room for.** -/
theorem reverseCopyLoop_yields (h : CopiedBack copy first last result s r) (ha : first ≤ a)
    (har : a ≤ r.2) (hdst : ∀ e, dstLast = some e → r.1.2 ≤ e)
    (hrun : ∃ u, runRangeBack (copyTo copy) first last (s, result) = some u) :
    (reverseCopyLoop copy dstLast a r.2 r.1).Yields (fun r' =>
      CopiedBack copy first last result s r' ∧ a ≤ r'.2 ∧ (∀ e, dstLast = some e → r'.1.2 ≤ e)
        ∧ (r'.2 = a ∨ dstLast = some r'.1.2)) := by
  refine (Scan.forRangeBack_yields
    (P := fun p t => CopiedBack copy first last result s (t, p)
      ∧ ∀ e, dstLast = some e → t.2 ≤ e)
    (Q := fun r' => CopiedBack copy first last result s r' ∧ a ≤ r'.2
      ∧ (∀ e, dstLast = some e → r'.1.2 ≤ e) ∧ dstLast = some r'.1.2) har ?_ ⟨h, hdst⟩).map ?_
  · rintro p t hap hpr ⟨ht, hle⟩
    split
    · next hend => exact Option.yields_some ⟨ht, hap.trans (Nat.le_succ p), hle, hend⟩
    · next hend =>
      obtain ⟨t', ht', hcopied⟩ := ht.next (ha.trans hap) hrun
      rw [ht', Option.map_some]
      refine Option.yields_some ⟨hcopied, fun e he => ?_⟩
      have hne : t.2 ≠ e := fun h => hend (h ▸ he)
      have hlt : t.2 < e := lt_of_le_of_ne (hle e he) hne
      obtain ⟨w, -, rfl⟩ := Option.map_eq_some_iff.mp ht'
      exact hlt
  · intro e he
    cases e with
    | more t => exact ⟨he.1, le_rfl, he.2, Or.inl rfl⟩
    | done r' => exact ⟨he.1, he.2.1, he.2.2.1, Or.inr he.2.2.2⟩

/-- **So does the bounded helper**, also where it knows the number before. -/
theorem segmentedReverseCopyDstBounded_yields (h : CopiedBack copy first last result s r)
    (hdst : ∀ e, dstLast = some e → r.1.2 ≤ e)
    (hrun : ∃ u, runRangeBack (copyTo copy) first last (s, result) = some u) :
    (segmentedReverseCopyDstBounded copy dualRA dstLast first r.2 r.1).Yields (fun r' =>
      CopiedBack copy first last result s r' ∧ (∀ e, dstLast = some e → r'.1.2 ≤ e)
        ∧ (r'.2 = first ∨ dstLast = some r'.1.2)) := by
  unfold segmentedReverseCopyDstBounded
  split
  · next e =>
    have hre := hdst e rfl
    have hge := h.ge
    refine (reverseCopyLoop_yields h (by omega) (by omega)
      (fun e (he : none = some e) => nomatch he) hrun).imp (fun r' hr' => ?_)
    obtain ⟨hcopied, ha, -, hstop⟩ := hr'
    have hr2 := hstop.resolve_right (fun hend => nomatch hend)
    have hpos := h.pos
    have hpos' := hcopied.pos
    refine ⟨hcopied, fun e' he' => ?_, ?_⟩
    · obtain rfl := Option.some.inj he'
      omega
    · rcases Nat.le_total (r.2 - first) (e - r.1.2) with hroom | hroom
      · exact Or.inl (by omega)
      · exact Or.inr (congrArg some (by omega))
  · exact (reverseCopyLoop_yields h le_rfl h.ge hdst hrun).imp
      (fun r' hr' => ⟨hr'.1, hr'.2.2⟩)

/-- **The copy works** as far as the destination has room. -/
theorem works_backCopier
    (hrun : ∃ u, runRangeBack (copyTo copy) first last (s, result) = some u) :
    Works (backCopier σ first)
      (fun dstLast r => segmentedReverseCopyDstBounded copy dualRA dstLast first r.2 r.1)
      result (fun _ _ => True) (CopiedBack copy first last result s)
      (fun r r' => CopiedBack copy first last result s r → CopiedBack copy first last result s r')
      (result + (last - first)) where
  refl _ h := h
  trans h h' hr := h' (h hr)
  keeps h hr := h hr
  setPos _ := rfl
  le_lim := by
    intro r hr
    have hpos := hr.pos
    have hge := hr.ge
    have hle := hr.le
    change r.1.2 ≤ _
    omega
  work := by
    intro r dstLast hr _ hdst
    refine (segmentedReverseCopyDstBounded_yields hr (fun e he => (hdst e he).1) hrun).imp
      (fun r' hr' => ?_)
    obtain ⟨hcopied, hle, hstop⟩ := hr'
    refine ⟨fun _ => hcopied, hle, ?_⟩
    by_cases hdone : r'.2 = first
    · exact Or.inl (decide_eq_true hdone)
    · refine Or.inr ⟨hstop.resolve_left hdone, ?_⟩
      have hpos := hcopied.pos
      have hge := hcopied.ge
      have hle' := hcopied.le
      change r'.1.2 < _
      omega

/-- **A part of the source is copied**, whatever the segments of the destination
are. -/
theorem reverseCopyDstDispatch_yields {d o : ℕ} {c : Segmentation d} (hle : first ≤ last)
    (hrun : runRangeBack (copyTo copy) first last (s, result) = some t)
    (hout : OutRange o c result (result + (last - first))) :
    (reverseCopyDstDispatch copy dualRA o c first last (s, result)).Yields
      (fun t' => t' = t ∧ t'.2 = result + (last - first)) := by
  refine (fillOn_yields (works_backCopier ⟨t, hrun⟩) (s := ((s, result), last))
    (fun _ _ _ _ => trivial) (CopiedBack.start copy hle s) rfl (fun h => h) hout.le hout.room
    hout.seg).map ?_
  rintro ⟨u, p⟩ ⟨hT, hfin⟩
  obtain rfl : p = first := of_decide_eq_true hfin
  have hcopied := hT (CopiedBack.start copy hle s)
  have hpos := hcopied.pos
  refine ⟨Option.some.inj (hcopied.run.symm.trans hrun), ?_⟩
  simp only at hpos ⊢
  omega

/-- **The copies of a segmented range are those of a range that is not cut**, back
from its end. -/
theorem segmentedReverseCopy_eq {dS dD oS oD : ℕ} {cS : Segmentation dS} {cD : Segmentation dD}
    (hsrc : Positions oS cS first last) (hout : OutRange oD cD result (result + (last - first)))
    (hrun : runRangeBack (copyTo copy) first last (s, result) = some t) :
    segmentedReverseCopy copy dualRA oS cS oD cD first last result s = some t
      ∧ t.2 = result + (last - first) := by
  have hyields : (segmentedReverseCopy copy dualRA oS cS oD cD first last result s).Yields
      (fun t' => CopiedBack copy first last result s (t', first)) := by
    refine scanPartsBack_yields
      (P := fun p t' => CopiedBack copy first last result s (t', p)) ?_ hsrc.ge le_rfl hsrc.le
      le_rfl hsrc.le_size (CopiedBack.start copy hsrc.le s)
    rintro a b ⟨u, q⟩ hfa hab hbl hu
    obtain ⟨w, hw, -⟩ := exists_runRangeBack hfa (hab.trans hbl) hrun
    have hpart := (runRangeBack_of_append hab hbl hu.run).symm.trans hw
    have hpos := hu.pos
    simp only at hpos
    refine (reverseCopyDstDispatch_yields hab hpart
      ⟨hout.le.trans (by omega), fun hd => le_trans (by omega) (hout.room hd), hout.seg⟩).imp ?_
    rintro t' ⟨rfl, ht'⟩
    exact ⟨hfa, hab.trans hbl, by simp only; omega, hw⟩
  obtain ⟨t', ht', hcopied⟩ := hyields
  obtain rfl := Option.some.inj (hcopied.run.symm.trans hrun)
  have hpos : t'.2 + first = result + last := hcopied.pos
  have hle := hsrc.le
  have hend : t'.2 = result + (last - first) := by omega
  exact ⟨ht', hend⟩

end Copies

/-! ## What is written -/

section Memory

variable {α : Type*} {mem : Memory α} {v : ℕ → α} {first last result : ℕ}

/-- An element is copied in the memory. -/
def copyAt (p q : ℕ) (mem : Memory α) : Option (Memory α) :=
  (mem p).map (fun x => Function.update mem q (some x))

/-- **The copies back write the reversed elements**, where nothing is overwritten that
is still to be read. -/
theorem runRangeBack_copyAt (hle : first ≤ last)
    (hmem : ∀ p, first ≤ p → p < last → mem p = some (v p))
    (hdisj : result + (last - first) ≤ first ∨ last ≤ result) :
    (runRangeBack (copyTo copyAt) first last (mem, result)).Yields (fun t =>
      WrittenBack v first last result mem t.1) := by
  have hrun : ∀ n, n ≤ last - first →
      (runRangeBack (copyTo copyAt) (last - n) last (mem, result)).Yields (fun t =>
        t.2 = result + n ∧ (∀ i, i < n → t.1 (result + i) = some (v (last - 1 - i)))
          ∧ ∀ p, p < result ∨ result + n ≤ p → t.1 p = mem p) := by
    intro n
    induction n with
    | zero =>
      intro _
      rw [Nat.sub_zero, runRangeBack_self]
      exact Option.yields_some ⟨rfl, fun i hi => absurd hi (Nat.not_lt_zero i), fun _ _ => rfl⟩
    | succ n ih =>
      intro hn
      obtain ⟨⟨mem', q⟩, ht, hq, hwritten, hframe⟩ := ih (by omega)
      simp only at hq hwritten hframe
      have hsucc : last - (n + 1) + 1 = last - n := by omega
      have hread : mem' (last - (n + 1)) = some (v (last - 1 - n)) := by
        rw [hframe _ (by omega), hmem _ (by omega) (by omega)]
        congr 2
        omega
      have hstep : copyTo copyAt (last - (n + 1)) (mem', q)
          = some (Function.update mem' q (some (v (last - 1 - n))), q + 1) := by
        simp only [copyTo, copyAt, hread, Option.map_some]
      rw [runRangeBack_pred _ (by omega), hsucc, ht, Option.bind_some, hstep]
      refine Option.yields_some ⟨by rw [hq]; rfl, fun i hi => ?_, fun p hp => ?_⟩
      · rcases Nat.lt_succ_iff_lt_or_eq.mp hi with hlt | rfl
        · exact (Function.update_of_ne (by omega) ..).trans (hwritten i hlt)
        · rw [hq]
          exact Function.update_self ..
      · exact (Function.update_of_ne (by omega) ..).trans (hframe p (by omega))
  refine ((Nat.sub_sub_self hle ▸ hrun (last - first) le_rfl :)).imp (fun t ht => ?_)
  exact ⟨ht.2.1, ht.2.2⟩

end Memory

/-! ## Each element once -/

/-- The swaps, or the copies, that are made, noted. -/
def note (p q : ℕ) (log : List (ℕ × ℕ)) : Option (List (ℕ × ℕ)) := some (log ++ [(p, q)])

section Note

variable {log : List (ℕ × ℕ)} {n f l first last result : ℕ}

/-- **The swaps of a range that is not cut**, each of a pair of its own. -/
theorem endsRun_note : endsRun note n f l log
    = some (log ++ (List.range n).map (fun i => (f + i, l - 1 - i))) := by
  induction n with
  | zero => rw [List.range_zero, List.map_nil, List.append_nil, endsRun]
  | succ n ih =>
    rw [endsRun_succ ih, note, List.range_succ, List.map_append, List.append_assoc,
      Nat.sub_right_comm]
    rfl

/-- **The copies of a range that is not cut**, each of an element of its own. -/
theorem runRangeBack_note (hle : first ≤ last) : runRangeBack (copyTo note) first last (log, result)
    = some (log ++ (List.range (last - first)).map (fun i => (last - 1 - i, result + i)),
      result + (last - first)) := by
  have hrun : ∀ n, n ≤ last - first →
      runRangeBack (copyTo note) (last - n) last (log, result)
        = some (log ++ (List.range n).map (fun i => (last - 1 - i, result + i)), result + n) := by
    intro n
    induction n with
    | zero =>
      intro _
      rw [Nat.sub_zero, runRangeBack_self, List.range_zero, List.map_nil, List.append_nil,
        Nat.add_zero]
    | succ n ih =>
      intro hn
      have hsucc : last - (n + 1) + 1 = last - n := by omega
      have hpos : last - (n + 1) = last - 1 - n := by omega
      rw [runRangeBack_pred _ (by omega), hsucc, ih (by omega), Option.bind_some, hpos, copyTo,
        note, List.range_succ, List.map_append, Option.map_some, List.append_assoc]
      rfl
  have hall := hrun (last - first) le_rfl
  rwa [Nat.sub_sub_self hle] at hall

end Note

/-! ## Reversals -/

/-- **`segmented_reverse` and `segmented_reverse_copy` reverse**, whatever the segments of
the range and those of the destination are. The range is left reversed, or written
backwards to the destination, whose end is returned, and nothing else changes. The
swaps and the copies are those of a range that is not cut, each once; and of two
disjoint ranges as much is worked off as the shorter one holds. -/
theorem segmentedReverse_written {α σ : Type*} {ra dualRA : Bool} {dS dD oD : ℕ}
    {cS : Segmentation dS} {cD : Segmentation dD} {mem : Memory α} {v : ℕ → α}
    {first last result : ℕ} (h : InRange cS mem v first last)
    (hout : OutRange oD cD result (result + (last - first)))
    (hdisj : result + (last - first) ≤ first ∨ last ≤ result) :
    (segmentedReverse adlMoveSwap ra cS first last mem).Yields
        (WrittenBack v first last first mem)
      ∧ (segmentedReverseCopy copyAt dualRA 0 cS oD cD first last result mem).Yields (fun t =>
        WrittenBack v first last result mem t.1 ∧ t.2 = result + (last - first))
      ∧ segmentedReverse note ra cS first last []
        = some ((List.range ((last - first) / 2)).map (fun i => (first + i, last - 1 - i)))
      ∧ segmentedReverseCopy note dualRA 0 cS oD cD first last result []
        = some ((List.range (last - first)).map (fun i => (last - 1 - i, result + i)),
          result + (last - first))
      ∧ ∀ (swap : ℕ → ℕ → σ → Option σ) (d oF oL f fEnd lBeg l : ℕ) (cF cL : Segmentation d)
        (s t : σ), Positions oF cF f fEnd → Positions oL cL lBeg l → fEnd ≤ lBeg →
        endsRun swap (min (fEnd - f) (l - lBeg)) f l s = some t →
        segmentedReverseDisjointRanges swap ra oF cF oL cL f fEnd lBeg l s
          = some ⟨t, f + min (fEnd - f) (l - lBeg), l - min (fEnd - f) (l - lBeg)⟩ := by
  have hsrc : Positions 0 cS first last := ⟨Nat.zero_le _, h.le, by
    rw [Nat.zero_add]
    exact h.le_size⟩
  refine ⟨?_, ?_, ?_, ?_, fun swap d oF oL f fEnd lBeg l cF cL s t hF hL hfl hrun => ?_⟩
  · obtain ⟨mem', hrun, hwritten⟩ := endsRun_adlMoveSwap_half h.le h.mem_eq
    exact ⟨mem', segmentedReverse_eq h.le h.le_size hrun, hwritten⟩
  · obtain ⟨t, hrun, hwritten⟩ := runRangeBack_copyAt h.le h.mem_eq hdisj
    obtain ⟨ht, hend⟩ := segmentedReverseCopy_eq hsrc hout hrun
    exact ⟨t, ht, hwritten, hend⟩
  · refine segmentedReverse_eq h.le h.le_size ?_
    rw [endsRun_note, List.nil_append]
  · refine (segmentedReverseCopy_eq hsrc hout ?_).1
    rw [runRangeBack_note h.le, List.nil_append]
  · exact segmentedReverseDisjointRanges_eq hF.ge hF.le hF.le_size hfl hL.ge hL.le hL.le_size hrun

/-- Segments of one element, of none and of four. -/
def oneNoneFour : Segmentation 1 := ([1, 0, 4] : List ℕ)

/-- An example: five elements, in three segments, are reversed, and copied into three
more. -/
theorem segmentedReverse_written_five :
    (segmentedReverse (d := 1) adlMoveSwap true oneNoneFour 0 5
        (fun p => if p < 5 then some p else none)).Yields
          (WrittenBack id 0 5 0 (fun p => if p < 5 then some p else none))
      ∧ segmentedReverse (d := 1) note true oneNoneFour 0 5 [] = some [(0, 4), (1, 3)] := by
  have h : InRange (d := 1) oneNoneFour (fun p => if p < 5 then some p else none) id 0 5 :=
    ⟨by decide, by decide, fun p _ hp => if_pos hp⟩
  have hout : OutRange (d := 1) 5 oneNoneFour 5 (5 + (5 - 0)) :=
    ⟨le_rfl, fun _ => by decide, List.cons_ne_nil _ _⟩
  have hall := @segmentedReverse_written ℕ Unit true true 1 1 5 oneNoneFour oneNoneFour _ id
    0 5 5 h hout (Or.inr le_rfl)
  exact ⟨hall.1, hall.2.2.1⟩

end Segmented
