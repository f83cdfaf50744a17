import BoostContainer.Lib.SegmentEnds
import BoostContainer.Segmented.SegmentedPartition

/-!
# Reversal of a segmented range

The elements in front are swapped with those behind, and the two positions walk
towards each other. While they are in different segments, what is left of one is
worked off against what is left of the other, until one is used up; once they are
in the same segment, what is between them is reversed by itself.

What a swap does is left open. So what is proved is which swaps are made, and in
which order: the swaps of a range that is not cut, each pair once, however the
range is cut.
-/

namespace Segmented

open Segments Segmentation

variable {σ : Type*}

/-! ## Ranges that are not cut -/

/-- The loop over so many pairs. -/
def reversePairs (swap : ℕ → ℕ → σ → Option σ) : ℕ → Ends σ → Option (Ends σ)
  | 0, e => some e
  | pairs + 1, e => (swap e.f (e.l - 1) e.s).bind (fun s =>
    reversePairs swap pairs ⟨s, e.f + 1, e.l - 1⟩)

/-- **`segmented_reverse_disjoint_ranges`** of ranges that are not cut. With random
access the number of pairs is known before. -/
def reverseDisjointLoop (swap : ℕ → ℕ → σ → Option σ) (ra : Bool) (fEnd lBeg : ℕ) (e : Ends σ) :
    Option (Ends σ) :=
  if ra then reversePairs swap (min (fEnd - e.f) (e.l - lBeg)) e
  else Scan.loop (fun e => if e.f = fEnd ∨ e.l = lBeg then some (Scan.done e)
    else (swap e.f (e.l - 1) e.s).map (fun s => Scan.more (Ends.mk s (e.f + 1) (e.l - 1))))
    (fEnd - e.f + 1) e

/-- **The reversal of a range that is not cut.** -/
def reverseLoop (swap : ℕ → ℕ → σ → Option σ) (ra : Bool) (e : Ends σ) : Option σ :=
  if ra then (reversePairs swap ((e.l - e.f) / 2) e).map Ends.s
  else Scan.loop (fun e => if e.f = e.l then some (Scan.done e.s)
    else if e.f = e.l - 1 then some (Scan.done e.s)
    else (swap e.f (e.l - 1) e.s).map (fun s => Scan.more (Ends.mk s (e.f + 1) (e.l - 1))))
    (e.l - e.f + 1) e

/-! ## Ranges that are cut -/

/-- **`segmented_reverse_disjoint_ranges`**: one range forward and one behind it
back, until one of the two is used up. -/
def segmentedReverseDisjointRanges (swap : ℕ → ℕ → σ → Option σ) (ra : Bool) {d : ℕ} (oF : ℕ)
    (cF : Segmentation d) (oL : ℕ) (cL : Segmentation d) (f fEnd lBeg l : ℕ) (s : σ) :
    Option (Ends σ) :=
  endsDisjoint (reverseDisjointLoop swap ra) d oF cF oL cL fEnd lBeg ⟨s, f, l⟩

/-- **`segmented_reverse`.** -/
def segmentedReverse (swap : ℕ → ℕ → σ → Option σ) (ra : Bool) {d : ℕ} (c : Segmentation d)
    (first last : ℕ) (s : σ) : Option σ :=
  endsScan (reverseDisjointLoop swap ra) (reverseLoop swap ra) Ends.s d 0 c ⟨s, first, last⟩

/-! ## The swaps that are made -/

/-- **Some pairs of a range have been swapped**, from both ends, of `n` that are
to be. -/
def Paired (swap : ℕ → ℕ → σ → Option σ) (n first last : ℕ) (s : σ) (e : Ends σ) : Prop :=
  ∃ i, i ≤ n ∧ e.f = first + i ∧ e.l = last - i ∧ 2 * i ≤ last - first
    ∧ endsRun swap i first last s = some e.s

section Swaps

variable {swap : ℕ → ℕ → σ → Option σ} {ra : Bool} {n m first last F L : ℕ} {s t : σ} {e : Ends σ}

theorem reversePairs_eq : reversePairs swap n e
    = (endsRun swap n e.f e.l e.s).map (fun s => ⟨s, e.f + n, e.l - n⟩) := by
  induction n generalizing e with
  | zero => rfl
  | succ n ih =>
    rw [reversePairs, endsRun, Option.map_bind]
    congr 1
    funext s
    rw [ih, Function.comp_apply]
    simp only [Nat.add_assoc, Nat.sub_sub, Nat.add_comm 1 n]

/-- Nothing has been swapped. -/
theorem Paired.start (swap : ℕ → ℕ → σ → Option σ) (n : ℕ) (s : σ) :
    Paired swap n first last s ⟨s, first, last⟩ :=
  ⟨0, Nat.zero_le n, rfl, rfl, Nat.zero_le _, rfl⟩

/-- **As many pairs are swapped as there are between.** -/
theorem Paired.reversePairs (h : Paired swap n first last s e)
    (hrun : endsRun swap n first last s = some t) (hle : first ≤ last) (hm : e.f + m ≤ e.l - m)
    (hn : e.f + m ≤ first + n) :
    (reversePairs swap m e).Yields (fun r => Paired swap n first last s r
      ∧ r.f = e.f + m ∧ r.l = e.l - m) := by
  obtain ⟨i, hi, hf, hl, hroom, hs⟩ := h
  obtain ⟨u, hu, -⟩ := exists_endsRun (n := i + m) (by omega) hrun
  rw [endsRun_of_add hs, ← hf, ← hl] at hu
  rw [reversePairs_eq, hu, Option.map_some]
  refine Option.yields_some ⟨⟨i + m, by omega, ?_, ?_, by omega, ?_⟩, rfl, rfl⟩
  · simp only
    omega
  · simp only
    omega
  · rw [endsRun_of_add hs, ← hf, ← hl, hu]

/-- One more pair is swapped. -/
theorem Paired.next (h : Paired swap n first last s e)
    (hrun : endsRun swap n first last s = some t) (hle : first ≤ last) (hm : e.f + 1 ≤ e.l - 1)
    (hn : e.f < first + n) :
    (swap e.f (e.l - 1) e.s).Yields (fun s' => Paired swap n first last s
      ⟨s', e.f + 1, e.l - 1⟩) := by
  obtain ⟨r, hr, hpaired, hf, hl⟩ := h.reversePairs (m := 1) hrun hle hm hn
  rw [reversePairs_eq, endsRun, Option.map_bind] at hr
  obtain ⟨s', hs', hr⟩ := Option.bind_eq_some_iff.mp hr
  obtain rfl := Option.some.inj hr
  exact ⟨s', hs', hpaired⟩

/-- **The loops use up one of two ranges**, where all their pairs are to be
swapped. -/
theorem usesUp_reverseDisjointLoop (hrun : endsRun swap n first last s = some t)
    (hle : first ≤ last)
    (hn : ∀ k, first + k ≤ F → L + k ≤ last → first + 2 * k ≤ last → k ≤ n) :
    UsesUp F L (Paired swap n first last s) (reverseDisjointLoop swap ra) := by
  intro fEnd lBeg e hf hfl hl hF hL hpaired
  unfold reverseDisjointLoop
  obtain ⟨i, hi, hef, hel, hroom, hs⟩ := id hpaired
  split
  · have hpairs := hn (i + min (fEnd - e.f) (e.l - lBeg)) (by omega) (by omega) (by omega)
    refine (hpaired.reversePairs hrun hle (by omega) (by omega)).imp (fun r hr => ⟨hr.1, ?_⟩)
    obtain ⟨-, hrf, hrl⟩ := hr
    exact ⟨by omega, by omega, by omega, by omega, by omega⟩
  · refine Scan.loop_yields (fun r => fEnd - r.f)
      (I := fun r => Paired swap n first last s r ∧ e.f ≤ r.f ∧ r.f ≤ fEnd ∧ lBeg ≤ r.l
        ∧ r.l ≤ e.l) ?_ (Nat.lt_succ_self _) ⟨hpaired, le_rfl, hf, hl, le_rfl⟩
    rintro r ⟨hr, hge, hle', hbeg, hend⟩
    split
    · next hdone => exact Option.yields_some ⟨hr, hge, hle', hbeg, hend, hdone⟩
    · next hmore =>
      obtain ⟨j, hj, hrf, hrl, hroom', hs'⟩ := id hr
      have hpairs := hn (j + 1) (by omega) (by omega) (by omega)
      refine (hr.next hrun hle (by omega) (by omega)).map
        (fun s' hs' => ⟨⟨hs', ?_, ?_, ?_, ?_⟩, ?_⟩)
      all_goals
        simp only
        omega

/-- **The loops of the reversal swap all pairs that are left.** -/
theorem reverseLoop_yields (hrun : endsRun swap ((last - first) / 2) first last s = some t)
    (hle : first ≤ last) (hef : e.f ≤ e.l)
    (hpaired : Paired swap ((last - first) / 2) first last s e) :
    (reverseLoop swap ra e).Yields (· = t) := by
  have hdone : ∀ r : Ends σ, r.l ≤ r.f + 1 → Paired swap ((last - first) / 2) first last s r →
      r.s = t := by
    rintro r hr ⟨i, hi, hrf, hrl, hroom, hs⟩
    obtain rfl : i = (last - first) / 2 := by omega
    exact Option.some.inj (hs.symm.trans hrun)
  unfold reverseLoop
  split
  · obtain ⟨i, hi, hf, hl, hroom, hs⟩ := id hpaired
    refine (hpaired.reversePairs hrun hle (by omega) (by omega)).map (fun r hr => ?_)
    obtain ⟨hr, hrf, hrl⟩ := hr
    exact hdone r (by omega) hr
  · refine Scan.loop_yields (fun r => r.l - r.f)
      (I := fun r => Paired swap ((last - first) / 2) first last s r ∧ r.f ≤ r.l) ?_
      (Nat.lt_succ_self _) ⟨hpaired, hef⟩
    rintro r ⟨hr, hrl⟩
    split
    · next heq => exact Option.yields_some (hdone r (by omega) hr)
    · next hne =>
      split
      · next heq => exact Option.yields_some (hdone r (by omega) hr)
      · next hne' =>
        obtain ⟨j, hj, hrf', hrl', hroom', hs'⟩ := id hr
        refine (hr.next hrun hle (by omega) (by omega)).map (fun s' hs' => ⟨⟨hs', ?_⟩, ?_⟩)
        all_goals
          simp only
          omega

/-- **The swaps of a segmented range are those of a range that is not cut.** -/
theorem segmentedReverse_eq {d : ℕ} {c : Segmentation d} (hle : first ≤ last)
    (hsize : last ≤ size d c) (hrun : endsRun swap ((last - first) / 2) first last s = some t) :
    segmentedReverse swap ra c first last s = some t := by
  refine Option.yields_iff_of_unique (Q := (· = t)) (fun _ h => h) ?_
  refine endsScan_yields (I := Paired swap ((last - first) / 2) first last s)
    (fun F L => usesUp_reverseDisjointLoop hrun hle (fun k _ _ hk => by omega))
    (fun e he hI => reverseLoop_yields hrun hle he hI) ?_ (Nat.zero_le _) hle ?_ (.start ..)
  · rintro e he ⟨i, hi, hf, hl, hroom, hs⟩
    obtain rfl : i = (last - first) / 2 := by omega
    exact Option.some.inj (hs.symm.trans hrun)
  · rw [Nat.zero_add]
    exact hsize

/-- **Of two disjoint ranges all is swapped that the shorter one holds**, however
the two are cut: it is used up. -/
theorem segmentedReverseDisjointRanges_eq {d oF oL f fEnd lBeg l : ℕ} {cF cL : Segmentation d}
    (hoF : oF ≤ f) (hf : f ≤ fEnd) (hFend : fEnd ≤ oF + size d cF) (hfl : fEnd ≤ lBeg)
    (hoL : oL ≤ lBeg) (hl : lBeg ≤ l) (hLend : l ≤ oL + size d cL)
    (hrun : endsRun swap (min (fEnd - f) (l - lBeg)) f l s = some t) :
    segmentedReverseDisjointRanges swap ra oF cF oL cL f fEnd lBeg l s
      = some ⟨t, f + min (fEnd - f) (l - lBeg), l - min (fEnd - f) (l - lBeg)⟩ := by
  refine Option.yields_iff_of_unique (fun _ h => h)
    ((endsDisjoint_yields (F := fEnd) (L := lBeg)
      (usesUp_reverseDisjointLoop hrun (by omega) (fun k _ _ _ => by omega))
      hoF hf hFend hfl hoL hl hLend le_rfl le_rfl (.start ..)).imp ?_)
  rintro ⟨u, f', l'⟩ ⟨⟨i, hi, hf', hl', hroom, hu⟩, hge, hend, hbeg, hle, hone⟩
  simp only at hf' hl' hge hend hbeg hle hone hu
  obtain rfl : i = min (fEnd - f) (l - lBeg) := by omega
  obtain rfl := Option.some.inj (hu.symm.trans hrun)
  rw [hf', hl']

end Swaps

/-! ## What is reversed -/

/-- A pair of elements is swapped in the memory. -/
def adlMoveSwap {α : Type*} (p q : ℕ) (mem : Memory α) : Option (Memory α) := mem.swapAt p q

/-- **A list of elements is written backwards**, from a position on, and nothing else
changes. -/
structure WrittenBack {α : Type*} (v : ℕ → α) (first last result : ℕ) (mem mem' : Memory α) :
    Prop where
  written : ∀ i, i < last - first → mem' (result + i) = some (v (last - 1 - i))
  frame : ∀ p, p < result ∨ result + (last - first) ≤ p → mem' p = mem p

section Memory

variable {α : Type*} {mem : Memory α} {v : ℕ → α} {n first last : ℕ}

/-- **Swaps of pairs from both ends** reverse what is at both ends. -/
theorem endsRun_adlMoveSwap (hmem : ∀ p, first ≤ p → p < last → mem p = some (v p))
    (hn : 2 * n ≤ last - first) :
    (endsRun adlMoveSwap n first last mem).Yields (fun mem' => ∀ p, mem' p
      = if first ≤ p ∧ p < first + n ∨ last - n ≤ p ∧ p < last then mem (first + last - 1 - p)
        else mem p) := by
  induction n with
  | zero =>
    refine Option.yields_some (fun p => ?_)
    rw [if_neg (by omega)]
  | succ n ih =>
    obtain ⟨mem', hmem', hp⟩ := ih (by omega)
    have hfront : mem' (first + n) = some (v (first + n)) := by
      rw [hp, if_neg (by omega)]
      exact hmem _ (by omega) (by omega)
    have hback : mem' (last - n - 1) = some (v (last - n - 1)) := by
      rw [hp, if_neg (by omega)]
      exact hmem _ (by omega) (by omega)
    rw [endsRun_succ hmem', adlMoveSwap, swapAt_eq hfront hback]
    refine Option.yields_some (fun p => ?_)
    rcases eq_or_ne p (first + n) with rfl | hf
    · rw [Equiv.swap_apply_left, if_pos (by omega), hp, if_neg (by omega)]
      congr 1
      omega
    · rcases eq_or_ne p (last - n - 1) with rfl | hl
      · rw [Equiv.swap_apply_right, if_pos (by omega), hp, if_neg (by omega)]
        congr 1
        omega
      · rw [Equiv.swap_apply_of_ne_of_ne hf hl, hp]
        congr 1
        refine propext ?_
        omega

/-- **The swaps of all pairs reverse a range.** -/
theorem endsRun_adlMoveSwap_half (hle : first ≤ last)
    (hmem : ∀ p, first ≤ p → p < last → mem p = some (v p)) :
    (endsRun adlMoveSwap ((last - first) / 2) first last mem).Yields
      (WrittenBack v first last first mem) := by
  refine (endsRun_adlMoveSwap hmem (by omega)).imp
    (fun mem' hp => ⟨fun i hi => ?_, fun p hout => ?_⟩)
  · have hval : mem (last - 1 - i) = some (v (last - 1 - i)) := hmem _ (by omega) (by omega)
    rw [hp, ← hval]
    split
    · congr 1
      omega
    · -- the element in the middle
      congr 1
      omega
  · rw [hp, if_neg (by omega)]

end Memory

end Segmented
