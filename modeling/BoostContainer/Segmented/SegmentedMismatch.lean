import BoostContainer.Segmented.SegmentedFindIf

/-!
# Two segmented ranges side by side

The first range is walked segment by segment, and under each of its segments
the second, each with segments of its own. The second range may end before the
first, or have no end that the code knows of; then it is as long as the first.

Each scan starts where the one before it stopped, and what the pair of
positions says is always the same: so many elements have matched. So the scan
that stops the walk stops it where a comparison of two ranges that are not cut
would stop.
-/

namespace Segmented

open Segments Segmentation

variable {α β : Type*}

/-! ## `segmented_mismatch` -/

/-- The loop over elements that are not cut into segments. The second range may
have no end. -/
def mismatchLoop (pred : α → β → Bool) (mem1 : Memory α) (mem2 : Memory β)
    (first1 last1 first2 : ℕ) (last2 : Option ℕ) : Option (ℕ × ℕ) :=
  (Scan.forRange first1 last1 (fun p1 p2 =>
    if last2 = some p2 then some (Scan.done (p1, p2))
    else (mem1 p1).bind (fun x => (mem2 p2).map (fun y =>
      if pred x y then Scan.more (p2 + 1) else Scan.done (p1, p2)))) first2).map
    (fun e => match e with
      | .more p2 => (last1, p2)
      | .done r => r)

/-- **`segmented_mismatch_iter2_bounded`**, with its shim for a second range
without end. Where both ranges are of random access, the loop runs to the end
of the shorter and does not look at the second range's. -/
def segmentedMismatchIter2Bounded (pred : α → β → Bool) (dualRA : Bool) (mem1 : Memory α)
    (last1 : ℕ) :
    (d : ℕ) → Segmentation d → Memory β → ℕ → ℕ → Option ℕ → Option (ℕ × ℕ)
  | 0, _, mem2, first1, first2, none => mismatchLoop pred mem1 mem2 first1 last1 first2 none
  | 0, _, mem2, first1, first2, some last2 =>
    if dualRA then
      mismatchLoop pred mem1 mem2 first1 (first1 + min (last1 - first1) (last2 - first2)) first2
        none
    else mismatchLoop pred mem1 mem2 first1 last1 first2 (some last2)
  | d + 1, c, mem2, first1, first2, some last2 =>
    (walk c.sizes first2 last2 (fun k a b (s : ℕ × ℕ) =>
      (segmentedMismatchIter2Bounded pred dualRA mem1 last1 d (c.child k)
        (mem2.dropTo (start c.sizes k)) s.1 a (some b)).map (fun r =>
          if r.1 = last1 ∨ r.2 ≠ b then Scan.done (r.1, compose c.sizes k r.2)
          else Scan.more (r.1, compose c.sizes k r.2))) (first1, first2)).map Scan.result
  | d + 1, c, mem2, first1, first2, none =>
    if first1 = last1 then some (first1, first2)
    else walkOn c.sizes first2 (fun k a b first1 =>
      (segmentedMismatchIter2Bounded pred dualRA mem1 last1 d (c.child k)
        (mem2.dropTo (start c.sizes k)) first1 a (some b)).map (fun r =>
          if r.1 ≠ last1 ∧ r.2 ≠ b then Scan.done (r.1, compose c.sizes k r.2)
          else if r.1 ≠ last1 then Scan.more r.1
          else Scan.done (r.1, compose c.sizes k r.2))) first1

/-- **`segmented_mismatch_bounded_dispatch`.** -/
def segmentedMismatchBoundedDispatch (pred : α → β → Bool) (dualRA : Bool) {d2 : ℕ}
    (c2 : Segmentation d2) (mem2 : Memory β) (last2 : Option ℕ) :
    (d : ℕ) → Segmentation d → Memory α → ℕ → ℕ → ℕ → Option (ℕ × ℕ)
  | 0, _, mem1, first1, last1, first2 =>
    segmentedMismatchIter2Bounded pred dualRA mem1 last1 d2 c2 mem2 first1 first2 last2
  | d + 1, c, mem1, first1, last1, first2 =>
    (walk c.sizes first1 last1 (fun k a b (s : ℕ × ℕ) =>
      (segmentedMismatchBoundedDispatch pred dualRA c2 mem2 last2 d (c.child k)
        (mem1.dropTo (start c.sizes k)) a b s.2).map (fun r =>
          if r.1 ≠ b ∨ last2 = some r.2 then Scan.done (compose c.sizes k r.1, r.2)
          else Scan.more (compose c.sizes k r.1, r.2))) (first1, first2)).map Scan.result

/-- **`segmented_mismatch`.** A first range that ends with a sentinel is not
walked by its segments. -/
def segmentedMismatch (pred : α → β → Bool) (dualRA sentinel1 : Bool) {d1 d2 : ℕ}
    (c1 : Segmentation d1) (mem1 : Memory α) (first1 last1 : ℕ)
    (c2 : Segmentation d2) (mem2 : Memory β) (first2 : ℕ) (last2 : Option ℕ) :
    Option (ℕ × ℕ) :=
  if sentinel1 then
    segmentedMismatchBoundedDispatch pred dualRA c2 mem2 last2 0 (size d1 c1) mem1 first1 last1
      first2
  else
    segmentedMismatchBoundedDispatch pred dualRA c2 mem2 last2 d1 c1 mem1 first1 last1 first2

/-! ## Where two ranges part -/

/-- So many elements of two ranges match. -/
def Matches (pred : α → β → Bool) (v1 : ℕ → α) (v2 : ℕ → β) (first1 first2 n : ℕ) : Prop :=
  ∀ i, i < n → pred (v1 (first1 + i)) (v2 (first2 + i)) = true

/-- **Where two ranges part**: after so many elements that match comes one that
does not, or one of the ends. -/
structure PartsAfter (pred : α → β → Bool) (v1 : ℕ → α) (v2 : ℕ → β) (first1 last1 first2 : ℕ)
    (last2 : Option ℕ) (n : ℕ) : Prop where
  le1 : first1 + n ≤ last1
  le2 : ∀ l, last2 = some l → first2 + n ≤ l
  matches_n : Matches pred v1 v2 first1 first2 n
  parts : first1 + n < last1 → last2 ≠ some (first2 + n) →
    pred (v1 (first1 + n)) (v2 (first2 + n)) = false

/-- **The pair of positions at which two ranges part.** -/
def IsMismatch (pred : α → β → Bool) (v1 : ℕ → α) (v2 : ℕ → β) (first1 last1 first2 : ℕ)
    (last2 : Option ℕ) (r : ℕ × ℕ) : Prop :=
  ∃ n, r = (first1 + n, first2 + n) ∧ PartsAfter pred v1 v2 first1 last1 first2 last2 n

section Parts

variable {pred : α → β → Bool} {v1 : ℕ → α} {v2 : ℕ → β} {first1 last1 first2 m n o : ℕ}
  {last2 : Option ℕ} {r : ℕ × ℕ}

theorem Matches.append (hm : Matches pred v1 v2 first1 first2 m)
    (hn : Matches pred v1 v2 (first1 + m) (first2 + m) n) :
    Matches pred v1 v2 first1 first2 (m + n) := by
  intro i hi
  rcases Nat.lt_or_ge i m with hlt | hge
  · exact hm i hlt
  · have h := hn (i - m) (by omega)
    rwa [Nat.add_assoc, Nat.add_assoc, Nat.add_sub_cancel' hge] at h

/-- Two ranges part where they part after what already matched. -/
theorem PartsAfter.append (hm : Matches pred v1 v2 first1 first2 m)
    (h : PartsAfter pred v1 v2 (first1 + m) last1 (first2 + m) last2 n) :
    PartsAfter pred v1 v2 first1 last1 first2 last2 (m + n) where
  le1 := by have := h.le1; omega
  le2 l hl := by have := h.le2 l hl; omega
  matches_n := hm.append h.matches_n
  parts := by
    rw [← Nat.add_assoc, ← Nat.add_assoc]
    exact h.parts

/-- Positions in a segment of the second range are positions in the range. -/
theorem PartsAfter.shift2 {a b : ℕ}
    (h : PartsAfter pred v1 (fun i => v2 (o + i)) first1 last1 a (some b) n) :
    PartsAfter pred v1 v2 first1 last1 (o + a) (some (o + b)) n where
  le1 := h.le1
  le2 l hl := by
    have := h.le2 b rfl
    have := Option.some.inj hl
    omega
  matches_n i hi := by
    have := h.matches_n i hi
    rwa [Nat.add_assoc]
  parts hlt hne := by
    have := h.parts hlt (fun heq => hne (by rw [Option.some.inj heq, Nat.add_assoc]))
    rwa [Nat.add_assoc]

/-- Positions in a segment of the first range are positions in the range. -/
theorem PartsAfter.shift1 {a b : ℕ}
    (h : PartsAfter pred (fun i => v1 (o + i)) v2 a b first2 last2 n) :
    PartsAfter pred v1 v2 (o + a) (o + b) first2 last2 n where
  le1 := by have := h.le1; omega
  le2 := h.le2
  matches_n i hi := by
    have := h.matches_n i hi
    rwa [Nat.add_assoc]
  parts hlt hne := by
    have := h.parts (by omega) hne
    rwa [Nat.add_assoc]

/-- Ranges that part before the end of a part of the second part there. -/
theorem PartsAfter.widen2 {b : ℕ} (h : PartsAfter pred v1 v2 first1 last1 first2 (some b) n)
    (hb : ∀ l, last2 = some l → b ≤ l) (hstop : first1 + n = last1 ∨ first2 + n ≠ b) :
    PartsAfter pred v1 v2 first1 last1 first2 last2 n where
  le1 := h.le1
  le2 l hl := (h.le2 b rfl).trans (hb l hl)
  matches_n := h.matches_n
  parts hlt _ := h.parts hlt (fun heq => hstop.elim (by omega)
    (fun hne => hne (Option.some.inj heq).symm))

/-- Ranges that part before the end of a part of the first part there. -/
theorem PartsAfter.widen1 {b : ℕ} (h : PartsAfter pred v1 v2 first1 b first2 last2 n)
    (hb : b ≤ last1) (hstop : first1 + n ≠ b ∨ last2 = some (first2 + n)) :
    PartsAfter pred v1 v2 first1 last1 first2 last2 n where
  le1 := h.le1.trans hb
  le2 := h.le2
  matches_n := h.matches_n
  parts _ hne := h.parts (lt_of_le_of_ne h.le1 (hstop.elim id (fun heq => absurd heq hne))) hne

/-- At the end of the second range there is nothing left to compare. -/
theorem partsAfter_of_end2 {l : ℕ} (hle : first1 + n ≤ last1)
    (hm : Matches pred v1 v2 first1 first2 n) (hl : l = first2 + n) :
    PartsAfter pred v1 v2 first1 last1 first2 (some l) n where
  le1 := hle
  le2 l' hl' := by have := Option.some.inj hl'; omega
  matches_n := hm
  parts _ hne := absurd (by rw [hl]) hne

/-- At the end of the first range there is nothing left to compare. -/
theorem partsAfter_of_end1 (hle : first1 + n = last1) (h2 : ∀ l, last2 = some l → first2 + n ≤ l)
    (hm : Matches pred v1 v2 first1 first2 n) :
    PartsAfter pred v1 v2 first1 last1 first2 last2 n where
  le1 := hle.le
  le2 := h2
  matches_n := hm
  parts hlt _ := absurd hlt (by omega)

end Parts

/-- **A second range** for so many elements of the first: with an end, or as
long. Its elements are read in step with the first range's. -/
structure Second {d : ℕ} (c : Segmentation d) (mem : Memory β) (v : ℕ → β) (first n : ℕ)
    (last : Option ℕ) : Prop where
  le : ∀ l, last = some l → first ≤ l
  le_size : ∀ l, last = some l → l ≤ size d c
  room : last = none → first + n ≤ size d c
  mem_eq : ∀ i, i < n → (∀ l, last = some l → first + i < l) →
    mem (first + i) = some (v (first + i))

section Second

variable {d : ℕ} {mem : Memory β} {v : ℕ → β} {first last n m a b k : ℕ} {last2 : Option ℕ}

/-- A second range with an end. -/
theorem InRange.second {c : Segmentation d} (h : InRange c mem v first last) (n : ℕ) :
    Second c mem v first n (some last) where
  le _ hl := Option.some.inj hl ▸ h.le
  le_size _ hl := Option.some.inj hl ▸ h.le_size
  room hl := nomatch hl
  mem_eq _ _ hl := h.mem_eq _ (Nat.le_add_right _ _) (hl last rfl)

/-- A second range that is as long as the first. -/
theorem InRange.second_of_le {c : Segmentation d} (h : InRange c mem v first last)
    (hn : first + n ≤ last) : Second c mem v first n none where
  le _ hl := nomatch hl
  le_size _ hl := nomatch hl
  room _ := hn.trans h.le_size
  mem_eq _ hi _ := h.mem_eq _ (Nat.le_add_right _ _) (by omega)

/-- What is left of a second range. -/
theorem Second.drop {c : Segmentation d} (h : Second c mem v first n last2) (hm : m ≤ n)
    (hle : ∀ l, last2 = some l → first + m ≤ l) : Second c mem v (first + m) (n - m) last2 where
  le := hle
  le_size := h.le_size
  room hl := by have := h.room hl; omega
  mem_eq i hi hl := by
    rw [Nat.add_assoc]
    exact h.mem_eq (m + i) (by omega) (fun l hll => by have := hl l hll; omega)

/-- What is left of a second range in one of its segments. -/
theorem Second.child {c : Segmentation (d + 1)} (h : Second c mem v first n last2)
    (hcomp : compose c.sizes k a = first + m) (hab : a ≤ b) (hb : b ≤ c.sizes.getD k 0)
    (hlast : ∀ l, last2 = some l → compose c.sizes k b ≤ l) :
    Second (c.child k) (mem.dropTo (start c.sizes k)) (fun i => v (start c.sizes k + i)) a
      (n - m) (some b) where
  le l hl := Option.some.inj hl ▸ hab
  le_size l hl := Option.some.inj hl ▸ (size_child c k).symm ▸ hb
  room hl := nomatch hl
  mem_eq i hi hl := by
    unfold compose at hcomp hlast
    have hlt := hl b rfl
    have hpos : start c.sizes k + (a + i) = first + (m + i) := by omega
    rw [Memory.dropTo, hpos]
    exact h.mem_eq (m + i) (by omega) (fun l hll => by have := hlast l hll; omega)

end Second

/-! ## The scans stop where the ranges part -/

section Mismatch

variable {pred : α → β → Bool} {dualRA : Bool} {d1 d2 : ℕ} {c1 : Segmentation d1}
  {c2 : Segmentation d2} {mem1 : Memory α} {mem2 : Memory β} {v1 : ℕ → α} {v2 : ℕ → β}
  {first1 last1 first2 : ℕ} {last2 : Option ℕ}

theorem mismatchLoop_yields (h1 : InRange c1 mem1 v1 first1 last1)
    (h2 : Second c2 mem2 v2 first2 (last1 - first1) last2) :
    (mismatchLoop pred mem1 mem2 first1 last1 first2 last2).Yields
      (IsMismatch pred v1 v2 first1 last1 first2 last2) := by
  refine (Scan.forRange_yields (P := fun p p2 => ∃ n, p = first1 + n ∧ p2 = first2 + n ∧
    (∀ l, last2 = some l → p2 ≤ l) ∧ Matches pred v1 v2 first1 first2 n)
    (Q := IsMismatch pred v1 v2 first1 last1 first2 last2) h1.le ?_ ?_).map ?_
  · rintro p p2 hfp hpl ⟨n, rfl, rfl, hle2, hm⟩
    split
    · next hend =>
      rw [hend]
      exact Option.yields_some ⟨n, rfl, partsAfter_of_end2 hpl.le hm rfl⟩
    · next hend =>
      have hread2 : mem2 (first2 + n) = some (v2 (first2 + n)) :=
        h2.mem_eq n (by omega) (fun l hl =>
          lt_of_le_of_ne (hle2 l hl) (fun heq => hend (by rw [hl, heq])))
      rw [h1.mem_eq _ hfp hpl, Option.bind_some, hread2, Option.map_some]
      refine Option.yields_some ?_
      by_cases hp : pred (v1 (first1 + n)) (v2 (first2 + n)) = true
      · rw [if_pos hp]
        refine ⟨n + 1, rfl, rfl, fun l hl => ?_, ?_⟩
        · exact Nat.succ_le_of_lt (lt_of_le_of_ne (hle2 l hl) (fun heq => hend (by rw [hl, heq])))
        · intro i hi
          rcases Nat.lt_succ_iff_lt_or_eq.mp hi with hlt | rfl
          · exact hm i hlt
          · exact hp
      · rw [if_neg hp]
        exact ⟨n, rfl, hpl.le, hle2, hm, fun _ _ => Bool.eq_false_iff.mpr hp⟩
  · exact ⟨0, rfl, rfl, h2.le, fun i hi => absurd hi (Nat.not_lt_zero i)⟩
  · intro e he
    cases e with
    | more p2 =>
      obtain ⟨n, hn, rfl, hle2, hm⟩ := he
      exact ⟨n, by rw [hn], partsAfter_of_end1 hn.symm hle2 hm⟩
    | done r => exact he

/-- Where both ranges are of random access, the loop runs to the end of the
shorter. -/
theorem mismatchLoop_min_yields {l2 : ℕ} (h1 : InRange c1 mem1 v1 first1 last1)
    (h2 : Second c2 mem2 v2 first2 (last1 - first1) (some l2)) :
    (mismatchLoop pred mem1 mem2 first1 (first1 + min (last1 - first1) (l2 - first2)) first2
      none).Yields (IsMismatch pred v1 v2 first1 last1 first2 (some l2)) := by
  have hle1 := h1.le
  have hle2 := h2.le l2 rfl
  have hsize := h2.le_size l2 rfl
  have h2' : Second c2 mem2 v2 first2
      (first1 + min (last1 - first1) (l2 - first2) - first1) none :=
    ⟨(fun _ hl => nomatch hl), (fun _ hl => nomatch hl), (fun _ => by omega), fun i hi _ =>
      h2.mem_eq i (by omega) (fun l hl => by have := Option.some.inj hl; omega)⟩
  refine (mismatchLoop_yields (h1.sub le_rfl (Nat.le_add_right _ _) (by omega)) h2').imp ?_
  rintro r ⟨n, rfl, h⟩
  have hn := h.le1
  refine ⟨n, rfl, by omega, fun l hl => ?_, h.matches_n, fun hlt hne =>
    h.parts ?_ (fun hl => nomatch hl)⟩
  · have := Option.some.inj hl
    omega
  · refine lt_of_le_of_ne hn (fun heq => ?_)
    rcases Nat.le_total (last1 - first1) (l2 - first2) with hmin | hmin
    · rw [Nat.min_eq_left hmin] at heq
      omega
    · rw [Nat.min_eq_right hmin] at heq
      exact hne (by congr 1; omega)

/-- The scan of a segment of the second range, seen from the ranges. -/
theorem partsAfter_of_child {d k a b n m : ℕ} {c2 : Segmentation (d + 1)}
    (hm : Matches pred v1 v2 first1 first2 n) (hcomp : compose c2.sizes k a = first2 + n)
    (hr : PartsAfter pred v1 (fun i => v2 (start c2.sizes k + i)) (first1 + n) last1 a (some b) m) :
    PartsAfter pred v1 v2 first1 last1 first2 (some (compose c2.sizes k b)) (n + m)
      ∧ (first1 + n + m, compose c2.sizes k (a + m)) = (first1 + (n + m), first2 + (n + m)) := by
  have hparts := hr.shift2
  unfold compose at hcomp ⊢
  rw [hcomp] at hparts
  exact ⟨hparts.append hm, by rw [Prod.mk.injEq]; exact ⟨by omega, by omega⟩⟩

/-- **Under one segment of the first range**, the second range is compared up to
where the two part. -/
theorem segmentedMismatchIter2Bounded_yields (h1 : InRange c1 mem1 v1 first1 last1)
    (h2 : Second c2 mem2 v2 first2 (last1 - first1) last2) :
    (segmentedMismatchIter2Bounded pred dualRA mem1 last1 d2 c2 mem2 first1 first2 last2).Yields
      (IsMismatch pred v1 v2 first1 last1 first2 last2) := by
  induction d2 generalizing mem2 v2 first1 first2 last2 with
  | zero =>
    cases last2 with
    | some l2 =>
      rw [segmentedMismatchIter2Bounded]
      split
      · exact mismatchLoop_min_yields h1 h2
      · exact mismatchLoop_yields h1 h2
    | none => exact mismatchLoop_yields h1 h2
  | succ d ih =>
    have hnone : Matches pred v1 v2 first1 first2 0 := fun i hi => absurd hi (Nat.not_lt_zero i)
    cases last2 with
    | some l2 =>
      have hsize : l2 ≤ c2.sizes.sum := h2.le_size l2 rfl
      refine (walk_yields (P := fun q s => ∃ n, q = first2 + n ∧ s = (first1 + n, first2 + n) ∧
        first1 + n ≤ last1 ∧ Matches pred v1 v2 first1 first2 n)
        (Q := IsMismatch pred v1 v2 first1 last1 first2 (some l2)) (h2.le l2 rfl) hsize ?_
        ⟨0, rfl, rfl, h1.le, hnone⟩).map ?_
      · rintro k a b s hab hb ha hlast ⟨n, hn, rfl, hle, hm⟩
        have h2' := h2.child hn hab hb (fun l hl => Option.some.inj hl ▸ hlast)
        rw [Nat.sub_sub] at h2'
        refine (ih (h1.sub (Nat.le_add_right _ _) hle le_rfl) h2').map ?_
        rintro r ⟨m, rfl, hr⟩
        obtain ⟨hparts, hpos⟩ := partsAfter_of_child hm hn hr
        have hle1 := hparts.le1
        have hcomp := congrArg Prod.snd hpos
        simp only at hcomp ⊢
        rw [hpos]
        unfold compose at hcomp hparts hlast ⊢
        split
        · next hstop =>
          refine ⟨n + m, rfl, hparts.widen2 (fun l hl => ?_) (hstop.imp (by omega) (by omega))⟩
          have := Option.some.inj hl
          omega
        · next hstop => exact ⟨n + m, by omega, rfl, by omega, hparts.matches_n⟩
      · intro e he
        cases e with
        | more s =>
          obtain ⟨n, hn, rfl, hle, hm⟩ := he
          exact ⟨n, rfl, partsAfter_of_end2 hle hm hn⟩
        | done r => exact he
    | none =>
      rw [segmentedMismatchIter2Bounded]
      split
      · next heq =>
        exact Option.yields_some ⟨0, rfl, partsAfter_of_end1 heq (fun l hl => nomatch hl) hnone⟩
      · next hne =>
        have hlt : first1 < last1 := lt_of_le_of_ne h1.le hne
        have hroom : first2 + (last1 - first1) ≤ c2.sizes.sum := h2.room rfl
        have hnil : c2.sizes ≠ [] := by
          intro hnil
          rw [hnil, List.sum_nil] at hroom
          omega
        refine walkOn_yields (P := fun q p1 => ∃ n, q = first2 + n ∧ p1 = first1 + n ∧
          first1 + n ≤ last1 ∧ Matches pred v1 v2 first1 first2 n) hnil (by omega) ?_
          ⟨0, rfl, rfl, hlt.le, hnone⟩
        rintro k a p1 hk hab - ⟨n, hn, rfl, hle, hm⟩
        have h2' := h2.child hn hab le_rfl (fun l hl => nomatch hl)
        rw [Nat.sub_sub] at h2'
        refine (ih (h1.sub (Nat.le_add_right _ _) hle le_rfl) h2').map ?_
        rintro r ⟨m, rfl, hr⟩
        obtain ⟨hparts, hpos⟩ := partsAfter_of_child hm hn hr
        have hle1 := hparts.le1
        have hcomp := congrArg Prod.snd hpos
        simp only at hcomp ⊢
        rw [hpos, start_succ]
        unfold compose at hcomp hparts
        split
        · next hstop =>
          exact ⟨n + m, rfl, hparts.widen2 (fun l hl => nomatch hl) (Or.inr (by omega))⟩
        · next hstop =>
          split
          · next hne' => exact ⟨by omega, n + m, by omega, by omega, by omega, hparts.matches_n⟩
          · next heq =>
            exact ⟨n + m, rfl, hparts.widen2 (fun l hl => nomatch hl) (Or.inl (by omega))⟩

/-- **Two ranges, both cut into segments**, are compared up to where they part. -/
theorem segmentedMismatchBoundedDispatch_yields (h1 : InRange c1 mem1 v1 first1 last1)
    (h2 : Second c2 mem2 v2 first2 (last1 - first1) last2) :
    (segmentedMismatchBoundedDispatch pred dualRA c2 mem2 last2 d1 c1 mem1 first1 last1
      first2).Yields (IsMismatch pred v1 v2 first1 last1 first2 last2) := by
  induction d1 generalizing mem1 v1 first1 last1 first2 with
  | zero => exact segmentedMismatchIter2Bounded_yields h1 h2
  | succ d ih =>
    have hsize : last1 ≤ c1.sizes.sum := h1.le_size
    refine (walk_yields (P := fun p s => ∃ n, p = first1 + n ∧ s = (first1 + n, first2 + n) ∧
      (∀ l, last2 = some l → first2 + n ≤ l) ∧ Matches pred v1 v2 first1 first2 n)
      (Q := IsMismatch pred v1 v2 first1 last1 first2 last2) h1.le hsize ?_
      ⟨0, rfl, rfl, h2.le, fun i hi => absurd hi (Nat.not_lt_zero i)⟩).map ?_
    · rintro k a b s hab hb ha hlast ⟨n, hn, rfl, hle2, hm⟩
      unfold compose at hn ha hlast ⊢
      have hdrop := h2.drop (m := n) (by omega) hle2
      have h2' : Second c2 mem2 v2 (first2 + n) (b - a) last2 :=
        ⟨hdrop.le, hdrop.le_size, fun hl => by have := hdrop.room hl; omega,
          fun i hi => hdrop.mem_eq i (by omega)⟩
      refine (ih (h1.child hab hb ha hlast) h2').map ?_
      rintro r ⟨m, rfl, hr⟩
      have hparts := hr.shift1
      rw [hn] at hparts
      have hpos : (start c1.sizes k + (a + m), first2 + n + m)
          = (first1 + (n + m), first2 + (n + m)) := by
        rw [← Nat.add_assoc, hn, Nat.add_assoc, Nat.add_assoc]
      have hall := hparts.append hm
      have hle1 := hall.le1
      simp only
      rw [hpos]
      split
      · next hstop =>
        refine ⟨n + m, rfl, hall.widen1 hlast (hstop.imp (by omega) (fun h => ?_))⟩
        rw [h, Nat.add_assoc]
      · next hstop =>
        exact ⟨n + m, by omega, rfl, hall.le2, hall.matches_n⟩
    · intro e he
      cases e with
      | more s =>
        obtain ⟨n, hn, rfl, hle2, hm⟩ := he
        exact ⟨n, rfl, partsAfter_of_end1 hn.symm hle2 hm⟩
      | done r => exact he

end Mismatch

end Segmented
