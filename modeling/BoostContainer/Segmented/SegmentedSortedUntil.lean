import BoostContainer.Segmented.SegmentedFindLast

/-!
# Sorted ranges and partition points, however they are cut

`segmented_is_sorted_until` compares each element with the one before it, also
across a seam: the scan of a part hands on the position of the last element it has
seen. `segmented_partition_point` looks for the first element that does not satisfy
the predicate.
-/

namespace Segmented

open Segments Segmentation

variable {α : Type*}

/-! ## `segmented_is_sorted_until` -/

/-- `sorted_until_rec` of a range that is not cut. It is given the position of the
element before the range. -/
def sortedUntilLoop (comp : α → α → Bool) (mem : Memory α) (first last prev : ℕ) :
    Option (ℕ × ℕ) :=
  (Scan.forRange first last (fun p prev => (mem p).bind (fun x => (mem prev).map (fun y =>
    if comp x y then Scan.done (p, prev) else Scan.more p))) prev).map (fun e => match e with
    | .more prev => (last, prev)
    | .done r => r)

/-- **`sorted_until_rec`.** What the last part returns is returned. -/
def sortedUntilRec (comp : α → α → Bool) (mem : Memory α) :
    (d : ℕ) → ℕ → Segmentation d → ℕ → ℕ → ℕ → Option (ℕ × ℕ)
  | 0, _, _, first, last, prev => sortedUntilLoop comp mem first last prev
  | d + 1, o, c, first, last, prev =>
    (walkAt o c first last (fun k a b prev =>
      (sortedUntilRec comp mem d (beginAt o c k) (c.child k) a b prev).map (fun r =>
        if k = segmentAt o c last ∨ r.1 ≠ b then Scan.done r else Scan.more r.2)) prev).map
      (fun e => match e with
      | .more prev => (last, prev)
      | .done r => r)

/-- **`segmented_is_sorted_until`.** With a sentinel the range is not cut. -/
def segmentedIsSortedUntil (comp : α → α → Bool) (sentinel : Bool) (mem : Memory α) {d : ℕ}
    (c : Segmentation d) (first last : ℕ) : Option ℕ :=
  if first = last then some first
  else (if sentinel then sortedUntilLoop comp mem (first + 1) last first
    else sortedUntilRec comp mem d 0 c (first + 1) last first).map Prod.fst

/-- **The first position whose element comes before the one before it**, or the end. -/
structure IsSortedUntil (comp : α → α → Bool) (v : ℕ → α) (first last r : ℕ) : Prop where
  ge : first ≤ r
  le : r ≤ last
  sorted : ∀ p, first < p → p < r → comp (v p) (v (p - 1)) = false
  at_lt : r < last → first < r ∧ comp (v r) (v (r - 1)) = true

/-- The comparison of an element with the one before it. -/
def descends (comp : α → α → Bool) (v : ℕ → α) (p : ℕ) : Bool := comp (v p) (v (p - 1))

section SortedUntil

variable {comp : α → α → Bool} {mem : Memory α} {v : ℕ → α} {d o lo first last prev : ℕ}

/-- **The scan stops at the first descent**, and hands on the position before. -/
def StopsAt (comp : α → α → Bool) (v : ℕ → α) (first last : ℕ) (r : ℕ × ℕ) : Prop :=
  IsFirst id (descends comp v) first last r.1 ∧ r.2 + 1 = r.1

theorem sortedUntilLoop_yields (hprev : prev + 1 = first) (hlo : lo ≤ prev) (hfl : first ≤ last)
    (hmem : ∀ p, lo ≤ p → p < last → mem p = some (v p)) :
    (sortedUntilLoop comp mem first last prev).Yields (StopsAt comp v first last) := by
  refine (Scan.forRange_yields
    (P := fun p prev => prev + 1 = p ∧ ∀ q, first ≤ q → q < p → descends comp v q = false)
    (Q := StopsAt comp v first last) hfl ?_
    ⟨hprev, fun q hq hqf => absurd hq (Nat.not_le.mpr hqf)⟩).map ?_
  · rintro p prev hfp hpl ⟨rfl, hbefore⟩
    rw [hmem (prev + 1) (by omega) hpl, hmem prev (by omega) (by omega), Option.bind_some,
      Option.map_some]
    refine Option.yields_some ?_
    by_cases hcomp : comp (v (prev + 1)) (v prev) = true
    · rw [if_pos hcomp]
      exact ⟨⟨hfp, hpl.le, hbefore, fun _ => hcomp⟩, rfl⟩
    · rw [if_neg hcomp]
      refine ⟨rfl, fun q hq hqp => ?_⟩
      rcases Nat.lt_succ_iff_lt_or_eq.mp hqp with hlt | rfl
      · exact hbefore q hq hlt
      · exact Bool.eq_false_iff.mpr hcomp
  · intro e he
    cases e with
    | more prev => exact ⟨isFirst_last hfl he.2, he.1⟩
    | done r => exact he

/-- **The scan through all the segments stops at the first descent.** -/
theorem sortedUntilRec_yields {c : Segmentation d} (ho : o ≤ first) (hprev : prev + 1 = first)
    (hlo : lo ≤ prev) (hfl : first ≤ last) (hlast : last ≤ o + size d c)
    (hmem : ∀ p, lo ≤ p → p < last → mem p = some (v p)) :
    (sortedUntilRec comp mem d o c first last prev).Yields (StopsAt comp v first last) := by
  induction d generalizing o first last prev with
  | zero => exact sortedUntilLoop_yields hprev hlo hfl hmem
  | succ d ih =>
    have hpart : ∀ k a b prev, a ≤ b → beginAt o c k ≤ a → b ≤ endAt o c k → first ≤ a →
        b ≤ last → prev + 1 = a →
        (sortedUntilRec comp mem d (beginAt o c k) (c.child k) a b prev).Yields
          (StopsAt comp v a b) := by
      intro k a b prev' hab hka hbk hfa hbl hprev'
      refine ih hka hprev' (by omega) hab ?_ (fun p hp hpb => hmem p hp (hpb.trans_le hbl))
      rwa [beginAt_add_size]
    have hjoin : ∀ {a b : ℕ} {r : ℕ × ℕ}, first ≤ a → b ≤ last →
        (∀ q, first ≤ q → q < a → descends comp v q = false) → StopsAt comp v a b r →
        r.1 ≠ b ∨ b = last → StopsAt comp v first last r := by
      rintro a b r hfa hbl hbefore ⟨hr, hr2⟩ hstop
      have hle := hr.le
      refine ⟨⟨hfa.trans hr.ge, hle.trans hbl, fun q hq hqr => ?_, fun hlt => ?_⟩, hr2⟩
      · rcases Nat.lt_or_ge q a with hqa | hqa
        · exact hbefore q hq hqa
        · exact hr.before q hqa hqr
      · exact hr.at_lt (by omega)
    refine (walkAt_yields_last
      (P := fun p prev => prev + 1 = p ∧ ∀ q, first ≤ q → q < p → descends comp v q = false)
      (R := fun _ => False) (Q := StopsAt comp v first last) ho hfl hlast ?_ ?_
      ⟨hprev, fun q hq hqf => absurd hq (Nat.not_le.mpr hqf)⟩).map ?_
    · rintro k a b prev' hk hab hka hbk _ hfa hbl ⟨hprev', hbefore⟩
      refine (hpart k a b prev' hab hka hbk hfa hbl hprev').map (fun r hr => ?_)
      by_cases hrb : r.1 = b
      · rw [if_neg (by rintro (h | h); exacts [absurd h (Nat.ne_of_lt hk), h hrb])]
        refine ⟨hrb ▸ hr.2, fun q hq hqb => ?_⟩
        rcases Nat.lt_or_ge q a with hqa | hqa
        · exact hbefore q hq hqa
        · exact hr.1.before q hqa (hrb ▸ hqb)
      · rw [if_pos (Or.inr hrb)]
        exact hjoin hfa hbl hbefore hr (Or.inl hrb)
    · rintro a prev' hka hal _ hfa ⟨hprev', hbefore⟩
      refine (hpart _ a last prev' hal hka (le_endAt_segmentAt hlast) hfa le_rfl hprev').map
        (fun r hr => ?_)
      rw [if_pos (Or.inl rfl)]
      exact hjoin hfa le_rfl hbefore hr (Or.inr rfl)
    · intro e he
      cases e with
      | more prev => exact False.elim he
      | done r => exact he

/-- **A range is sorted until the position that is returned.** -/
theorem segmentedIsSortedUntil_yields {sentinel : Bool} {c : Segmentation d}
    (h : InRange c mem v first last) :
    (segmentedIsSortedUntil comp sentinel mem c first last).Yields
      (IsSortedUntil comp v first last) := by
  rw [segmentedIsSortedUntil]
  split
  · next heq =>
    exact Option.yields_some ⟨le_rfl, h.le, fun p hp hpf => absurd hp (not_lt.mpr hpf.le),
      fun hlt => absurd heq (Nat.ne_of_lt hlt)⟩
  · next hne =>
    have hlt : first < last := lt_of_le_of_ne h.le hne
    have hstops : (if sentinel then sortedUntilLoop comp mem (first + 1) last first
        else sortedUntilRec comp mem d 0 c (first + 1) last first).Yields
        (StopsAt comp v (first + 1) last) := by
      split
      · exact sortedUntilLoop_yields rfl le_rfl hlt h.mem_eq
      · exact sortedUntilRec_yields (Nat.zero_le _) rfl le_rfl hlt
          ((Nat.zero_add (size d c)).symm ▸ h.le_size) h.mem_eq
    refine hstops.map (fun r hr => ?_)
    have hge := hr.1.ge
    exact ⟨by omega, hr.1.le, fun p hp hpr => hr.1.before p hp hpr,
      fun hrl => ⟨hge, hr.1.at_lt hrl⟩⟩

end SortedUntil

/-! ## `segmented_partition_point` -/

/-- **`segmented_partition_point`.** With a sentinel the range is not cut. -/
def segmentedPartitionPoint (pred : α → Bool) (sentinel : Bool) (mem : Memory α) {d : ℕ}
    (c : Segmentation d) (first last : ℕ) : Option ℕ :=
  if sentinel then findIfLoop (fun x => !pred x) mem first last
  else segmentedFindIfDispatch (fun x => !pred x) d c mem first last

/-- **The position that parts a range**: before it are the elements that satisfy the
predicate, from it on those that do not. -/
structure Parts (pred : α → Bool) (v : ℕ → α) (first last r : ℕ) : Prop where
  ge : first ≤ r
  le : r ≤ last
  before : ∀ p, first ≤ p → p < r → pred (v p) = true
  from_on : ∀ p, r ≤ p → p < last → pred (v p) = false

/-- **The point at which a range is parted is found.** -/
theorem segmentedPartitionPoint_eq {pred : α → Bool} {sentinel : Bool} {mem : Memory α}
    {v : ℕ → α} {d first last m : ℕ} {c : Segmentation d} (h : InRange c mem v first last)
    (hm : Parts pred v first last m) :
    segmentedPartitionPoint pred sentinel mem c first last = some m := by
  have hfirst : (segmentedPartitionPoint pred sentinel mem c first last).Yields
      (IsFirst (fun x => !pred x) v first last) := by
    rw [segmentedPartitionPoint]
    split
    · exact findIfLoop_yields h
    · exact segmentedFindIfDispatch_yields h
  refine Option.yields_iff_of_unique (fun r hr => ?_) hfirst
  have hle := hr.le
  rcases Nat.lt_trichotomy r m with hlt | heq | hgt
  · have hpred := hm.before r hr.ge hlt
    have hnot := hr.at_lt (hlt.trans_le hm.le)
    rw [hpred] at hnot
    exact absurd hnot Bool.false_ne_true
  · exact heq
  · have hpred := hm.from_on m le_rfl (by omega)
    have hnot := hr.before m hm.ge hgt
    rw [hpred] at hnot
    exact absurd hnot.symm Bool.false_ne_true

/-! ## All the scans -/

/-- **The scans of one range**: the search for the last value and for the last match
find it exactly where it is seen, or with a sentinel; the first descent and the
partition point are found always. -/
theorem segmentedScans_iff [BEq α] {mem : Memory α} {v : ℕ → α} {d first last : ℕ}
    {c : Segmentation d} (h : InRange c mem v first last) (sentinel : Bool) (bidir : ℕ → Bool) :
    (∀ pred : α → Bool,
      (segmentedFindLastIf pred bidir sentinel mem c first last).Yields
          (IsLast (fun p => pred (v p) = true) first last)
        ↔ sentinel = true ∨ ∀ p, first ≤ p → p < last → pred (v p) = true →
          (∀ q, p < q → q < last → pred (v q) = false) → Seen bidir d 0 c first last p) ∧
    (∀ value : α,
      (segmentedFindLast value bidir sentinel mem c first last).Yields
          (IsLast (fun p => (v p == value) = true) first last)
        ↔ sentinel = true ∨ ∀ p, first ≤ p → p < last → (v p == value) = true →
          (∀ q, p < q → q < last → (v q == value) = false) → Seen bidir d 0 c first last p) ∧
    (∀ comp : α → α → Bool,
      (segmentedIsSortedUntil comp sentinel mem c first last).Yields
        (IsSortedUntil comp v first last)) ∧
    (∀ (pred : α → Bool) m, Parts pred v first last m →
      segmentedPartitionPoint pred sentinel mem c first last = some m) :=
  ⟨fun _ => segmentedFindLastIf_iff h, fun _ => segmentedFindLastIf_iff h,
    fun _ => segmentedIsSortedUntil_yields h, fun _ _ hm => segmentedPartitionPoint_eq h hm⟩

/-- Two segments of one element each. -/
def oneOne : Segmentation 1 := ([1, 1] : List ℕ)

theorem inRange_oneOne : InRange oneOne (fun p => if p < 2 then some (p == 0) else none)
    (fun p => p == 0) 0 2 where
  le := Nat.zero_le 2
  le_size := by decide
  mem_eq p _ hp := if_pos hp

/-- With bidirectional iterators the match in the first of two segments is found. -/
theorem segmentedScans_iff_two :
    (segmentedFindLastIf id (fun _ => true) false
      (fun p => if p < 2 then some (p == 0) else none) oneOne 0 2).Yields
      (IsLast (fun p => (p == 0) = true) 0 2) :=
  ((segmentedScans_iff inRange_oneOne false (fun _ => true)).1 id).mpr
    (Or.inr fun _ hp hpl _ _ => seen_of_bidir (fun _ _ => rfl) hp hpl hp hpl)

/-- With forward iterators the match in the first of two segments is forgotten. -/
theorem segmentedFindLastIf_forgets :
    segmentedFindLastIf id (fun _ => false) false
        (fun p => if p < 2 then some (p == 0) else none) oneOne 0 2 = some 2
      ∧ ¬ (segmentedFindLastIf id (fun _ => false) false
        (fun p => if p < 2 then some (p == 0) else none) oneOne 0 2).Yields
        (IsLast (fun p => (p == 0) = true) 0 2) := by
  have hrun : segmentedFindLastIf id (fun _ => false) false
      (fun p => if p < 2 then some (p == 0) else none) oneOne 0 2 = some 2 := by decide
  refine ⟨hrun, ?_⟩
  rw [hrun]
  rintro ⟨r, hr, hlast⟩
  obtain rfl := Option.some.inj hr
  exact lt_irrefl 2 (hlast.after 0 le_rfl Nat.zero_lt_two rfl).2

end Segmented
