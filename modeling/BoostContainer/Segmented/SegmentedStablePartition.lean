import BoostContainer.Segmented.SegmentedPartitionBidir

/-!
# Stable partition

The elements are gone over once. One that satisfies the predicate is taken out,
those that did not are moved up by one place, over it, and it is put down before
them. There is no buffer but for the element itself.

An element that has been moved from cannot be read until it is written again.
-/

namespace Segmented

open Segments Segmentation

variable {α : Type*}

/-- **`stable_partition_shift`**, with the element that has been taken out. -/
def stablePartitionShift (mem : Memory α) (it result : ℕ) (tmp : α) : Option (Memory α × ℕ) :=
  (Scan.forRangeBack result it (fun prev (mem : Memory α) => (mem prev).map (fun x =>
    Scan.more (Function.update (Function.update mem prev none) (prev + 1) (some x)))) mem).map
    (fun e => (Function.update (Scan.result e) result (some tmp), result + 1))

/-- `stable_partition_scan` over elements that are not cut into segments. -/
def stablePartitionScanLoop (pred : α → Bool) (first last : ℕ) (s : Memory α × ℕ) :
    Option (Memory α × ℕ) :=
  (Scan.forRange first last (fun first (s : Memory α × ℕ) => (s.1 first).bind (fun x =>
    if pred x then
      (stablePartitionShift (Function.update s.1 first none) first s.2 x).map Scan.more
    else some (Scan.more s))) s).map Scan.result

/-- **`segmented_stable_partition`**: one scan through all the segments. -/
def segmentedStablePartition (pred : α → Bool) {d : ℕ} (c : Segmentation d) (mem : Memory α)
    (first last : ℕ) : Option (Memory α × ℕ) :=
  scanParts (stablePartitionScanLoop pred) d 0 c first last (mem, first)

/-- **The stable partition of a list of elements**, in the place of a range: each
group in its order, and nothing else changes. -/
structure IsStablePartition (pred : α → Bool) (xs : List α) (first last : ℕ)
    (mem mem' : Memory α) (r : ℕ) : Prop where
  point : r = first + xs.countP pred
  front : window mem' first r = (xs.filter pred).map some
  back : window mem' r last = (xs.filter (fun x => !pred x)).map some
  frame : ∀ p, p < first ∨ last ≤ p → mem' p = mem p

section Stable

variable {pred : α → Bool} {mem mem' : Memory α} {v : ℕ → α} {first last p r : ℕ}

/-- **The shift** moves the elements up by one place and puts the one that was
taken out before them. -/
theorem stablePartitionShift_yields {it : ℕ} {x : α} (hle : r ≤ it) (hr : Readable mem r it) :
    (stablePartitionShift mem it r x).Yields (fun s => s.2 = r + 1 ∧ s.1 r = some x
      ∧ (∀ i, r ≤ i → i < it → s.1 (i + 1) = mem i)
      ∧ ∀ i, i < r ∨ it < i → s.1 i = mem i) := by
  refine (Scan.forRangeBack_yields (P := fun p (m : Memory α) =>
      (∀ i, p ≤ i → i < it → m (i + 1) = mem i) ∧ ∀ i, i < p ∨ it < i → m i = mem i)
    (Q := fun m : Memory α => (∀ i, r ≤ i → i < it → m (i + 1) = mem i)
      ∧ ∀ i, i < r ∨ it < i → m i = mem i) hle ?_
    ⟨fun i hi hit => absurd hi (Nat.not_le.mpr hit), fun i _ => rfl⟩).map ?_
  · rintro p m hrp hpit ⟨hshift, hout⟩
    obtain ⟨y, hy⟩ := hr p hrp hpit
    have hp : m p = some y := (hout p (Or.inl (Nat.lt_succ_self p))).trans hy
    rw [hp, Option.map_some]
    refine Option.yields_some ⟨fun i hi hit => ?_, fun i hi => ?_⟩
    · rcases hi.eq_or_lt with rfl | hlt
      · rw [Function.update_self, hy]
      · rw [Function.update_of_ne (by omega), Function.update_of_ne (by omega)]
        exact hshift i hlt hit
    · rw [Function.update_of_ne (by omega), Function.update_of_ne (by omega)]
      exact hout i (by omega)
  · intro e he
    have hm : (∀ i, r ≤ i → i < it → Scan.result e (i + 1) = mem i)
        ∧ ∀ i, i < r ∨ it < i → Scan.result e i = mem i := by
      cases e with
      | more m => exact he
      | done m => exact he
    refine ⟨rfl, Function.update_self .., fun i hi hit => ?_, fun i hi => ?_⟩
    · have hne : i + 1 ≠ r := by omega
      exact (Function.update_of_ne hne ..).trans (hm.1 i hi hit)
    · have hne : i ≠ r := by omega
      exact (Function.update_of_ne hne ..).trans (hm.2 i hi)

/-- **What has been gone over is partitioned, and each group is in its order.** -/
structure StablyPartitionedTo (pred : α → Bool) (mem : Memory α) (v : ℕ → α) (first p : ℕ)
    (mem' : Memory α) (r : ℕ) : Prop where
  ge : first ≤ r
  le : r ≤ p
  point : r = first + (window v first p).countP pred
  front : window mem' first r = ((window v first p).filter pred).map some
  back : window mem' r p = ((window v first p).filter (fun x => !pred x)).map some
  frame : ∀ i, i < first ∨ p ≤ i → mem' i = mem i

namespace StablyPartitionedTo

theorem nil (pred : α → Bool) (mem : Memory α) (v : ℕ → α) (first : ℕ) :
    StablyPartitionedTo pred mem v first first mem first :=
  ⟨le_rfl, le_rfl, by rw [window_self]; rfl, by rw [window_self, window_self]; rfl,
    by rw [window_self, window_self]; rfl, fun _ _ => rfl⟩

/-- What has been gone over may be read. -/
theorem readable (h : StablyPartitionedTo pred mem v first p mem' r) : Readable mem' r p := by
  intro i hi hip
  have hmem : mem' i ∈ window mem' r p := mem_window.mpr ⟨i, hi, hip, rfl⟩
  rw [h.back, List.mem_map] at hmem
  obtain ⟨x, -, hx⟩ := hmem
  exact ⟨x, hx.symm⟩

/-- An element that does not satisfy the predicate stays. -/
theorem keep (h : StablyPartitionedTo pred mem v first p mem' r) (hp : mem p = some (v p))
    (hx : pred (v p) = false) : StablyPartitionedTo pred mem v first (p + 1) mem' r where
  ge := h.ge
  le := h.le.trans (Nat.le_succ p)
  point := by
    rw [window_succ v (h.ge.trans h.le), List.countP_append, List.countP_singleton, hx, if_neg
      Bool.false_ne_true, Nat.add_zero]
    exact h.point
  front := by
    rw [window_succ v (h.ge.trans h.le), List.filter_append, List.filter_singleton, hx,
      h.front, cond_false, List.append_nil]
  back := by
    rw [window_succ mem' h.le, h.back, window_succ v (h.ge.trans h.le), List.filter_append,
      List.filter_singleton, hx, List.map_append, h.frame p (Or.inr le_rfl), hp]
    rfl
  frame i hi := h.frame i (by omega)

/-- An element that does is put down before those that do not. -/
theorem shift (h : StablyPartitionedTo pred mem v first p mem' r) (hx : pred (v p) = true) :
    (stablePartitionShift (Function.update mem' p none) p r (v p)).Yields
      (fun s => StablyPartitionedTo pred mem v first (p + 1) s.1 s.2) := by
  have hge := h.ge
  have hle := h.le
  have hupdate : ∀ i, i ≠ p → Function.update mem' p none i = mem' i :=
    fun i hi => Function.update_of_ne hi ..
  have hread : Readable (Function.update mem' p none) r p := by
    intro i hi hip
    rw [hupdate i hip.ne]
    exact h.readable i hi hip
  refine (stablePartitionShift_yields hle hread).imp ?_
  rintro ⟨mem'', r'⟩ ⟨hr', htmp, hshift, hout⟩
  simp only at hr' htmp hshift hout ⊢
  subst hr'
  refine ⟨by omega, by omega, ?_, ?_, ?_, fun i hi => ?_⟩
  · rw [window_succ v (hge.trans hle), List.countP_append, List.countP_singleton, hx, if_pos rfl,
      ← Nat.add_assoc, ← h.point]
  · have hfront : window mem'' first r = window mem' first r :=
      window_congr (fun i _ hir => by rw [hout i (Or.inl hir), hupdate i (by omega)])
    rw [window_succ mem'' hge, hfront, h.front, htmp, window_succ v (hge.trans hle),
      List.filter_append, List.filter_singleton, hx, List.map_append]
    rfl
  · have hback : window mem'' (r + 1) (p + 1) = window mem' r p := by
      rw [window_shift]
      exact window_congr (fun i hi hip => by rw [hshift i hi hip, hupdate i hip.ne])
    rw [hback, h.back, window_succ v (hge.trans hle), List.filter_append, List.filter_singleton,
      hx, Bool.not_true, cond_false, List.append_nil]
  · rw [hout i (by omega), hupdate i (by omega)]
    exact h.frame i (by omega)

end StablyPartitionedTo

theorem stablePartitionScanLoop_yields {s : Memory α × ℕ} {a b : ℕ} (hfa : first ≤ a)
    (hab : a ≤ b) (hbl : b ≤ last) (hmem : ∀ p, first ≤ p → p < last → mem p = some (v p))
    (hs : StablyPartitionedTo pred mem v first a s.1 s.2) :
    (stablePartitionScanLoop pred a b s).Yields
      (fun s => StablyPartitionedTo pred mem v first b s.1 s.2) := by
  refine (Scan.forRange_yields (P := fun p (s : Memory α × ℕ) =>
    StablyPartitionedTo pred mem v first p s.1 s.2)
    (Q := fun s => StablyPartitionedTo pred mem v first b s.1 s.2) hab ?_ hs).map ?_
  · intro p s hap hpb hP
    have hp := hmem p (hfa.trans hap) (hpb.trans_le hbl)
    rw [hP.frame p (Or.inr le_rfl), hp, Option.bind_some]
    by_cases hx : pred (v p) = true
    · rw [if_pos hx]
      exact (hP.shift hx).map (fun s hs => hs)
    · rw [if_neg hx]
      exact Option.yields_some (hP.keep hp (Bool.eq_false_iff.mpr hx))
  · intro e he
    cases e with
    | more s => exact he
    | done s => exact he

/-- **`segmented_stable_partition` partitions stably**, however the range is cut. -/
theorem segmentedStablePartition_yields {d : ℕ} {c : Segmentation d}
    (h : InRange c mem v first last) :
    (segmentedStablePartition pred c mem first last).Yields (fun s =>
      IsStablePartition pred (window v first last) first last mem s.1 s.2) := by
  refine (scanParts_yields (P := fun p (s : Memory α × ℕ) =>
      StablyPartitionedTo pred mem v first p s.1 s.2)
    (fun a b s hfa hab hbl hs => stablePartitionScanLoop_yields hfa hab hbl h.mem_eq hs)
    (Nat.zero_le first) le_rfl h.le le_rfl ?_ (.nil pred mem v first)).imp
    (fun s hs => ⟨hs.point, hs.front, hs.back, hs.frame⟩)
  rw [Nat.zero_add]
  exact h.le_size

end Stable

/-! ## However the range is cut -/

/-- **A range, cut into segments in any way, is partitioned in place**: by forward
iterators, by bidirectional ones from both ends, and to a sentinel, with the
partition point after as many elements as satisfy the predicate; and stably. No
element outside of the range is read or written. -/
theorem segmentedPartition_stable (pred : α → Bool) (bidir sentinel : Bool) {d : ℕ}
    {c : Segmentation d} {mem : Memory α} {v : ℕ → α} {first last : ℕ}
    (h : InRange c mem v first last) :
    (segmentedPartition pred bidir sentinel c mem first last).Yields (fun s =>
        IsPartition pred (window v first last) first last mem s.1 s.2)
    ∧ (segmentedStablePartition pred c mem first last).Yields (fun s =>
        IsStablePartition pred (window v first last) first last mem s.1 s.2) :=
  ⟨segmentedPartition_yields h, segmentedStablePartition_yields h⟩

/-- Three elements in nested segments, one of them empty. -/
def oneNoneTwo : Segmentation 2 := ([([1, 0] : List ℕ), ([2] : List ℕ)] : List (List ℕ))

/-- Three elements in nested segments, of which the even one comes first. -/
theorem segmentedPartition_stable_three :
    (segmentedPartition (fun x : ℕ => x % 2 == 0) true false oneNoneTwo
        (fun p => [5, 7, 6][p]?) 0 3).Yields (fun s =>
        IsPartition (fun x => x % 2 == 0) (window (fun p => [5, 7, 6].getD p 0) 0 3) 0 3
          (fun p => [5, 7, 6][p]?) s.1 s.2)
    ∧ (segmentedStablePartition (fun x : ℕ => x % 2 == 0) oneNoneTwo
        (fun p => [5, 7, 6][p]?) 0 3).Yields (fun s =>
        IsStablePartition (fun x => x % 2 == 0) (window (fun p => [5, 7, 6].getD p 0) 0 3) 0 3
          (fun p => [5, 7, 6][p]?) s.1 s.2) :=
  segmentedPartition_stable (fun x : ℕ => x % 2 == 0) true false
    ⟨by decide, by decide, fun p _ hp => by interval_cases p <;> rfl⟩

end Segmented
