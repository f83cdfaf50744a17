import BoostContainer.Lib.Rearrange
import BoostContainer.Segmented.SegmentedFindIf

/-!
# Partition of a segmented range

The elements are swapped, so the memory is given back with its places permuted.
Iterators are positions in the memory: those of a segment are those of the whole
range, and a segment is where it begins, with how it is cut.

Forward iterators are partitioned by one scan that keeps, of what it has seen,
the elements that satisfy the predicate in front. It is one scan through all
the segments, with one position that it writes to.
-/

namespace Segmented

open Segments Segmentation

variable {α : Type*}

/-! ## What a partition is -/

/-- `adl_move_swap` of two elements. -/
def Memory.swapAt (mem : Memory α) (p q : ℕ) : Option (Memory α) :=
  (mem p).bind (fun _ => (mem q).map (fun _ => fun i => mem (Equiv.swap p q i)))

/-- **A part is partitioned** at a position: of the elements that were there, those
before it satisfy the predicate and those behind it do not. -/
structure PartitionedTo (pred : α → Bool) (mem : Memory α) (first p : ℕ) (mem' : Memory α)
    (r : ℕ) : Prop where
  rearranged : Rearranged (Set.Ico first p) mem mem'
  ge : first ≤ r
  le : r ≤ p
  before : ∀ i, first ≤ i → i < r → (mem' i).map pred = some true
  after : ∀ i, r ≤ i → i < p → (mem' i).map pred = some false

/-- **The partition of a list of elements**, in the place of a range: first those
that satisfy the predicate, then those that do not, and nothing else changes. -/
structure IsPartition (pred : α → Bool) (xs : List α) (first last : ℕ) (mem mem' : Memory α)
    (r : ℕ) : Prop where
  point : r = first + xs.countP pred
  parts : ∃ ts fs : List α, window mem' first r = ts.map some ∧ window mem' r last = fs.map some
    ∧ (ts ++ fs).Perm xs ∧ (∀ x ∈ ts, pred x = true) ∧ ∀ x ∈ fs, pred x = false
  frame : ∀ p, p < first ∨ last ≤ p → mem' p = mem p

section Partitioned

variable {pred : α → Bool} {mem mem' : Memory α} {v : ℕ → α} {first last p r : ℕ} {x : α}

/-- Two elements that may be read are swapped. -/
theorem swapAt_eq {q : ℕ} {y : α} (hp : mem p = some x) (hq : mem q = some y) :
    mem.swapAt p q = some (fun i => mem (Equiv.swap p q i)) := by
  rw [Memory.swapAt, hp, Option.bind_some, hq, Option.map_some]

theorem exists_of_map_eq {b : Bool} (h : (mem p).map pred = some b) :
    ∃ x, mem p = some x ∧ pred x = b := Option.map_eq_some_iff.mp h

/-- Nothing has been seen. -/
theorem PartitionedTo.nil (pred : α → Bool) (mem : Memory α) (first : ℕ) :
    PartitionedTo pred mem first first mem first :=
  ⟨.refl _ _, le_rfl, le_rfl, fun _ hi hif => absurd hi (Nat.not_le.mpr hif),
    fun _ hi hif => absurd hi (Nat.not_le.mpr hif)⟩

/-- The next element has not been touched. -/
theorem PartitionedTo.next (h : PartitionedTo pred mem first p mem' r) : mem' p = mem p :=
  h.rearranged.eq_of_notMem (fun hp => lt_irrefl p hp.2)

/-- An element that does not satisfy the predicate stays. -/
theorem PartitionedTo.keep (h : PartitionedTo pred mem first p mem' r)
    (hp : (mem p).map pred = some false) : PartitionedTo pred mem first (p + 1) mem' r where
  rearranged := h.rearranged.mono (Set.Ico_subset_Ico_right (Nat.le_succ p))
  ge := h.ge
  le := h.le.trans (Nat.le_succ p)
  before := h.before
  after i hi hip := by
    rcases Nat.lt_succ_iff_lt_or_eq.mp hip with hlt | rfl
    · exact h.after i hi hlt
    · rwa [h.next]

/-- An element that does is swapped with the first that does not. -/
theorem PartitionedTo.swap (h : PartitionedTo pred mem first p mem' r)
    (hp : (mem p).map pred = some true) :
    (mem'.swapAt r p).Yields (fun mem'' => PartitionedTo pred mem first (p + 1) mem'' (r + 1)) := by
  have hge := h.ge
  have hle := h.le
  obtain ⟨x, hx, hpx⟩ := exists_of_map_eq (h.next ▸ hp : (mem' p).map pred = some true)
  obtain ⟨y, hy⟩ : ∃ y, mem' r = some y := by
    rcases hle.eq_or_lt with rfl | hlt
    · exact ⟨x, hx⟩
    · obtain ⟨y, hy, -⟩ := exists_of_map_eq (h.after r le_rfl hlt)
      exact ⟨y, hy⟩
  rw [swapAt_eq hy hx]
  refine Option.yields_some ⟨?_, by omega, by omega, fun i hi hir => ?_, fun i hi hip => ?_⟩
  · have hr : r ∈ Set.Ico first (p + 1) := ⟨hge, Nat.lt_succ_of_le hle⟩
    have hp' : p ∈ Set.Ico first (p + 1) := ⟨hge.trans hle, Nat.lt_succ_self p⟩
    exact (h.rearranged.mono (Set.Ico_subset_Ico_right (Nat.le_succ p))).trans
      (.swap hr hp' mem')
  · rcases Nat.lt_succ_iff_lt_or_eq.mp hir with hlt | rfl
    · rw [Equiv.swap_apply_of_ne_of_ne (by omega) (by omega)]
      exact h.before i hi hlt
    · rw [Equiv.swap_apply_left, hx, Option.map_some, hpx]
  · rcases Nat.lt_succ_iff_lt_or_eq.mp hip with hlt | rfl
    · rw [Equiv.swap_apply_of_ne_of_ne (by omega) (by omega)]
      exact h.after i (by omega) hlt
    · rw [Equiv.swap_apply_right]
      exact h.after r le_rfl (by omega)

/-- **A range that is partitioned** holds the partition of its elements. -/
theorem PartitionedTo.isPartition {d : ℕ} {c : Segmentation d} (hin : InRange c mem v first last)
    (h : PartitionedTo pred mem first last mem' r) :
    IsPartition pred (window v first last) first last mem mem' r := by
  obtain ⟨w, hw, hmem⟩ := h.rearranged.exists_values (k := some) (v := v)
    (fun i hi => hin.mem_eq i hi.1 hi.2)
  have hts : ∀ x ∈ window w first r, pred x = true := by
    intro x hx
    obtain ⟨i, hi, hir, rfl⟩ := mem_window.mp hx
    have := h.before i hi hir
    rw [hmem i ⟨hi, hir.trans_le h.le⟩, Option.map_some] at this
    exact Option.some.inj this
  have hfs : ∀ x ∈ window w r last, pred x = false := by
    intro x hx
    obtain ⟨i, hi, hil, rfl⟩ := mem_window.mp hx
    have := h.after i hi hil
    rw [hmem i ⟨h.ge.trans hi, hil⟩, Option.map_some] at this
    exact Option.some.inj this
  have hperm : (window w first r ++ window w r last).Perm (window v first last) := by
    rw [window_append w h.ge h.le]
    exact hw.window_perm
  refine ⟨?_, ⟨window w first r, window w r last, ?_, ?_, hperm, hts, hfs⟩, fun p hp => ?_⟩
  · have hge := h.ge
    rw [← hperm.countP_eq, List.countP_append, List.countP_eq_length.mpr hts,
      List.countP_eq_zero.mpr (fun x hx => by rw [hfs x hx]; exact Bool.false_ne_true),
      length_window]
    omega
  · rw [window_map]
    exact window_congr (fun i hi hir => hmem i ⟨hi, hir.trans_le h.le⟩)
  · rw [window_map]
    exact window_congr (fun i hi hil => hmem i ⟨h.ge.trans hi, hil⟩)
  · exact h.rearranged.eq_of_notMem (fun hmem => by have := hmem.1; have := hmem.2; omega)

end Partitioned

/-! ## Forward iterators -/

/-- The scan over elements that are not cut into segments, with the position it
writes to. -/
def partitionScanLoop (pred : α → Bool) (first last : ℕ) (s : Memory α × ℕ) :
    Option (Memory α × ℕ) :=
  (Scan.forRange first last (fun first (s : Memory α × ℕ) => (s.1 first).bind (fun x =>
    if pred x then (s.1.swapAt s.2 first).map (fun mem => Scan.more (mem, s.2 + 1))
    else some (Scan.more s))) s).map Scan.result

/-- **`partition_scan`** of forward iterators. -/
def partitionScanForward (pred : α → Bool) {d : ℕ} (c : Segmentation d) (first last : ℕ)
    (s : Memory α × ℕ) : Option (Memory α × ℕ) :=
  scanParts (partitionScanLoop pred) d 0 c first last s

/-- `segmented_partition_dispatch` for forward iterators: what satisfies the
predicate at the begin stays. -/
def segmentedPartitionForward (pred : α → Bool) {d : ℕ} (c : Segmentation d) (mem : Memory α)
    (first last : ℕ) : Option (Memory α × ℕ) :=
  (segmentedFindIfDispatch (fun x => !pred x) d c mem first last).bind (fun first =>
    if first = last then some (mem, first)
    else partitionScanForward pred c (first + 1) last (mem, first))

section Forward

variable {pred : α → Bool} {mem : Memory α} {v : ℕ → α} {first last : ℕ}

theorem partitionScanLoop_yields {s : Memory α × ℕ} {a b : ℕ} (hfa : first ≤ a) (hab : a ≤ b)
    (hbl : b ≤ last) (hmem : ∀ p, first ≤ p → p < last → mem p = some (v p))
    (hs : PartitionedTo pred mem first a s.1 s.2) :
    (partitionScanLoop pred a b s).Yields (fun s => PartitionedTo pred mem first b s.1 s.2) := by
  refine (Scan.forRange_yields (P := fun p (s : Memory α × ℕ) =>
    PartitionedTo pred mem first p s.1 s.2)
    (Q := fun s => PartitionedTo pred mem first b s.1 s.2) hab ?_ hs).map ?_
  · intro p s hap hpb hP
    have hp := hmem p (hfa.trans hap) (hpb.trans_le hbl)
    rw [hP.next, hp, Option.bind_some]
    by_cases hx : pred (v p) = true
    · rw [if_pos hx]
      exact (hP.swap (by rw [hp, Option.map_some, hx])).map (fun mem' h => h)
    · rw [if_neg hx]
      exact Option.yields_some (hP.keep (by rw [hp, Option.map_some, Bool.eq_false_iff.mpr hx]))
  · intro e he
    cases e with
    | more s => exact he
    | done s => exact he

theorem partitionScanForward_yields {d : ℕ} {c : Segmentation d} {s : Memory α × ℕ} {a : ℕ}
    (h : InRange c mem v first last) (hfa : first ≤ a) (hal : a ≤ last)
    (hs : PartitionedTo pred mem first a s.1 s.2) :
    (partitionScanForward pred c a last s).Yields
      (fun s => PartitionedTo pred mem first last s.1 s.2) := by
  refine scanParts_yields (P := fun p (s : Memory α × ℕ) => PartitionedTo pred mem first p s.1 s.2)
    (fun a b s hfa hab hbl hs => partitionScanLoop_yields hfa hab hbl h.mem_eq hs)
    (Nat.zero_le a) hfa hal le_rfl ?_ hs
  rw [Nat.zero_add]
  exact h.le_size

theorem segmentedPartitionForward_yields {d : ℕ} {c : Segmentation d}
    (h : InRange c mem v first last) :
    (segmentedPartitionForward pred c mem first last).Yields
      (fun s => PartitionedTo pred mem first last s.1 s.2) := by
  refine (segmentedFindIfDispatch_yields h).bind (fun f hf => ?_)
  have hge := hf.ge
  have hle := hf.le
  have hbefore : ∀ i, first ≤ i → i < f → (mem i).map pred = some true := by
    intro i hi hif
    rw [h.mem_eq i hi (by omega), Option.map_some, Bool.not_eq_eq_eq_not.mp (hf.before i hi hif)]
    rfl
  have hfirst : PartitionedTo pred mem first f mem f :=
    ⟨.refl _ _, hge, le_rfl, hbefore, fun _ hi hif => absurd hi (Nat.not_le.mpr hif)⟩
  split
  · next heq => exact Option.yields_some (heq ▸ hfirst)
  · next hne =>
    have hlt : f < last := lt_of_le_of_ne hle hne
    have hf' : (mem f).map pred = some false := by
      rw [h.mem_eq f hge hlt, Option.map_some, Bool.not_eq_eq_eq_not.mp (hf.at_lt hlt)]
      rfl
    exact partitionScanForward_yields h (by omega) hlt (hfirst.keep hf')

end Forward

end Segmented
