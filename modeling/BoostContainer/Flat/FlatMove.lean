import BoostContainer.Flat.FlatTree
import BoostContainer.Vector.VectorMerge

/-!
# Moving a flat tree

A flat tree is moved by moving its vector. If the buffer cannot be taken, the
elements are moved one by one. The move constructor with an allocator leaves the
elements it moved from where they are; move assignment clears the source.
-/

namespace Vector

variable {α : Type*}

/-- `uninitialized_move_alloc_n_source`: what is made of the elements, and what is left
of them. -/
def uninitializedMoveSource (moved : α → α) : List α → List α × List α
  | [] => ([], [])
  | x :: first =>
    let rest := uninitializedMoveSource moved first
    (x :: rest.1, moved x :: rest.2)

/-- `vector(vector&&, a)`: the vector, and its source. -/
def moveConstruct (a : Allocation) (propagable : Bool) (moved : α → α) (x : Contents α) :
    Contents α × Contents α :=
  if propagable then (x, ⟨[], 0⟩)
  else
    let made := uninitializedMoveSource moved x.elements
    (⟨made.1, a.received x.elements.length⟩, { x with elements := made.2 })

/-- `priv_move_assign_steal_or_assign`: the vector, and its source. -/
def moveAssign (a : Allocation) (propagable : Bool) (moved : α → α) (v x : Contents α) :
    Contents α × Contents α :=
  if propagable then (x, ⟨[], 0⟩)
  else
    let made := uninitializedMoveSource moved x.elements
    -- `assign` from move iterators, and `x.clear()`.
    (⟨made.1, v.capacityFor a x.elements.length⟩, { x with elements := [] })

theorem uninitializedMoveSource_eq (moved : α → α) (l : List α) :
    uninitializedMoveSource moved l = (l, l.map moved) := by
  induction l with
  | nil => rfl
  | cons x l ih =>
    rw [uninitializedMoveSource, ih]
    rfl

end Vector

namespace FlatTree

variable {κ α : Type*} {t : FlatTree κ α} {k : κ} {v : α} {i : ℕ}

/-- The order that a flat tree keeps. -/
def InOrder (t : FlatTree κ α) (unique : Bool) : Prop := t.valueComp.InOrder unique t.seq

theorem InOrder.sorted {unique : Bool} (h : t.InOrder unique) : t.Sorted := by
  cases unique with
  | true => exact SortedUnique.sorted h
  | false => exact h

/-- What `find` answers, as a position of an element. -/
def findAt (t : FlatTree κ α) (k : κ) : Option ℕ :=
  if t.find k < t.seq.length then some (t.find k) else none

/-- What an insertion leaves. -/
def inserted (t : FlatTree κ α) (unique : Bool) (v : α) : List α :=
  if unique then (t.insertUnique v).1.seq else (t.insertEqual v).1.seq

/-- An element that is neither less nor greater than a key is its equivalent. -/
theorem equiv_getElem (hi : i < t.seq.length) (hless : t.lessAt k i = false)
    (hgreater : t.greaterAt k i = false) :
    t.keyComp.equiv (t.keyOfValue t.seq[i]) k = true := by
  rw [lessAt_eq hi] at hless
  rw [greaterAt_eq hi] at hgreater
  exact Compare.equiv_iff.mpr ⟨hless, hgreater⟩

theorem not_equiv_of_lessAt (hi : i < t.seq.length) (hless : t.lessAt k i = true) :
    t.keyComp.equiv (t.keyOfValue t.seq[i]) k = false := by
  rw [lessAt_eq hi] at hless
  exact Compare.not_equiv_of_less hless

theorem not_equiv_of_greaterAt (hi : i < t.seq.length) (hgreater : t.greaterAt k i = true) :
    t.keyComp.equiv (t.keyOfValue t.seq[i]) k = false := by
  rw [greaterAt_eq hi] at hgreater
  exact Compare.not_equiv_of_less' hgreater

/-- What is after an element that is greater is greater. -/
theorem Sorted.greaterAt (h : t.Sorted) {j : ℕ} (hij : i ≤ j) (hj : j < t.seq.length)
    (hgreater : t.greaterAt k i = true) : t.greaterAt k j = true := by
  by_contra hnot
  rw [h.not_greaterAt hij hj (Bool.eq_false_of_not_eq_true hnot)] at hgreater
  cases hgreater

/-- The lower bound of a key. -/
theorem Sorted.isPartitionPoint_lowerBound (h : t.Sorted) (k : κ) :
    IsPartitionPoint (t.lessAt k) 0 t.seq.length (t.lowerBound k) :=
  h.isPartitionPoint_privLowerBound k (Nat.zero_le _) le_rfl

/-- Where the lower bound is the end or greater, there is no equivalent. -/
theorem Sorted.not_equiv (h : t.Sorted)
    (hend : t.lowerBound k = t.seq.length ∨ t.greaterAt k (t.lowerBound k) = true) :
    ∀ x ∈ t.seq, t.keyComp.equiv (t.keyOfValue x) k = false := by
  intro x hx
  obtain ⟨i, hi, rfl⟩ := List.mem_iff_getElem.mp hx
  have hpart := h.isPartitionPoint_lowerBound k
  rcases lt_or_ge i (t.lowerBound k) with hlt | hge
  · exact not_equiv_of_lessAt hi (hpart.before i (Nat.zero_le _) hlt)
  · rcases hend with hend | hgreater
    · exact absurd hi (by omega)
    · exact not_equiv_of_greaterAt hi (h.greaterAt hge hi hgreater)

/-- Elsewhere it is one. -/
theorem Sorted.equiv_lowerBound (h : t.Sorted) (hne : t.lowerBound k ≠ t.seq.length)
    (hgreater : t.greaterAt k (t.lowerBound k) = false) :
    ∃ hi : t.lowerBound k < t.seq.length,
      t.keyComp.equiv (t.keyOfValue (t.seq[t.lowerBound k])) k = true := by
  have hpart := h.isPartitionPoint_lowerBound k
  have hi : t.lowerBound k < t.seq.length := lt_of_le_of_ne hpart.le_last hne
  exact ⟨hi, equiv_getElem hi (hpart.after _ le_rfl hi) hgreater⟩

/-- **Inserting keeps the order without equivalents** where what is before the position
is less and what is after it is greater. -/
theorem SortedUnique.privInsertCommit (h : t.SortedUnique) {p : ℕ}
    (hbefore : ∀ i, i < t.seq.length → i < p → t.lessAt (t.keyOfValue v) i = true)
    (hafter : ∀ i, i < t.seq.length → p ≤ i → t.greaterAt (t.keyOfValue v) i = true) :
    (t.privInsertCommit p v).SortedUnique := by
  have hsplit : (t.seq.take p ++ t.seq.drop p).Pairwise
      (fun a b => t.valueComp.less a b = true) := by
    rw [List.take_append_drop]
    exact h
  obtain ⟨hpre, hpost, hcross⟩ := List.pairwise_append.mp hsplit
  refine List.pairwise_append.mpr ⟨hpre, List.pairwise_cons.mpr ⟨?_, hpost⟩, ?_⟩
  · intro x hx
    obtain ⟨i, hi, rfl⟩ := List.mem_drop_iff_getElem.mp hx
    have hgreater := hafter (p + i) (by omega) (Nat.le_add_right _ _)
    rw [greaterAt_eq (by omega)] at hgreater
    exact hgreater
  · intro x hx y hy
    rcases List.mem_cons.mp hy with rfl | hy
    · obtain ⟨i, hi, rfl⟩ := List.mem_take_iff_getElem.mp hx
      have hless := hbefore i (by omega) (by omega)
      rw [lessAt_eq (by omega)] at hless
      exact hless
    · exact hcross x hx y hy

theorem privInsertCommit_perm (t : FlatTree κ α) (p : ℕ) (v : α) :
    (t.privInsertCommit p v).seq.Perm (v :: t.seq) := by
  rw [privInsertCommit]
  refine List.perm_middle.trans (List.Perm.cons v ?_)
  rw [List.take_append_drop]

theorem Sorted.inserted (h : t.Sorted) (v : α) : (t.insertEqual v).1.Sorted := by
  have hpart := h.isPartitionPoint_privUpperBound (t.keyOfValue v) (Nat.zero_le _) le_rfl
  refine h.privInsertCommit (fun i hi => ?_) fun i hi => ?_
  · exact Bool.not_eq_true' _ ▸ hpart.before i (Nat.zero_le _) hi
  · rcases lt_or_ge i t.seq.length with hlt | hge
    · exact not_lessAt_of_greaterAt (Bool.not_eq_false' _ ▸ hpart.after i hi hlt)
    · rw [FlatTree.lessAt, List.getElem?_eq_none hge]
      rfl

/-- Where the lower bound is the end or greater, a value is in order. -/
theorem SortedUnique.insertCommit (h : t.SortedUnique)
    (hend : t.lowerBound (t.keyOfValue v) = t.seq.length
      ∨ t.greaterAt (t.keyOfValue v) (t.lowerBound (t.keyOfValue v)) = true) :
    (t.privInsertCommit (t.lowerBound (t.keyOfValue v)) v).SortedUnique := by
  have hpart := h.sorted.isPartitionPoint_lowerBound (t.keyOfValue v)
  refine h.privInsertCommit (fun i hi hlt => hpart.before i (Nat.zero_le _) hlt) fun i hi hge => ?_
  rcases hend with hend | hgreater
  · exact absurd hi (by omega)
  · exact h.sorted.greaterAt hge hi hgreater

/-- **`insert_unique` adds a value that has no equivalent.** -/
theorem SortedUnique.inserted (h : t.SortedUnique) (v : α) :
    t.valueComp.InOrder true (t.inserted true v) ∧
      if true = true ∧ ∃ w ∈ t.seq, t.valueComp.equiv w v = true then t.inserted true v = t.seq
      else (t.inserted true v).Perm (v :: t.seq) := by
  have hs := h.sorted
  have hinserted : t.inserted true v = if t.lowerBound (t.keyOfValue v) == t.seq.length ||
      t.greaterAt (t.keyOfValue v) (t.lowerBound (t.keyOfValue v))
      then (t.privInsertCommit (t.lowerBound (t.keyOfValue v)) v).seq else t.seq := by
    rw [FlatTree.inserted, if_pos rfl, insertUnique, insertPrepared, privInsertUniquePrepare,
      privInsertUniquePrepareIn]
    exact apply_ite FlatTree.seq _ _ _
  rw [hinserted]
  by_cases hend : (t.lowerBound (t.keyOfValue v) == t.seq.length ||
      t.greaterAt (t.keyOfValue v) (t.lowerBound (t.keyOfValue v))) = true
  · rw [if_pos hend]
    rw [Bool.or_eq_true, beq_iff_eq] at hend
    have hnone := hs.not_equiv hend
    have hno : ¬ (true = true ∧ ∃ w ∈ t.seq, t.valueComp.equiv w v = true) := by
      rintro ⟨-, w, hw, hequiv⟩
      rw [show t.valueComp.equiv w v = t.keyComp.equiv (t.keyOfValue w) (t.keyOfValue v) from rfl,
        hnone w hw] at hequiv
      cases hequiv
    rw [if_neg hno]
    exact ⟨h.insertCommit hend, t.privInsertCommit_perm _ v⟩
  · rw [if_neg hend]
    rw [Bool.or_eq_true, beq_iff_eq, not_or, Bool.not_eq_true] at hend
    obtain ⟨hi, hequiv⟩ := hs.equiv_lowerBound hend.1 hend.2
    rw [if_pos ⟨rfl, _, List.getElem_mem hi, hequiv⟩]
    exact ⟨h, rfl⟩

/-- **A flat tree in order acts as the set, or multiset, of its elements.** -/
theorem InOrder.actsAs {unique : Bool} (h : t.InOrder unique) :
    t.keyComp.ActsAs t.keyOfValue unique t.seq t.findAt fun v m => m = t.inserted unique v := by
  have hs := h.sorted
  refine ⟨fun k i hi => ?_, fun k hk => ?_, ?_⟩
  · rw [findAt] at hi
    split at hi
    · next hlt =>
      cases hi
      rw [find] at hlt ⊢
      split at hlt
      · exact absurd hlt (lt_irrefl _)
      · next hnot =>
        rw [if_neg hnot]
        rw [Bool.and_eq_true, decide_eq_true_eq, not_and, Bool.not_eq_true] at hnot
        have hgreater := hnot hlt.ne
        obtain ⟨hi, hequiv⟩ := hs.equiv_lowerBound hlt.ne hgreater
        exact ⟨_, List.getElem?_eq_getElem hi, hequiv⟩
    · cases hi
  · refine hs.not_equiv ?_
    rw [findAt] at hk
    split at hk
    · cases hk
    · next hge =>
      rw [find] at hge
      split at hge
      · next hgreater =>
        rw [Bool.and_eq_true] at hgreater
        exact Or.inr hgreater.2
      · exact Or.inl ((hs.isPartitionPoint_lowerBound k).le_last.antisymm (not_lt.mp hge))
  · rintro v m rfl
    cases unique with
    | true => exact SortedUnique.inserted h v
    | false => exact ⟨hs.inserted v, (if_neg (by simp)).mpr (t.privInsertCommit_perm _ v)⟩

end FlatTree
