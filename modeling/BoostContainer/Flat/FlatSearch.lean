import BoostContainer.Flat.FlatTree

/-!
# Searching a flat tree

The binary searches are templates: what is searched for is a key, or anything else that
the comparison can be called with. All that a search learns of it is which keys are less
than it and which it is less than (`KeyView`), so it may be equivalent to a whole stretch
of the sequence, even where the keys of the sequence are unique.

`equal_range` of a container of unique keys takes a shortcut for a key: one binary search
and one comparison. It is right for the keys that the container has, and the containers
take it for no others.
-/

namespace FlatTree

variable {κ α : Type*}

/-- **What is searched for**, as the comparison sees it: the keys `a` with
`key_cmp(a, key)`, which come first, and those with `key_cmp(key, a)`, which come last. -/
structure KeyView (comp : Compare κ) where
  less : κ → Bool
  greater : κ → Bool
  not_both : ∀ a, less a = true → greater a = false
  less_of_not_less : ∀ a b, comp.less b a = false → less b = true → less a = true
  greater_of_not_less : ∀ a b, comp.less b a = false → greater a = true → greater b = true

/-- **A key of the container.** -/
def KeyView.ofKey (comp : Compare κ) (k : κ) : KeyView comp where
  less a := comp.less a k
  greater a := comp.less k a
  not_both _ h := Compare.less_asymm h
  less_of_not_less _ _ hle h := Compare.less_of_not_less_of_less hle h
  greater_of_not_less _ _ hle h := Compare.less_of_less_of_not_less h hle

/-- `key_cmp(key_extract(*i), key)` -/
def lessThan (t : FlatTree κ α) (key : KeyView t.keyComp) (i : ℕ) : Bool :=
  t.seq[i]?.any fun x => key.less (t.keyOfValue x)

/-- `key_cmp(key, key_extract(*i))` -/
def greaterThan (t : FlatTree κ α) (key : KeyView t.keyComp) (i : ℕ) : Bool :=
  t.seq[i]?.any fun x => key.greater (t.keyOfValue x)

/-- **`priv_lower_bound`**, of anything. -/
def privLowerBoundOf (t : FlatTree κ α) (first last : ℕ) (key : KeyView t.keyComp) : ℕ :=
  partitionPoint (t.lessThan key) first (last - first)

/-- **`priv_upper_bound`**, of anything. -/
def privUpperBoundOf (t : FlatTree κ α) (first last : ℕ) (key : KeyView t.keyComp) : ℕ :=
  partitionPoint (fun i => !t.greaterThan key i) first (last - first)

/-- **`priv_equal_range`** -/
def privEqualRange (t : FlatTree κ α) (first last : ℕ) (key : KeyView t.keyComp) : ℕ × ℕ :=
  equalRange (t.lessThan key) (t.greaterThan key) first (last - first)

/-- **`priv_lower_bound_range`** -/
def privLowerBoundRange (t : FlatTree κ α) (first last : ℕ) (k : KeyView t.keyComp) : ℕ × ℕ :=
  let lb := t.privLowerBoundOf first last k
  (lb, if lb ≠ last && !t.greaterThan k lb then lb + 1 else lb)

variable {t : FlatTree κ α} {key : KeyView t.keyComp} {first last i : ℕ}

/-- The searches for keys are these. -/
theorem privLowerBoundOf_ofKey (k : κ) :
    t.privLowerBoundOf first last (KeyView.ofKey t.keyComp k) = t.privLowerBound first last k :=
  rfl

theorem privUpperBoundOf_ofKey (k : κ) :
    t.privUpperBoundOf first last (KeyView.ofKey t.keyComp k) = t.privUpperBound first last k :=
  rfl

theorem lessThan_eq (hi : i < t.seq.length) :
    t.lessThan key i = key.less (t.keyOfValue t.seq[i]) := by
  rw [lessThan, List.getElem?_eq_getElem hi, Option.any_some]

theorem greaterThan_eq (hi : i < t.seq.length) :
    t.greaterThan key i = key.greater (t.keyOfValue t.seq[i]) := by
  rw [greaterThan, List.getElem?_eq_getElem hi, Option.any_some]

/-- **What is searched for divides the sequence.** -/
theorem Sorted.around (h : t.Sorted) (key : KeyView t.keyComp) :
    Around (t.lessThan key) (t.greaterThan key) 0 t.seq.length := by
  refine ⟨fun i j _ hij hj hless => ?_, fun i j _ hij hj hnot => ?_, fun i hless => ?_⟩
  · have hi := hij.trans_lt hj
    rw [lessThan_eq hj] at hless
    rw [lessThan_eq hi]
    exact key.less_of_not_less _ _ (h.not_less hij hi hj) hless
  · have hi := hij.trans_lt hj
    rw [Bool.not_eq_true', greaterThan_eq hj] at hnot
    rw [Bool.not_eq_true', greaterThan_eq hi]
    by_contra hgreater
    rw [key.greater_of_not_less _ _ (h.not_less hij hi hj)
      (Bool.eq_true_of_not_eq_false hgreater)] at hnot
    exact Bool.false_ne_true hnot.symm
  · rcases lt_or_ge i t.seq.length with hi | hi
    · rw [lessThan_eq hi] at hless
      rw [greaterThan_eq hi]
      exact key.not_both _ hless
    · rw [greaterThan, List.getElem?_eq_none hi]
      rfl

/-- The same, of a part of the sequence. -/
theorem Sorted.around_part (h : t.Sorted) (key : KeyView t.keyComp) (hfl : first ≤ last)
    (hl : last ≤ t.seq.length) :
    Around (t.lessThan key) (t.greaterThan key) first (first + (last - first)) :=
  (h.around key).mono (Nat.zero_le _) (by omega)

theorem Sorted.isPartitionPoint_privLowerBoundOf (h : t.Sorted) (key : KeyView t.keyComp)
    (hfl : first ≤ last) (hl : last ≤ t.seq.length) :
    IsPartitionPoint (t.lessThan key) first last (t.privLowerBoundOf first last key) := by
  have hpart := isPartitionPoint_partitionPoint (t.lessThan key) first (last - first)
    (h.around_part key hfl hl).front
  rwa [Nat.add_sub_of_le hfl] at hpart

theorem Sorted.isPartitionPoint_privUpperBoundOf (h : t.Sorted) (key : KeyView t.keyComp)
    (hfl : first ≤ last) (hl : last ≤ t.seq.length) :
    IsPartitionPoint (fun i => !t.greaterThan key i) first last
      (t.privUpperBoundOf first last key) := by
  have hpart := isPartitionPoint_partitionPoint (fun i => !t.greaterThan key i) first
    (last - first) (h.around_part key hfl hl).back
  rwa [Nat.add_sub_of_le hfl] at hpart

/-- **The search for both ends finds both bounds.** -/
theorem Sorted.privEqualRange_eq (h : t.Sorted) (key : KeyView t.keyComp) (hfl : first ≤ last)
    (hl : last ≤ t.seq.length) :
    t.privEqualRange first last key
      = (t.privLowerBoundOf first last key, t.privUpperBoundOf first last key) := by
  have hends := areEnds_equalRange (t.lessThan key) (t.greaterThan key) first (last - first)
    (h.around_part key hfl hl)
  rw [Nat.add_sub_of_le hfl] at hends
  exact Prod.ext (hends.1.unique (h.isPartitionPoint_privLowerBoundOf key hfl hl))
    (hends.2.unique (h.isPartitionPoint_privUpperBoundOf key hfl hl))

/-- **The shortcut is right where at most one element is equivalent.** -/
theorem Sorted.privLowerBoundRange_eq (h : t.Sorted) (hfl : first ≤ last)
    (hl : last ≤ t.seq.length)
    (hone : ∀ i, t.privLowerBoundOf first last key < i → i < last →
      t.greaterThan key i = true) :
    t.privLowerBoundRange first last key = t.privEqualRange first last key := by
  have hlower := h.isPartitionPoint_privLowerBoundOf key hfl hl
  have haround := (h.around key).mono (Nat.zero_le first) hl
  rw [h.privEqualRange_eq key hfl hl, privLowerBoundRange]
  generalize t.privLowerBoundOf first last key = lb at hlower hone ⊢
  refine Prod.ext rfl (IsPartitionPoint.unique ?_
    (h.isPartitionPoint_privUpperBoundOf key hfl hl))
  have hbefore : ∀ i, first ≤ i → i < lb → (!t.greaterThan key i) = true := fun i hi hlt => by
    rw [haround.not_both i (hlower.before i hi hlt)]
    rfl
  have hfirst := hlower.first_le
  have hlast := hlower.le_last
  by_cases hend : lb = last
  · -- nothing is left to be equivalent
    rw [if_neg (by simp [hend])]
    exact ⟨hfirst, hlast, hbefore, fun i hi hlt => absurd hlt (by omega)⟩
  · by_cases hgreater : t.greaterThan key lb = true
    · rw [if_neg (by simp [hgreater])]
      refine ⟨hfirst, hlast, hbefore, fun i hi hlt => ?_⟩
      rw [Bool.not_eq_false']
      rcases hi.eq_or_lt with rfl | hi
      · exact hgreater
      · exact hone i hi hlt
    · rw [if_pos (by simp [hend, hgreater])]
      refine ⟨by omega, by omega, fun i hi hlt => ?_, fun i hi hlt => ?_⟩
      · rcases Nat.lt_succ_iff_lt_or_eq.mp hlt with hlt | rfl
        · exact hbefore i hi hlt
        · simpa using hgreater
      · rw [hone i (by omega) hlt]
        rfl

/-- **The binary searches are right**, in any part of a sequence that is in order: each of
them ends, `priv_lower_bound` and `priv_upper_bound` where the lesser elements end and
where the greater ones begin, `priv_equal_range` at both; and for a key, where the keys of
the sequence are unique, `priv_lower_bound_range` answers what `priv_equal_range` does. -/
theorem binarySearches_correct (h : t.Sorted) (hfl : first ≤ last) (hl : last ≤ t.seq.length) :
    (∀ key : KeyView t.keyComp,
      IsPartitionPoint (t.lessThan key) first last (t.privLowerBoundOf first last key)
        ∧ IsPartitionPoint (fun i => !t.greaterThan key i) first last
          (t.privUpperBoundOf first last key)
        ∧ t.privEqualRange first last key
          = (t.privLowerBoundOf first last key, t.privUpperBoundOf first last key))
      ∧ (t.SortedUnique → ∀ k : κ,
        t.privLowerBoundRange first last (KeyView.ofKey t.keyComp k)
          = t.privEqualRange first last (KeyView.ofKey t.keyComp k)) := by
  refine ⟨fun key => ⟨h.isPartitionPoint_privLowerBoundOf key hfl hl,
    h.isPartitionPoint_privUpperBoundOf key hfl hl, h.privEqualRange_eq key hfl hl⟩,
    fun hunique k => h.privLowerBoundRange_eq hfl hl fun i hlb hi => ?_⟩
  -- what is at the lower bound is not less than the key, and less than all behind it
  have hlower := h.isPartitionPoint_privLowerBoundOf (KeyView.ofKey t.keyComp k) hfl hl
  have hit := hi.trans_le hl
  have hnot := hlower.after _ le_rfl (hlb.trans hi)
  rw [lessThan_eq (hlb.trans hit)] at hnot
  rw [greaterThan_eq hit]
  exact Compare.less_of_not_less_of_less hnot (hunique.less hlb (hlb.trans hit) hit)

/-- Three keys, and a search of all of them. -/
theorem binarySearches_correct_of_three :
    let t : FlatTree ℕ ℕ := ⟨Compare.stdLess ℕ, id, [1, 3, 5]⟩
    (∀ key : KeyView t.keyComp,
      IsPartitionPoint (t.lessThan key) 0 3 (t.privLowerBoundOf 0 3 key)
        ∧ IsPartitionPoint (fun i => !t.greaterThan key i) 0 3 (t.privUpperBoundOf 0 3 key)
        ∧ t.privEqualRange 0 3 key = (t.privLowerBoundOf 0 3 key, t.privUpperBoundOf 0 3 key))
      ∧ (t.SortedUnique → ∀ k : ℕ,
        t.privLowerBoundRange 0 3 (KeyView.ofKey t.keyComp k)
          = t.privEqualRange 0 3 (KeyView.ofKey t.keyComp k)) :=
  binarySearches_correct (t := ⟨Compare.stdLess ℕ, id, [1, 3, 5]⟩)
    (SortedUnique.sorted (show (Compare.stdLess ℕ).StrictlySorted [1, 3, 5] by decide))
    (by decide) (by decide)

end FlatTree
