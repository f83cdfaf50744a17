import BoostContainer.Lib.PartitionPoint
import BoostContainer.Lib.StableOrder

/-!
# A flat tree

A flat tree is a sequence in the order of a comparison of keys. Everything it
does with a key starts with a binary search, of the whole sequence or, where a
hint is given, of what the hint leaves. The hint is believed as far as the
comparisons with its two neighbours go, and no further: a wrong one only
chooses another part of the sequence to search.

The comparison is a strict weak order, which is what the containers ask of it.
-/

/-- `flat_tree`: the comparison, the key of an element and `m_seq`. -/
structure FlatTree (κ α : Type*) where
  keyComp : Compare κ
  keyOfValue : α → κ
  seq : List α

namespace FlatTree

variable {κ α : Type*}

/-- `flat_tree_value_compare` -/
def valueComp (t : FlatTree κ α) : Compare α := t.keyComp.onKey t.keyOfValue

/-- **In order**, with equivalent elements allowed. -/
def Sorted (t : FlatTree κ α) : Prop := t.valueComp.Sorted t.seq

/-- **In order, and no two elements are equivalent.** -/
def SortedUnique (t : FlatTree κ α) : Prop := t.valueComp.StrictlySorted t.seq

/-! ## Searching -/

/-- `key_cmp(key_extract(*i), key)` -/
def lessAt (t : FlatTree κ α) (key : κ) (i : ℕ) : Bool :=
  t.seq[i]?.any fun x => t.keyComp.less (t.keyOfValue x) key

/-- `key_cmp(key, key_extract(*i))` -/
def greaterAt (t : FlatTree κ α) (key : κ) (i : ℕ) : Bool :=
  t.seq[i]?.any fun x => t.keyComp.less key (t.keyOfValue x)

/-- `priv_lower_bound` -/
def privLowerBound (t : FlatTree κ α) (first last : ℕ) (key : κ) : ℕ :=
  partitionPoint (t.lessAt key) first (last - first)

/-- `priv_upper_bound` -/
def privUpperBound (t : FlatTree κ α) (first last : ℕ) (key : κ) : ℕ :=
  partitionPoint (fun i => !t.greaterAt key i) first (last - first)

/-- `lower_bound` -/
def lowerBound (t : FlatTree κ α) (k : κ) : ℕ := t.privLowerBound 0 t.seq.length k

/-- `upper_bound` -/
def upperBound (t : FlatTree κ α) (k : κ) : ℕ := t.privUpperBound 0 t.seq.length k

/-- `find` -/
def find (t : FlatTree κ α) (k : κ) : ℕ :=
  let i := t.lowerBound k
  if i ≠ t.seq.length && t.greaterAt k i then t.seq.length else i

/-! ## Inserting -/

/-- `priv_insert_unique_prepare(b, e, k, commit_data)`: the position, and whether
to insert there. -/
def privInsertUniquePrepareIn (t : FlatTree κ α) (b e : ℕ) (k : κ) : ℕ × Bool :=
  let position := t.privLowerBound b e k
  (position, position == e || t.greaterAt k position)

/-- `priv_insert_unique_prepare(k, commit_data)` -/
def privInsertUniquePrepare (t : FlatTree κ α) (k : κ) : ℕ × Bool :=
  t.privInsertUniquePrepareIn 0 t.seq.length k

/-- `priv_insert_unique_prepare(pos, k, commit_data)` -/
def privInsertUniquePrepareHint (t : FlatTree κ α) (pos : ℕ) (k : κ) : ℕ × Bool :=
  if pos == t.seq.length || t.greaterAt k pos then
    if pos == 0 then (pos, true)
    else
      let prev := pos - 1
      if t.lessAt k prev then (pos, true)
      else if !t.greaterAt k prev then (prev, false)
      else t.privInsertUniquePrepareIn 0 prev k
  else t.privInsertUniquePrepareIn pos t.seq.length k

/-- `priv_insert_equal_prepare` -/
def privInsertEqualPrepare (t : FlatTree κ α) (pos : ℕ) (val : α) : ℕ :=
  if pos == t.seq.length || !t.lessAt (t.keyOfValue val) pos then
    if pos == 0 || !t.greaterAt (t.keyOfValue val) (pos - 1) then pos
    else t.privUpperBound 0 pos (t.keyOfValue val)
  else t.privLowerBound pos t.seq.length (t.keyOfValue val)

/-- `priv_insert_commit` -/
def privInsertCommit (t : FlatTree κ α) (position : ℕ) (val : α) : FlatTree κ α :=
  { t with seq := t.seq.take position ++ val :: t.seq.drop position }

/-- What the two overloads of `insert_unique` do with what was prepared: the tree, the
iterator and whether there was an insertion. -/
def insertPrepared (t : FlatTree κ α) (prepared : ℕ × Bool) (val : α) : FlatTree κ α × ℕ × Bool :=
  (if prepared.2 then t.privInsertCommit prepared.1 val else t, prepared)

/-- `insert_unique(val)` -/
def insertUnique (t : FlatTree κ α) (val : α) : FlatTree κ α × ℕ × Bool :=
  t.insertPrepared (t.privInsertUniquePrepare (t.keyOfValue val)) val

/-- `insert_unique(hint, val)` -/
def insertUniqueHint (t : FlatTree κ α) (hint : ℕ) (val : α) : FlatTree κ α × ℕ × Bool :=
  t.insertPrepared (t.privInsertUniquePrepareHint hint (t.keyOfValue val)) val

/-- `insert_equal(val)` -/
def insertEqual (t : FlatTree κ α) (val : α) : FlatTree κ α × ℕ :=
  let i := t.upperBound (t.keyOfValue val)
  (t.privInsertCommit i val, i)

/-- `insert_equal(hint, val)` -/
def insertEqualHint (t : FlatTree κ α) (hint : ℕ) (val : α) : FlatTree κ α × ℕ :=
  let position := t.privInsertEqualPrepare hint val
  (t.privInsertCommit position val, position)

/-! ## The order, by position -/

variable {t : FlatTree κ α} {k : κ} {i j : ℕ}

theorem lessAt_eq (hi : i < t.seq.length) :
    t.lessAt k i = t.keyComp.less (t.keyOfValue t.seq[i]) k := by
  rw [lessAt, List.getElem?_eq_getElem hi, Option.any_some]

theorem greaterAt_eq (hi : i < t.seq.length) :
    t.greaterAt k i = t.keyComp.less k (t.keyOfValue t.seq[i]) := by
  rw [greaterAt, List.getElem?_eq_getElem hi, Option.any_some]

/-- What is less than a key is not greater. -/
theorem not_greaterAt_of_lessAt (h : t.lessAt k i = true) : t.greaterAt k i = false := by
  rcases lt_or_ge i t.seq.length with hi | hi
  · rw [lessAt_eq hi] at h
    rw [greaterAt_eq hi, ← Bool.not_eq_true]
    have hasymm := asymm (r := fun a b => t.keyComp.less a b = true) h
    exact hasymm
  · rw [greaterAt, List.getElem?_eq_none hi]
    rfl

theorem not_lessAt_of_greaterAt (h : t.greaterAt k i = true) : t.lessAt k i = false := by
  by_contra hless
  rw [not_greaterAt_of_lessAt (Bool.eq_true_of_not_eq_false hless)] at h
  cases h

/-- **An element is not less than those before it.** -/
theorem Sorted.not_less (h : t.Sorted) (hij : i ≤ j) (hi : i < t.seq.length)
    (hj : j < t.seq.length) :
    t.keyComp.less (t.keyOfValue t.seq[j]) (t.keyOfValue t.seq[i]) = false := by
  rcases hij.eq_or_lt with rfl | hlt
  · exact Compare.less_irrefl _
  · exact Bool.eq_false_of_not_eq_true (List.pairwise_iff_getElem.mp h i j hi hj hlt)

/-- Without equivalents, what is before an element is less than it. -/
theorem SortedUnique.less (h : t.SortedUnique) (hij : i < j) (hi : i < t.seq.length)
    (hj : j < t.seq.length) :
    t.keyComp.less (t.keyOfValue t.seq[i]) (t.keyOfValue t.seq[j]) = true :=
  List.pairwise_iff_getElem.mp h i j hi hj hij

theorem SortedUnique.sorted (h : t.SortedUnique) : t.Sorted := Compare.StrictlySorted.sorted h

/-- The elements less than a key come first. -/
theorem Sorted.partitioned_lessAt (h : t.Sorted) (k : κ) :
    Partitioned (t.lessAt k) 0 t.seq.length := by
  intro i j _ hij hj hless
  rw [lessAt_eq hj] at hless
  rw [lessAt_eq (hij.trans_lt hj)]
  exact Compare.less_of_not_less_of_less (h.not_less hij (hij.trans_lt hj) hj) hless

/-- The elements a key is less than come last. -/
theorem Sorted.partitioned_greaterAt (h : t.Sorted) (k : κ) :
    Partitioned (fun i => !t.greaterAt k i) 0 t.seq.length := by
  intro i j _ hij hj hnot
  rw [Bool.not_eq_true', greaterAt_eq hj] at hnot
  rw [Bool.not_eq_true', greaterAt_eq (hij.trans_lt hj)]
  exact Compare.not_less_trans (h.not_less hij (hij.trans_lt hj) hj) hnot

/-- **What `priv_lower_bound` finds in a part of the sequence.** -/
theorem Sorted.isPartitionPoint_privLowerBound (h : t.Sorted) (k : κ) {first last : ℕ}
    (hfl : first ≤ last) (hl : last ≤ t.seq.length) :
    IsPartitionPoint (t.lessAt k) first last (t.privLowerBound first last k) := by
  have hend : first + (last - first) = last := Nat.add_sub_of_le hfl
  have hpart := isPartitionPoint_partitionPoint (t.lessAt k) first (last - first)
    ((h.partitioned_lessAt k).mono (Nat.zero_le _) (hend.le.trans hl))
  rw [hend] at hpart
  exact hpart

/-- **What `priv_upper_bound` finds in a part of the sequence.** -/
theorem Sorted.isPartitionPoint_privUpperBound (h : t.Sorted) (k : κ) {first last : ℕ}
    (hfl : first ≤ last) (hl : last ≤ t.seq.length) :
    IsPartitionPoint (fun i => !t.greaterAt k i) first last (t.privUpperBound first last k) := by
  have hend : first + (last - first) = last := Nat.add_sub_of_le hfl
  have hpart := isPartitionPoint_partitionPoint (fun i => !t.greaterAt k i) first (last - first)
    ((h.partitioned_greaterAt k).mono (Nat.zero_le _) (hend.le.trans hl))
  rw [hend] at hpart
  exact hpart

theorem Sorted.not_lessAt (h : t.Sorted) (hij : i ≤ j) (hless : t.lessAt k i = false) :
    t.lessAt k j = false := by
  rcases lt_or_ge j t.seq.length with hj | hj
  · by_contra hnot
    have := h.partitioned_lessAt k i j (Nat.zero_le _) hij hj (Bool.eq_true_of_not_eq_false hnot)
    rw [hless] at this
    cases this
  · rw [lessAt, List.getElem?_eq_none hj]
    rfl

theorem Sorted.lessAt (h : t.Sorted) (hij : i ≤ j) (hj : j < t.seq.length)
    (hless : t.lessAt k j = true) : t.lessAt k i = true :=
  h.partitioned_lessAt k i j (Nat.zero_le _) hij hj hless

theorem Sorted.not_greaterAt (h : t.Sorted) (hij : i ≤ j) (hj : j < t.seq.length)
    (hgreater : t.greaterAt k j = false) : t.greaterAt k i = false := by
  have hnot : (!t.greaterAt k j) = true := Bool.not_eq_true' _ ▸ hgreater
  have hnot' : (!t.greaterAt k i) = true :=
    h.partitioned_greaterAt k i j (Nat.zero_le _) hij hj hnot
  exact Bool.not_eq_true' _ ▸ hnot'

/-- Without equivalents, an element that is not greater than a key has only
lesser ones before it. -/
theorem SortedUnique.lessAt_of_not_greaterAt (h : t.SortedUnique) (hij : i < j)
    (hj : j < t.seq.length) (hgreater : t.greaterAt k j = false) : t.lessAt k i = true := by
  rw [greaterAt_eq hj] at hgreater
  rw [lessAt_eq (hij.trans hj)]
  exact Compare.less_of_less_of_not_less (h.less hij (hij.trans hj) hj) hgreater

/-! ## A hint changes nothing -/

/-- **What the hintless `priv_insert_unique_prepare` answers**: the position where the
lesser elements end, and whether there is no equivalent there. -/
theorem Sorted.privInsertUniquePrepare_eq (h : t.Sorted) {r : ℕ}
    (hr : IsPartitionPoint (t.lessAt k) 0 t.seq.length r) :
    t.privInsertUniquePrepare k = (r, r == t.seq.length || t.greaterAt k r) := by
  have hpos : t.privLowerBound 0 t.seq.length k = r :=
    (h.isPartitionPoint_privLowerBound k (Nat.zero_le _) le_rfl).unique hr
  rw [privInsertUniquePrepare, privInsertUniquePrepareIn, hpos]

/-- Lesser elements before a position, and none after it. -/
theorem isPartitionPoint_lessAt {r : ℕ} (hr : r ≤ t.seq.length)
    (hbefore : ∀ i < r, t.lessAt k i = true) (hafter : ∀ i, r ≤ i → t.lessAt k i = false) :
    IsPartitionPoint (t.lessAt k) 0 t.seq.length r :=
  ⟨Nat.zero_le _, hr, fun i _ hi => hbefore i hi, fun i hi _ => hafter i hi⟩

/-- Where the hint is the end or greater than the key, nothing from it on is less. -/
theorem Sorted.not_lessAt_of_hint (h : t.Sorted) {pos : ℕ}
    (hpos : (pos == t.seq.length || t.greaterAt k pos) = true) (hi : pos ≤ i) :
    t.lessAt k i = false := by
  rcases (Bool.or_eq_true _ _).mp hpos with hend | hgreater
  · have hle : t.seq.length ≤ i := (beq_iff_eq.mp hend) ▸ hi
    rw [FlatTree.lessAt, List.getElem?_eq_none hle]
    rfl
  · exact h.not_lessAt hi (not_lessAt_of_greaterAt hgreater)

/-- **A hint does not change what `priv_insert_unique_prepare` answers.** -/
theorem SortedUnique.privInsertUniquePrepareHint_eq (h : t.SortedUnique) {pos : ℕ}
    (hle : pos ≤ t.seq.length) (k : κ) :
    t.privInsertUniquePrepareHint pos k = t.privInsertUniquePrepare k := by
  have hs := h.sorted
  unfold privInsertUniquePrepareHint
  by_cases hpos : (pos == t.seq.length || t.greaterAt k pos) = true
  · rw [if_pos hpos]
    have hafter : ∀ i, pos ≤ i → t.lessAt k i = false := fun i => hs.not_lessAt_of_hint hpos
    by_cases hzero : (pos == 0) = true
    · have hpos₀ : pos = 0 := beq_iff_eq.mp hzero
      have hnone : ∀ i < pos, t.lessAt k i = true := fun i hi => absurd hi (by omega)
      rw [if_pos hzero, hs.privInsertUniquePrepare_eq (isPartitionPoint_lessAt hle hnone hafter),
        hpos]
    · rw [if_neg hzero]
      have hpos₀ : pos ≠ 0 := fun heq => hzero (beq_iff_eq.mpr heq)
      have hprev : pos - 1 < t.seq.length := by omega
      show (if t.lessAt k (pos - 1) then _ else _) = _
      by_cases hless : t.lessAt k (pos - 1) = true
      -- The key goes between the neighbours.
      · have hbefore : ∀ i < pos, t.lessAt k i = true :=
          fun i hi => hs.lessAt (Nat.le_sub_one_of_lt hi) hprev hless
        rw [if_pos hless,
          hs.privInsertUniquePrepare_eq (isPartitionPoint_lessAt hle hbefore hafter), hpos]
      · rw [if_neg hless]
        have hnot : ∀ i, pos - 1 ≤ i → t.lessAt k i = false :=
          fun i hi => hs.not_lessAt hi (Bool.eq_false_of_not_eq_true hless)
        by_cases hgreater : t.greaterAt k (pos - 1) = true
        -- The hint is too late.
        · rw [hgreater, if_neg (by decide)]
          have hpart := (hs.isPartitionPoint_privLowerBound k (Nat.zero_le _) hprev.le)
          have hr := hpart.extend le_rfl hprev.le (fun i hi hlt => absurd hlt (not_lt.mpr hi))
            fun i hi _ => hnot i hi
          rw [hs.privInsertUniquePrepare_eq hr, privInsertUniquePrepareIn]
          refine Prod.ext rfl ?_
          show (_ == pos - 1 || _) = (_ == t.seq.length || _)
          have hne : (t.privLowerBound 0 (pos - 1) k == t.seq.length) = false :=
            beq_eq_false_iff_ne.mpr (by have := hpart.le_last; omega)
          rw [hne, Bool.false_or]
          by_cases heq : t.privLowerBound 0 (pos - 1) k = pos - 1
          · rw [heq, hgreater, Bool.or_true]
          · rw [beq_eq_false_iff_ne.mpr heq, Bool.false_or]
        -- The element before the hint is the equivalent.
        · have hgreater' := Bool.eq_false_of_not_eq_true hgreater
          have hbefore : ∀ i < pos - 1, t.lessAt k i = true :=
            fun i hi => h.lessAt_of_not_greaterAt hi hprev hgreater'
          have hne : (pos - 1 == t.seq.length) = false := beq_eq_false_iff_ne.mpr hprev.ne
          rw [hgreater', if_pos (by decide),
            hs.privInsertUniquePrepare_eq (isPartitionPoint_lessAt hprev.le hbefore hnot), hne,
            hgreater', Bool.or_false]
  -- The hint is too early, or the equivalent.
  · rw [if_neg hpos]
    rw [Bool.or_eq_true, not_or] at hpos
    have hlt : pos < t.seq.length := by
      have : pos ≠ t.seq.length := fun heq => hpos.1 (beq_iff_eq.mpr heq)
      omega
    have hpart := hs.isPartitionPoint_privLowerBound k hle le_rfl
    have hr := hpart.extend (Nat.zero_le _) le_rfl
      (fun i _ hi => h.lessAt_of_not_greaterAt hi hlt (Bool.eq_false_of_not_eq_true hpos.2))
      fun i hi hlt => absurd hlt (not_lt.mpr hi)
    rw [hs.privInsertUniquePrepare_eq hr, privInsertUniquePrepareIn]

/-! ## Any hint keeps the order -/

/-- **Inserting keeps the order** where nothing before the position is greater
and nothing after it is less. -/
theorem Sorted.privInsertCommit (h : t.Sorted) {v : α} {p : ℕ}
    (hbefore : ∀ i < p, t.greaterAt (t.keyOfValue v) i = false)
    (hafter : ∀ i, p ≤ i → t.lessAt (t.keyOfValue v) i = false) :
    (t.privInsertCommit p v).Sorted := by
  have hsplit : t.valueComp.Sorted (t.seq.take p ++ t.seq.drop p) := by
    rw [List.take_append_drop]
    exact h
  obtain ⟨hpre, hpost, hcross⟩ := List.sortedBy_append.mp hsplit
  refine List.sortedBy_append.mpr ⟨hpre, List.sortedBy_cons.mpr ⟨?_, hpost⟩, ?_⟩
  · intro x hx
    obtain ⟨i, hi, rfl⟩ := List.mem_drop_iff_getElem.mp hx
    have := hafter (p + i) (Nat.le_add_right _ _)
    rw [lessAt_eq (by omega)] at this
    exact Bool.not_eq_true _ ▸ this
  · intro x hx y hy
    rcases List.mem_cons.mp hy with rfl | hy
    · obtain ⟨i, hi, rfl⟩ := List.mem_take_iff_getElem.mp hx
      have := hbefore i (by omega)
      rw [greaterAt_eq (by omega)] at this
      exact Bool.not_eq_true _ ▸ this
    · exact hcross x hx y hy

/-- **`priv_insert_equal_prepare` finds a place for the value**, whatever the hint. -/
theorem Sorted.privInsertEqualPrepare (h : t.Sorted) {pos : ℕ} (hle : pos ≤ t.seq.length)
    (v : α) :
    t.privInsertEqualPrepare pos v ≤ t.seq.length
      ∧ (t.privInsertCommit (t.privInsertEqualPrepare pos v) v).Sorted := by
  unfold FlatTree.privInsertEqualPrepare
  by_cases hpos : (pos == t.seq.length || !t.lessAt (t.keyOfValue v) pos) = true
  · rw [if_pos hpos]
    have hafter : ∀ i, pos ≤ i → t.lessAt (t.keyOfValue v) i = false := by
      intro i hi
      refine h.not_lessAt hi ?_
      rcases (Bool.or_eq_true _ _).mp hpos with hend | hless
      · rw [FlatTree.lessAt, List.getElem?_eq_none (beq_iff_eq.mp hend).ge]
        rfl
      · exact Bool.not_eq_true' _ ▸ hless
    by_cases hprev : (pos == 0 || !t.greaterAt (t.keyOfValue v) (pos - 1)) = true
    · rw [if_pos hprev]
      refine ⟨hle, h.privInsertCommit (fun i hi => ?_) hafter⟩
      rcases (Bool.or_eq_true _ _).mp hprev with hzero | hgreater
      · exact absurd hi (by rw [beq_iff_eq.mp hzero]; exact Nat.not_lt_zero i)
      · exact h.not_greaterAt (Nat.le_sub_one_of_lt hi) (by omega) (Bool.not_eq_true' _ ▸ hgreater)
    · rw [if_neg hprev]
      have hpart := h.isPartitionPoint_privUpperBound (t.keyOfValue v) (Nat.zero_le pos) hle
      refine ⟨hpart.le_last.trans hle, h.privInsertCommit (fun i hi => ?_) fun i hi => ?_⟩
      · exact Bool.not_eq_true' _ ▸ hpart.before i (Nat.zero_le _) hi
      · rcases lt_or_ge i pos with hlt | hge
        · exact not_lessAt_of_greaterAt (Bool.not_eq_false' _ ▸ hpart.after i hi hlt)
        · exact hafter i hge
  · rw [if_neg hpos]
    rw [Bool.or_eq_true, not_or] at hpos
    have hlt : pos < t.seq.length := by
      have : pos ≠ t.seq.length := fun heq => hpos.1 (beq_iff_eq.mpr heq)
      omega
    have hless : t.lessAt (t.keyOfValue v) pos = true := by
      have := hpos.2
      rwa [Bool.not_eq_true', Bool.not_eq_false] at this
    have hpart := h.isPartitionPoint_privLowerBound (t.keyOfValue v) hle le_rfl
    refine ⟨hpart.le_last, h.privInsertCommit (fun i hi => ?_) fun i hi => ?_⟩
    · rcases lt_or_ge i pos with hlt' | hge
      · exact h.not_greaterAt hlt'.le hlt (not_greaterAt_of_lessAt hless)
      · exact not_greaterAt_of_lessAt (hpart.before i hge hi)
    · rcases lt_or_ge i t.seq.length with hi' | hi'
      · exact hpart.after i hi hi'
      · rw [FlatTree.lessAt, List.getElem?_eq_none hi']
        rfl

/-- **A hint only saves time.** For unique keys it changes neither the decision nor the
position, and for equal keys it leads to a position of the sequence where the
value is in order. -/
theorem hinted_insertion_agrees (t : FlatTree κ α) {hint : ℕ} (hle : hint ≤ t.seq.length) :
    (t.SortedUnique →
      (∀ k, t.privInsertUniquePrepareHint hint k = t.privInsertUniquePrepare k)
        ∧ ∀ v, t.insertUniqueHint hint v = t.insertUnique v)
      ∧ (t.Sorted → ∀ v, (t.insertEqualHint hint v).2 ≤ t.seq.length
        ∧ (t.insertEqualHint hint v).1.Sorted) := by
  refine ⟨fun h => ?_, fun h v => h.privInsertEqualPrepare hle v⟩
  refine ⟨h.privInsertUniquePrepareHint_eq hle, fun v => ?_⟩
  rw [insertUniqueHint, insertUnique, h.privInsertUniquePrepareHint_eq hle]

/-- Three keys and a hint that is too late. -/
theorem hinted_insertion_agrees_late :
    let t : FlatTree ℕ ℕ := ⟨Compare.stdLess ℕ, id, [1, 3, 5]⟩
    t.insertUniqueHint 3 2 = t.insertUnique 2 ∧ (t.insertEqualHint 3 2).1.Sorted := by
  intro t
  have hle : 3 ≤ t.seq.length := by decide
  have h : t.SortedUnique := by
    show ([1, 3, 5] : List ℕ).Pairwise (fun a b => decide (a < b) = true)
    decide
  exact ⟨((hinted_insertion_agrees t hle).1 h).2 2,
    ((hinted_insertion_agrees t hle).2 h.sorted 2).2⟩

end FlatTree
