import Mathlib

/-!
# Masks

A word of bits stands for the list of the positions where a bit is set, from the
lowest to the highest. The lowest set bit, the lowest clear one and the highest set one
are found by counting zeros or ones from an end, and a word is cut off above or
below a position by shifts of the word that has all bits.
-/

namespace Mask

variable {w : ℕ}

/-- **Where a bit is set**, from the lowest on. -/
def bits (m : BitVec w) : List ℕ := (List.range w).filter fun i => m.getLsbD i

/-- All bits. -/
def full : BitVec w := BitVec.allOnes w

/-- One bit. -/
def bit (n : ℕ) : BitVec w := 1#w <<< n

/-- `unchecked_countr_zero` -/
def countrZero (m : BitVec w) : ℕ := m.ctz.toNat

/-- `unchecked_countr_one` -/
def countrOne (m : BitVec w) : ℕ := countrZero (~~~m)

/-- `unchecked_countl_zero` -/
def countlZero (m : BitVec w) : ℕ := m.clz.toNat

/-- `popcount` -/
def popcount (m : BitVec w) : ℕ := m.cpop.toNat

variable {m m' : BitVec w} {n i : ℕ}

/-! ## The list of the set bits -/

@[simp] theorem mem_bits : n ∈ bits m ↔ m.getLsbD n = true := by
  rw [bits, List.mem_filter, List.mem_range]
  exact ⟨fun h => h.2, fun h => ⟨BitVec.lt_of_getLsbD h, h⟩⟩

theorem lt_of_mem_bits (h : n ∈ bits m) : n < w := BitVec.lt_of_getLsbD (mem_bits.mp h)

theorem sorted_bits (m : BitVec w) : (bits m).Pairwise (· < ·) :=
  List.pairwise_lt_range.filter _

theorem nodup_bits (m : BitVec w) : (bits m).Nodup := (sorted_bits m).imp ne_of_lt

theorem eq_of_bits (h : ∀ i < w, m.getLsbD i = m'.getLsbD i) : m = m' :=
  BitVec.eq_of_getLsbD_eq fun i hi => h i hi

theorem bits_eq_nil_iff : bits m = [] ↔ m = 0 := by
  constructor
  · intro h
    refine eq_of_bits fun i _ => ?_
    have hi : ¬ m.getLsbD i = true := fun hi => List.not_mem_nil (h ▸ mem_bits.mpr hi)
    rw [Bool.not_eq_true] at hi
    exact hi.trans BitVec.getLsbD_zero.symm
  · rintro rfl
    exact List.filter_eq_nil_iff.mpr fun i _ => by
      rw [show (0 : BitVec w).getLsbD i = false from BitVec.getLsbD_zero]
      exact Bool.false_ne_true

theorem bits_zero : bits (0 : BitVec w) = [] := bits_eq_nil_iff.mpr rfl

theorem bits_full : bits (full : BitVec w) = List.range w := by
  refine List.filter_eq_self.mpr fun i hi => ?_
  rw [full, BitVec.getLsbD_allOnes]
  exact decide_eq_true (List.mem_range.mp hi)

theorem eq_full_iff : m = full ↔ ∀ n < w, m.getLsbD n = true := by
  constructor
  · rintro rfl n hn
    rw [full, BitVec.getLsbD_allOnes]
    exact decide_eq_true hn
  · intro h
    refine eq_of_bits fun i hi => ?_
    rw [h i hi, full, BitVec.getLsbD_allOnes]
    exact (decide_eq_true hi).symm

/-- A word with some of the bits of another. -/
theorem bits_restrict {p : ℕ → Bool} (h : ∀ i < w, m'.getLsbD i = (m.getLsbD i && p i)) :
    bits m' = (bits m).filter p := by
  rw [bits, bits, List.filter_filter]
  refine List.filter_congr fun i hi => ?_
  rw [h i (List.mem_range.mp hi), Bool.and_comm]

theorem popcount_eq : popcount m = (bits m).length := by
  have hcount : ∀ n ≤ w, ∀ acc, m.cpopNatRec n acc
      = acc + ((List.range n).filter fun i => m.getLsbD i).length := by
    intro n
    induction n with
    | zero => intro _ acc; rfl
    | succ n ih =>
      intro hn acc
      rw [BitVec.cpopNatRec_succ, ih (by omega), List.range_succ, List.filter_append,
        List.length_append]
      cases hbit : m.getLsbD n with
      | false => simp [hbit]
      | true => simp [hbit]; omega
  rw [popcount, BitVec.toNat_cpop, hcount w le_rfl, Nat.zero_add, bits]

theorem popcount_le : popcount m ≤ w := by
  rw [popcount_eq]
  exact (List.length_filter_le _ _).trans List.length_range.le

theorem popcount_eq_zero_iff : popcount m = 0 ↔ m = 0 := by
  rw [popcount_eq, List.length_eq_zero_iff, bits_eq_nil_iff]

theorem popcount_eq_width_iff : popcount m = w ↔ m = full := by
  rw [popcount_eq]
  constructor
  · intro h
    have hall := List.length_filter_eq_length_iff.mp (h.trans List.length_range.symm)
    exact eq_full_iff.mpr fun n hn => hall n (List.mem_range.mpr hn)
  · rintro rfl
    rw [bits_full, List.length_range]

/-! ## Around a position -/

/-- A sorted list is what is below a member, the member, and what is above. -/
theorem split_of_sorted {l : List ℕ} (h : l.Pairwise (· < ·)) (hn : n ∈ l) :
    l = l.filter (· < n) ++ n :: l.filter (n < ·) := by
  induction l with
  | nil => exact absurd hn List.not_mem_nil
  | cons a l ih =>
    obtain ⟨ha, hl⟩ := List.pairwise_cons.mp h
    rcases List.mem_cons.mp hn with rfl | hmem
    · have hbelow : l.filter (· < n) = [] := List.filter_eq_nil_iff.mpr fun x hx => by
        simpa using (ha x hx).le
      have habove : l.filter (n < ·) = l := List.filter_eq_self.mpr fun x hx => by
        simpa using ha x hx
      rw [List.filter_cons_of_neg (by simp), List.filter_cons_of_neg (by simp), hbelow, habove,
        List.nil_append]
    · have hlt := ha n hmem
      rw [List.filter_cons_of_pos (by simpa using hlt),
        List.filter_cons_of_neg (by simpa using hlt.le), List.cons_append, ← ih hl hmem]

/-- The parts of the list of bits are told by the position between them. -/
theorem filter_of_split {l₁ l₂ : List ℕ} (h : bits m = l₁ ++ n :: l₂) :
    (bits m).filter (· < n) = l₁ ∧ (bits m).filter (n < ·) = l₂ := by
  have hsplit := split_of_sorted (sorted_bits m) (h ▸ List.mem_append_right l₁ List.mem_cons_self)
  have hnd := nodup_bits m
  rw [h] at hnd
  have hnot := (List.nodup_middle.mp hnd).notMem
  obtain ⟨h₁, -, h₂⟩ := (List.append_cons_inj_of_notMem (fun hx => hnot (List.mem_append_left _ hx))
    fun hx => hnot (List.mem_append_right _ hx)).mp (h.symm.trans hsplit)
  exact ⟨h₁.symm, h₂.symm⟩

theorem filter_from_of_split {l₁ l₂ : List ℕ} (h : bits m = l₁ ++ n :: l₂) :
    (bits m).filter (n ≤ ·) = n :: l₂ := by
  have hsorted := sorted_bits m
  have habove := (filter_of_split h).2
  rw [h] at hsorted habove ⊢
  obtain ⟨-, hrest, hbelow⟩ := List.pairwise_append.mp hsorted
  have h₁ : l₁.filter (n ≤ ·) = [] := List.filter_eq_nil_iff.mpr fun i hi => by
    simpa using hbelow i hi n List.mem_cons_self
  have h₂ : l₂.filter (n ≤ ·) = l₂ := List.filter_eq_self.mpr fun i hi => by
    simpa using ((List.pairwise_cons.mp hrest).1 i hi).le
  rw [List.filter_append, h₁, List.nil_append, List.filter_cons_of_pos (by simp), h₂]

theorem getLsbD_bit : (bit n : BitVec w).getLsbD i = (decide (i < w) && decide (i = n)) := by
  rw [bit, BitVec.getLsbD_shiftLeft, BitVec.getLsbD_one, Bool.eq_iff_iff]
  simp only [Bool.and_eq_true, decide_eq_true_eq, Bool.not_eq_true', decide_eq_false_iff_not]
  omega

/-- **Above a position**: `full << 1 << n` -/
theorem bits_above : bits (m &&& (full <<< 1 <<< n)) = (bits m).filter (n < ·) := by
  refine bits_restrict fun i hi => ?_
  rw [BitVec.getLsbD_and, BitVec.getLsbD_shiftLeft, BitVec.getLsbD_shiftLeft, full,
    BitVec.getLsbD_allOnes]
  congr 1
  rw [Bool.eq_iff_iff]
  simp only [Bool.and_eq_true, decide_eq_true_eq, Bool.not_eq_true', decide_eq_false_iff_not]
  omega

/-- **From a position on**: `full << n` -/
theorem bits_from : bits (m &&& (full <<< n)) = (bits m).filter (n ≤ ·) := by
  refine bits_restrict fun i hi => ?_
  rw [BitVec.getLsbD_and, BitVec.getLsbD_shiftLeft, full, BitVec.getLsbD_allOnes]
  congr 1
  rw [Bool.eq_iff_iff]
  simp only [Bool.and_eq_true, decide_eq_true_eq, Bool.not_eq_true', decide_eq_false_iff_not]
  omega

/-- **Below a position**: `full >> 1 >> (w - 1 - n)` -/
theorem bits_below (hn : n < w) :
    bits (m &&& (full >>> 1 >>> (w - 1 - n))) = (bits m).filter (· < n) := by
  refine bits_restrict fun i hi => ?_
  rw [BitVec.getLsbD_and, BitVec.getLsbD_ushiftRight, BitVec.getLsbD_ushiftRight, full,
    BitVec.getLsbD_allOnes]
  congr 1
  rw [decide_eq_decide]
  omega

/-- The bits of a word less one: those below its lowest bit are turned around. -/
theorem getLsbD_sub_one (hi : i < w) :
    (m - 1).getLsbD i = ! (m.getLsbD i ^^ decide (∃ j < i, m.getLsbD j = true)) := by
  rw [show m - 1 = ~~~(-m) from BitVec.not_neg m |>.symm, BitVec.getLsbD_not, BitVec.getLsbD_neg,
    decide_eq_true hi, Bool.true_and, Bool.true_and]

/-- **Before a position**: `(1 << n) - 1` -/
theorem bits_before (hn : n < w) : bits (m &&& (bit n - 1)) = (bits m).filter (· < n) := by
  refine bits_restrict fun i hi => ?_
  rw [BitVec.getLsbD_and, getLsbD_sub_one hi, getLsbD_bit]
  congr 1
  have hex : (∃ j < i, (bit n : BitVec w).getLsbD j = true) ↔ n < i := by
    simp only [getLsbD_bit, Bool.and_eq_true, decide_eq_true_eq]
    exact ⟨fun ⟨j, hj, _, he⟩ => he ▸ hj, fun h => ⟨n, h, hn, rfl⟩⟩
  simp only [hex, decide_eq_true hi, Bool.true_and]
  rcases Nat.lt_trichotomy i n with h | h | h
  · simp [h, h.ne, h.not_gt]
  · simp [h]
  · simp [h, h.ne', h.not_gt]

theorem and_zero_sub_one : m &&& ((0 : BitVec w) - 1) = m := by
  refine eq_of_bits fun i hi => ?_
  rw [BitVec.getLsbD_and, getLsbD_sub_one hi,
    show (0 : BitVec w).getLsbD i = false from BitVec.getLsbD_zero]
  have hno : ¬ ∃ j < i, (0 : BitVec w).getLsbD j = true := fun ⟨j, _, h⟩ =>
    Bool.false_ne_true (BitVec.getLsbD_zero.symm.trans h)
  rw [decide_eq_false hno, Bool.xor_false, Bool.not_false, Bool.and_true]

/-! ## The ends -/

theorem getLsbD_countrZero (h : m ≠ 0) : m.getLsbD (countrZero m) = true :=
  BitVec.getLsbD_true_ctz_of_ne_zero h

theorem getLsbD_of_lt_countrZero (h : i < countrZero m) : m.getLsbD i = false :=
  BitVec.getLsbD_false_of_lt_ctz h

/-- **The lowest bit** comes first, and `m & (m - 1)` has the others. -/
theorem bits_eq_cons (h : m ≠ 0) : bits m = countrZero m :: bits (m &&& (m - 1)) := by
  have hfirst := getLsbD_countrZero h
  have hbelow : (bits m).filter (· < countrZero m) = [] :=
    List.filter_eq_nil_iff.mpr fun i hi => by
      have hset := mem_bits.mp hi
      intro hlt
      rw [getLsbD_of_lt_countrZero (of_decide_eq_true hlt)] at hset
      exact Bool.false_ne_true hset
  have hrest : bits (m &&& (m - 1)) = (bits m).filter (countrZero m < ·) := by
    refine bits_restrict fun i hi => ?_
    rw [BitVec.getLsbD_and, getLsbD_sub_one hi]
    cases hbit : m.getLsbD i with
    | false => rfl
    | true =>
      have hiff : (∃ j < i, m.getLsbD j = true) ↔ countrZero m < i := by
        refine ⟨fun ⟨j, hj, hset⟩ => ?_, fun hlt => ⟨_, hlt, hfirst⟩⟩
        by_contra hle
        rw [getLsbD_of_lt_countrZero (by omega)] at hset
        exact Bool.false_ne_true hset
      rw [decide_eq_decide.mpr hiff]
      cases decide (countrZero m < i) <;> rfl
  have hsplit := split_of_sorted (sorted_bits m) (mem_bits.mpr hfirst)
  rw [hbelow, List.nil_append, ← hrest] at hsplit
  exact hsplit

theorem countrZero_eq (h : m ≠ 0) (d : ℕ) : countrZero m = (bits m).headD d := by
  rw [bits_eq_cons h]
  rfl

theorem getLsbD_last (h : m ≠ 0) : m.getLsbD (w - 1 - countlZero m) = true := by
  have hw : 0 < w := Nat.pos_of_ne_zero fun hw => h (by
    subst hw
    exact BitVec.eq_nil m)
  exact BitVec.getLsbD_true_clz_of_ne_zero hw h

/-- **The highest bit** comes last. -/
theorem last_eq (h : m ≠ 0) (d : ℕ) : w - 1 - countlZero m = (bits m).getLastD d := by
  have hlast := getLsbD_last h
  have habove : (bits m).filter (w - 1 - countlZero m < ·) = [] :=
    List.filter_eq_nil_iff.mpr fun i hi => by
      intro hlt
      have hset := mem_bits.mp hi
      have hle := of_decide_eq_true hlt
      have hbound : m.toNat < 2 ^ i := lt_of_lt_of_le BitVec.toNat_lt_two_pow_sub_clz
        (Nat.pow_le_pow_right (by omega) (by rw [countlZero] at hle; omega))
      rw [BitVec.getLsbD, Nat.testBit_lt_two_pow hbound] at hset
      exact Bool.false_ne_true hset
  have hsplit := split_of_sorted (sorted_bits m) (mem_bits.mpr hlast)
  rw [habove] at hsplit
  rw [hsplit, List.getLastD_concat]

/-- No bit is above it. -/
theorem le_last (h : m.getLsbD i = true) : i ≤ w - 1 - countlZero m := by
  by_contra hlt
  have hbound : m.toNat < 2 ^ i := lt_of_lt_of_le BitVec.toNat_lt_two_pow_sub_clz
    (Nat.pow_le_pow_right (by omega) (by rw [countlZero] at hlt; omega))
  rw [BitVec.getLsbD, Nat.testBit_lt_two_pow hbound] at h
  exact Bool.false_ne_true h

/-! ## Changing a bit -/

theorem getLsbD_set :
    (m ||| bit n).getLsbD i = (m.getLsbD i || (decide (i < w) && decide (i = n))) := by
  rw [BitVec.getLsbD_or, getLsbD_bit]

theorem getLsbD_clear (hi : i < w) :
    (m &&& ~~~(bit n)).getLsbD i = (m.getLsbD i && decide (i ≠ n)) := by
  rw [BitVec.getLsbD_and, BitVec.getLsbD_not, getLsbD_bit, decide_eq_true hi, Bool.true_and,
    Bool.true_and, decide_not]

/-- **A bit is set**, and comes between those below and those above it. -/
theorem bits_set (hn : n < w) (hclear : m.getLsbD n = false) :
    ∃ l₁ l₂, bits m = l₁ ++ l₂ ∧ bits (m ||| bit n) = l₁ ++ n :: l₂ := by
  have hset : ∀ i < w, m.getLsbD i = ((m ||| bit n).getLsbD i && decide (i ≠ n)) := by
    intro i hi
    rw [getLsbD_set, decide_eq_true hi, Bool.true_and]
    rcases eq_or_ne i n with rfl | hne
    · rw [hclear, decide_eq_false (not_not_intro rfl), Bool.and_false]
    · rw [decide_eq_false hne, Bool.or_false, decide_eq_true hne, Bool.and_true]
  have hmem : n ∈ bits (m ||| bit n) := mem_bits.mpr (by
    rw [getLsbD_set, decide_eq_true hn, decide_eq_true rfl, Bool.and_true, Bool.or_true])
  obtain ⟨l₁, l₂, hsplit⟩ := List.append_of_mem hmem
  have hnd := nodup_bits (m ||| bit n)
  rw [hsplit] at hnd
  have hnot := (List.nodup_middle.mp hnd).notMem
  refine ⟨l₁, l₂, ?_, hsplit⟩
  have hkeep : ∀ l : List ℕ, n ∉ l → l.filter (fun i => decide (i ≠ n)) = l := fun l hl =>
    List.filter_eq_self.mpr fun i hi => decide_eq_true fun heq => hl (heq ▸ hi)
  rw [bits_restrict hset, hsplit, List.filter_append, List.filter_cons_of_neg (by simp),
    hkeep l₁ fun h => hnot (List.mem_append_left _ h),
    hkeep l₂ fun h => hnot (List.mem_append_right _ h)]

/-- **A bit is cleared.** -/
theorem bits_clear : bits (m &&& ~~~(bit n)) = (bits m).filter (· ≠ n) :=
  bits_restrict fun _ hi => getLsbD_clear hi

theorem popcount_set (hn : n < w) (hclear : m.getLsbD n = false) :
    popcount (m ||| bit n) = popcount m + 1 := by
  obtain ⟨l₁, l₂, hold, hnew⟩ := bits_set hn hclear
  rw [popcount_eq, popcount_eq, hold, hnew, List.length_append, List.length_append, List.length_cons]
  omega

theorem popcount_clear (hset : m.getLsbD n = true) :
    popcount (m &&& ~~~(bit n)) + 1 = popcount m := by
  obtain ⟨l₁, l₂, hsplit⟩ := List.append_of_mem (mem_bits.mpr hset)
  have hnd := nodup_bits m
  rw [hsplit] at hnd
  have hnot := (List.nodup_middle.mp hnd).notMem
  have hkeep : ∀ l : List ℕ, n ∉ l → l.filter (fun i => decide (i ≠ n)) = l := fun l hl =>
    List.filter_eq_self.mpr fun i hi => decide_eq_true fun heq => hl (heq ▸ hi)
  rw [popcount_eq, popcount_eq, bits_clear, hsplit, List.filter_append,
    List.filter_cons_of_neg (by simp), hkeep l₁ fun h => hnot (List.mem_append_left _ h),
    hkeep l₂ fun h => hnot (List.mem_append_right _ h), List.length_append, List.length_append,
    List.length_cons]
  omega

theorem not_ne_zero (h : m ≠ full) : ~~~m ≠ 0 := fun hzero => h (eq_full_iff.mpr fun n hn => by
  have hclear : (~~~m).getLsbD n = false := hzero ▸ BitVec.getLsbD_zero
  rw [BitVec.getLsbD_not, decide_eq_true hn, Bool.true_and, Bool.not_eq_false'] at hclear
  exact hclear)

/-- The lowest clear bit. -/
theorem getLsbD_countrOne (h : m ≠ full) : m.getLsbD (countrOne m) = false := by
  have hset := getLsbD_countrZero (not_ne_zero h)
  rw [BitVec.getLsbD_not, Bool.and_eq_true, Bool.not_eq_true'] at hset
  exact hset.2

theorem countrOne_lt (h : m ≠ full) : countrOne m < w :=
  BitVec.lt_of_getLsbD (getLsbD_countrZero (not_ne_zero h))

theorem getLsbD_of_lt_countrOne (h : i < countrOne m) (hi : i < w) : m.getLsbD i = true := by
  have hclear := getLsbD_of_lt_countrZero h
  rw [BitVec.getLsbD_not, decide_eq_true hi, Bool.true_and, Bool.not_eq_false'] at hclear
  exact hclear

/-- The numbers below a number, of those below another. -/
theorem filter_lt_range {k l : ℕ} (h : k ≤ l) :
    (List.range l).filter (· < k) = List.range k := by
  obtain ⟨d, rfl⟩ := Nat.exists_eq_add_of_le h
  have habove : ((List.range d).map (k + ·)).filter (· < k) = [] :=
    List.filter_eq_nil_iff.mpr fun i hi => by
      obtain ⟨j, -, rfl⟩ := List.mem_map.mp hi
      simp
  rw [List.range_add, List.filter_append, habove, List.append_nil]
  exact List.filter_eq_self.mpr fun i hi => decide_eq_true (List.mem_range.mp hi)

/-- **Nothing above the lowest clear bit**: the bits are the lowest. -/
theorem bits_eq_range (h : m ≠ full) (hlast : w - 1 - countlZero m < countrOne m) :
    bits m = List.range (countrOne m) := by
  have hlt := countrOne_lt h
  have hiff : ∀ i ∈ List.range w, m.getLsbD i = decide (i < countrOne m) := fun i hi => by
    by_cases hbelow : i < countrOne m
    · rw [getLsbD_of_lt_countrOne hbelow (List.mem_range.mp hi), decide_eq_true hbelow]
    · rw [decide_eq_false hbelow]
      refine Bool.eq_false_of_not_eq_true fun hset => ?_
      have hle := le_last hset
      omega
  rw [bits, List.filter_congr hiff, filter_lt_range hlt.le]

theorem add_one_eq : m + 1 = -~~~m := by
  rw [BitVec.neg_eq_not_add, BitVec.not_not]
  rfl

/-- **The lowest clear bit is set** by `m | (m + 1)`. -/
theorem or_add_one (h : m ≠ full) : m ||| (m + 1) = m ||| bit (countrOne m) := by
  have hlt := countrOne_lt h
  refine eq_of_bits fun i hi => ?_
  rw [getLsbD_set, BitVec.getLsbD_or, add_one_eq,
    BitVec.getLsbD_neg, BitVec.getLsbD_not, decide_eq_true hi, Bool.true_and, Bool.true_and,
    Bool.true_and]
  have hiff : (∃ j < i, (~~~m).getLsbD j = true) ↔ countrOne m < i := by
    constructor
    · rintro ⟨j, hj, hset⟩
      rw [BitVec.getLsbD_not, Bool.and_eq_true, Bool.not_eq_true'] at hset
      by_contra hle
      rw [getLsbD_of_lt_countrOne (by omega) (by omega)] at hset
      exact Bool.false_ne_true hset.2.symm
    · intro hlt'
      refine ⟨_, hlt', ?_⟩
      rw [BitVec.getLsbD_not, decide_eq_true hlt, getLsbD_countrOne h]
      rfl
  simp only [hiff]
  rcases Nat.lt_trichotomy i (countrOne m) with hi' | rfl | hi'
  · rw [getLsbD_of_lt_countrOne hi' hi, Bool.true_or, Bool.true_or]
  · rw [getLsbD_countrOne h]
    simp
  · cases m.getLsbD i <;> simp [hi', hi'.ne']

end Mask
