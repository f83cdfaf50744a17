import BoostContainer.Lib.Word

/-!
# Growth of capacity

A container that is full asks its growth factor for a greater capacity. The
factors of the library multiply by a ratio of small numbers, and take care
that the product does not overflow a machine word; whatever the product, the
answer is never less than what was asked for, nor more than the greatest
capacity where that is enough.
-/

namespace NextCapacity

/-- `grow_factor_ratio`: the capacity to grow to, in words of `w` bits. -/
def growFactorRatio (w minimum numerator denominator curCap addMinCap maxCap : ℕ) : ℕ :=
  let overflowLimit := Word.max w / numerator
  let newCap :=
    if curCap ≤ overflowLimit then curCap * numerator / denominator
    else if denominator = 1 ∨ overflowLimit < curCap / denominator then Word.max w
    else curCap * numerator % 2 ^ w
  max minimum (max (Word.add w curCap addMinCap) (min maxCap newCap))

/-- **A growth factor**: it gives at least the storage that is needed, and no
more than the greatest, where that is enough. -/
structure GrowthFactor (w : ℕ) where
  grow : ℕ → ℕ → ℕ → ℕ
  le_grow : ∀ {cur add max}, cur + add ≤ max → max < 2 ^ w → cur + add ≤ grow cur add max
  grow_le : ∀ {cur add max}, cur + add ≤ max → max < 2 ^ w → grow cur add max ≤ max

/-- The growth factors of the library, which have no minimum. -/
def GrowthFactor.ofRatio (w numerator denominator : ℕ) : GrowthFactor w where
  grow := growFactorRatio w 0 numerator denominator
  le_grow {cur add max} h hmax := by
    unfold growFactorRatio
    rw [Word.add_of_lt (h.trans_lt hmax)]
    exact (le_max_left _ _).trans (le_max_right _ _)
  grow_le {cur add max} h hmax := by
    unfold growFactorRatio
    rw [Word.add_of_lt (h.trans_lt hmax)]
    exact max_le (Nat.zero_le _) (max_le h (min_le_left _ _))

/-- `growth_factor_50` -/
def growthFactor50 (w : ℕ) : GrowthFactor w := GrowthFactor.ofRatio w 3 2

/-- `growth_factor_60`, the default. -/
def growthFactor60 (w : ℕ) : GrowthFactor w := GrowthFactor.ofRatio w 8 5

/-- `growth_factor_100` -/
def growthFactor100 (w : ℕ) : GrowthFactor w := GrowthFactor.ofRatio w 2 1

/-- `vector_alloc_holder::next_capacity`, or `none` where it throws. -/
def nextCapacity (w : ℕ) (grow : ℕ → ℕ → ℕ → ℕ) (maxSize storedMax capacity size
    additionalObjects : ℕ) : Option ℕ :=
  let max := min maxSize storedMax
  let remainingCap := Word.sub w max capacity
  let minAdditionalCap := Word.sub w additionalObjects (Word.sub w capacity size)
  if remainingCap < minAdditionalCap then none else some (grow capacity minAdditionalCap max)

/-! ## What is multiplied -/

section Ratio

variable {w numerator denominator cur add max : ℕ}

/-- The product `grow_factor_ratio` computes, if it computes one. -/
def product (w numerator denominator curCap : ℕ) : Option ℕ :=
  let overflowLimit := Word.max w / numerator
  if curCap ≤ overflowLimit then some (curCap * numerator)
  else if denominator = 1 ∨ overflowLimit < curCap / denominator then none
  else some (curCap * numerator)

/-- **What a growth ratio promises**: enough, no more than the greatest capacity, at least the
ratio as far as that allows, and nothing that wraps on the way. -/
structure Grows (w numerator denominator cur add max : ℕ) : Prop where
  enough : cur + add ≤ growFactorRatio w 0 numerator denominator cur add max
  fits : growFactorRatio w 0 numerator denominator cur add max ≤ max
  ratio : min max (cur * numerator / denominator)
    ≤ growFactorRatio w 0 numerator denominator cur add max
  exact : ∀ p ∈ product w numerator denominator cur, p < 2 ^ w

/-- The capacity is small enough to be multiplied, or so great that this is not tried. -/
def Covered (w numerator denominator cur : ℕ) : Prop :=
  cur ≤ Word.max w / numerator ∨ denominator = 1 ∨ Word.max w / numerator < cur / denominator

/-- A capacity that is small enough is multiplied exactly. -/
theorem mul_lt_of_le (h : cur ≤ Word.max w / numerator) : cur * numerator < 2 ^ w :=
  Word.lt_of_le_max ((Nat.mul_le_mul_right _ h).trans (Nat.div_mul_le_self _ _))

/-- Any other is not. -/
theorem le_mul_of_lt (hn : 0 < numerator) (h : Word.max w / numerator < cur) :
    2 ^ w ≤ cur * numerator := by
  have hlt : Word.max w < cur * numerator := (Nat.div_lt_iff_lt_mul hn).mp h
  unfold Word.max at hlt
  omega

/-- **A growth ratio grows as it promises**, except for capacities that are too great to be
multiplied but not so great that a quotient of them is: there it multiplies all the same. -/
theorem grows_iff (hd : denominator < numerator) (h : cur + add ≤ max) (hmax : max < 2 ^ w) :
    Grows w numerator denominator cur add max ↔ Covered w numerator denominator cur := by
  have hn : 0 < numerator := Nat.zero_lt_of_lt hd
  have hgrow := (GrowthFactor.ofRatio w numerator denominator).le_grow h hmax
  have hfits := (GrowthFactor.ofRatio w numerator denominator).grow_le h hmax
  constructor
  · intro hg
    by_contra hcov
    unfold Covered at hcov
    push Not at hcov
    obtain ⟨hlimit, hone, hquot⟩ := hcov
    have hmem : cur * numerator ∈ product w numerator denominator cur := by
      unfold product
      dsimp only
      rw [if_neg (by omega), if_neg (by omega)]
      rfl
    exact absurd (hg.exact _ hmem) (Nat.not_lt.mpr (le_mul_of_lt hn hlimit))
  · intro hcov
    refine ⟨hgrow, hfits, ?_, fun p hp => ?_⟩
    · unfold growFactorRatio
      refine le_trans (le_min (min_le_left _ _) ?_) ((le_max_right _ _).trans (le_max_right _ _))
      by_cases hlimit : cur ≤ Word.max w / numerator
      · rw [if_pos hlimit]
        exact min_le_right _ _
      · -- the greatest word is no less than the greatest capacity
        rw [if_neg hlimit, if_pos (hcov.resolve_left hlimit)]
        exact (min_le_left _ _).trans (Word.le_max_of_lt hmax)
    · unfold product at hp
      dsimp only at hp
      by_cases hlimit : cur ≤ Word.max w / numerator
      · rw [if_pos hlimit] at hp
        rw [← Option.some.inj hp]
        exact mul_lt_of_le hlimit
      · rw [if_neg hlimit, if_pos (hcov.resolve_left hlimit)] at hp
        cases hp

/-- **`next_capacity` asks for what is missing**, if that can be stored. -/
theorem nextCapacity_eq {grow : ℕ → ℕ → ℕ → ℕ} {maxSize storedMax capacity size additional : ℕ}
    (hsize : size ≤ capacity) (hmore : capacity < size + additional)
    (hfit : size + additional ≤ min maxSize storedMax) (hmax : maxSize < 2 ^ w) :
    nextCapacity w grow maxSize storedMax capacity size additional
      = some (grow capacity (size + additional - capacity) (min maxSize storedMax)) := by
  have hword : min maxSize storedMax < 2 ^ w := (Nat.min_le_left _ _).trans_lt hmax
  have hfree : Word.sub w capacity size = capacity - size := Word.sub_of_le (by omega) hsize
  have hmin : Word.sub w additional (capacity - size) = size + additional - capacity := by
    rw [Word.sub_of_le (by omega) (by omega)]
    omega
  unfold nextCapacity
  dsimp only
  rw [hfree, hmin, Word.sub_of_le hword (by omega), if_neg (by omega)]

/-- **What a capacity grows to**: a ratio grows as it promises except for the capacities it
multiplies though they are too great, and a vector grows to what its ratio gives, and to no
less than it was asked for in any case. -/
theorem nextCapacity_grows_iff (hd : denominator < numerator) :
    (∀ cur add max, cur + add ≤ max → max < 2 ^ w →
      (Grows w numerator denominator cur add max ↔ Covered w numerator denominator cur))
    ∧ ∀ maxSize storedMax capacity size additional, size ≤ capacity →
      capacity < size + additional → size + additional ≤ min maxSize storedMax →
      maxSize < 2 ^ w →
      ∃ r, nextCapacity w (growFactorRatio w 0 numerator denominator) maxSize storedMax capacity
          size additional = some r
        ∧ r = growFactorRatio w 0 numerator denominator capacity (size + additional - capacity)
          (min maxSize storedMax)
        ∧ size + additional ≤ r ∧ r ≤ min maxSize storedMax := by
  refine ⟨fun cur add max h hmax => grows_iff hd h hmax, ?_⟩
  intro maxSize storedMax capacity size additional hsize hmore hfit hmax
  have hword : min maxSize storedMax < 2 ^ w := (Nat.min_le_left _ _).trans_lt hmax
  have hsum : capacity + (size + additional - capacity) = size + additional := by omega
  have hgrow := (GrowthFactor.ofRatio w numerator denominator).le_grow (hsum.le.trans hfit) hword
  have hle := (GrowthFactor.ofRatio w numerator denominator).grow_le (hsum.le.trans hfit) hword
  exact ⟨_, nextCapacity_eq hsize hmore hfit hmax, rfl, hsum.symm.le.trans hgrow, hle⟩

theorem nextCapacity_grows_iff_growthFactor60 :
    (∀ cur add max, cur + add ≤ max → max < 2 ^ 64 →
      (Grows 64 8 5 cur add max ↔ Covered 64 8 5 cur))
    ∧ ∀ maxSize storedMax capacity size additional, size ≤ capacity →
      capacity < size + additional → size + additional ≤ min maxSize storedMax →
      maxSize < 2 ^ 64 →
      ∃ r, nextCapacity 64 (growFactorRatio 64 0 8 5) maxSize storedMax capacity size additional
          = some r
        ∧ r = growFactorRatio 64 0 8 5 capacity (size + additional - capacity)
          (min maxSize storedMax)
        ∧ size + additional ≤ r ∧ r ≤ min maxSize storedMax :=
  nextCapacity_grows_iff (by decide)

/-- The product of `2 ^ 61` and 8 wraps to nothing, so that a full vector of that capacity grows
by one element instead of by three fifths. -/
theorem growFactor60_wraps : ¬ Grows 64 8 5 (2 ^ 61) 1 (2 ^ 63) := by
  intro h
  have hratio := h.ratio
  exact absurd hratio (by decide)

end Ratio

end NextCapacity
