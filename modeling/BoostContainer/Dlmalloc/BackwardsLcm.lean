import BoostContainer.Lib.Word

/-!
# How far a buffer grows backwards

A buffer that grows at its front has to keep the alignment of the heap, and
its owner wants to move the front by whole elements: it moves by a multiple of
the least common multiple of the two. The code takes the general formulas only
where the sizes have little in common. Where the multiple is a power of two, or
is a multiple of the alignment, of its half or of its quarter, it knows the
least common multiple, and rounds by adding as many elements as are missing.
-/

namespace Dlmalloc

/-- `GET_TRUNCATED_SIZE` -/
def getTruncatedSize (origSize roundTo : ℕ) : ℕ := origSize / roundTo * roundTo

/-- `GET_ROUNDED_SIZE` -/
def getRoundedSize (w origSize roundTo : ℕ) : ℕ :=
  Word.mul w (Word.add w (Word.sub w origSize 1 / roundTo) 1) roundTo

/-- `GET_TRUNCATED_PO2_SIZE` -/
def getTruncatedPo2Size (w origSize roundTo : ℕ) : ℕ :=
  origSize &&& Word.compl w (roundTo - 1)

/-- `GET_ROUNDED_PO2_SIZE` -/
def getRoundedPo2Size (w origSize roundTo : ℕ) : ℕ :=
  Word.add w (Word.sub w origSize 1 &&& Word.compl w (roundTo - 1)) roundTo

/-- `CALCULATE_GCD`. A remainder by zero has no value. -/
def calculateGcd (a b : ℕ) : ℕ :=
  if h : b = 0 then 0
  else if a % b = 0 then b
  else calculateGcd b (a % b)
termination_by b
decreasing_by exact Nat.mod_lt a (Nat.pos_of_ne_zero h)

/-- `CALCULATE_LCM` -/
def calculateLcm (w a b : ℕ) : ℕ := Word.mul w (a / calculateGcd a b) b

/-- **`calculate_lcm_and_needs_backwards_lcmed`**: the least common multiple and
the amount, or nothing where it returns 0. -/
def calculateLcmAndNeedsBackwardsLcmed
    (w alignment backwardsMultiple receivedSize sizeToAchieve : ℕ) : Option (ℕ × ℕ) :=
  let (max, min) := if backwardsMultiple < alignment then (alignment, backwardsMultiple)
    else (backwardsMultiple, alignment)
  if backwardsMultiple &&& Word.sub w backwardsMultiple 1 = 0 then
    if sizeToAchieve &&& Word.sub w backwardsMultiple 1 ≠ 0 then none
    else
      let lcm := max
      let currentForward := getTruncatedPo2Size w receivedSize backwardsMultiple
      let needsBackwards := Word.sub w sizeToAchieve currentForward
      some (lcm, getRoundedPo2Size w needsBackwards lcm)
  else if backwardsMultiple &&& (alignment - 1) = 0 then
    let currentForward := getTruncatedSize receivedSize backwardsMultiple
    some (backwardsMultiple, Word.sub w sizeToAchieve currentForward)
  else if backwardsMultiple &&& (alignment / 2 - 1) = 0 then
    let lcm := Word.mul w backwardsMultiple 2
    let currentForward := getTruncatedSize receivedSize backwardsMultiple
    let needsBackwards := Word.sub w sizeToAchieve currentForward
    some (lcm,
      if needsBackwards &&& (alignment - 1) ≠ 0 then
        Word.add w needsBackwards backwardsMultiple
      else needsBackwards)
  else if backwardsMultiple &&& (alignment / 4 - 1) = 0 then
    let lcm := Word.mul w backwardsMultiple 4
    let currentForward := getTruncatedSize receivedSize backwardsMultiple
    let needsBackwards := Word.sub w sizeToAchieve currentForward
    let remainder := (needsBackwards &&& (alignment - 1)) >>> (alignment / 8)
    some (lcm,
      if remainder ≠ 0 then
        if backwardsMultiple &&& alignment / 2 ≠ 0 then
          Word.add w needsBackwards (Word.mul w remainder backwardsMultiple)
        else
          Word.add w needsBackwards (Word.mul w (Word.sub w 4 remainder) backwardsMultiple)
      else needsBackwards)
  else
    let lcm := calculateLcm w max min
    let currentForward := getTruncatedSize receivedSize backwardsMultiple
    let needsBackwards := Word.sub w sizeToAchieve currentForward
    some (lcm, getRoundedSize w needsBackwards lcm)

/-! ## Multiples -/

/-- The multiples of a number that are large enough. -/
def multiplesFrom (lcm needs : ℕ) : Set ℕ := {x | lcm ∣ x ∧ needs ≤ x}

/-- A multiple that is large enough, and by less than one multiple. -/
theorem isLeast_multiple {lcm needs x : ℕ} (hdvd : lcm ∣ x) (hle : needs ≤ x)
    (hlt : x < needs + lcm) : IsLeast (multiplesFrom lcm needs) x := by
  refine ⟨⟨hdvd, hle⟩, fun y hy => ?_⟩
  by_contra hyx
  have hsub : lcm ≤ x - y := Nat.le_of_dvd (by omega) (Nat.dvd_sub hdvd hy.1)
  have := hy.2
  omega

/-- What is greater than another multiple is greater by a multiple. -/
theorem add_le_of_dvd {m x y : ℕ} (hx : m ∣ x) (hy : m ∣ y) (h : x < y) : x + m ≤ y := by
  have hsub : m ≤ y - x := Nat.le_of_dvd (by omega) (Nat.dvd_sub hy hx)
  omega

theorem calculateGcd_eq (a b : ℕ) (hb : 0 < b) : calculateGcd a b = Nat.gcd a b := by
  induction b using Nat.strong_induction_on generalizing a with
  | h b ih =>
    rw [calculateGcd, dif_neg (Nat.ne_of_gt hb), Nat.gcd_comm a b, Nat.gcd_rec b a]
    split
    · next h => rw [h, Nat.gcd_zero_left]
    · next h => rw [ih (a % b) (Nat.mod_lt a hb) b (Nat.pos_of_ne_zero h), Nat.gcd_comm]

theorem calculateLcm_eq {w a b : ℕ} (hb : 0 < b) (h : Nat.lcm a b < 2 ^ w) :
    calculateLcm w a b = Nat.lcm a b := by
  have hlcm : a / Nat.gcd a b * b = Nat.lcm a b :=
    Nat.div_mul_right_comm (Nat.gcd_dvd_left _ _) _
  rw [calculateLcm, calculateGcd_eq a b hb, Word.mul_of_lt (hlcm ▸ h), hlcm]

/-- Rounding up gives the least multiple that is large enough. -/
theorem isLeast_getRoundedSize {w needs lcm : ℕ} (hlcm : 0 < lcm) (hpos : 0 < needs)
    (hw : needs < 2 ^ w) (hfits : ∃ x ∈ multiplesFrom lcm needs, x < 2 ^ w) :
    IsLeast (multiplesFrom lcm needs) (getRoundedSize w needs lcm) := by
  obtain ⟨x, ⟨hdvd, hle⟩, hx⟩ := hfits
  have hdiv := Nat.div_mul_le_self (needs - 1) lcm
  have hmod := Nat.lt_div_mul_add hlcm (a := needs - 1)
  have hround : ((needs - 1) / lcm + 1) * lcm = (needs - 1) / lcm * lcm + lcm :=
    Nat.add_one_mul _ _
  have hxle : (needs - 1) / lcm * lcm + lcm ≤ x :=
    add_le_of_dvd (Nat.dvd_mul_left _ _) hdvd (by omega)
  have hone : (needs - 1) / lcm + 1 ≤ ((needs - 1) / lcm + 1) * lcm :=
    Nat.le_mul_of_pos_right _ hlcm
  have heq : getRoundedSize w needs lcm = ((needs - 1) / lcm + 1) * lcm := by
    rw [getRoundedSize, Word.sub_of_le hw (by omega), Word.add_of_lt (by omega),
      Word.mul_of_lt (by omega)]
  rw [heq, hround]
  exact isLeast_multiple ⟨(needs - 1) / lcm + 1, by rw [← hround, Nat.mul_comm]⟩ (by omega)
    (by omega)

/-- The same for powers of two, by masking. -/
theorem isLeast_getRoundedPo2Size {w needs k : ℕ} (hpos : 0 < needs)
    (hw : needs < 2 ^ w) (hfits : ∃ x ∈ multiplesFrom (2 ^ k) needs, x < 2 ^ w) :
    IsLeast (multiplesFrom (2 ^ k) needs) (getRoundedPo2Size w needs (2 ^ k)) := by
  have hmask : Word.sub w needs 1 &&& Word.compl w (2 ^ k - 1)
      = (needs - 1) / 2 ^ k * 2 ^ k := by
    rw [Word.sub_of_le hw (by omega), Word.land_compl_eq (by omega)]
    have := Nat.div_add_mod' (needs - 1) (2 ^ k)
    omega
  have hleast := isLeast_getRoundedSize (Nat.two_pow_pos k) hpos hw hfits
  obtain ⟨x, ⟨hdvd, hle⟩, hx⟩ := hfits
  have hdiv := Nat.div_mul_le_self (needs - 1) (2 ^ k)
  have hxle : (needs - 1) / 2 ^ k * 2 ^ k + 2 ^ k ≤ x :=
    add_le_of_dvd (Nat.dvd_mul_left _ _) hdvd (by omega)
  have hone : (needs - 1) / 2 ^ k + 1 ≤ ((needs - 1) / 2 ^ k + 1) * 2 ^ k :=
    Nat.le_mul_of_pos_right _ (Nat.two_pow_pos k)
  have hround : ((needs - 1) / 2 ^ k + 1) * 2 ^ k = (needs - 1) / 2 ^ k * 2 ^ k + 2 ^ k :=
    Nat.add_one_mul _ _
  have heq : getRoundedPo2Size w needs (2 ^ k) = getRoundedSize w needs (2 ^ k) := by
    rw [getRoundedPo2Size, hmask, Word.add_of_lt (by omega), getRoundedSize,
      Word.sub_of_le hw (by omega), Word.add_of_lt (a := (needs - 1) / 2 ^ k) (by omega),
      Word.mul_of_lt (by omega), hround]
  rw [heq]
  exact hleast

/-! ## Multiples of a part of the alignment -/

/-- Masking with one less than a power of two is a remainder. -/
theorem land_sub_one (x k : ℕ) : x &&& (2 ^ k - 1) = x % 2 ^ k :=
  Nat.and_two_pow_sub_one_eq_mod x k

theorem land_sub_one_eq_zero {x k : ℕ} : x &&& (2 ^ k - 1) = 0 ↔ 2 ^ k ∣ x := by
  rw [land_sub_one, Nat.dvd_iff_mod_eq_zero]

/-- **Half of the alignment**: the multiple has one factor two too few, and an
odd number of them is short by one. -/
theorem isLeast_half {h o t : ℕ} (hh : 0 < h) (ho : o % 2 = 1) :
    IsLeast (multiplesFrom (h * o * 2) (h * o * t))
      (if h * o * t % (h * 2) ≠ 0 then h * o * t + h * o else h * o * t) := by
  have hodd : h * o * t % (h * 2) = h * (t % 2) := by
    have hot : o * t % 2 = t % 2 := by rw [Nat.mul_mod, ho, Nat.one_mul, Nat.mod_mod]
    rw [Nat.mul_assoc, Nat.mul_mod_mul_left, hot]
  have hpos : 0 < h * o := Nat.mul_pos hh (by omega)
  rw [hodd]
  split
  · next hne =>
    have ht : t % 2 = 1 := by
      rcases Nat.mod_two_eq_zero_or_one t with h0 | h1
      · exact absurd (by rw [h0, Nat.mul_zero]) hne
      · exact h1
    have hdvd : h * o * 2 ∣ h * o * t + h * o := by
      rw [← Nat.mul_add_one]
      exact Nat.mul_dvd_mul_left _ (Nat.dvd_of_mod_eq_zero (by omega))
    exact isLeast_multiple hdvd (Nat.le_add_right _ _) (by omega)
  · next heq =>
    have ht : t % 2 = 0 := by
      have := Nat.mul_eq_zero.mp (not_not.mp heq)
      omega
    exact isLeast_multiple (Nat.mul_dvd_mul_left _ (Nat.dvd_of_mod_eq_zero ht)) (le_refl _)
      (by omega)

/-- How many are missing to a fourth, from the remainder of the product with an
odd number: the remainder where the odd number is one below a fourth, and its
complement where it is one above. -/
theorem missing_dvd {o t : ℕ} (ho : o % 2 = 1) (hne : o * t % 4 ≠ 0) :
    4 ∣ t + (if o % 4 = 3 then o * t % 4 else 4 - o * t % 4) := by
  have hmod : o * t % 4 = o % 4 * (t % 4) % 4 := Nat.mul_mod o t 4
  have hcases : o % 4 = 1 ∨ o % 4 = 3 := by omega
  rcases hcases with h1 | h3
  · rw [if_neg (by omega)]
    rw [h1] at hmod
    omega
  · rw [if_pos h3]
    rw [h3] at hmod
    omega

/-- **A quarter of the alignment**: as many are added as are missing to a
fourth. -/
theorem isLeast_quarter {q o t : ℕ} (hq : 0 < q) (ho : o % 2 = 1) :
    IsLeast (multiplesFrom (q * o * 4) (q * o * t))
      (if o * t % 4 ≠ 0 then
        q * o * t + (if o % 4 = 3 then o * t % 4 else 4 - o * t % 4) * (q * o)
      else q * o * t) := by
  have hpos : 0 < q * o := Nat.mul_pos hq (by omega)
  have hlt4 : o * t % 4 < 4 := Nat.mod_lt _ (by omega)
  split
  · next hne =>
    have hdvd := missing_dvd ho hne
    have hklt : (if o % 4 = 3 then o * t % 4 else 4 - o * t % 4) < 4 := by
      split
      · exact hlt4
      · omega
    generalize (if o % 4 = 3 then o * t % 4 else 4 - o * t % 4) = k at hdvd hklt ⊢
    have hsum : q * o * t + k * (q * o) = q * o * (t + k) := by ring
    have hkmul : k * (q * o) < 4 * (q * o) := Nat.mul_lt_mul_of_pos_right hklt hpos
    refine isLeast_multiple ?_ (Nat.le_add_right _ _) (by omega)
    rw [hsum]
    exact Nat.mul_dvd_mul_left _ hdvd
  · next heq =>
    have hco : Nat.Coprime 4 o := (Nat.coprime_two_left.mpr (Nat.odd_iff.mpr ho)).pow_left 2
    have ht : 4 ∣ t :=
      hco.dvd_of_dvd_mul_left (Nat.dvd_of_mod_eq_zero (not_not.mp heq))
    exact isLeast_multiple (Nat.mul_dvd_mul_left _ ht) (le_refl _) (by omega)

/-! ## The least common multiples -/

theorem lcm_half {h o : ℕ} (ho : o % 2 = 1) : Nat.lcm (h * o) (h * 2) = h * o * 2 := by
  have hco : Nat.Coprime o 2 := Nat.coprime_two_right.mpr (Nat.odd_iff.mpr ho)
  rw [Nat.lcm_mul_left, hco.lcm_eq_mul, Nat.mul_assoc]

theorem lcm_quarter {q o : ℕ} (ho : o % 2 = 1) : Nat.lcm (q * o) (q * 4) = q * o * 4 := by
  have hco : Nat.Coprime o 4 := (Nat.coprime_two_right.mpr (Nat.odd_iff.mpr ho)).pow_right 2
  rw [Nat.lcm_mul_left, hco.lcm_eq_mul, Nat.mul_assoc]

/-- Two powers of two have the greater for their least common multiple. -/
theorem lcm_two_pow (j k : ℕ) : Nat.lcm (2 ^ j) (2 ^ k) = max (2 ^ j) (2 ^ k) := by
  rcases Nat.le_total j k with h | h
  · rw [Nat.lcm_eq_right (Nat.pow_dvd_pow 2 h),
      max_eq_right (Nat.pow_le_pow_right (by omega) h)]
  · rw [Nat.lcm_eq_left (Nat.pow_dvd_pow 2 h),
      max_eq_left (Nat.pow_le_pow_right (by omega) h)]

/-- What `size_to_achieve` asks for beyond the elements already received. -/
theorem needs_eq {w bm received size : ℕ} (hw : size < 2 ^ w) (hlt : received < size) :
    Word.sub w size (getTruncatedSize received bm) = size - received / bm * bm := by
  have := Nat.div_mul_le_self received bm
  exact Word.sub_of_le hw (by unfold getTruncatedSize; omega)

/-- Truncating by a mask is truncating by a division. -/
theorem getTruncatedPo2Size_eq {w j received : ℕ} (hw : received < 2 ^ w) :
    getTruncatedPo2Size w received (2 ^ j) = getTruncatedSize received (2 ^ j) := by
  have := Nat.div_add_mod' received (2 ^ j)
  rw [getTruncatedPo2Size, Word.land_compl_eq hw, getTruncatedSize]
  omega

/-- The sizes a call may be made with, of a heap that aligns to `2 ^ (e + 2)`
bytes: what is to be achieved is more than what was received, whole elements,
and the least multiple that is large enough is a word. -/
structure Request (w alignment backwardsMultiple receivedSize sizeToAchieve : ℕ) : Prop where
  pos : 0 < backwardsMultiple
  dvd : backwardsMultiple ∣ sizeToAchieve
  lt : receivedSize < sizeToAchieve
  size_lt : sizeToAchieve < 2 ^ w
  fits : ∃ x ∈ multiplesFrom (Nat.lcm backwardsMultiple alignment)
    (sizeToAchieve - receivedSize / backwardsMultiple * backwardsMultiple), x < 2 ^ w

namespace Request

variable {w alignment bm received size : ℕ}

/-- The missing bytes are whole elements, and there are some. -/
theorem exists_needs (hr : Request w alignment bm received size) :
    ∃ t, size - received / bm * bm = bm * t ∧ 0 < bm * t ∧ bm * t < 2 ^ w := by
  have hle := Nat.div_mul_le_self received bm
  have hlt := hr.lt
  have hsize := hr.size_lt
  obtain ⟨t, ht⟩ := Nat.dvd_sub hr.dvd (Nat.dvd_mul_left bm (received / bm))
  exact ⟨t, ht, by omega, by omega⟩

/-- The least common multiple is a word. -/
theorem lcm_lt (hr : Request w alignment bm received size) :
    Nat.lcm bm alignment < 2 ^ w := by
  obtain ⟨x, ⟨hdvd, hle⟩, hx⟩ := hr.fits
  have hneeds := Nat.div_mul_le_self received bm
  have hlt := hr.lt
  exact (Nat.le_of_dvd (by omega) hdvd).trans_lt hx

/-- The least multiple that is large enough is a word. -/
theorem isLeast_lt (hr : Request w alignment bm received size) {amount : ℕ}
    (h : IsLeast (multiplesFrom (Nat.lcm bm alignment) (size - received / bm * bm)) amount) :
    amount < 2 ^ w := by
  obtain ⟨x, hmem, hx⟩ := hr.fits
  exact (h.2 hmem).trans_lt hx

end Request

/-! ## The branches -/

/-- The bit of the half tells the odd numbers apart: those one below a fourth
have it. -/
theorem land_half_ne_zero {k o : ℕ} (ho : o % 2 = 1) :
    2 ^ k * o &&& 2 ^ (k + 1) ≠ 0 ↔ o % 4 = 3 := by
  have hbit : (2 ^ k * o).testBit (k + 1) = decide (o / 2 % 2 = 1) := by
    rw [Nat.testBit_two_pow_mul, Nat.add_sub_cancel_left, Nat.testBit_succ, Nat.testBit_zero,
      decide_eq_true (Nat.le_succ k), Bool.true_and]
  rw [Nat.and_two_pow, hbit]
  by_cases h : o / 2 % 2 = 1
  · rw [decide_eq_true h, Bool.toNat_true, Nat.one_mul]
    exact ⟨fun _ => by omega, fun _ => Nat.ne_of_gt (Nat.two_pow_pos _)⟩
  · rw [decide_eq_false h, Bool.toNat_false, Nat.zero_mul]
    exact ⟨fun hne => absurd rfl hne, fun h3 => absurd h3 (by omega)⟩

theorem two_pow_add_two (k : ℕ) : 2 ^ (k + 2) = 2 ^ k * 4 :=
  pow_add 2 k 2

theorem two_pow_half (k : ℕ) : 2 ^ (k + 1) / 2 = 2 ^ k := by
  rw [pow_succ, Nat.mul_div_cancel _ (by omega)]

theorem two_pow_quarter (k : ℕ) : 2 ^ (k + 2) / 4 = 2 ^ k := by
  rw [two_pow_add_two, Nat.mul_div_cancel _ (by omega)]

section Branches

variable {w alignment bm received size : ℕ}

/-- **A power of two.** -/
theorem calculate_powerOf2 {j k : ℕ} (hr : Request w (2 ^ k) (2 ^ j) received size) :
    ∃ amount, calculateLcmAndNeedsBackwardsLcmed w (2 ^ k) (2 ^ j) received size
        = some (Nat.lcm (2 ^ j) (2 ^ k), amount)
      ∧ IsLeast (multiplesFrom (Nat.lcm (2 ^ j) (2 ^ k)) (size - received / 2 ^ j * 2 ^ j))
        amount := by
  have hpow := Nat.two_pow_pos j
  have hjw : 2 ^ j < 2 ^ w := (Nat.le_of_dvd (by have := hr.lt; omega) hr.dvd).trans_lt hr.size_lt
  have hsub : Word.sub w (2 ^ j) 1 = 2 ^ j - 1 := Word.sub_of_le hjw hpow
  have hself : 2 ^ j &&& Word.sub w (2 ^ j) 1 = 0 := by
    rw [hsub, land_sub_one_eq_zero]
  have hsize : size &&& Word.sub w (2 ^ j) 1 = 0 := by
    rw [hsub, land_sub_one_eq_zero]
    exact hr.dvd
  have hneeds : Word.sub w size (getTruncatedSize received (2 ^ j)) = _ :=
    needs_eq hr.size_lt hr.lt
  rw [← getTruncatedPo2Size_eq (hr.lt.trans hr.size_lt)] at hneeds
  obtain ⟨t, ht, hpos, htw⟩ := hr.exists_needs
  have hfits := hr.fits
  rw [lcm_two_pow] at hfits ⊢
  have hmax : ∃ i, max (2 ^ j) (2 ^ k) = 2 ^ i := by
    rcases Nat.le_total (2 ^ j) (2 ^ k) with h | h
    · exact ⟨k, max_eq_right h⟩
    · exact ⟨j, max_eq_left h⟩
  obtain ⟨i, hi⟩ := hmax
  have hfst : (if 2 ^ j < 2 ^ k then (2 ^ k, 2 ^ j) else (2 ^ j, 2 ^ k)).1 = 2 ^ i := by
    rw [← hi]
    split
    · next h => exact (max_eq_right h.le).symm
    · next h => exact (max_eq_left (not_lt.mp h)).symm
  refine ⟨getRoundedPo2Size w (size - received / 2 ^ j * 2 ^ j) (2 ^ i), ?_, ?_⟩
  · simp only [calculateLcmAndNeedsBackwardsLcmed]
    rw [if_pos hself, if_neg (not_not.mpr hsize), hneeds, hfst, hi]
  · rw [hi] at hfits ⊢
    rw [ht] at hfits ⊢
    exact isLeast_getRoundedPo2Size hpos htw hfits

/-- **A multiple of the alignment.** -/
theorem calculate_multiple {k : ℕ} (hr : Request w (2 ^ k) bm received size)
    (hpow : bm &&& Word.sub w bm 1 ≠ 0) (hdvd : 2 ^ k ∣ bm) :
    ∃ amount, calculateLcmAndNeedsBackwardsLcmed w (2 ^ k) bm received size
        = some (Nat.lcm bm (2 ^ k), amount)
      ∧ IsLeast (multiplesFrom (Nat.lcm bm (2 ^ k)) (size - received / bm * bm)) amount := by
  obtain ⟨t, ht, hpos, htw⟩ := hr.exists_needs
  refine ⟨size - received / bm * bm, ?_, ?_⟩
  · simp only [calculateLcmAndNeedsBackwardsLcmed]
    rw [if_neg hpow, if_pos (land_sub_one_eq_zero.mpr hdvd), needs_eq hr.size_lt hr.lt,
      Nat.lcm_eq_left hdvd]
  · rw [Nat.lcm_eq_left hdvd, ht]
    exact isLeast_multiple (Nat.dvd_mul_right _ _) (le_refl _) (by have := hr.pos; omega)

/-- **A multiple of half of the alignment.** -/
theorem calculate_half {k : ℕ} (hr : Request w (2 ^ (k + 1)) bm received size)
    (hpow : bm &&& Word.sub w bm 1 ≠ 0) (hndvd : ¬ 2 ^ (k + 1) ∣ bm) (hdvd : 2 ^ k ∣ bm) :
    ∃ amount, calculateLcmAndNeedsBackwardsLcmed w (2 ^ (k + 1)) bm received size
        = some (Nat.lcm bm (2 ^ (k + 1)), amount)
      ∧ IsLeast (multiplesFrom (Nat.lcm bm (2 ^ (k + 1))) (size - received / bm * bm))
        amount := by
  obtain ⟨o, rfl⟩ := hdvd
  have ho : o % 2 = 1 := by
    by_contra hne
    exact hndvd (by rw [pow_succ]; exact Nat.mul_dvd_mul_left _ (Nat.dvd_of_mod_eq_zero (by omega)))
  obtain ⟨t, ht, hpos, htw⟩ := hr.exists_needs
  have hleast := isLeast_half (t := t) (Nat.two_pow_pos k) ho
  have hlcm : Nat.lcm (2 ^ k * o) (2 ^ (k + 1)) = 2 ^ k * o * 2 := by
    rw [pow_succ, lcm_half ho]
  have hltw := hr.lcm_lt
  rw [← hlcm, ← ht] at hleast
  have hamount := hr.isLeast_lt hleast
  refine ⟨_, ?_, hleast⟩
  simp only [calculateLcmAndNeedsBackwardsLcmed]
  rw [if_neg hpow, if_neg (fun h => hndvd (land_sub_one_eq_zero.mp h)), two_pow_half,
    if_pos (land_sub_one_eq_zero.mpr (Nat.dvd_mul_right _ _)), needs_eq hr.size_lt hr.lt,
    Word.mul_of_lt (hlcm ▸ hltw), hlcm, land_sub_one, pow_succ]
  split
  · next h =>
    rw [if_pos h] at hamount
    rw [Word.add_of_lt hamount]
  · rfl

/-- **A multiple of a quarter of the alignment**, where the shift that the code
takes for the quarter is the quarter's. -/
theorem calculate_quarter {k : ℕ} (hr : Request w (2 ^ (k + 2)) bm received size)
    (hshift : 2 ^ (k + 2) / 8 = k) (hpow : bm &&& Word.sub w bm 1 ≠ 0)
    (hndvd : ¬ 2 ^ (k + 1) ∣ bm) (hdvd : 2 ^ k ∣ bm) :
    ∃ amount, calculateLcmAndNeedsBackwardsLcmed w (2 ^ (k + 2)) bm received size
        = some (Nat.lcm bm (2 ^ (k + 2)), amount)
      ∧ IsLeast (multiplesFrom (Nat.lcm bm (2 ^ (k + 2))) (size - received / bm * bm))
        amount := by
  obtain ⟨o, rfl⟩ := hdvd
  have ho : o % 2 = 1 := by
    by_contra hne
    exact hndvd (by rw [pow_succ]; exact Nat.mul_dvd_mul_left _ (Nat.dvd_of_mod_eq_zero (by omega)))
  have hndvd2 : ¬ 2 ^ (k + 2) ∣ 2 ^ k * o := fun h =>
    hndvd ((Nat.pow_dvd_pow 2 (by omega)).trans h)
  obtain ⟨t, ht, hpos, htw⟩ := hr.exists_needs
  have hrem : (2 ^ k * o * t &&& 2 ^ (k + 2) - 1) >>> (2 ^ (k + 2) / 8) = o * t % 4 := by
    rw [land_sub_one, hshift, Nat.shiftRight_eq_div_pow, two_pow_add_two, Nat.mul_assoc,
      Nat.mul_mod_mul_left, Nat.mul_div_cancel_left _ (Nat.two_pow_pos k)]
  have hleast := isLeast_quarter (t := t) (Nat.two_pow_pos k) ho
  have hlcm : Nat.lcm (2 ^ k * o) (2 ^ (k + 2)) = 2 ^ k * o * 4 := by
    rw [two_pow_add_two, lcm_quarter ho]
  have hltw := hr.lcm_lt
  rw [← hlcm, ← ht] at hleast
  have hamount := hr.isLeast_lt hleast
  refine ⟨_, ?_, hleast⟩
  simp only [calculateLcmAndNeedsBackwardsLcmed]
  rw [if_neg hpow, if_neg (fun h => hndvd2 (land_sub_one_eq_zero.mp h)), two_pow_half,
    if_neg (fun h => hndvd (land_sub_one_eq_zero.mp h)), two_pow_quarter,
    if_pos (land_sub_one_eq_zero.mpr (Nat.dvd_mul_right _ _)), needs_eq hr.size_lt hr.lt,
    Word.mul_of_lt (hlcm ▸ hltw), hlcm]
  rw [ht] at hamount ⊢
  rw [hrem]
  have hlt4 : o * t % 4 < 4 := Nat.mod_lt _ (by omega)
  have h4w : 4 < 2 ^ w := by
    have := Nat.le_mul_of_pos_left 4 hr.pos
    omega
  by_cases hne : o * t % 4 ≠ 0
  · rw [if_pos hne, if_pos hne]
    rw [if_pos hne] at hamount
    by_cases h3 : o % 4 = 3
    · rw [if_pos h3] at hamount ⊢
      rw [if_pos ((land_half_ne_zero ho).mpr h3), Word.mul_of_lt (by omega),
        Word.add_of_lt hamount]
    · rw [if_neg h3] at hamount ⊢
      rw [if_neg (fun h => h3 ((land_half_ne_zero ho).mp h)), Word.sub_of_le h4w hlt4.le,
        Word.mul_of_lt (by omega), Word.add_of_lt hamount]
  · rw [if_neg hne, if_neg hne]

/-- **The general formulas.** -/
theorem calculate_general {k : ℕ} (hr : Request w (2 ^ (k + 2)) bm received size)
    (hpow : bm &&& Word.sub w bm 1 ≠ 0) (hndvd : ¬ 2 ^ k ∣ bm) :
    ∃ amount, calculateLcmAndNeedsBackwardsLcmed w (2 ^ (k + 2)) bm received size
        = some (Nat.lcm bm (2 ^ (k + 2)), amount)
      ∧ IsLeast (multiplesFrom (Nat.lcm bm (2 ^ (k + 2))) (size - received / bm * bm))
        amount := by
  obtain ⟨t, ht, hpos, htw⟩ := hr.exists_needs
  have hnot : ∀ i, k ≤ i → ¬ bm &&& (2 ^ i - 1) = 0 := fun i hi h =>
    hndvd ((Nat.pow_dvd_pow 2 hi).trans (land_sub_one_eq_zero.mp h))
  have hpair : calculateLcm w (if bm < 2 ^ (k + 2) then (2 ^ (k + 2), bm)
      else (bm, 2 ^ (k + 2))).1 (if bm < 2 ^ (k + 2) then (2 ^ (k + 2), bm)
      else (bm, 2 ^ (k + 2))).2 = Nat.lcm bm (2 ^ (k + 2)) := by
    split
    · rw [calculateLcm_eq hr.pos (Nat.lcm_comm _ _ ▸ hr.lcm_lt), Nat.lcm_comm]
    · exact calculateLcm_eq (Nat.two_pow_pos _) hr.lcm_lt
  have hfits := hr.fits
  refine ⟨getRoundedSize w (size - received / bm * bm) (Nat.lcm bm (2 ^ (k + 2))), ?_, ?_⟩
  · simp only [calculateLcmAndNeedsBackwardsLcmed]
    rw [if_neg hpow, if_neg (hnot (k + 2) (by omega)), two_pow_half,
      if_neg (hnot (k + 1) (by omega)), two_pow_quarter, if_neg (hnot k (le_refl k)),
      needs_eq hr.size_lt hr.lt, hpair]
  · rw [ht] at hfits ⊢
    exact isLeast_getRoundedSize (Nat.lcm_pos hr.pos (Nat.two_pow_pos _)) hpos htw hfits

/-- **Every branch is the general one**: where the heap aligns to eight or to
sixteen bytes, the function returns the least common multiple, and its least
multiple that is as much as is missing. -/
theorem calculateLcmAndNeedsBackwardsLcmed_isLeast
    (halign : alignment = 8 ∨ alignment = 16)
    (hr : Request w alignment bm received size) :
    ∃ amount, calculateLcmAndNeedsBackwardsLcmed w alignment bm received size
        = some (Nat.lcm bm alignment, amount)
      ∧ IsLeast (multiplesFrom (Nat.lcm bm alignment) (size - received / bm * bm)) amount := by
  obtain ⟨k, hk, hshift⟩ : ∃ k, alignment = 2 ^ (k + 2) ∧ 2 ^ (k + 2) / 8 = k := by
    rcases halign with rfl | rfl
    · exact ⟨1, rfl, rfl⟩
    · exact ⟨2, rfl, rfl⟩
  subst hk
  have hbm : bm < 2 ^ w := (Nat.le_of_dvd (by have := hr.lt; omega) hr.dvd).trans_lt hr.size_lt
  by_cases hpow : bm &&& Word.sub w bm 1 = 0
  · rw [Word.sub_of_le hbm hr.pos,
      Nat.and_sub_one_eq_zero_iff_isPowerOfTwo (Nat.ne_of_gt hr.pos)] at hpow
    obtain ⟨j, rfl⟩ := hpow
    exact calculate_powerOf2 hr
  by_cases hfull : 2 ^ (k + 2) ∣ bm
  · exact calculate_multiple hr hpow hfull
  by_cases hhalf : 2 ^ (k + 1) ∣ bm
  · exact calculate_half hr hpow hfull hhalf
  by_cases hquarter : 2 ^ k ∣ bm
  · exact calculate_quarter hr hshift hpow hhalf hquarter
  · exact calculate_general hr hpow hquarter

/-- Elements of twelve bytes in a heap that aligns to sixteen: twelve bytes are
missing, and four elements are added. -/
theorem calculateLcmAndNeedsBackwardsLcmed_isLeast_twelve :
    ∃ amount, calculateLcmAndNeedsBackwardsLcmed 64 16 12 40 48 = some (Nat.lcm 12 16, amount)
      ∧ IsLeast (multiplesFrom (Nat.lcm 12 16) (48 - 40 / 12 * 12)) amount :=
  calculateLcmAndNeedsBackwardsLcmed_isLeast (Or.inr rfl)
    ⟨by decide, by decide, by decide, by decide, 48, ⟨by decide, by decide⟩, by decide⟩

example : calculateLcmAndNeedsBackwardsLcmed 64 16 12 40 48 = some (48, 48) := by decide

end Branches

end Dlmalloc
