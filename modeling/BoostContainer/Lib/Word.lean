import Mathlib

/-!
# Unsigned machine words

Unsigned integers of `w` bits, as naturals below `2 ^ w` with the operations
a machine performs on them: sums and differences wrap, and complement is
taken within the width. The facts below say when an operation did *not*
wrap, which is the only thing a caller ever wants to know, and that masking
an address with the complement of `2 ^ k - 1` rounds it down to a multiple
of `2 ^ k`.
-/

namespace Word

variable {w : ℕ}

/-- The sum of two words. -/
def add (w a b : ℕ) : ℕ := (a + b) % 2 ^ w

/-- The difference of two words. -/
def sub (w a b : ℕ) : ℕ := (a + (2 ^ w - b % 2 ^ w)) % 2 ^ w

/-- The product of two words. -/
def mul (w a b : ℕ) : ℕ := a * b % 2 ^ w

/-- A word shifted to the left. -/
def shl (w a k : ℕ) : ℕ := a * 2 ^ k % 2 ^ w

/-- The bitwise complement of a word. -/
def compl (w a : ℕ) : ℕ := 2 ^ w - (a + 1)

/-- The greatest word, which is what `std::size_t(-1)` is. -/
def max (w : ℕ) : ℕ := 2 ^ w - 1

theorem lt_of_le_max {a : ℕ} (h : a ≤ max w) : a < 2 ^ w := by
  have hpos : 0 < 2 ^ w := Nat.two_pow_pos w
  unfold max at h
  omega

theorem le_max_of_lt {a : ℕ} (h : a < 2 ^ w) : a ≤ max w := by
  unfold max
  omega

/-- A sum below `2 ^ w` does not wrap. -/
theorem add_of_lt {a b : ℕ} (h : a + b < 2 ^ w) : add w a b = a + b :=
  Nat.mod_eq_of_lt h

/-- A product below `2 ^ w` does not wrap. -/
theorem mul_of_lt {a b : ℕ} (h : a * b < 2 ^ w) : mul w a b = a * b :=
  Nat.mod_eq_of_lt h

/-- A shift that stays below `2 ^ w` does not wrap. -/
theorem shl_of_lt {a k : ℕ} (h : a * 2 ^ k < 2 ^ w) : shl w a k = a * 2 ^ k :=
  Nat.mod_eq_of_lt h

theorem add_lt (a b : ℕ) : add w a b < 2 ^ w := Nat.mod_lt _ (Nat.two_pow_pos w)

theorem sub_lt (a b : ℕ) : sub w a b < 2 ^ w := Nat.mod_lt _ (Nat.two_pow_pos w)

/-- **A difference does not wrap** when the subtrahend is the smaller. -/
theorem sub_of_le {a b : ℕ} (ha : a < 2 ^ w) (h : b ≤ a) : sub w a b = a - b := by
  have hb : b % 2 ^ w = b := Nat.mod_eq_of_lt (h.trans_lt ha)
  unfold sub
  rw [hb, show a + (2 ^ w - b) = (a - b) + 2 ^ w by omega, Nat.add_mod_right]
  exact Nat.mod_eq_of_lt (by omega)

/-- Two differences do not wrap when both subtrahends fit together. -/
theorem sub_sub_of_le {a b c : ℕ} (ha : a < 2 ^ w) (h : b + c ≤ a) :
    sub w (sub w a b) c = a - b - c := by
  rw [sub_of_le ha (by omega), sub_of_le (by omega) (by omega)]

/-- A difference of words wraps when the subtrahend is the greater. -/
theorem sub_of_lt {a b : ℕ} (hb : b < 2 ^ w) (h : a < b) :
    sub w a b = a + 2 ^ w - b := by
  unfold sub
  rw [Nat.mod_eq_of_lt hb, Nat.mod_eq_of_lt (by omega)]
  omega

/-- **Masking rounds down**: clearing the low `k` bits of a word leaves the
greatest multiple of `2 ^ k` that does not exceed it. -/
theorem land_compl_eq {a k : ℕ} (ha : a < 2 ^ w) :
    a &&& compl w (2 ^ k - 1) = a - a % 2 ^ k := by
  by_cases hk : 2 ^ k ≤ 2 ^ w
  · have hround : a - a % 2 ^ k = 2 ^ k * (a / 2 ^ k) := by
      have := Nat.div_add_mod a (2 ^ k)
      omega
    rw [hround]
    refine Nat.eq_of_testBit_eq (fun i => ?_)
    have hmask : (compl w (2 ^ k - 1)).testBit i
        = (decide (i < w) && !decide (i < k)) := by
      rw [compl, Nat.testBit_two_pow_sub_succ
        (by have := Nat.two_pow_pos k; omega), Nat.testBit_two_pow_sub_one]
    rw [Nat.testBit_and, hmask, Nat.testBit_two_pow_mul]
    by_cases hik : k ≤ i
    · have hdiv : (a / 2 ^ k).testBit (i - k) = a.testBit i := by
        rw [Nat.testBit_div_two_pow, Nat.sub_add_cancel hik]
      by_cases hiw : i < w
      · simp [hik, hiw, hdiv, Nat.not_lt.mpr hik]
      · have hlow : a.testBit i = false :=
          Nat.testBit_lt_two_pow (ha.trans_le (Nat.pow_le_pow_right (by omega) (by omega)))
        simp [hlow, hdiv]
    · simp [hik, Nat.lt_of_not_le hik]
  · have hmask : compl w (2 ^ k - 1) = 0 := by
      have := Nat.two_pow_pos k
      unfold compl
      omega
    rw [hmask, Nat.and_zero, Nat.mod_eq_of_lt (by omega), Nat.sub_self]

end Word
