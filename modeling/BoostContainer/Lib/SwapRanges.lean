import Mathlib

/-!
# Ranges that are exchanged

A memory gives what is at an address, whatever that is: a byte, or an element.
Copying a range reads all of it before it writes (`copyRange`), and two ranges
apart are exchanged by copying three times through a third place
(`copyRange_thrice`). Exchanging ranges piece by piece exchanges them
(`swapRanges_add`), in pieces of any length.
-/

variable {β : Type*} {m k : ℕ → β} {p q a n i j : ℕ}

/-- A range is copied, to `dst` on, from `src` on in another memory. -/
def copyRange (dst : ℕ) (k : ℕ → β) (src n : ℕ) (m : ℕ → β) : ℕ → β := fun a =>
  if dst ≤ a ∧ a < dst + n then k (src + (a - dst)) else m a

/-- **Two ranges are exchanged.** -/
def swapRanges (p q n : ℕ) (m : ℕ → β) : ℕ → β := fun a =>
  if p ≤ a ∧ a < p + n then m (q + (a - p))
  else if q ≤ a ∧ a < q + n then m (p + (a - q))
  else m a

theorem copyRange_of_mem (h : p ≤ a) (h' : a < p + n) :
    copyRange p k q n m a = k (q + (a - p)) := if_pos ⟨h, h'⟩

theorem copyRange_of_notMem (h : a < p ∨ p + n ≤ a) : copyRange p k q n m a = m a :=
  if_neg (by omega)

theorem swapRanges_left (h : i < n) : swapRanges p q n m (p + i) = m (q + i) := by
  rw [swapRanges, if_pos (by omega), Nat.add_sub_cancel_left]

theorem swapRanges_right (hd : p + n ≤ q ∨ q + n ≤ p) (h : i < n) :
    swapRanges p q n m (q + i) = m (p + i) := by
  rw [swapRanges, if_neg (by omega), if_pos (by omega), Nat.add_sub_cancel_left]

theorem swapRanges_of_notMem (hp : a < p ∨ p + n ≤ a) (hq : a < q ∨ q + n ≤ a) :
    swapRanges p q n m a = m a := by
  rw [swapRanges, if_neg (by omega), if_neg (by omega)]

theorem swapRanges_zero (p q : ℕ) (m : ℕ → β) : swapRanges p q 0 m = m :=
  funext fun _ => swapRanges_of_notMem (by omega) (by omega)

/-- An address is in the first range, in the second, or in neither. -/
theorem mem_ranges (p q n a : ℕ) :
    (∃ i < n, a = p + i) ∨ (∃ i < n, a = q + i)
      ∨ ((a < p ∨ p + n ≤ a) ∧ (a < q ∨ q + n ≤ a)) := by
  by_cases hp : p ≤ a ∧ a < p + n
  · exact Or.inl ⟨a - p, by omega, by omega⟩
  · by_cases hq : q ≤ a ∧ a < q + n
    · exact Or.inr (Or.inl ⟨a - q, by omega, by omega⟩)
    · exact Or.inr (Or.inr ⟨by omega, by omega⟩)

/-- **Ranges are exchanged piece by piece.** -/
theorem swapRanges_add (hd : p + (i + j) ≤ q ∨ q + (i + j) ≤ p) :
    swapRanges (p + i) (q + i) j (swapRanges p q i m) = swapRanges p q (i + j) m := by
  funext a
  obtain ⟨x, hx, rfl⟩ | ⟨x, hx, rfl⟩ | ⟨hp, hq⟩ := mem_ranges p q (i + j) a
  · rw [swapRanges_left hx]
    by_cases hxi : x < i
    · rw [swapRanges_of_notMem (by omega) (by omega), swapRanges_left hxi]
    · obtain ⟨y, rfl⟩ := Nat.exists_eq_add_of_le (Nat.le_of_not_lt hxi)
      rw [← Nat.add_assoc, ← Nat.add_assoc, swapRanges_left (by omega),
        swapRanges_of_notMem (by omega) (by omega)]
  · rw [swapRanges_right hd hx]
    by_cases hxi : x < i
    · rw [swapRanges_of_notMem (by omega) (by omega), swapRanges_right (by omega) hxi]
    · obtain ⟨y, rfl⟩ := Nat.exists_eq_add_of_le (Nat.le_of_not_lt hxi)
      rw [← Nat.add_assoc, ← Nat.add_assoc, swapRanges_right (by omega) (by omega),
        swapRanges_of_notMem (by omega) (by omega)]
  · rw [swapRanges_of_notMem hp hq, swapRanges_of_notMem (by omega) (by omega),
      swapRanges_of_notMem (by omega) (by omega)]

/-- **Three copies**: the first range to another place, the second over the first,
and from the other place over the second. -/
theorem copyRange_thrice (hd : p + n ≤ q ∨ q + n ≤ p) :
    copyRange q (copyRange 0 m p n k) 0 n (copyRange p m q n m) = swapRanges p q n m := by
  funext a
  obtain ⟨x, hx, rfl⟩ | ⟨x, hx, rfl⟩ | ⟨hp, hq⟩ := mem_ranges p q n a
  · rw [swapRanges_left hx, copyRange_of_notMem (by omega),
      copyRange_of_mem (by omega) (by omega), Nat.add_sub_cancel_left]
  · rw [swapRanges_right hd hx, copyRange_of_mem (by omega) (by omega),
      copyRange_of_mem (by omega) (by omega)]
    congr 1
    omega
  · rw [swapRanges_of_notMem hp hq, copyRange_of_notMem hq, copyRange_of_notMem hp]
