import BoostContainer.Lib.Region

/-!
# Words in a memory of bytes

A memory is a byte for each address. A word of `s` bytes is stored lowest byte
first; that order is not used below, only that what is loaded is what was
stored, that a store changes its own bytes alone, and that a load depends on
its own bytes alone. The last is what lets a word survive whatever happens to
the rest of the memory.
-/

/-- **A memory**: the byte at each address. -/
abbrev ByteMemory := ℕ → UInt8

namespace ByteMemory

variable {s a v : ℕ} {m m' : ByteMemory}

/-- Stores a word of `s` bytes at an address. -/
def store (m : ByteMemory) (s a v : ℕ) : ByteMemory := fun x =>
  if a ≤ x ∧ x < a + s then UInt8.ofNat (v / 256 ^ (x - a)) else m x

/-- Loads a word of `s` bytes from an address. -/
def load (m : ByteMemory) (s a : ℕ) : ℕ :=
  ∑ i ∈ Finset.range s, (m (a + i)).toNat * 256 ^ i

/-- Two memories hold the same bytes in a range. -/
def AgreeOn (r : Set ℕ) (m m' : ByteMemory) : Prop := ∀ x ∈ r, m x = m' x

/-- **A load depends on its own bytes alone.** -/
theorem load_congr (h : AgreeOn (⟨a, s⟩ : Region).bytes m m') : m.load s a = m'.load s a := by
  refine Finset.sum_congr rfl (fun i hi => ?_)
  have hlt := Finset.mem_range.mp hi
  rw [h (a + i) ⟨Nat.le_add_right a i, Nat.add_lt_add_left hlt a⟩]

/-- **A store changes its own bytes alone.** -/
theorem store_of_notMem {x : ℕ} (h : x ∉ (⟨a, s⟩ : Region).bytes) :
    m.store s a v x = m x := if_neg h

/-- The digits of a word add up to it. -/
theorem sum_digits (s v : ℕ) :
    ∑ i ∈ Finset.range s, v / 256 ^ i % 256 * 256 ^ i = v % 256 ^ s := by
  induction s with
  | zero => rw [Finset.sum_range_zero, pow_zero, Nat.mod_one]
  | succ s ih => rw [Finset.sum_range_succ, ih, Nat.mod_pow_succ, Nat.mul_comm]

/-- **What is loaded is what was stored.** -/
theorem load_store (m : ByteMemory) (h : v < 256 ^ s) : (m.store s a v).load s a = v := by
  have hdigit : ∀ i ∈ Finset.range s,
      (m.store s a v (a + i)).toNat * 256 ^ i = v / 256 ^ i % 256 * 256 ^ i := by
    intro i hi
    have hin : a ≤ a + i ∧ a + i < a + s :=
      ⟨Nat.le_add_right a i, Nat.add_lt_add_left (Finset.mem_range.mp hi) a⟩
    rw [store, if_pos hin, Nat.add_sub_cancel_left, UInt8.toNat_ofNat']
  rw [load, Finset.sum_congr rfl hdigit, sum_digits, Nat.mod_eq_of_lt h]

end ByteMemory
