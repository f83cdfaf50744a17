import Mathlib

/-!
# Ranges of addresses

Memory that is handed out is a half-open range of addresses. Three facts
about such ranges carry every allocator argument: a range inside another is
apart from whatever the other is apart from, the two halves of a cut are
apart, and two ranges are apart exactly when one ends before the other
starts or one of them is empty. An empty range is apart from everything,
itself included, which is what lets a request for no bytes be answered with
any address.
-/

/-- **A half-open range of addresses**: its first address and its length. -/
structure Region where
  /-- The first address. -/
  base : ℕ
  /-- How many addresses there are. -/
  size : ℕ
  deriving DecidableEq, Repr

namespace Region

/-- One past the last address. -/
def stop (r : Region) : ℕ := r.base + r.size

@[simp] theorem stop_mk (b n : ℕ) : (Region.mk b n).stop = b + n := rfl

/-- The addresses of the range. -/
def bytes (r : Region) : Set ℕ := Set.Ico r.base r.stop

/-- Two ranges share no address. -/
def Apart (r s : Region) : Prop := Disjoint r.bytes s.bytes

/-- One range lies between the ends of the other. -/
def Within (r s : Region) : Prop := s.base ≤ r.base ∧ r.stop ≤ s.stop

instance (r s : Region) : Decidable (r.Within s) :=
  inferInstanceAs (Decidable (_ ∧ _))

/-- **Ranges are apart** exactly when one of them is empty or one ends
before the other starts. -/
theorem apart_iff {r s : Region} :
    r.Apart s ↔ r.size = 0 ∨ s.size = 0 ∨ r.stop ≤ s.base ∨ s.stop ≤ r.base := by
  unfold Apart bytes stop
  rw [Set.disjoint_iff_inter_eq_empty, Set.Ico_inter_Ico, Set.Ico_eq_empty_iff]
  omega

instance (r s : Region) : Decidable (r.Apart s) :=
  decidable_of_iff _ apart_iff.symm

theorem Apart.symm {r s : Region} (h : r.Apart s) : s.Apart r := Disjoint.symm h

theorem apart_comm {r s : Region} : r.Apart s ↔ s.Apart r :=
  ⟨Apart.symm, Apart.symm⟩

theorem Within.refl (r : Region) : r.Within r := ⟨le_rfl, le_rfl⟩

theorem Within.trans {r s t : Region} (h : r.Within s) (h' : s.Within t) :
    r.Within t := ⟨h'.1.trans h.1, h.2.trans h'.2⟩

/-- A range inside another has no address outside it. -/
theorem Within.bytes_subset {r s : Region} (h : r.Within s) :
    r.bytes ⊆ s.bytes := Set.Ico_subset_Ico h.1 h.2

/-- **What is inside one of two ranges apart is apart from the other.** -/
theorem Within.apart {r s t : Region} (h : r.Within s) (ha : s.Apart t) :
    r.Apart t := Disjoint.mono_left h.bytes_subset ha

/-- A range that is empty is apart from every range. -/
theorem apart_of_size_eq_zero {r : Region} (h : r.size = 0) (s : Region) :
    r.Apart s := apart_iff.mpr (Or.inl h)

/-! ## Cutting a range into slots -/

/-- **The addresses of `n` slots** of one size, laid end to end. -/
def slots (unit : ℕ) : ℕ → ℕ → List ℕ
  | 0, _ => []
  | n + 1, a => a :: slots unit n (a + unit)

variable {unit n a x : ℕ}

@[simp] theorem length_slots (unit n a : ℕ) : (slots unit n a).length = n := by
  induction n generalizing a with
  | zero => rfl
  | succ n ih => rw [slots, List.length_cons, ih]

theorem mem_slots : x ∈ slots unit n a ↔ ∃ i < n, x = a + i * unit := by
  induction n generalizing a with
  | zero => simp [slots]
  | succ n ih =>
    rw [slots, List.mem_cons, ih]
    constructor
    · rintro (rfl | ⟨i, hi, rfl⟩)
      · exact ⟨0, by omega, by omega⟩
      · exact ⟨i + 1, by omega, by rw [Nat.add_one_mul]; omega⟩
    · rintro ⟨i, hi, rfl⟩
      cases i with
      | zero => exact Or.inl (by omega)
      | succ i => exact Or.inr ⟨i, by omega, by rw [Nat.add_one_mul]; omega⟩

/-- The slots lie in the range they are cut from. -/
theorem slots_within (h : x ∈ slots unit n a) :
    (⟨x, unit⟩ : Region).Within ⟨a, n * unit⟩ := by
  obtain ⟨i, hi, rfl⟩ := mem_slots.mp h
  have hle := Nat.mul_le_mul_right unit (Nat.succ_le_of_lt hi)
  rw [Nat.succ_mul] at hle
  exact ⟨Nat.le_add_right _ _, by simp only [stop_mk]; omega⟩

theorem take_slots (k : ℕ) : (slots unit n a).take k = slots unit (min n k) a := by
  induction n generalizing a k with
  | zero => rw [Nat.zero_min]; exact List.take_nil
  | succ n ih =>
    cases k with
    | zero => rfl
    | succ k => rw [slots, List.take_succ_cons, ih, Nat.succ_min_succ, slots]

theorem drop_slots (k : ℕ) :
    (slots unit n a).drop k = slots unit (n - k) (a + min n k * unit) := by
  induction n generalizing a k with
  | zero => rw [Nat.zero_sub]; exact List.drop_nil
  | succ n ih =>
    cases k with
    | zero => simp
    | succ k =>
      rw [slots, List.drop_succ_cons, ih, Nat.succ_min_succ, Nat.succ_sub_succ,
        Nat.succ_mul, Nat.add_assoc, Nat.add_comm unit]

/-- Slots of an aligned size in an aligned range are aligned. -/
theorem slots_mod {m : ℕ} (ha : m ∣ a) (hunit : m ∣ unit) (h : x ∈ slots unit n a) :
    x % m = 0 := by
  obtain ⟨i, _, rfl⟩ := mem_slots.mp h
  exact Nat.mod_eq_zero_of_dvd (Nat.dvd_add ha (Dvd.dvd.mul_left hunit i))

/-- **The slots are apart.** -/
theorem slots_apart (unit n a : ℕ) :
    ((slots unit n a).map (fun x => (⟨x, unit⟩ : Region))).Pairwise Apart := by
  induction n generalizing a with
  | zero => exact List.Pairwise.nil
  | succ n ih =>
    rw [slots, List.map_cons, List.pairwise_cons]
    refine ⟨fun r hr => ?_, ih _⟩
    obtain ⟨x, hx, rfl⟩ := List.mem_map.mp hr
    have hle : a + unit ≤ x := (slots_within hx).1
    exact apart_iff.mpr (Or.inr (Or.inr (Or.inl hle)))

/-- Slots of positive size are distinct. -/
theorem nodup_slots (hunit : 0 < unit) : (slots unit n a).Nodup := by
  induction n generalizing a with
  | zero => exact List.nodup_nil
  | succ n ih =>
    rw [slots, List.nodup_cons]
    refine ⟨fun hmem => ?_, ih⟩
    have hle : a + unit ≤ a := (slots_within hmem).1
    omega

/-- A slot of positive size starts inside the range it is cut from. -/
theorem mem_bytes_of_mem_slots (hunit : 0 < unit) (h : x ∈ slots unit n a) :
    x ∈ (⟨a, n * unit⟩ : Region).bytes := by
  obtain ⟨hle, hstop⟩ := slots_within h
  refine ⟨hle, lt_of_lt_of_le ?_ hstop⟩
  exact Nat.lt_add_of_pos_right hunit

/-- **Ranges that are apart have no slot in common**, and each lists its slots
once. -/
theorem nodup_flatMap_slots {bs : List ℕ} (hunit : 0 < unit)
    (h : (bs.map (fun b => (⟨b, n * unit⟩ : Region))).Pairwise Apart) :
    (bs.flatMap (slots unit n)).Nodup := by
  rw [List.nodup_flatMap]
  refine ⟨fun b _ => nodup_slots hunit, ?_⟩
  rw [List.pairwise_map] at h
  refine h.imp (fun {b c} hbc x hb hc => ?_)
  exact Set.disjoint_left.mp hbc (mem_bytes_of_mem_slots hunit hb)
    (mem_bytes_of_mem_slots hunit hc)

end Region
