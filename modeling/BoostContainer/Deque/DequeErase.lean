import BoostContainer.Deque.DequeCopies
import BoostContainer.Lib.SlotValues

/-!
# Erasure of a range of a deque

`erase` moves the elements of the shorter side over the range, and destroys the
slots that this leaves at that end. Elements that are moved over an empty range
are moved onto themselves.

`erase` may not throw: an exception of an assignment ends the process, so
nothing is promised about one.
-/

open Slots

namespace DequeImpl

variable {α : Type*} {o : Options} {rot : Rotation} {e : Env α} {t : Bool}
  {s₀ s s₁ s' : State Members α} {S₀ own live : Set ℕ} {k : Members} {map : List (Option ℕ)}
  {N : Set ℕ} {a b c d f m n p first last x : ℕ}

/-! ## Elements that are moved -/

/-- Elements are moved to an iterator. -/
theorem moveNTo_moved (hw : Written map N) (hinj : Set.InjOn (addrIn o map) own)
    (hlive : live ⊆ own) (hN : Set.Ico d (d + (m + c)) ⊆ slotsOf o.blockSize N) (hdf : d ≤ f)
    (hp : ∀ i < c, addrIn o map (f + m + i) = p + i) (hf : Set.Ico f (f + (m + c)) ⊆ live)
    (hd : Set.Ico d (d + (m + c)) ⊆ live) :
    Prog.Meets
      (fun u => OwnsVia t s₀ S₀ k (addrIn o map) own live u
        ∧ MovedUp e (addrIn o map) own f d m s u)
      (moveNTo o e map p (d + m) c)
      (fun _ u => OwnsVia t s₀ S₀ k (addrIn o map) own live u
        ∧ MovedUp e (addrIn o map) own f d (m + c) s u) (fun _ => True) := by
  induction c generalizing p m with
  | zero => exact Prog.meets_pure (fun _ hu => hu)
  | succ c ih =>
    have hmem : d + m ∈ Set.Ico d (d + (m + (c + 1))) := ⟨by omega, by omega⟩
    have hsrc : f + m ∈ live := hf ⟨by omega, by omega⟩
    have hp₀ : addrIn o map (f + m) = p := hp 0 (Nat.succ_pos c)
    have hassoc : m + (c + 1) = m + 1 + c := by omega
    rw [moveNTo, elementIn_bind hw (hN hmem), ← hp₀]
    refine Prog.Meets.bind (R := fun _ u => OwnsVia t s₀ S₀ k (addrIn o map) own live u
      ∧ MovedUp e (addrIn o map) own f d (m + 1) s u) (fun u hu => ?_) (fun _ => ?_)
    · refine ((assign_via (hd hmem) (Set.mem_image_of_mem _ hsrc) u hu.1).and_permits
        (hu.2.step hinj hdf ((Set.Ico_subset_Ico le_rfl (by omega)).trans (hf.trans hlive))
          ((Set.Ico_subset_Ico le_rfl (by omega)).trans (hd.trans hlive)))).imp
        (fun _ _ hw => hw) (fun _ _ => trivial)
    · rw [hassoc] at hN hf hd ⊢
      refine ih hN (fun i hi => ?_) hf hd
      have h := hp (1 + i) (by omega)
      rw [← Nat.add_assoc, ← Nat.add_assoc] at h
      rw [hp₀]
      exact h

/-- **Elements are moved towards the front.** -/
theorem privSegmentedMoveN_moved (hw : Written map N) (hinj : Set.InjOn (addrIn o map) own)
    (hlive : live ⊆ own) (hdf : d ≤ f) (hN : Set.Ico d (f + n) ⊆ slotsOf o.blockSize N)
    (hl : Set.Ico d (f + n) ⊆ live) :
    Prog.Meets
      (fun u => OwnsVia t s₀ S₀ k (addrIn o map) own live u ∧ u = s)
      (privSegmentedMoveN o e map f n d)
      (fun p u => p = d + n ∧ OwnsVia t s₀ S₀ k (addrIn o map) own live u
        ∧ MovedUp e (addrIn o map) own f d n s u) (fun _ => True) := by
  have hbs := o.blockSize_pos
  refine Prog.Meets.pre (Prog.Meets.bind (forSegmentsN_meets
    (I := fun m u => OwnsVia t s₀ S₀ k (addrIn o map) own live u
      ∧ MovedUp e (addrIn o map) own f d m s u) (fun m c hm hc hat => ?_))
    (fun _ => Prog.meets_pure (fun u hu => ⟨rfl, hu⟩))) (fun u hu => ⟨hu.1, hu.2 ▸ .zero u⟩)
  have hmod := Nat.mod_lt (f + m) hbs
  rw [elementIn_bind hw (hN ⟨by omega, by omega⟩), Nat.add_sub_cancel_left]
  exact moveNTo_moved hw hinj hlive ((Set.Ico_subset_Ico le_rfl (by omega)).trans hN) hdf
    (addrIn_add (n := c) (by omega)) ((Set.Ico_subset_Ico hdf (by omega)).trans hl)
    ((Set.Ico_subset_Ico le_rfl (by omega)).trans hl)

/-- Elements are moved to an iterator from the back. -/
theorem moveBackwardNTo_moved (hw : Written map N) (hinj : Set.InjOn (addrIn o map) own)
    (hlive : live ⊆ own) (hN : Set.Ico (b - (m + c)) b ⊆ slotsOf o.blockSize N) (hab : a ≤ b)
    (hc : m + c ≤ a) (hcp : c ≤ p)
    (hp : ∀ i < c, addrIn o map (a - m - c + i) = p - c + i) (ha : Set.Ico (a - (m + c)) a ⊆ live)
    (hb : Set.Ico (b - (m + c)) b ⊆ live) :
    Prog.Meets
      (fun u => OwnsVia t s₀ S₀ k (addrIn o map) own live u
        ∧ MovedDown e (addrIn o map) own a b m s u)
      (moveBackwardNTo o e map p (b - m) c)
      (fun _ u => OwnsVia t s₀ S₀ k (addrIn o map) own live u
        ∧ MovedDown e (addrIn o map) own a b (m + c) s u) (fun _ => True) := by
  induction c generalizing p m with
  | zero => exact Prog.meets_pure (fun _ hu => hu)
  | succ c ih =>
    have hmem : b - 1 - m ∈ Set.Ico (b - (m + (c + 1))) b := ⟨by omega, by omega⟩
    have hsrc : a - 1 - m ∈ live := ha ⟨by omega, by omega⟩
    have hp₀ : addrIn o map (a - 1 - m) = p - 1 := by
      have h := hp c (by omega)
      rwa [show a - m - (c + 1) + c = a - 1 - m by omega, show p - (c + 1) + c = p - 1 by omega]
        at h
    have hassoc : m + (c + 1) = m + 1 + c := by omega
    rw [moveBackwardNTo, show b - m - 1 = b - 1 - m by omega, elementIn_bind hw (hN hmem), ← hp₀]
    refine Prog.Meets.bind (R := fun _ u => OwnsVia t s₀ S₀ k (addrIn o map) own live u
      ∧ MovedDown e (addrIn o map) own a b (m + 1) s u) (fun u hu => ?_) (fun _ => ?_)
    · refine ((assign_via (hb hmem) (Set.mem_image_of_mem _ hsrc) u hu.1).and_permits
        (hu.2.step hinj hab (by omega)
          ((Set.Ico_subset_Ico (by omega) le_rfl).trans (ha.trans hlive))
          ((Set.Ico_subset_Ico (by omega) le_rfl).trans (hb.trans hlive)))).imp
        (fun _ _ hw => hw) (fun _ _ => trivial)
    · rw [hassoc] at hN ha hb ⊢
      rw [hp₀, show b - 1 - m = b - (m + 1) by omega]
      refine ih hN (by omega) (by omega) (fun i hi => ?_) ha hb
      have h := hp i (by omega)
      rwa [show a - m - (c + 1) + i = a - (m + 1) - c + i by omega,
        show p - (c + 1) + i = p - 1 - c + i by omega] at h

/-- **Elements are moved towards the back.** -/
theorem privSegmentedMoveBackwardN_moved (hw : Written map N)
    (hinj : Set.InjOn (addrIn o map) own) (hlive : live ⊆ own) (hab : a ≤ b) (hn : n ≤ a)
    (hN : Set.Ico (a - n) b ⊆ slotsOf o.blockSize N) (hl : Set.Ico (a - n) b ⊆ live) :
    Prog.Meets
      (fun u => OwnsVia t s₀ S₀ k (addrIn o map) own live u ∧ u = s)
      (privSegmentedMoveBackwardN o e map a n b)
      (fun p u => p = b - n ∧ OwnsVia t s₀ S₀ k (addrIn o map) own live u
        ∧ MovedDown e (addrIn o map) own a b n s u) (fun _ => True) := by
  refine Prog.Meets.pre (Prog.Meets.bind (forSegmentsBackward_meets
    (I := fun m u => OwnsVia t s₀ S₀ k (addrIn o map) own live u
      ∧ MovedDown e (addrIn o map) own a b m s u) hn (fun m c hm hc hmc hmod => ?_))
    (fun _ => Prog.meets_pure (fun u hu => ⟨rfl, hu⟩))) (fun u hu => ⟨hu.1, hu.2 ▸ .zero u⟩)
  rw [elementIn_bind hw (hN ⟨by omega, by omega⟩), show a - (a - m) = m by omega]
  refine moveBackwardNTo_moved hw hinj hlive ((Set.Ico_subset_Ico (by omega) le_rfl).trans hN) hab
    (hmc.trans hn) (by omega) (fun i hi => ?_) ((Set.Ico_subset_Ico (by omega) hab).trans hl)
    ((Set.Ico_subset_Ico (by omega) le_rfl).trans hl)
  rw [Nat.add_sub_cancel]
  exact addrIn_add (n := c) hmod i hi

end DequeImpl
