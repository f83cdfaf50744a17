import Mathlib

/-!
# Which allocator a block is from

Memory that is got from one allocator is given back to an equal one. A ledger
says of every allocated block which allocator it is from, and records of every
deallocation the allocator that was used and the one the block was from, if
there was a block.

Objects hold titles: an allocator and the address of a block, or null. The
ledger is kept (`BlockLedger.Kept`) when no deallocation was wrong and every title
could be used: its block is there, from an equal allocator, and nobody else's.
-/

/-- **The blocks in use**, by their addresses, and what was given back. -/
structure BlockLedger (A : Type*) where
  blocks : ℕ → Option A
  /-- The allocators that deallocated, each with the one the block was from. -/
  deallocations : List (A × Option A)

namespace BlockLedger

variable {A ι κ : Type*}

/-- Nothing was allocated. -/
def empty : BlockLedger A := ⟨fun _ => none, []⟩

/-- A block at `p`, from `a`. -/
def allocate (L : BlockLedger A) (a : A) (p : ℕ) : BlockLedger A :=
  { L with blocks := Function.update L.blocks p (some a) }

/-- The block at `p`, given to `a`. -/
def deallocate (L : BlockLedger A) (a : A) (p : ℕ) : BlockLedger A :=
  ⟨Function.update L.blocks p none, (a, L.blocks p) :: L.deallocations⟩

/-- **Every block was given back to an allocator that equals the one it is from.** -/
def Conforms (equal : A → A → Bool) (L : BlockLedger A) : Prop :=
  ∀ d ∈ L.deallocations, ∃ o, d.2 = some o ∧ equal d.1 o = true

/-- **A title that may be used**: there is a block, from an equal allocator. -/
def Backs (equal : A → A → Bool) (L : BlockLedger A) (a : A) (p : ℕ) : Prop :=
  ∃ o, L.blocks p = some o ∧ equal a o = true

/-- **A ledger is kept** for those who hold titles. -/
structure Kept (equal : A → A → Bool) (L : BlockLedger A) (titles : ι → Option (A × ℕ)) : Prop where
  conforms : L.Conforms equal
  backs : ∀ {i a p}, titles i = some (a, p) → p ≠ 0 → L.Backs equal a p
  apart : ∀ {i j a b p}, titles i = some (a, p) → titles j = some (b, p) → p ≠ 0 → i = j

/-- **A title that nobody holds.** -/
structure Loose (equal : A → A → Bool) (L : BlockLedger A) (titles : ι → Option (A × ℕ)) (a : A)
    (p : ℕ) : Prop where
  backs : L.Backs equal a p
  free : ∀ i b, titles i ≠ some (b, p)

variable {equal : A → A → Bool} {L : BlockLedger A} {titles : ι → Option (A × ℕ)} {a b : A}
  {p q : ℕ} {i j : ι}

theorem kept_empty : Kept equal (empty : BlockLedger A) (fun _ : ι => none) where
  conforms := fun _ hd => (List.not_mem_nil hd).elim
  backs := fun h => (Option.some_ne_none _ h.symm).elim
  apart := fun h => (Option.some_ne_none _ h.symm).elim

theorem Backs.allocate (h : L.Backs equal a p) (hfree : L.blocks q = none) :
    (L.allocate b q).Backs equal a p := by
  obtain ⟨o, ho, he⟩ := h
  have hne : p ≠ q := by
    rintro rfl
    exact Option.some_ne_none o (ho.symm.trans hfree)
  exact ⟨o, (Function.update_of_ne hne _ _).trans ho, he⟩

theorem Backs.deallocate (h : L.Backs equal a p) (hne : p ≠ q) :
    (L.deallocate b q).Backs equal a p := by
  obtain ⟨o, ho, he⟩ := h
  exact ⟨o, (Function.update_of_ne hne _ _).trans ho, he⟩

/-- An equal allocator may use the title as well. -/
theorem Backs.of_equal (h : L.Backs equal a p)
    (htrans : ∀ x y z, equal x y = true → equal y z = true → equal x z = true)
    (he : equal b a = true) : L.Backs equal b p := by
  obtain ⟨o, ho, hao⟩ := h
  exact ⟨o, ho, htrans b a o he hao⟩

namespace Kept

variable (h : Kept equal L titles)

include h

/-- A block that is allocated is nobody's. -/
theorem loose_allocate (hfree : L.blocks p = none) (hp : p ≠ 0) (hrefl : equal a a = true) :
    Loose equal (L.allocate a p) titles a p where
  backs := ⟨a, Function.update_self _ _ _, hrefl⟩
  free i b hi := by
    obtain ⟨o, ho, -⟩ := h.backs hi hp
    exact Option.some_ne_none o (ho.symm.trans hfree)

theorem allocate (hfree : L.blocks p = none) : Kept equal (L.allocate a p) titles where
  conforms := h.conforms
  backs hi hp := (h.backs hi hp).allocate hfree
  apart := h.apart

/-- **A title that nobody holds may be used up.** -/
theorem deallocate (hl : Loose equal L titles a p) : Kept equal (L.deallocate a p) titles where
  conforms d hd := by
    obtain rfl | hd := List.mem_cons.mp hd
    · exact hl.backs
    · exact h.conforms d hd
  backs {i b q} hi hq := by
    refine (h.backs hi hq).deallocate ?_
    rintro rfl
    exact hl.free i b hi
  apart := h.apart

/-- **Titles may change hands**: everybody takes a title somebody else held, or none, and
nobody's is taken twice. -/
theorem transfer {titles' : κ → Option (A × ℕ)} (e : κ → ι) (he : Function.Injective e)
    (htrans : ∀ x y z, equal x y = true → equal y z = true → equal x z = true)
    (ht : ∀ {k a p}, titles' k = some (a, p) → p ≠ 0 →
      ∃ b, titles (e k) = some (b, p) ∧ equal a b = true) : Kept equal L titles' where
  conforms := h.conforms
  backs hk hp := by
    obtain ⟨b, hb, hab⟩ := ht hk hp
    exact (h.backs hb hp).of_equal htrans hab
  apart hk hl hp := by
    obtain ⟨b, hb, -⟩ := ht hk hp
    obtain ⟨d, hd, -⟩ := ht hl hp
    exact he (h.apart hb hd hp)

/-- **A title may be exchanged** for one that nobody else holds. -/
theorem put [DecidableEq ι] (hback : p ≠ 0 → L.Backs equal a p)
    (hfree : p ≠ 0 → ∀ j, j ≠ i → ∀ b, titles j ≠ some (b, p)) :
    Kept equal L (Function.update titles i (some (a, p))) where
  conforms := h.conforms
  backs {k b q} hk hq := by
    obtain rfl | hne := eq_or_ne k i
    · rw [Function.update_self] at hk
      obtain ⟨rfl, rfl⟩ := Prod.mk.inj (Option.some.inj hk)
      exact hback hq
    · rw [Function.update_of_ne hne] at hk
      exact h.backs hk hq
  apart {k l b d q} hk hl hq := by
    -- The new title meets no other, whichever of the two it is.
    have hnew : ∀ {m c}, Function.update titles i (some (a, p)) m = some (c, q) → m ≠ i →
        p ≠ q := by
      rintro m c hm hne rfl
      rw [Function.update_of_ne hne] at hm
      exact hfree hq m hne c hm
    obtain rfl | hki := eq_or_ne k i
    · obtain rfl | hli := eq_or_ne l k
      · rfl
      · rw [Function.update_self] at hk
        exact (hnew hl hli (Prod.mk.inj (Option.some.inj hk)).2).elim
    · obtain rfl | hli := eq_or_ne l i
      · rw [Function.update_self] at hl
        exact (hnew hk hki (Prod.mk.inj (Option.some.inj hl)).2).elim
      · rw [Function.update_of_ne hki] at hk
        rw [Function.update_of_ne hli] at hl
        exact h.apart hk hl hq

end Kept

end BlockLedger
