import Mathlib

/-!
# Heaps with owners

A heap maps addresses to blocks. Objects own blocks, and no block is without
an owner or has two: that is what makes every block freed once and no block
lost. An operation on one object exchanges the blocks it owns for others: it
frees those it gives up, takes new ones only where nothing was, and leaves
the blocks of other objects alone. Such exchanges compose, so an operation
made of several is one again, and ownership survives each.
-/

/-- **A heap**: the block at an address, if there is one. -/
abbrev Heap (β : Type*) := ℕ → Option β

namespace Heap

variable {β ι : Type*} {h h₁ h₂ : Heap β} {S S₁ S₂ : Set ℕ}

/-- **An exchange of blocks**: from owning `S` in one heap to owning `S₁` in
another. -/
structure Exchange (h : Heap β) (S : Set ℕ) (h₁ : Heap β) (S₁ : Set ℕ) : Prop where
  /-- What is given up is freed. -/
  freed : ∀ p ∈ S, p ∉ S₁ → h₁ p = none
  /-- The blocks of others stay as they are. -/
  frame : ∀ p, p ∉ S → p ∉ S₁ → h₁ p = h p
  /-- What is taken was nobody's. -/
  fresh : ∀ p ∈ S₁, p ∉ S → h p = none

theorem Exchange.refl (h : Heap β) (S : Set ℕ) : Exchange h S h S :=
  ⟨fun _ hp hn => absurd hp hn, fun _ _ _ => rfl, fun _ hp hn => absurd hp hn⟩

/-- **Exchanges compose.** -/
theorem Exchange.trans (e : Exchange h S h₁ S₁) (e' : Exchange h₁ S₁ h₂ S₂) :
    Exchange h S h₂ S₂ := by
  refine ⟨fun p hp hn => ?_, fun p hp hn => ?_, fun p hp hn => ?_⟩
  · by_cases h1 : p ∈ S₁
    · exact e'.freed p h1 hn
    · exact (e'.frame p h1 hn).trans (e.freed p hp h1)
  · by_cases h1 : p ∈ S₁
    · exact (e'.freed p h1 hn).trans (e.fresh p h1 hp).symm
    · exact (e'.frame p h1 hn).trans (e.frame p hp h1)
  · by_cases h1 : p ∈ S₁
    · exact e.fresh p h1 hn
    · exact (e.frame p hn h1).symm.trans (e'.fresh p hp h1)

/-- Other blocks may be owned as well. -/
theorem Exchange.union (e : Exchange h S h₁ S₁) (F : Set ℕ) :
    Exchange h (S ∪ F) h₁ (S₁ ∪ F) := by
  refine ⟨fun p hp hn => ?_, fun p hp hn => ?_, fun p hp hn => ?_⟩
  · rw [Set.mem_union, not_or] at hn
    exact e.freed p (hp.resolve_right hn.2) hn.1
  · rw [Set.mem_union, not_or] at hp hn
    exact e.frame p hp.1 hn.1
  · rw [Set.mem_union, not_or] at hn
    exact e.fresh p (hp.resolve_right hn.2) hn.1

/-- Rewriting a block that is owned is an exchange of nothing. -/
theorem Exchange.update {p : ℕ} (hp : p ∈ S) (b : Option β) :
    Exchange h S (Function.update h p b) S :=
  ⟨fun _ hq hn => absurd hq hn,
    fun _ hq _ => Function.update_of_ne (ne_of_mem_of_not_mem hp hq).symm _ _,
    fun _ hq hn => absurd hq hn⟩

/-- Taking a block where there was none. -/
theorem Exchange.alloc {p : ℕ} (hp : h p = none) (b : β) :
    Exchange h ∅ (Function.update h p (some b)) {p} := by
  refine ⟨fun q hq => absurd hq (Set.notMem_empty q), fun q _ hn => ?_, fun q hq _ => ?_⟩
  · exact Function.update_of_ne (fun he => hn he) _ _
  · rw [Set.mem_singleton_iff.mp hq, hp]

/-- Freeing a block. -/
theorem Exchange.free (h : Heap β) (p : ℕ) :
    Exchange h {p} (Function.update h p none) ∅ := by
  refine ⟨fun q hq _ => ?_, fun q hq _ => ?_, fun q hq => absurd hq (Set.notMem_empty q)⟩
  · rw [Set.mem_singleton_iff.mp hq, Function.update_self]
  · exact Function.update_of_ne (fun he => hq he) _ _

/-- **Every block has one owner**: what the objects own is what there is. -/
structure Owned (h : Heap β) (owns : ι → Set ℕ) : Prop where
  disjoint : ∀ i j, i ≠ j → Disjoint (owns i) (owns j)
  allocated : ∀ p, h p ≠ none ↔ ∃ i, p ∈ owns i

variable {owns : ι → Set ℕ}

/-- **Owners exchange what they own**, and every block is still owned once. -/
theorem Owned.comp_perm (o : Owned h owns) (e : Equiv.Perm ι) : Owned h (owns ∘ e) where
  disjoint i j hij := o.disjoint (e i) (e j) (fun he => hij (e.injective he))
  allocated p := by
    rw [o.allocated p]
    exact (e.exists_congr_right (q := fun i => p ∈ owns i)).symm

variable [DecidableEq ι]

/-- **An exchange by one object keeps every block owned once.** -/
theorem Owned.exchange (o : Owned h owns) {i : ι} (e : Exchange h (owns i) h₁ S₁)
    (hS₁ : ∀ p ∈ S₁, h₁ p ≠ none) : Owned h₁ (Function.update owns i S₁) := by
  have hother : ∀ j, j ≠ i → Disjoint S₁ (owns j) := by
    intro j hj
    rw [Set.disjoint_left]
    intro p hp hpj
    by_cases hpi : p ∈ owns i
    · exact Set.disjoint_left.mp (o.disjoint i j hj.symm) hpi hpj
    · exact (o.allocated p).mpr ⟨j, hpj⟩ (e.fresh p hp hpi)
  refine ⟨fun j k hjk => ?_, fun p => ⟨fun hp => ?_, ?_⟩⟩
  · by_cases hj : j = i
    · subst hj
      rw [Function.update_self, Function.update_of_ne hjk.symm]
      exact hother k hjk.symm
    · rw [Function.update_of_ne hj]
      by_cases hk : k = i
      · subst hk
        rw [Function.update_self]
        exact (hother j hj).symm
      · rw [Function.update_of_ne hk]
        exact o.disjoint j k hjk
  · by_cases hpS : p ∈ S₁
    · exact ⟨i, by rwa [Function.update_self]⟩
    · have hpi : p ∉ owns i := fun h => hp (e.freed p h hpS)
      rw [e.frame p hpi hpS] at hp
      obtain ⟨j, hj⟩ := (o.allocated p).mp hp
      have hji : j ≠ i := by
        rintro rfl
        exact hpi hj
      exact ⟨j, by rwa [Function.update_of_ne hji]⟩
  · rintro ⟨j, hj⟩
    by_cases hji : j = i
    · subst hji
      rw [Function.update_self] at hj
      exact hS₁ p hj
    · rw [Function.update_of_ne hji] at hj
      have hpi : p ∉ owns i := fun h => Set.disjoint_left.mp (o.disjoint j i hji) hj h
      have hpS : p ∉ S₁ := fun h => Set.disjoint_left.mp (hother j hji) h hj
      rw [e.frame p hpi hpS]
      exact (o.allocated p).mpr ⟨j, hj⟩

omit [DecidableEq ι] in
/-- **What other objects own is left alone.** -/
theorem Owned.frame (o : Owned h owns) {i j : ι} (hij : j ≠ i)
    (e : Exchange h (owns i) h₁ S₁) {p : ℕ} (hp : p ∈ owns j) : h₁ p = h p := by
  have hpi : p ∉ owns i := fun h => Set.disjoint_left.mp (o.disjoint j i hij) hp h
  refine e.frame p hpi (fun hpS => ?_)
  exact (o.allocated p).mpr ⟨j, hp⟩ (e.fresh p hpS hpi)

end Heap
