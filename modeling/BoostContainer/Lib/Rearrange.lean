import Mathlib

/-!
# Rearrangements of cells

An algorithm that only swaps what a store holds at some places gives back the
store with its places permuted. It is enough to know which places: all else
stays, and what holds of every value there holds of every value there
afterwards. So the permutation is never looked at, only composed.

The values of a range are seen as a list, in the order of their places.
-/

/-! ## The values of a range -/

/-- The values at the places from `a` up to `b`. -/
def window {β : Type*} (f : ℕ → β) (a b : ℕ) : List β := (List.range' a (b - a)).map f

section Window

variable {β γ : Type*} {f g : ℕ → β} {a b c p : ℕ}

@[simp] theorem window_self (f : ℕ → β) (a : ℕ) : window f a a = [] := by
  rw [window, Nat.sub_self]
  rfl

@[simp] theorem length_window (f : ℕ → β) (a b : ℕ) : (window f a b).length = b - a := by
  rw [window, List.length_map, List.length_range']

/-- Two ranges that follow each other. -/
theorem window_append (f : ℕ → β) (hab : a ≤ b) (hbc : b ≤ c) :
    window f a b ++ window f b c = window f a c := by
  have h : List.range' a (b - a) ++ List.range' b (c - b) = List.range' a (c - a) := by
    have := List.range'_append_1 (s := a) (m := b - a) (n := c - b)
    rwa [Nat.add_sub_cancel' hab, show b - a + (c - b) = c - a by omega] at this
  rw [window, window, window, ← h, List.map_append]

theorem window_succ (f : ℕ → β) (hab : a ≤ b) : window f a (b + 1) = window f a b ++ [f b] := by
  rw [← window_append f hab (Nat.le_add_right b 1)]
  congr 1
  rw [window, Nat.add_sub_cancel_left]
  rfl

theorem window_cons (f : ℕ → β) (hab : a < b) : window f a b = f a :: window f (a + 1) b := by
  rw [← window_append f (Nat.le_add_right a 1) hab, window, Nat.add_sub_cancel_left]
  rfl

theorem window_congr (h : ∀ p, a ≤ p → p < b → f p = g p) : window f a b = window g a b := by
  refine List.map_congr_left (fun p hp => ?_)
  rw [List.mem_range'_1] at hp
  exact h p hp.1 (by omega)

/-- The values of a range, one place further. -/
theorem window_shift (f : ℕ → β) (a b : ℕ) :
    window f (a + 1) (b + 1) = window (fun p => f (p + 1)) a b := by
  rw [window, window, Nat.add_sub_add_right, List.range'_succ_left, List.map_map]
  rfl

theorem window_map (k : β → γ) : (window f a b).map k = window (fun p => k (f p)) a b :=
  List.map_map

theorem mem_window {x : β} : x ∈ window f a b ↔ ∃ p, a ≤ p ∧ p < b ∧ f p = x := by
  rw [window, List.mem_map]
  constructor
  · rintro ⟨p, hp, hx⟩
    rw [List.mem_range'_1] at hp
    exact ⟨p, hp.1, by omega, hx⟩
  · rintro ⟨p, ha, hb, hx⟩
    exact ⟨p, List.mem_range'_1.mpr ⟨ha, by omega⟩, hx⟩

end Window

/-! ## Rearrangements -/

/-- **The values of `f`, rearranged** at the places of a set. -/
def Rearranged {ι β : Type*} (S : Set ι) (f g : ι → β) : Prop :=
  ∃ e : Equiv.Perm ι, (∀ i, i ∉ S → e i = i) ∧ ∀ i, g i = f (e i)

namespace Rearranged

variable {ι β : Type*} {S T : Set ι} {f g h : ι → β} {P : β → Prop}

theorem refl (S : Set ι) (f : ι → β) : Rearranged S f f := ⟨1, fun _ _ => rfl, fun _ => rfl⟩

theorem trans (hfg : Rearranged S f g) (hgh : Rearranged S g h) : Rearranged S f h := by
  obtain ⟨e₁, hout₁, heq₁⟩ := hfg
  obtain ⟨e₂, hout₂, heq₂⟩ := hgh
  refine ⟨e₂.trans e₁, fun i hi => ?_, fun i => ?_⟩
  · rw [Equiv.trans_apply, hout₂ i hi, hout₁ i hi]
  · rw [heq₂, heq₁, Equiv.trans_apply]

/-- A rearrangement at fewer places. -/
theorem mono (h : Rearranged S f g) (hST : S ⊆ T) : Rearranged T f g := by
  obtain ⟨e, hout, heq⟩ := h
  exact ⟨e, fun i hi => hout i (fun hS => hi (hST hS)), heq⟩

/-- **All else stays.** -/
theorem eq_of_notMem (h : Rearranged S f g) {i : ι} (hi : i ∉ S) : g i = f i := by
  obtain ⟨e, hout, heq⟩ := h
  rw [heq, hout i hi]

/-- A permutation that fixes what is outside of a set stays inside of it. -/
theorem perm_mem {e : Equiv.Perm ι} (hout : ∀ i, i ∉ S → e i = i) {i : ι} (hi : i ∈ S) :
    e i ∈ S := by
  by_contra hne
  have := e.injective (hout (e i) hne)
  rw [this] at hne
  exact hne hi

/-- **What holds of all the values at the places holds of them afterwards.** -/
theorem forall_mem (h : Rearranged S f g) (hf : ∀ i ∈ S, P (f i)) : ∀ i ∈ S, P (g i) := by
  obtain ⟨e, hout, heq⟩ := h
  intro i hi
  rw [heq]
  exact hf _ (perm_mem hout hi)

/-- What the values come from is rearranged with them. -/
theorem exists_values {γ : Type*} {k : γ → β} {v : ι → γ} (h : Rearranged S f g)
    (hf : ∀ i ∈ S, f i = k (v i)) : ∃ w, Rearranged S v w ∧ ∀ i ∈ S, g i = k (w i) := by
  obtain ⟨e, hout, heq⟩ := h
  exact ⟨fun i => v (e i), ⟨e, hout, fun _ => rfl⟩,
    fun i hi => (heq i).trans (hf _ (perm_mem hout hi))⟩

/-- Two values change places. -/
theorem swap [DecidableEq ι] {i j : ι} (hi : i ∈ S) (hj : j ∈ S) (f : ι → β) :
    Rearranged S f (fun k => f (Equiv.swap i j k)) :=
  ⟨Equiv.swap i j, fun _ hk => Equiv.swap_apply_of_ne_of_ne (fun h => hk (h ▸ hi))
    (fun h => hk (h ▸ hj)), fun _ => rfl⟩

/-- **The values of a range are a permutation of what they were.** -/
theorem window_perm {f g : ℕ → β} {a b : ℕ} (h : Rearranged (Set.Ico a b) f g) :
    (window g a b).Perm (window f a b) := by
  obtain ⟨e, hout, heq⟩ := h
  have hg : window g a b = ((List.range' a (b - a)).map e).map f := by
    rw [window, List.map_map]
    exact List.map_congr_left (fun i _ => heq i)
  rw [hg]
  refine List.Perm.map f ?_
  have hmem : ∀ i, i ∈ List.range' a (b - a) ↔ i ∈ Set.Ico a b := by
    intro i
    rw [List.mem_range'_1, Set.mem_Ico]
    omega
  have hnodup : (List.range' a (b - a)).Nodup := List.nodup_range'
  refine (List.perm_ext_iff_of_nodup (hnodup.map e.injective) hnodup).mpr (fun i => ?_)
  rw [List.mem_map, hmem]
  constructor
  · rintro ⟨j, hj, rfl⟩
    exact perm_mem hout ((hmem j).mp hj)
  · intro hi
    have hsymm : ∀ j, j ∉ Set.Ico a b → e.symm j = j :=
      fun j hj => (Equiv.symm_apply_eq e).mpr (hout j hj).symm
    exact ⟨e.symm i, (hmem _).mpr (perm_mem hsymm hi), e.apply_symm_apply i⟩

end Rearranged
