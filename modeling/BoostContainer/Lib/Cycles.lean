import Mathlib

/-!
# Rearranging by cycles

A map that permutes a finite set goes round in cycles: from every member it comes back to
it, and no other is met twice before. An array is rearranged along such a map in place,
one cycle after the other, when each place is told where its value comes from, and is told
that it is settled, by itself, when it has it.

What holds between two cycles is that a settled place has the value it is to have, that
any other has the value it had and is still told where its value comes from, and that no cycle is
settled in part. A cycle that is gone through keeps that.
-/

open Function

variable {ι β : Type*}

/-- **A set is permuted.** -/
structure Permutes (σ : ι → ι) (S : Set ι) : Prop where
  finite : S.Finite
  mapsTo : Set.MapsTo σ S S
  injOn : Set.InjOn σ S

namespace Permutes

variable {σ : ι → ι} {S : Set ι} {i j : ι}

theorem iterate_mem (k : Permutes σ S) (hi : i ∈ S) (r : ℕ) : σ^[r] i ∈ S :=
  k.mapsTo.iterate r hi

/-- Every member is met again. -/
theorem periodic (k : Permutes σ S) (hi : i ∈ S) : i ∈ periodicPts σ := by
  have hfinite : Finite S := k.finite
  have hinj : Injective (k.mapsTo.restrict σ S S) := (k.mapsTo.restrict_inj).mpr k.injOn
  obtain ⟨c, hc, hper⟩ := mem_periodicPts.mp (hinj.mem_periodicPts ⟨i, hi⟩)
  refine mk_mem_periodicPts hc ?_
  have hval := congrArg Subtype.val hper
  rwa [k.mapsTo.iterate_restrict c] at hval

/-- **A cycle** has a length, after which it begins again, and its members differ. -/
theorem exists_period (k : Permutes σ S) (hi : i ∈ S) :
    ∃ c, 0 < c ∧ σ^[c] i = i ∧ ∀ r < c, ∀ r' < c, σ^[r] i = σ^[r'] i → r = r' :=
  ⟨minimalPeriod σ i, minimalPeriod_pos_of_mem_periodicPts (k.periodic hi),
    iterate_minimalPeriod, fun _ hr _ hr' heq => iterate_injOn_Iio_minimalPeriod hr hr' heq⟩

/-- A cycle is no longer than the set has members. -/
theorem period_le {c : ℕ} (k : Permutes σ S) (hi : i ∈ S)
    (hinj : ∀ r < c, ∀ r' < c, σ^[r] i = σ^[r'] i → r = r') : c ≤ S.ncard := by
  have hle := Set.ncard_le_ncard_of_injOn (fun r => σ^[r] i)
    (fun r (_ : r ∈ Set.Iio c) => k.iterate_mem hi r)
    (fun r hr r' hr' heq => hinj r hr r' hr' heq) k.finite
  rwa [Set.ncard_eq_toFinset_card', Set.toFinset_Iio, Nat.card_Iio] at hle

/-- Where a cycle goes on, it is one cycle. -/
theorem mem_cycle_iff (k : Permutes σ S) (hi : i ∈ S) (hj : j ∈ S) :
    (∃ r, σ j = σ^[r] i) ↔ ∃ r, j = σ^[r] i := by
  constructor
  · rintro ⟨r, hr⟩
    obtain ⟨c, hc, hback, -⟩ := k.exists_period hi
    obtain ⟨d, rfl⟩ := Nat.exists_eq_succ_of_ne_zero (Nat.ne_of_gt hc)
    cases r with
    | zero =>
      refine ⟨d, k.injOn hj (k.iterate_mem hi d) (hr.trans ?_)⟩
      rw [← iterate_succ_apply' σ d i, hback]
      rfl
    | succ r =>
      rw [iterate_succ_apply'] at hr
      exact ⟨r, k.injOn hj (k.iterate_mem hi r) hr⟩
  · rintro ⟨r, rfl⟩
    exact ⟨r + 1, (iterate_succ_apply' σ r i).symm⟩

end Permutes

/-- **Between two cycles**: what the places are told, and the values that they have. -/
structure Rearranging (σ : ι → ι) (S : Set ι) (V : ι → β) (n : ι → ι) (f : ι → β) : Prop where
  settled : ∀ j ∈ S, n j = j → f j = V (σ j)
  waiting : ∀ j ∈ S, n j ≠ j → n j = σ j ∧ f j = V j
  whole : ∀ j ∈ S, n j = j ↔ n (σ j) = σ j

namespace Rearranging

variable {σ : ι → ι} {S : Set ι} {V : ι → β} {n n' : ι → ι} {f f' : ι → β} {i : ι}

/-- At first the places are told where their values come from. -/
theorem init (k : Permutes σ S) : Rearranging σ S V σ V where
  settled _ _ heq := by rw [heq]
  waiting _ _ _ := ⟨rfl, rfl⟩
  whole _ hj := ⟨fun heq => congrArg σ heq, fun heq => k.injOn (k.mapsTo hj) hj heq⟩

/-- A cycle waits as a whole. -/
theorem iterate_ne (a : Rearranging σ S V n f) (k : Permutes σ S) (hi : i ∈ S) (hne : n i ≠ i)
    (r : ℕ) : n (σ^[r] i) ≠ σ^[r] i := by
  induction r with
  | zero => exact hne
  | succ r ih =>
    rw [iterate_succ_apply']
    exact fun heq => ih ((a.whole _ (k.iterate_mem hi r)).mpr heq)

/-- **A cycle is gone through**: its places are settled, and the others are left alone. -/
theorem turn {c : ℕ} (a : Rearranging σ S V n f) (k : Permutes σ S) (hi : i ∈ S) (hc : 0 < c)
    (hback : σ^[c] i = i) (hn : ∀ r < c, n' (σ^[r] i) = σ^[r] i)
    (hf : ∀ r < c, f' (σ^[r] i) = V (σ^[r + 1] i))
    (hother : ∀ j ∈ S, (∀ r, j ≠ σ^[r] i) → n' j = n j ∧ f' j = f j) :
    Rearranging σ S V n' f' := by
  have hmod : ∀ r, σ^[r % c] i = σ^[r] i := fun r => IsPeriodicPt.iterate_mod_apply hback r
  replace hn : ∀ r, n' (σ^[r] i) = σ^[r] i := fun r => hmod r ▸ hn _ (Nat.mod_lt r hc)
  replace hf : ∀ r, f' (σ^[r] i) = V (σ (σ^[r] i)) := fun r => by
    rw [← hmod r, hf _ (Nat.mod_lt r hc), iterate_succ_apply']
  refine ⟨fun j hj heq => ?_, fun j hj hne => ?_, fun j hj => ?_⟩
  · by_cases hmem : ∃ r, j = σ^[r] i
    · obtain ⟨r, rfl⟩ := hmem
      exact hf r
    · obtain ⟨hn', hf'⟩ := hother j hj (not_exists.mp hmem)
      rw [hf']
      exact a.settled j hj (hn' ▸ heq)
  · have hmem : ¬ ∃ r, j = σ^[r] i := by
      rintro ⟨r, rfl⟩
      exact hne (hn r)
    obtain ⟨hn', hf'⟩ := hother j hj (not_exists.mp hmem)
    rw [hn', hf']
    exact a.waiting j hj (hn' ▸ hne)
  · by_cases hmem : ∃ r, j = σ^[r] i
    · obtain ⟨r, hr⟩ := id hmem
      obtain ⟨r', hr'⟩ := (k.mem_cycle_iff hi hj).mpr hmem
      rw [hr', hn r']
      exact iff_of_true (hr ▸ hn r) rfl
    · have hmem' : ¬ ∃ r, σ j = σ^[r] i := fun h => hmem ((k.mem_cycle_iff hi hj).mp h)
      rw [(hother j hj (not_exists.mp hmem)).1,
        (hother (σ j) (k.mapsTo hj) (not_exists.mp hmem')).1]
      exact a.whole j hj

end Rearranging
