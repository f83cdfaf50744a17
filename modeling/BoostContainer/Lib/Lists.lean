import Mathlib

/-!
# Lists of parts

A structure kept in several parts – an array of pools, each with its own
list – is read as one collection by concatenating the parts. Replacing one
part of the array replaces its contribution to the concatenation and leaves
the rest, up to the order of the whole. The order never matters to what is
said about the collection: that its members are pairwise apart, or that it
lists each thing once.
-/

namespace List

variable {α β : Type*}

/-- **The parts of an array, concatenated**: what `f` reads at each index. -/
def gather (f : ℕ → α → List β) (xs : List α) : List β :=
  (xs.mapIdx f).flatten

@[simp] theorem gather_nil (f : ℕ → α → List β) : gather f [] = [] := rfl

theorem gather_cons (f : ℕ → α → List β) (x : α) (xs : List α) :
    gather f (x :: xs) = f 0 x ++ gather (fun k => f (k + 1)) xs := by
  unfold gather
  rw [List.mapIdx_cons, List.flatten_cons]

/-- Where the index is not read, gathering is concatenating the images. -/
theorem gather_const (g : α → List β) (xs : List α) :
    gather (fun _ => g) xs = (xs.map g).flatten := by
  induction xs with
  | nil => rfl
  | cons x xs ih => rw [gather_cons, ih, List.map_cons, List.flatten_cons]

theorem mem_gather {f : ℕ → α → List β} {xs : List α} {b : β} :
    b ∈ gather f xs ↔ ∃ k x, xs[k]? = some x ∧ b ∈ f k x := by
  induction xs generalizing f with
  | nil => simp
  | cons x xs ih =>
    rw [gather_cons, List.mem_append, ih]
    constructor
    · rintro (h | ⟨k, y, hy, h⟩)
      · exact ⟨0, x, rfl, h⟩
      · exact ⟨k + 1, y, hy, h⟩
    · rintro ⟨k, y, hy, h⟩
      cases k with
      | zero =>
        obtain rfl : x = y := by simpa using hy
        exact Or.inl h
      | succ k => exact Or.inr ⟨k, y, hy, h⟩

/-- **Replacing one part.** The rest of the collection is the same whatever
stands at the index. -/
theorem exists_gather_perm (f : ℕ → α → List β) {xs : List α} {k : ℕ} {x : α}
    (hx : xs[k]? = some x) :
    ∃ rest, gather f xs ~ f k x ++ rest
      ∧ ∀ y, gather f (xs.set k y) ~ f k y ++ rest := by
  induction xs generalizing f k with
  | nil => simp at hx
  | cons a xs ih =>
    cases k with
    | zero =>
      obtain rfl : a = x := by simpa using hx
      refine ⟨gather (fun k => f (k + 1)) xs, ?_, fun y => ?_⟩
      · rw [gather_cons]
      · rw [List.set_cons_zero, gather_cons]
    | succ k =>
      obtain ⟨rest, hxs, hset⟩ := ih (fun k => f (k + 1)) (k := k) (by simpa using hx)
      have hmove : ∀ l : List β, f 0 a ++ (l ++ rest) ~ l ++ (f 0 a ++ rest) := by
        intro l
        rw [← List.append_assoc, ← List.append_assoc]
        exact List.perm_append_comm.append_right rest
      refine ⟨f 0 a ++ rest, ?_, fun y => ?_⟩
      · rw [gather_cons]
        exact (hxs.append_left (f 0 a)).trans (hmove _)
      · rw [List.set_cons_succ, gather_cons]
        exact ((hset y).append_left (f 0 a)).trans (hmove _)

/-- Parts that contribute nothing leave nothing to gather. -/
theorem gather_eq_nil {f : ℕ → α → List β} {xs : List α}
    (h : ∀ k x, xs[k]? = some x → f k x = []) : gather f xs = [] := by
  rw [List.eq_nil_iff_forall_not_mem]
  intro b hb
  obtain ⟨k, x, hx, hmem⟩ := mem_gather.mp hb
  rw [h k x hx] at hmem
  exact List.not_mem_nil hmem

/-! ## Parts found by a key -/

variable [DecidableEq α]

/-- **Replacing the part of one key** changes its contribution only. -/
theorem exists_flatMap_update_perm (f : α → List β) {xs : List α} (hxs : xs.Nodup)
    {a : α} (ha : a ∈ xs) :
    ∃ rest, xs.flatMap f ~ f a ++ rest
      ∧ ∀ part, xs.flatMap (Function.update f a part) ~ part ++ rest := by
  have hsplit : xs ~ a :: xs.erase a := perm_cons_erase ha
  have hne : ∀ x ∈ xs.erase a, x ≠ a := fun x hx he =>
    hxs.not_mem_erase (he ▸ hx)
  refine ⟨(xs.erase a).flatMap f, hsplit.flatMap_right f, fun part => ?_⟩
  refine (hsplit.flatMap_right _).trans ?_
  rw [flatMap_cons, Function.update_self]
  refine Perm.append_left part (Perm.of_eq (flatMap_congr (fun x hx => ?_)))
  exact Function.update_of_ne (hne x hx) part f

/-- What is taken out of a collection, and what is left. -/
theorem append_diff_perm {xs taken : List α} (h : taken <+~ xs) :
    taken ++ xs.diff taken ~ xs :=
  subperm_append_diff_self_of_count_le (subperm_ext_iff.mp h)

end List
