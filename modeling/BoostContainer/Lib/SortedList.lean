import Mathlib

/-!
# Lists in the order of a comparison

An ordered container keeps its elements so that none comes after one it is
less than. The comparison is a strict weak order: elements that compare
neither way are equivalent, and there may be many of them. What an insertion
has to find is one of the two ends of a run of equivalents. Inserting at the
upper end keeps the order whatever the element, and whatever stood there
before.
-/

namespace List

variable {α : Type*} (lt : α → α → Prop)

/-- **In the order of a comparison**: no element is less than one before
it. -/
def SortedBy (l : List α) : Prop := l.Pairwise (fun a b => ¬ lt b a)

variable {lt} {l : List α} {v : α}

theorem SortedBy.sublist {l' : List α} (h : l'.SortedBy lt) (hs : l <+ l') :
    l.SortedBy lt := Pairwise.sublist hs h

/-- Being in order only depends on how the members compare. -/
theorem SortedBy.congr {r : α → α → Prop} (h : l.SortedBy lt)
    (hr : ∀ a ∈ l, ∀ b ∈ l, r b a → lt b a) : l.SortedBy r :=
  Pairwise.imp_of_mem (fun ha hb hab hrab => hab (hr _ ha _ hb hrab)) h

theorem sortedBy_append {l' : List α} :
    (l ++ l').SortedBy lt
      ↔ l.SortedBy lt ∧ l'.SortedBy lt ∧ ∀ a ∈ l, ∀ b ∈ l', ¬ lt b a :=
  pairwise_append

theorem sortedBy_cons {a : α} :
    (a :: l).SortedBy lt ↔ (∀ b ∈ l, ¬ lt b a) ∧ l.SortedBy lt := pairwise_cons

section StrictWeakOrder

variable [IsStrictWeakOrder α lt]

/-- **Not being less is transitive** in a strict weak order. -/
theorem not_lt_trans {a b c : α} (hab : ¬ lt b a) (hbc : ¬ lt c b) : ¬ lt c a := by
  intro hca
  have hle : ¬ lt a b := fun h => hbc (IsTrans.trans _ _ _ hca h)
  have hge : ¬ lt b c := fun h => hab (IsTrans.trans _ _ _ h hca)
  exact (IsStrictWeakOrder.incomp_trans a b c ⟨hle, hab⟩ ⟨hge, hbc⟩).2 hca

end StrictWeakOrder

/-! ## Inserting after the equivalents -/

section Insert

variable (lt) [DecidableRel lt]

/-- **Insertion at the upper end**: before the first element that `v` is less
than. -/
def insertUpper (v : α) (l : List α) : List α :=
  l.takeWhile (fun x => ¬ lt v x) ++ v :: l.dropWhile (fun x => ¬ lt v x)

variable {lt}

theorem insertUpper_perm (v : α) (l : List α) : l.insertUpper lt v ~ v :: l := by
  unfold insertUpper
  refine perm_middle.trans ?_
  rw [takeWhile_append_dropWhile]

/-- What stands where an insertion stops is not less than what is inserted, and
neither is anything after it. -/
theorem not_lt_of_mem_dropWhile [IsStrictWeakOrder α lt] (h : l.SortedBy lt) {y : α}
    (hy : y ∈ l.dropWhile (fun x => ¬ lt v x)) : ¬ lt y v := by
  cases hdrop : l.dropWhile (fun x => ¬ lt v x) with
  | nil =>
    rw [hdrop] at hy
    cases hy
  | cons a rest =>
    have hva : lt v a := by
      have := head?_dropWhile_not (fun x => decide (¬ lt v x)) l
      rw [hdrop] at this
      simpa using this
    have hsort : (a :: rest).SortedBy lt := h.sublist (hdrop ▸ dropWhile_sublist _)
    rw [hdrop] at hy
    rcases mem_cons.mp hy with rfl | hy
    · exact fun hav => irrefl v (IsTrans.trans _ _ _ hva hav)
    · intro hyv
      exact (sortedBy_cons.mp hsort).1 y hy (IsTrans.trans _ _ _ hyv hva)

/-- **Inserting keeps the order.** -/
theorem SortedBy.insertUpper [IsStrictWeakOrder α lt] (h : l.SortedBy lt) (v : α) :
    (l.insertUpper lt v).SortedBy lt := by
  have hsplit : (l.takeWhile (fun x => ¬ lt v x)
      ++ l.dropWhile (fun x => ¬ lt v x)).SortedBy lt := by
    rw [takeWhile_append_dropWhile]
    exact h
  obtain ⟨hpre, hpost, hcross⟩ := sortedBy_append.mp hsplit
  refine sortedBy_append.mpr ⟨hpre, sortedBy_cons.mpr ⟨?_, hpost⟩, ?_⟩
  · exact fun y hy => not_lt_of_mem_dropWhile h hy
  · intro x hx y hy
    rcases mem_cons.mp hy with rfl | hy
    · simpa using mem_takeWhile_imp hx
    · exact hcross x hx y hy

end Insert

end List
