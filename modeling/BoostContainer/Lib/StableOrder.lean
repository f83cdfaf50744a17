import BoostContainer.Lib.SortedList

/-!
# Stable orders

A comparison that can be called, and what it makes of lists. Elements that
compare neither way are equivalent, and the members of a list that are
equivalent to a given one make a run. Where a list is in order, the runs
determine it: two ordered lists with the same runs are the same. What a sort, a
merge or a difference has to do with equivalents, to keep their relative order
or only the first of them, is therefore said once and for all by saying what
becomes of each run.
-/

/-- **A comparison**, as it is called, and the order it has to be. -/
structure Compare (κ : Type*) where
  less : κ → κ → Bool
  strictWeakOrder : IsStrictWeakOrder κ (fun a b => less a b = true)

instance {κ : Type*} (c : Compare κ) : IsStrictWeakOrder κ (fun a b => c.less a b = true) :=
  c.strictWeakOrder

namespace Compare

/-- `std::less` -/
def stdLess (κ : Type*) [LinearOrder κ] : Compare κ where
  less a b := decide (a < b)
  strictWeakOrder := by
    simp only [decide_eq_true_eq]
    exact @IsStrictWeakOrder.mk _ _ inferInstance fun a b c hab hbc =>
      ⟨not_lt.mpr ((not_lt.mp hbc.1).trans (not_lt.mp hab.1)),
        not_lt.mpr ((not_lt.mp hab.2).trans (not_lt.mp hbc.2))⟩

variable {κ α : Type*}

/-- The comparison of the keys of elements. -/
def onKey (c : Compare κ) (key : α → κ) : Compare α where
  less a b := c.less (key a) (key b)
  strictWeakOrder :=
    @IsStrictWeakOrder.mk _ _
      (@IsStrictOrder.mk _ _ ⟨fun a => irrefl (r := fun a b => c.less a b = true) (key a)⟩
        ⟨fun _ _ _ hab hbc => IsTrans.trans (r := fun a b => c.less a b = true) _ _ _ hab hbc⟩)
      fun _ _ _ hab hbc =>
        @IsStrictWeakOrder.incomp_trans _ (fun a b => c.less a b = true) _ _ _ _ hab hbc

variable (c : Compare α) {a b d v : α} {l m r : List α}

/-- **In order**: nothing is less than what is before it. -/
def Sorted (l : List α) : Prop := l.SortedBy (fun a b => c.less a b = true)

/-- **In order, without equivalents.** -/
def StrictlySorted (l : List α) : Prop := l.Pairwise (fun a b => c.less a b = true)

instance : Decidable (c.Sorted l) :=
  inferInstanceAs (Decidable (l.Pairwise fun a b => ¬ c.less b a = true))

instance : Decidable (c.StrictlySorted l) :=
  inferInstanceAs (Decidable (l.Pairwise fun a b => c.less a b = true))

/-- Neither is less. -/
def equiv (a b : α) : Bool := !c.less a b && !c.less b a

/-- **The members of a list that are equivalent to `v`**, in their order. -/
def run (v : α) (l : List α) : List α := l.filter (c.equiv v)

variable {c}

theorem less_irrefl (a : α) : c.less a a = false :=
  Bool.eq_false_of_not_eq_true (irrefl (r := fun a b => c.less a b = true) a)

theorem less_asymm (h : c.less a b = true) : c.less b a = false :=
  Bool.eq_false_of_not_eq_true (asymm (r := fun a b => c.less a b = true) h)

theorem less_trans (hab : c.less a b = true) (hbd : c.less b d = true) : c.less a d = true :=
  IsTrans.trans (r := fun a b => c.less a b = true) _ _ _ hab hbd

/-- Not being less is transitive. -/
theorem not_less_trans (hab : c.less b a = false) (hbd : c.less d b = false) :
    c.less d a = false := by
  rw [← Bool.not_eq_true] at hab hbd ⊢
  exact @List.not_lt_trans _ (fun a b => c.less a b = true) _ _ _ _ hab hbd

theorem less_of_less_of_not_less (hab : c.less a b = true) (hdb : c.less d b = false) :
    c.less a d = true := by
  by_contra had
  rw [not_less_trans hdb (Bool.eq_false_of_not_eq_true had)] at hab
  cases hab

theorem less_of_not_less_of_less (hba : c.less b a = false) (hbd : c.less b d = true) :
    c.less a d = true := by
  by_contra had
  rw [not_less_trans (Bool.eq_false_of_not_eq_true had) hba] at hbd
  cases hbd

theorem equiv_iff : c.equiv a b = true ↔ c.less a b = false ∧ c.less b a = false := by
  rw [equiv, Bool.and_eq_true, Bool.not_eq_true', Bool.not_eq_true']

theorem equiv_refl (a : α) : c.equiv a a = true := equiv_iff.mpr ⟨less_irrefl a, less_irrefl a⟩

theorem equiv_comm : c.equiv a b = c.equiv b a := Bool.and_comm _ _

theorem equiv_trans (hab : c.equiv a b = true) (hbd : c.equiv b d = true) :
    c.equiv a d = true := by
  have hab' := equiv_iff.mp hab
  have hbd' := equiv_iff.mp hbd
  exact equiv_iff.mpr ⟨not_less_trans hbd'.1 hab'.1, not_less_trans hab'.2 hbd'.2⟩

/-- Equivalents have the same equivalents. -/
theorem equiv_congr (h : c.equiv a b = true) (d : α) : c.equiv a d = c.equiv b d := by
  rcases hbd : c.equiv b d with - | -
  · by_contra had
    have had' := Bool.eq_true_of_not_eq_false had
    have hba : c.equiv b a = true := equiv_comm.symm ▸ h
    rw [equiv_trans hba had'] at hbd
    cases hbd
  · exact equiv_trans h hbd

theorem not_equiv_of_less (h : c.less a b = true) : c.equiv a b = false := by
  rw [equiv, h]
  rfl

theorem not_equiv_of_less' (h : c.less b a = true) : c.equiv a b = false := by
  rw [equiv_comm]
  exact not_equiv_of_less h

/-! ## Runs -/

theorem run_append (v : α) (l m : List α) : c.run v (l ++ m) = c.run v l ++ c.run v m :=
  List.filter_append ..

theorem run_cons_of_equiv (h : c.equiv v a = true) : c.run v (a :: l) = a :: c.run v l :=
  List.filter_cons_of_pos h

theorem run_cons_of_not_equiv (h : c.equiv v a = false) : c.run v (a :: l) = c.run v l :=
  List.filter_cons_of_neg (by rw [h]; exact Bool.false_ne_true)

theorem mem_run : a ∈ c.run v l ↔ a ∈ l ∧ c.equiv v a = true := List.mem_filter

theorem run_congr (h : c.equiv a b = true) (l : List α) : c.run a l = c.run b l :=
  List.filter_congr fun x _ => equiv_congr h x

theorem run_eq_nil (h : ∀ x ∈ l, c.equiv v x = false) : c.run v l = [] :=
  List.filter_eq_nil_iff.mpr fun x hx => by rw [h x hx]; exact Bool.false_ne_true

theorem Sorted.cons_not_less (h : c.Sorted (a :: l)) (hb : b ∈ l) : c.less b a = false :=
  Bool.eq_false_of_not_eq_true ((List.sortedBy_cons.mp h).1 b hb)

theorem Sorted.of_cons (h : c.Sorted (a :: l)) : c.Sorted l := (List.sortedBy_cons.mp h).2

theorem StrictlySorted.of_cons (h : c.StrictlySorted (a :: l)) : c.StrictlySorted l :=
  (List.pairwise_cons.mp h).2

theorem Sorted.cons (hl : c.Sorted l) (h : ∀ b ∈ l, c.less b a = false) : c.Sorted (a :: l) :=
  List.sortedBy_cons.mpr ⟨fun b hb hba => Bool.false_ne_true ((h b hb).symm.trans hba), hl⟩

theorem StrictlySorted.sorted (h : c.StrictlySorted l) : c.Sorted l :=
  h.imp fun hab hba => asymm (r := fun a b => c.less a b = true) hab hba

/-- **The runs determine an ordered list.** -/
theorem Sorted.eq_of_runs (hl : c.Sorted l) (hm : c.Sorted m)
    (h : ∀ v, c.run v l = c.run v m) : l = m := by
  induction l generalizing m with
  | nil =>
    cases m with
    | nil => rfl
    | cons b m =>
      have := h b
      rw [run_cons_of_equiv (equiv_refl b)] at this
      cases this
  | cons a l ih =>
    cases m with
    | nil =>
      have := h a
      rw [run_cons_of_equiv (equiv_refl a)] at this
      cases this
    | cons b m =>
      have ha : a ∈ c.run a (b :: m) := h a ▸ mem_run.mpr ⟨List.mem_cons_self, equiv_refl a⟩
      have hb : b ∈ c.run b (a :: l) :=
        (h b).symm ▸ mem_run.mpr ⟨List.mem_cons_self, equiv_refl b⟩
      -- Each head is in the other list, so neither is less.
      have hab : c.less a b = false := by
        rcases List.mem_cons.mp (mem_run.mp ha).1 with rfl | ha
        · exact less_irrefl a
        · exact hm.cons_not_less ha
      have hba : c.less b a = false := by
        rcases List.mem_cons.mp (mem_run.mp hb).1 with rfl | hb
        · exact less_irrefl b
        · exact hl.cons_not_less hb
      have heq := h a
      rw [run_cons_of_equiv (equiv_refl a), run_cons_of_equiv (equiv_iff.mpr ⟨hab, hba⟩)] at heq
      obtain ⟨rfl, -⟩ := List.cons.inj heq
      refine congrArg _ (ih hl.of_cons hm.of_cons fun v => ?_)
      have := h v
      rcases hv : c.equiv v a with - | -
      · rwa [run_cons_of_not_equiv hv, run_cons_of_not_equiv hv] at this
      · rw [run_cons_of_equiv hv, run_cons_of_equiv hv] at this
        exact (List.cons.inj this).2

/-- **Lists with the same runs have the same members.** -/
theorem perm_of_runs (h : ∀ v, c.run v l = c.run v m) : l.Perm m := by
  classical
  refine List.perm_iff_count.mpr fun a => ?_
  have hcount : ∀ k : List α, k.count a = (c.run a k).count a :=
    fun k => (List.count_filter (equiv_refl a)).symm
  rw [hcount l, hcount m, h a]

theorem run_eq_nil_iff : c.run v l = [] ↔ ∀ x ∈ l, c.equiv v x = false := by
  rw [run, List.filter_eq_nil_iff]
  exact forall₂_congr fun x _ => Bool.not_eq_true _ ▸ Iff.rfl

/-- **Without equivalents, each run has one member at most.** -/
theorem strictlySorted_iff :
    c.StrictlySorted l ↔ c.Sorted l ∧ ∀ v, (c.run v l).length ≤ 1 := by
  constructor
  · intro h
    refine ⟨h.sorted, fun v => ?_⟩
    induction l with
    | nil => exact Nat.zero_le _
    | cons a l ih =>
      have hcons := List.pairwise_cons.mp h
      rcases hv : c.equiv v a with - | -
      · rw [run_cons_of_not_equiv hv]
        exact ih hcons.2
      · have hnil : c.run v l = [] := by
          rw [run_congr hv]
          exact run_eq_nil fun x hx => not_equiv_of_less (hcons.1 x hx)
        rw [run_cons_of_equiv hv, hnil]
        exact le_rfl
  · rintro ⟨hs, hrun⟩
    induction l with
    | nil => exact List.Pairwise.nil
    | cons a l ih =>
      refine List.pairwise_cons.mpr ⟨fun x hx => ?_, ih hs.of_cons fun v => ?_⟩
      · by_contra hax
        have hequiv : c.equiv a x = true :=
          equiv_iff.mpr ⟨Bool.eq_false_of_not_eq_true hax, hs.cons_not_less hx⟩
        have hlen := hrun a
        rw [run_cons_of_equiv (equiv_refl a), List.length_cons] at hlen
        exact absurd (List.length_pos_of_mem (mem_run.mpr ⟨hx, hequiv⟩)) (by omega)
      · exact ((List.sublist_cons_self a l).filter _).length_le.trans (hrun v)

/-! ## Sorting, merging and taking differences -/

variable (c)

/-- **A stable sort** of a list keeps its runs. -/
def StableSort (l m : List α) : Prop := c.Sorted m ∧ ∀ v, c.run v m = c.run v l

/-- **A stable merge** of two lists: in each run, the members of the first come first. -/
def StableMerge (l r m : List α) : Prop :=
  c.Sorted m ∧ ∀ v, c.run v m = c.run v l ++ c.run v r

/-- **The unique difference** of two lists: the first of each run of the first list that has
no run in the second. -/
def UniqueDifference (l r m : List α) : Prop :=
  c.Sorted m ∧ ∀ v, c.run v m = if c.run v r = [] then (c.run v l).take 1 else []

/-- **The unique union** of two lists: the first of each run, where the first list comes
first. -/
def UniqueUnion (l r m : List α) : Prop :=
  c.Sorted m ∧ ∀ v, c.run v m = (c.run v l ++ c.run v r).take 1

variable {c} {m' : List α}

theorem StableMerge.unique (h : c.StableMerge l r m) (h' : c.StableMerge l r m') : m = m' :=
  h.1.eq_of_runs h'.1 fun v => (h.2 v).trans (h'.2 v).symm

theorem UniqueUnion.unique (h : c.UniqueUnion l r m) (h' : c.UniqueUnion l r m') : m = m' :=
  h.1.eq_of_runs h'.1 fun v => (h.2 v).trans (h'.2 v).symm

theorem StableMerge.perm (h : c.StableMerge l r m) : m.Perm (l ++ r) :=
  perm_of_runs (c := c) fun v => by rw [h.2, run_append]

theorem StableSort.perm (h : c.StableSort l m) : m.Perm l := perm_of_runs (c := c) h.2

/-- **A unique union has no equivalents.** -/
theorem UniqueUnion.strictlySorted (h : c.UniqueUnion l r m) : c.StrictlySorted m := by
  refine strictlySorted_iff.mpr ⟨h.1, fun v => ?_⟩
  rw [h.2 v, List.length_take]
  exact Nat.min_le_left _ _

/-- What is merged with what a list lacks is their unique union. -/
theorem UniqueDifference.union {d' : List α} (hl : c.StrictlySorted l)
    (hd : c.UniqueDifference r l d') (hm : c.StableMerge l d' m) : c.UniqueUnion l r m := by
  refine ⟨hm.1, fun v => ?_⟩
  rw [hm.2 v, hd.2 v]
  have hlen := (strictlySorted_iff.mp hl).2 v
  cases hrun : c.run v l with
  | nil => rw [if_pos rfl, List.nil_append, List.nil_append]
  | cons a rest =>
    rw [hrun, List.length_cons] at hlen
    have hrest : rest = [] := List.length_eq_zero_iff.mp (by omega)
    rw [if_neg (List.cons_ne_nil _ _), hrest]
    rfl

/-! ## Ordered containers -/

/-- **The order of a container**: without equivalents, if its keys are unique. -/
def InOrder (c : Compare α) (unique : Bool) (l : List α) : Prop :=
  if unique then c.StrictlySorted l else c.Sorted l

/-- **A container acts as the set, or the multiset, of its elements**: it finds an
equivalent of a key where there is one, and an insertion adds the value, unless
keys are unique and there is an equivalent. -/
structure ActsAs (c : Compare κ) (key : α → κ) (unique : Bool) (l : List α)
    (find : κ → Option ℕ) (insert : α → List α → Prop) : Prop where
  found : ∀ k i, find k = some i → ∃ v, l[i]? = some v ∧ c.equiv (key v) k = true
  absent : ∀ k, find k = none → ∀ v ∈ l, c.equiv (key v) k = false
  inserts : ∀ v m, insert v m → (c.onKey key).InOrder unique m ∧
    if unique = true ∧ ∃ w ∈ l, (c.onKey key).equiv w v = true then m = l else m.Perm (v :: l)

theorem inOrder_nil (c : Compare α) (unique : Bool) : c.InOrder unique [] := by
  cases unique <;> exact List.Pairwise.nil

/-- **A list without equivalents has none of a member** elsewhere. -/
theorem StrictlySorted.not_equiv_of_perm (h : c.StrictlySorted m) (hm : m.Perm (v :: l)) :
    ∀ w ∈ l, c.equiv w v = false := by
  intro w hw
  by_contra hequiv
  have hmem : w ∈ c.run v l := by
    rw [Bool.not_eq_false, equiv_comm] at hequiv
    exact mem_run.mpr ⟨hw, hequiv⟩
  have hlen := (strictlySorted_iff.mp h).2 v
  rw [run, (hm.filter _).length_eq] at hlen
  rw [← run, run_cons_of_equiv (equiv_refl v), List.length_cons] at hlen
  exact absurd (List.length_pos_of_mem hmem) (by omega)

end Compare
