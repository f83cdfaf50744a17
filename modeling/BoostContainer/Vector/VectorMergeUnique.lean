import BoostContainer.Vector.VectorMerge

/-!
# What a vector lacks of a range

`vector::merge_unique` walks over the vector and the range, and appends what
the vector does not have. Where it meets two equivalents it passes both, so
that a second equivalent in the range is compared with the next element of the
vector, is less than it, and is appended: only the first of a run is dropped,
and only where the vector has an equivalent. The other way, by a difference in
place, keeps one of each run at most.
-/

/-! ## Giving some and keeping the rest -/

/-- **A list gives some of its elements**, and keeps the others as they are; `leaves` says what
may be left of an element that was given. -/
inductive Distributes {α : Type*} (leaves : α → α → Prop) : List α → List α → List α → Prop where
  | nil : Distributes leaves [] [] []
  | give (x left : α) (hleft : leaves x left) {src src' given : List α}
    (h : Distributes leaves src src' given) :
    Distributes leaves (x :: src) (left :: src') (x :: given)
  | keep (x : α) {src src' given : List α} (h : Distributes leaves src src' given) :
    Distributes leaves (x :: src) (x :: src') given

namespace Distributes

variable {α : Type*} {leaves leaves' : α → α → Prop} {src src' given kept : List α} {f : α → α}

theorem mono (h : Distributes leaves src src' given)
    (hl : ∀ x left, leaves x left → leaves' x left) :
    Distributes leaves' src src' given := by
  induction h with
  | nil => exact nil
  | give x left hleft _ ih => exact give x left (hl x left hleft) ih
  | keep x _ ih => exact keep x ih

/-- Giving all. -/
theorem map (f : α → α) : ∀ src : List α, Distributes (fun x left => left = f x) src (src.map f) src
  | [] => nil
  | x :: src => give x (f x) rfl (map f src)

/-- **Which elements are still there**: all those that were not given, and those that are not
changed by being given. -/
theorem forall₂_iff (h : Distributes (fun x left => left = f x) src src' given) (p : α → Prop) :
    List.Forall₂ (fun x left => p x → left = x) src src' ↔ ∀ x ∈ given, p x → f x = x := by
  induction h with
  | nil => exact ⟨fun _ x hx => absurd hx List.not_mem_nil, fun _ => List.Forall₂.nil⟩
  | give x left hleft _ ih => rw [List.forall₂_cons, List.forall_mem_cons, ih, hleft]
  | keep x _ ih => rw [List.forall₂_cons, ih, and_iff_right fun _ => rfl]

/-- What is not given is kept. -/
theorem exists_kept (h : Distributes leaves src (src.map f) given) :
    ∃ kept, src.Perm (given ++ kept) ∧ ∀ x ∈ kept, f x = x := by
  generalize hsrc' : src.map f = src' at h
  induction h with
  | nil => exact ⟨[], List.Perm.refl _, fun x hx => absurd hx List.not_mem_nil⟩
  | give x left hleft h ih =>
    obtain ⟨kept, hperm, hkept⟩ := ih (List.cons.inj hsrc').2
    exact ⟨kept, hperm.cons x, hkept⟩
  | keep x h ih =>
    obtain ⟨hx, hrest⟩ := List.cons.inj hsrc'
    obtain ⟨kept, hperm, hkept⟩ := ih hrest
    refine ⟨x :: kept, (hperm.cons x).trans List.perm_middle.symm, fun y hy => ?_⟩
    rcases List.mem_cons.mp hy with rfl | hy
    · exact hx
    · exact hkept y hy

/-- What does not change by being given may as well be kept. -/
theorem of_kept (hperm : src.Perm (given ++ kept)) (hkept : ∀ x ∈ kept, f x = x) :
    ∃ given', given'.Perm given
      ∧ Distributes (fun x left => left = f x) src (src.map f) given' := by
  classical
  induction src generalizing given kept with
  | nil =>
    have hnil := List.append_eq_nil_iff.mp hperm.nil_eq.symm
    exact ⟨[], hnil.1 ▸ List.Perm.refl _, nil⟩
  | cons x src ih =>
    have hx : x ∈ given ++ kept := hperm.mem_iff.mp List.mem_cons_self
    rcases List.mem_append.mp hx with hg | hk
    · have hrest : src.Perm (given.erase x ++ kept) :=
        (List.perm_cons x).mp (hperm.trans ((List.perm_cons_erase hg).append_right kept))
      obtain ⟨given', hperm', hd⟩ := ih hrest hkept
      exact ⟨x :: given', (hperm'.cons x).trans (List.perm_cons_erase hg).symm,
        give x (f x) rfl hd⟩
    · have hrest : src.Perm (given ++ kept.erase x) :=
        (List.perm_cons x).mp (hperm.trans
          (((List.perm_cons_erase hk).append_left given).trans List.perm_middle))
      obtain ⟨given', hperm', hd⟩ := ih hrest fun y hy => hkept y (List.mem_of_mem_erase hy)
      refine ⟨given', hperm', ?_⟩
      rw [List.map_cons, hkept x hk]
      exact keep x hd

end Distributes

/-- **No element is lost**: what the source gives is added to the destination, whatever is
left where it was, and the rest is still in the source. -/
def Conserves {α : Type*} (dest src dest' src' : List α) : Prop :=
  ∃ given, Distributes (fun _ _ => True) src src' given ∧ dest'.Perm (dest ++ given)

/-- **Moving the whole source** conserves its elements where what is not added is not changed
by a move. -/
theorem conserves_map_iff {α : Type*} {dest src dest' given kept : List α} {moves : α → α}
    (hdest : dest'.Perm (dest ++ given)) (hsrc : src.Perm (given ++ kept)) :
    Conserves dest src dest' (src.map moves) ↔ ∀ x ∈ kept, moves x = x := by
  constructor
  · rintro ⟨given', hd, hdest'⟩ x hx
    obtain ⟨kept', hsrc', hkept'⟩ := hd.exists_kept
    have hgiven : given'.Perm given :=
      (List.perm_append_left_iff dest).mp (hdest'.symm.trans hdest)
    have hkept : kept'.Perm kept := (List.perm_append_left_iff given).mp
      ((hgiven.append_right kept').symm.trans (hsrc'.symm.trans hsrc))
    exact hkept' x (hkept.mem_iff.mpr hx)
  · intro h
    obtain ⟨given', hgiven, hd⟩ := Distributes.of_kept hsrc h
    exact ⟨given', hd.mono fun _ _ _ => trivial, hdest.trans (hgiven.append_left dest).symm⟩

namespace Vector

variable {α : Type*} {a : Allocation} {lib : Movelib α} {c : Compare α} {access : Access α}
  {v : Contents α} {old src input : List α}

/-! ## The appended difference -/

/-- **What `priv_set_difference_back` appends** is in order, and is all of a run the vector
does not have, and all but the first of a run it has. -/
theorem setDifferenceBack_appends (a : Allocation) (access : Access α) (v : Contents α)
    (hold : c.StrictlySorted old) (hsrc : c.Sorted src) :
    ∃ d, (setDifferenceBack a c access v old src).1.elements = v.elements ++ d
      ∧ Distributes (fun x left => left = access.afterRead x) src
        (setDifferenceBack a c access v old src).2 d
      ∧ d.Sublist src ∧ c.Sorted d
      ∧ ∀ z, c.run z d = if c.run z old = [] then c.run z src else (c.run z src).drop 1 := by
  induction v, old, src using setDifferenceBack.induct a c access with
  | case1 v first2 =>
    rw [setDifferenceBack]
    refine ⟨[], (List.append_nil _).symm, Distributes.nil, List.Sublist.slnil,
      List.Pairwise.nil, fun z => ?_⟩
    split <;> rfl
  | case2 v first1 hne =>
    rw [setDifferenceBack]
    · exact ⟨first1, rfl, Distributes.map _ _, List.Sublist.refl _, hsrc,
        fun z => rfl⟩
    · exact hne
  | case3 v x first2 y first1 hless ih =>
    obtain ⟨d, heq, hd, hsub, hs, hrun⟩ := ih hold hsrc.of_cons
    rw [setDifferenceBack, if_pos hless]
    refine ⟨y :: d, ?_, Distributes.give y (access.afterRead y) rfl hd, hsub.cons_cons y,
      hs.cons fun z hz => hsrc.cons_not_less (hsub.subset hz), fun z => ?_⟩
    · show (setDifferenceBack a c access (v.emplaceBack a y) (x :: first2) first1).1.elements = _
      rw [heq]
      show v.elements ++ [y] ++ d = _
      rw [List.append_assoc]
      rfl
    · rcases hz : c.equiv z y with - | -
      · rw [Compare.run_cons_of_not_equiv hz, Compare.run_cons_of_not_equiv hz]
        exact hrun z
      -- Nothing of the vector is equivalent to what is less than its next element.
      · have hnil : c.run z (x :: first2) = [] := by
          rw [Compare.run_congr hz]
          refine Compare.run_eq_nil fun w hw => Compare.not_equiv_of_less ?_
          rcases List.mem_cons.mp hw with rfl | hw
          · exact hless
          · exact Compare.less_of_less_of_not_less hless (hold.sorted.cons_not_less hw)
        have := hrun z
        rw [if_pos hnil] at this ⊢
        rw [Compare.run_cons_of_equiv hz, Compare.run_cons_of_equiv hz, this]
  | case4 v x first2 y first1 hless hequal ih =>
    obtain ⟨d, heq, hd, hsub, hs, hrun⟩ := ih hold.of_cons hsrc.of_cons
    rw [setDifferenceBack, if_neg hless, if_pos hequal]
    refine ⟨d, heq, Distributes.keep y hd, hsub.trans (List.sublist_cons_self _ _), hs,
      fun z => ?_⟩
    have hxy : c.equiv x y = true :=
      Compare.equiv_iff.mpr ⟨Bool.not_eq_true' _ ▸ hequal, Bool.eq_false_of_not_eq_true hless⟩
    rw [hrun z]
    rcases hz : c.equiv z x with - | -
    · have hzy : c.equiv z y = false := by
        rw [Compare.equiv_comm, Compare.equiv_congr hxy, Compare.equiv_comm] at hz
        exact hz
      rw [Compare.run_cons_of_not_equiv hz, Compare.run_cons_of_not_equiv hzy]
    -- Both are passed, and the vector has no other.
    · have hzy : c.equiv z y = true := Compare.equiv_trans hz hxy
      have hnil : c.run z first2 = [] := by
        rw [Compare.run_congr hz]
        exact Compare.run_eq_nil fun w hw =>
          Compare.not_equiv_of_less ((List.pairwise_cons.mp hold).1 w hw)
      rw [if_pos hnil, Compare.run_cons_of_equiv hz, if_neg (List.cons_ne_nil _ _),
        Compare.run_cons_of_equiv hzy]
      rfl
  | case5 v x first2 y first1 hless hequal ih =>
    obtain ⟨d, heq, hd, hsub, hs, hrun⟩ := ih hold.of_cons hsrc
    rw [setDifferenceBack, if_neg hless, if_neg hequal]
    refine ⟨d, heq, hd, hsub, hs, fun z => ?_⟩
    have hxy : c.less x y = true := by
      rwa [Bool.not_eq_true', Bool.not_eq_false] at hequal
    rw [hrun z]
    rcases hz : c.equiv z x with - | -
    · rw [Compare.run_cons_of_not_equiv hz]
    -- The range has no equivalent of what is less than its next element.
    · have hnil : c.run z (y :: first1) = [] := by
        rw [Compare.run_congr hz]
        refine Compare.run_eq_nil fun w hw => Compare.not_equiv_of_less ?_
        rcases List.mem_cons.mp hw with rfl | hw
        · exact hxy
        · exact Compare.less_of_less_of_not_less hxy (hsrc.cons_not_less hw)
      rw [hnil]
      split <;> split <;> rfl

/-! ## What `merge` gives -/

/-- A merge in a new buffer gives the whole range. -/
theorem mergeLoop_distributes (c : Compare α) (access : Access α) (xs ys : List α) :
    Distributes (fun _ _ => True) ys (mergeLoop c access xs ys).2 ys := by
  induction xs, ys using mergeLoop.induct c access with
  | case1 pbeg =>
    rw [mergeLoop]
    exact Distributes.nil
  | case2 first hne =>
    rw [mergeLoop]
    · exact (Distributes.map access.afterMove first).mono fun _ _ _ => trivial
    · exact hne
  | case3 x pbeg y first hless ih =>
    rw [mergeLoop, if_pos hless]
    exact Distributes.give y _ trivial ih
  | case4 x pbeg y first hless ih =>
    rw [mergeLoop, if_neg hless]
    exact ih

/-- **`merge` gives the whole range.** -/
theorem merge_distributes (a : Allocation) (lib : Movelib α) (c : Compare α) (access : Access α)
    (measured : Bool) (v : Contents α) (input : List α) :
    Distributes (fun _ _ => True) input (merge a lib c access measured v input).2 input := by
  unfold merge
  split
  · exact mergeLoop_distributes c access v.elements input
  · exact (Distributes.map access.afterRead input).mono fun _ _ _ => trivial

/-! ## The two ways of `merge_unique` -/

/-- **What `merge_unique` does of a range that is not an input range**: it merges what
`priv_set_difference_back` appended. -/
theorem mergeUnique_merges (a : Allocation) (lib : Movelib α) (access : Access α)
    (hv : c.StrictlySorted v.elements) (hi : c.Sorted input) :
    ∃ d, c.StableMerge v.elements d (mergeUnique a lib c access v input).1.elements
      ∧ Distributes (fun x left => left = access.afterRead x) input
        (mergeUnique a lib c access v input).2 d
      ∧ ∀ z, c.run z d
        = if c.run z v.elements = [] then c.run z input else (c.run z input).drop 1 := by
  obtain ⟨d, heq, hd, -, hs, hrun⟩ := setDifferenceBack_appends a access v hv hi
  have hstable := mergeFrom_append lib c
    (setDifferenceBack a c access v v.elements input).1.capacity hv.sorted hs
  rw [← heq] at hstable
  exact ⟨d, hstable, hd, hrun⟩

/-- In a run of the merged elements there is one at most where there is in the range. -/
theorem run_mergeUnique_length (a : Allocation) (lib : Movelib α) (access : Access α)
    (hv : c.StrictlySorted v.elements) (hi : c.Sorted input) (z : α) :
    (c.run z (mergeUnique a lib c access v input).1.elements).length ≤ 1
      ↔ (c.run z input).length ≤ 1 := by
  obtain ⟨d, hm, -, hrun⟩ := mergeUnique_merges a lib access hv hi
  have hlen := (Compare.strictlySorted_iff.mp hv).2 z
  rw [hm.2 z, hrun z, List.length_append]
  split
  · rename_i hnil
    rw [hnil, List.length_nil, Nat.zero_add]
  · rename_i hne
    have hpos := List.length_pos_iff.mpr hne
    rw [List.length_drop]
    omega

/-- **The generic way** spends the whole range, and merges the difference. -/
theorem mergeUniqueGeneric_merges (a : Allocation) (lib : Movelib α) (access : Access α)
    (hv : c.Sorted v.elements) (hi : c.Sorted input) :
    c.StableMerge v.elements (lib.inplaceSetUniqueDifference c input v.elements)
        (mergeUniqueGeneric a lib c access v input).1.elements
      ∧ (mergeUniqueGeneric a lib c access v input).2 = input.map access.afterRead := by
  have hd := lib.inplaceSetUniqueDifference_unique c input v.elements hi hv
  refine ⟨?_, rfl⟩
  unfold mergeUniqueGeneric Contents.insertEnd
  simp only [List.take_left, List.drop_left]
  exact mergeFrom_append lib c _ hv hd.1

/-- **The generic way gives the unique union.** -/
theorem mergeUniqueGeneric_union (a : Allocation) (lib : Movelib α) (access : Access α)
    (hv : c.StrictlySorted v.elements) (hi : c.Sorted input) :
    c.UniqueUnion v.elements input (mergeUniqueGeneric a lib c access v input).1.elements :=
  (lib.inplaceSetUniqueDifference_unique c input v.elements hi hv.sorted).union hv
    (mergeUniqueGeneric_merges a lib access hv.sorted hi).1

/-- **`merge_unique` gives the unique union exactly of a range without equivalents.** -/
theorem mergeUnique_union_iff (a : Allocation) (lib : Movelib α) (access : Access α)
    (hv : c.StrictlySorted v.elements) (hi : c.Sorted input) :
    c.UniqueUnion v.elements input (mergeUnique a lib c access v input).1.elements
      ↔ c.StrictlySorted input := by
  constructor
  · intro h
    refine Compare.strictlySorted_iff.mpr ⟨hi, fun z => ?_⟩
    exact (run_mergeUnique_length a lib access hv hi z).mp
      ((Compare.strictlySorted_iff.mp h.strictlySorted).2 z)
  · intro h
    obtain ⟨d, hm, -, hrun⟩ := mergeUnique_merges a lib access hv hi
    refine ⟨hm.1, fun z => ?_⟩
    have hone := (Compare.strictlySorted_iff.mp h).2 z
    have hlen := (Compare.strictlySorted_iff.mp hv).2 z
    rw [hm.2 z, hrun z]
    cases hz : c.run z v.elements with
    | nil =>
      rw [if_pos rfl, List.nil_append]
      exact (List.take_of_length_le hone).symm
    | cons x rest =>
      rw [hz, List.length_cons] at hlen
      have hrest : rest = [] := List.length_eq_zero_iff.mp (by omega)
      rw [if_neg (List.cons_ne_nil _ _), hrest, List.drop_eq_nil_of_le hone]
      rfl

/-- **Its result has no equivalents exactly where the range has none.** -/
theorem mergeUnique_strictlySorted_iff (a : Allocation) (lib : Movelib α) (access : Access α)
    (hv : c.StrictlySorted v.elements) (hi : c.Sorted input) :
    c.StrictlySorted (mergeUnique a lib c access v input).1.elements
      ↔ c.StrictlySorted input := by
  obtain ⟨d, hm, -, -⟩ := mergeUnique_merges a lib access hv hi
  rw [Compare.strictlySorted_iff, Compare.strictlySorted_iff, and_iff_right hm.1,
    and_iff_right hi]
  exact forall_congr' (run_mergeUnique_length a lib access hv hi)

end Vector
