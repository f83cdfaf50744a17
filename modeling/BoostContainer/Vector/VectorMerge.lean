import BoostContainer.Lib.StableOrder

/-!
# Merging a range into a vector

`vector::merge` has two ways. With enough capacity the range is inserted at the
end and merged in place; without, both ranges are merged into a new buffer,
element by element, until one of them is used up and the other one follows as a
whole. `vector::merge_unique` appends what the vector lacks and merges it in
place.

An iterator is known by what it leaves in the range: where an element is
constructed from what the iterator refers to, and where it is constructed from
that by a move. An ordinary iterator leaves everything in the first case, and a
moved element in the second one unless what it refers to is constant; a move
iterator leaves moved elements in both.

The sorts, merges and differences of Boost.Move are not part of the repository.
They are known by what they are documented to do.
-/

namespace Vector

variable {α : Type*}

/-- **The algorithms of Boost.Move**: a stable merge with a buffer of some size, a sort, a
stable sort with a buffer, and a difference that keeps one of each run. -/
structure Movelib (α : Type*) where
  adaptiveMerge : Compare α → ℕ → List α → List α → List α
  pdqsort : Compare α → List α → List α
  adaptiveSort : Compare α → ℕ → List α → List α
  inplaceSetUniqueDifference : Compare α → List α → List α → List α
  adaptiveMerge_stable : ∀ (c : Compare α) uninitializedLen l r, c.Sorted l → c.Sorted r →
    c.StableMerge l r (adaptiveMerge c uninitializedLen l r)
  pdqsort_sorted : ∀ (c : Compare α) l, c.Sorted (pdqsort c l)
  pdqsort_perm : ∀ c l, (pdqsort c l).Perm l
  adaptiveSort_stable : ∀ (c : Compare α) uninitializedLen l,
    c.StableSort l (adaptiveSort c uninitializedLen l)
  inplaceSetUniqueDifference_unique : ∀ (c : Compare α) l r, c.Sorted l → c.Sorted r →
    c.UniqueDifference l r (inplaceSetUniqueDifference c l r)

/-- **What an iterator leaves** of an element that something was constructed from. -/
structure Access (α : Type*) where
  /-- Constructed from `*first`. -/
  afterRead : α → α
  /-- Constructed from `boost::move(*first)`. -/
  afterMove : α → α

/-- An ordinary iterator. -/
def Access.ordinary (moves : α → α) : Access α := ⟨id, moves⟩

/-- `move_iterator` -/
def Access.moving (moves : α → α) : Access α := ⟨moves, moves⟩

/-- The elements of a vector, and its capacity. -/
structure Contents (α : Type*) where
  elements : List α
  capacity : ℕ

/-- **What the allocator gives**, for a number of elements. -/
structure Allocation where
  received : ℕ → ℕ
  le_received : ∀ n, n ≤ received n

/-- The capacity after a request for some number of elements. -/
def Contents.capacityFor (a : Allocation) (v : Contents α) (n : ℕ) : ℕ :=
  if n ≤ v.capacity then v.capacity else a.received n

section Merge

variable (a : Allocation) (lib : Movelib α) (c : Compare α) (access : Access α)

/-- `emplace_back(*first)` -/
def Contents.emplaceBack (v : Contents α) (x : α) : Contents α :=
  ⟨v.elements ++ [x], v.capacityFor a (v.elements.length + 1)⟩

/-- `insert(cend(), first, last)`, and the range afterwards. -/
def Contents.insertEnd (v : Contents α) (input : List α) : Contents α × List α :=
  (⟨v.elements ++ input, v.capacityFor a (v.elements.length + input.length)⟩,
    input.map access.afterRead)

/-- `adaptive_merge(raw_beg, raw_beg + old_size, raw_end, comp, raw_end, capacity() - size())` -/
def Contents.mergeFrom (v : Contents α) (oldSize : ℕ) : Contents α :=
  { v with
    elements := lib.adaptiveMerge c (v.capacity - v.elements.length) (v.elements.take oldSize)
      (v.elements.drop oldSize) }

/-- The loop of `priv_merge_in_new_buffer`: the elements of the new buffer, and the range
afterwards. -/
def mergeLoop : List α → List α → List α × List α
  | pbeg, [] => (pbeg, [])
  | [], first => (first, first.map access.afterMove)
  | x :: pbeg, y :: first =>
    -- Values of the range go first only if they are strictly less.
    if c.less y x then
      let rest := mergeLoop (x :: pbeg) first
      (y :: rest.1, access.afterRead y :: rest.2)
    else
      let rest := mergeLoop pbeg (y :: first)
      (x :: rest.1, rest.2)
termination_by pbeg first => pbeg.length + first.length

/-- `priv_merge_in_new_buffer`, of allocators that can give another buffer. -/
def privMergeInNewBuffer (v : Contents α) (input : List α) : Contents α × List α :=
  let merged := mergeLoop c access v.elements input
  (⟨merged.1, a.received (v.elements.length + input.length)⟩, merged.2)

/-- `priv_merge_generic` -/
def privMergeGeneric (v : Contents α) (input : List α) : Contents α × List α :=
  let inserted := v.insertEnd a access input
  (inserted.1.mergeFrom lib c v.elements.length, inserted.2)

/-- `merge(first, last, comp)`. The range is measured unless its iterators are input
iterators, or refer to another type. -/
def merge (measured : Bool) (v : Contents α) (input : List α) : Contents α × List α :=
  if measured && decide (v.capacity - v.elements.length < input.length) then
    privMergeInNewBuffer a c access v input
  else privMergeGeneric a lib c access v input

/-- The loop of `priv_set_difference_back`: `first2` is what is left of the elements the
vector had. -/
def setDifferenceBack : Contents α → List α → List α → Contents α × List α
  | v, _, [] => (v, [])
  | v, [], first1 => v.insertEnd a access first1
  | v, x :: first2, y :: first1 =>
    if c.less y x then
      let rest := setDifferenceBack (v.emplaceBack a y) (x :: first2) first1
      (rest.1, access.afterRead y :: rest.2)
    else if !c.less x y then
      let rest := setDifferenceBack v first2 first1
      (rest.1, y :: rest.2)
    else setDifferenceBack v first2 (y :: first1)
termination_by _ first2 first1 => first2.length + first1.length

/-- `priv_set_difference_back` -/
def privSetDifferenceBack (v : Contents α) (input : List α) : Contents α × List α :=
  setDifferenceBack a c access v v.elements input

/-- `merge_unique(first, last, comp)`, of iterators that are not input iterators. -/
def mergeUnique (v : Contents α) (input : List α) : Contents α × List α :=
  let appended := privSetDifferenceBack a c access v input
  (appended.1.mergeFrom lib c v.elements.length, appended.2)

/-- `merge_unique(first, last, comp)`, of input iterators and of other types. -/
def mergeUniqueGeneric (v : Contents α) (input : List α) : Contents α × List α :=
  let inserted := v.insertEnd a access input
  let pos := v.elements.length
  let e := lib.inplaceSetUniqueDifference c (inserted.1.elements.drop pos)
    (inserted.1.elements.take pos)
  let erased : Contents α := ⟨inserted.1.elements.take pos ++ e, inserted.1.capacity⟩
  (erased.mergeFrom lib c pos, inserted.2)

end Merge

variable {a : Allocation} {lib : Movelib α} {c : Compare α} {access : Access α}
  {v : Contents α} {xs ys input : List α} {moves : α → α}

/-! ## The two ways of `merge` -/

/-- Merging in place what follows a prefix of some length. -/
theorem mergeFrom_append (lib : Movelib α) (c : Compare α) (n : ℕ) (hx : c.Sorted xs)
    (hy : c.Sorted ys) :
    c.StableMerge xs ys
      (Contents.mergeFrom lib c ⟨xs ++ ys, n⟩ xs.length).elements := by
  show c.StableMerge xs ys
    (lib.adaptiveMerge c _ ((xs ++ ys).take xs.length) ((xs ++ ys).drop xs.length))
  rw [List.take_left, List.drop_left]
  exact lib.adaptiveMerge_stable c _ xs ys hx hy

/-- What is merged is of the two ranges. -/
theorem mem_mergeLoop (access : Access α) {z : α} (h : z ∈ (mergeLoop c access xs ys).1) :
    z ∈ xs ∨ z ∈ ys := by
  induction xs, ys using mergeLoop.induct c access with
  | case1 pbeg =>
    rw [mergeLoop] at h
    exact Or.inl h
  | case2 first hne =>
    rw [mergeLoop] at h
    · exact Or.inr h
    · exact hne
  | case3 x pbeg y first hless ih =>
    rw [mergeLoop, if_pos hless] at h
    rcases List.mem_cons.mp h with rfl | h
    · exact Or.inr List.mem_cons_self
    · exact (ih h).imp id (List.mem_cons_of_mem _)
  | case4 x pbeg y first hless ih =>
    rw [mergeLoop, if_neg hless] at h
    rcases List.mem_cons.mp h with rfl | h
    · exact Or.inl List.mem_cons_self
    · exact (ih h).imp (List.mem_cons_of_mem _) id

/-- **A merge in a new buffer is the stable merge.** -/
theorem mergeLoop_stable (access : Access α) (hx : c.Sorted xs) (hy : c.Sorted ys) :
    c.StableMerge xs ys (mergeLoop c access xs ys).1 := by
  induction xs, ys using mergeLoop.induct c access with
  | case1 pbeg =>
    rw [mergeLoop]
    exact ⟨hx, fun v => (List.append_nil _).symm⟩
  | case2 first hne =>
    rw [mergeLoop]
    · exact ⟨hy, fun v => rfl⟩
    · exact hne
  | case3 x pbeg y first hless ih =>
    obtain ⟨hs, hrun⟩ := ih hx hy.of_cons
    rw [mergeLoop, if_pos hless]
    refine ⟨hs.cons fun z hz => ?_, fun v => ?_⟩
    · rcases mem_mergeLoop access hz with hz | hz
      · rcases List.mem_cons.mp hz with rfl | hz
        · exact Compare.less_asymm hless
        · exact Compare.less_asymm (Compare.less_of_less_of_not_less hless (hx.cons_not_less hz))
      · exact hy.cons_not_less hz
    · rcases hv : c.equiv v y with - | -
      · rw [Compare.run_cons_of_not_equiv hv, Compare.run_cons_of_not_equiv hv]
        exact hrun v
      -- The vector has no equivalents of what goes before its least element.
      · have hnil : c.run v (x :: pbeg) = [] := by
          rw [Compare.run_congr hv]
          refine Compare.run_eq_nil fun z hz => Compare.not_equiv_of_less ?_
          rcases List.mem_cons.mp hz with rfl | hz
          · exact hless
          · exact Compare.less_of_less_of_not_less hless (hx.cons_not_less hz)
        have := hrun v
        rw [hnil, List.nil_append] at this
        rw [Compare.run_cons_of_equiv hv, Compare.run_cons_of_equiv hv, hnil, List.nil_append]
        exact congrArg _ this
  | case4 x pbeg y first hless ih =>
    obtain ⟨hs, hrun⟩ := ih hx.of_cons hy
    have hyx : c.less y x = false := Bool.eq_false_of_not_eq_true hless
    rw [mergeLoop, if_neg hless]
    refine ⟨hs.cons fun z hz => ?_, fun v => ?_⟩
    · rcases mem_mergeLoop access hz with hz | hz
      · exact hx.cons_not_less hz
      · rcases List.mem_cons.mp hz with rfl | hz
        · exact hyx
        · exact Compare.not_less_trans hyx (hy.cons_not_less hz)
    · rcases hv : c.equiv v x with - | -
      · rw [Compare.run_cons_of_not_equiv hv, Compare.run_cons_of_not_equiv hv]
        exact hrun v
      · rw [Compare.run_cons_of_equiv hv, Compare.run_cons_of_equiv hv, List.cons_append]
        exact congrArg _ (hrun v)

/-- **`merge` is the stable merge**, whatever the capacity. -/
theorem merge_stable (a : Allocation) (lib : Movelib α) (access : Access α) (measured : Bool)
    (hv : c.Sorted v.elements) (hi : c.Sorted input) :
    c.StableMerge v.elements input (merge a lib c access measured v input).1.elements := by
  unfold merge
  split
  · exact mergeLoop_stable access hv hi
  · exact mergeFrom_append lib c _ hv hi

/-! ## What is left of the range -/

/-- **A merge in a new buffer leaves the range as it was** unless it moves what comes after all
elements of the vector. -/
theorem mergeLoop_leaves_iff (hread : ∀ y, access.afterRead y = y) (hy : c.Sorted ys) :
    (mergeLoop c access xs ys).2 = ys
      ↔ ∀ y ∈ ys, (∀ x ∈ xs, c.less y x = false) → access.afterMove y = y := by
  induction xs, ys using mergeLoop.induct c access with
  | case1 pbeg =>
    rw [mergeLoop]
    exact ⟨fun _ y hy => absurd hy List.not_mem_nil, fun _ => rfl⟩
  | case2 first hne =>
    rw [mergeLoop]
    · constructor
      · intro h y hy _
        exact List.map_eq_map_iff.mp (h.trans (List.map_id _).symm) y hy
      · intro h
        refine (List.map_congr_left fun y hy => ?_).trans (List.map_id _)
        exact h y hy fun x hx => absurd hx List.not_mem_nil
    · exact hne
  | case3 x pbeg y first hless ih =>
    rw [mergeLoop, if_pos hless, hread]
    show y :: (mergeLoop c access (x :: pbeg) first).2 = y :: first ↔ _
    rw [List.cons_inj_right, ih hy.of_cons]
    constructor
    · intro h z hz hlast
      rcases List.mem_cons.mp hz with rfl | hz
      · rw [hlast x List.mem_cons_self] at hless
        cases hless
      · exact h z hz hlast
    · exact fun h z hz => h z (List.mem_cons_of_mem _ hz)
  | case4 x pbeg y first hless ih =>
    rw [mergeLoop, if_neg hless]
    show (mergeLoop c access pbeg (y :: first)).2 = y :: first ↔ _
    rw [ih hy]
    have hyx : c.less y x = false := Bool.eq_false_of_not_eq_true hless
    refine forall₂_congr fun z hz => imp_congr_left ?_
    have hzx : c.less z x = false := by
      rcases List.mem_cons.mp hz with rfl | hz
      · exact hyx
      · exact Compare.not_less_trans hyx (hy.cons_not_less hz)
    exact ⟨fun h w hw => (List.mem_cons.mp hw).elim (fun heq => heq ▸ hzx) (h w),
      fun h w hw => h w (List.mem_cons_of_mem _ hw)⟩

/-- **`merge` gives the stable merge, the range as it was, and the same elements whatever the
capacity**, exactly where what would come after all elements of the vector is not changed
by a move, or fits in. -/
theorem merge_independent_iff (a : Allocation) (lib : Movelib α) (measured : Bool)
    (hread : ∀ y, access.afterRead y = y) (hv : c.Sorted v.elements) (hi : c.Sorted input) :
    (c.StableMerge v.elements input (merge a lib c access measured v input).1.elements
        ∧ (merge a lib c access measured v input).2 = input
        ∧ ∀ capacity, (merge a lib c access measured ⟨v.elements, capacity⟩ input).1.elements
          = (merge a lib c access measured v input).1.elements)
      ↔ (measured = true → v.capacity - v.elements.length < input.length →
        ∀ y ∈ input, (∀ x ∈ v.elements, c.less y x = false) → access.afterMove y = y) := by
  have hstable := merge_stable a lib access measured hv hi
  have hsame : ∀ capacity, (merge a lib c access measured ⟨v.elements, capacity⟩ input).1.elements
      = (merge a lib c access measured v input).1.elements := fun capacity =>
    Compare.StableMerge.unique
      (merge_stable (v := ⟨v.elements, capacity⟩) a lib access measured hv hi) hstable
  have hiff : (merge a lib c access measured v input).2 = input
      ↔ (measured = true → v.capacity - v.elements.length < input.length →
        ∀ y ∈ input, (∀ x ∈ v.elements, c.less y x = false) → access.afterMove y = y) := by
    unfold merge
    by_cases hnew : measured = true ∧ v.capacity - v.elements.length < input.length
    · rw [if_pos (by rw [hnew.1, decide_eq_true hnew.2]; rfl)]
      exact (mergeLoop_leaves_iff hread hi).trans ⟨fun h _ _ => h, fun h => h hnew.1 hnew.2⟩
    · rw [if_neg (by rw [Bool.and_eq_true, decide_eq_true_eq]; exact hnew)]
      have hleft : (privMergeGeneric a lib c access v input).2 = input :=
        (List.map_congr_left fun y _ => hread y).trans (List.map_id _)
      exact ⟨fun _ hm hlt => absurd ⟨hm, hlt⟩ hnew, fun _ => hleft⟩
  exact ⟨fun h => hiff.mp h.2.1, fun h => ⟨hstable, hiff.mpr h, hsame⟩⟩

/-! ## Algorithms that do what is documented -/

/-- Insertion, one by one. -/
def sortOf (c : Compare α) (l : List α) : List α :=
  l.foldr (fun x sorted => (mergeLoop c (Access.ordinary id) [x] sorted).1) []

theorem sortOf_stable (c : Compare α) (l : List α) : c.StableSort l (sortOf c l) := by
  induction l with
  | nil => exact ⟨List.Pairwise.nil, fun v => rfl⟩
  | cons x l ih =>
    have hone : c.Sorted [x] := List.pairwise_singleton _ _
    obtain ⟨hs, hrun⟩ := mergeLoop_stable (Access.ordinary id) hone ih.1
    refine ⟨hs, fun v => (hrun v).trans ?_⟩
    rw [ih.2 v, ← Compare.run_append]
    rfl

/-- The first of each run. -/
def firstsOf (c : Compare α) : List α → List α
  | [] => []
  | x :: l => x :: (firstsOf c l).filter fun y => !c.equiv x y

theorem firstsOf_sublist (c : Compare α) (l : List α) : (firstsOf c l).Sublist l := by
  induction l with
  | nil => exact List.Sublist.slnil
  | cons x l ih => exact (List.filter_sublist.trans ih).cons_cons x

theorem run_firstsOf (c : Compare α) (z : α) (l : List α) :
    c.run z (firstsOf c l) = (c.run z l).take 1 := by
  induction l with
  | nil => rfl
  | cons x l ih =>
    show c.run z (x :: (firstsOf c l).filter fun y => !c.equiv x y) = _
    rcases hz : c.equiv z x with - | -
    · rw [Compare.run_cons_of_not_equiv hz, Compare.run_cons_of_not_equiv hz, ← ih, Compare.run,
        List.filter_filter]
      refine List.filter_congr fun y _ => ?_
      rcases hy : c.equiv z y with - | -
      · rfl
      · rcases hxy : c.equiv x y with - | -
        · rfl
        · rw [Compare.equiv_congr hy, Compare.equiv_comm, hxy] at hz
          cases hz
    · have hnil : c.run z ((firstsOf c l).filter fun y => !c.equiv x y) = [] := by
        refine Compare.run_eq_nil fun y hy => ?_
        have := (List.mem_filter.mp hy).2
        rw [Compare.equiv_congr hz]
        exact Bool.not_eq_true' _ ▸ this
      rw [Compare.run_cons_of_equiv hz, Compare.run_cons_of_equiv hz, hnil]
      rfl

/-- The elements without an equivalent in another list. -/
def lackedBy (c : Compare α) (r l : List α) : List α := l.filter fun x => !r.any (c.equiv x)

theorem run_lackedBy (c : Compare α) (z : α) (r l : List α) :
    c.run z (lackedBy c r l) = if c.run z r = [] then c.run z l else [] := by
  have hany : ∀ x, c.equiv z x = true → (r.any (c.equiv x) = true ↔ c.run z r ≠ []) := by
    intro x hx
    rw [Ne, Compare.run_eq_nil_iff, List.any_eq_true]
    constructor
    · rintro ⟨y, hy, hxy⟩ hnone
      have := hnone y hy
      rw [Compare.equiv_congr hx, hxy] at this
      cases this
    · intro h
      by_contra hnone
      refine h fun y hy => ?_
      rw [Compare.equiv_congr hx]
      exact Bool.eq_false_of_not_eq_true fun hxy => hnone ⟨y, hy, hxy⟩
  unfold Compare.run lackedBy
  rw [List.filter_filter]
  split
  · rename_i hnil
    refine List.filter_congr fun x _ => ?_
    rcases hx : c.equiv z x with - | -
    · rfl
    · rw [Bool.eq_false_of_not_eq_true fun h => (hany x hx).mp h hnil]
      rfl
  · rename_i hne
    refine List.filter_eq_nil_iff.mpr fun x _ => ?_
    rcases hx : c.equiv z x with - | -
    · exact Bool.false_ne_true
    · rw [(hany x hx).mpr hne]
      exact Bool.false_ne_true

/-- **Algorithms that do what those of Boost.Move are documented to do.** -/
def Movelib.reference (α : Type*) : Movelib α where
  adaptiveMerge c _ l r := (mergeLoop c (Access.ordinary id) l r).1
  pdqsort := sortOf
  adaptiveSort c _ := sortOf c
  inplaceSetUniqueDifference c l r := firstsOf c (lackedBy c r l)
  adaptiveMerge_stable _ _ _ _ hl hr := mergeLoop_stable _ hl hr
  pdqsort_sorted c l := (sortOf_stable c l).1
  pdqsort_perm c l := (sortOf_stable c l).perm
  adaptiveSort_stable c _ l := sortOf_stable c l
  inplaceSetUniqueDifference_unique c l r hl _ := by
    refine ⟨List.Pairwise.sublist ((firstsOf_sublist c _).trans List.filter_sublist) hl,
      fun z => ?_⟩
    rw [run_firstsOf, run_lackedBy]
    split <;> rfl

/-- An allocator that gives what is asked for. -/
def Allocation.exact : Allocation := ⟨id, fun _ => le_rfl⟩

/-- A vector that has room. -/
theorem merge_independent_iff_room :
    let it := Access.ordinary fun _ : ℕ => 0
    (merge Allocation.exact (Movelib.reference ℕ) (Compare.stdLess ℕ) it true ⟨[1, 4], 4⟩
      [2, 5]).2 = [2, 5] := by
  intro it
  have hv : (Compare.stdLess ℕ).Sorted [1, 4] := by decide
  have hi : (Compare.stdLess ℕ).Sorted [2, 5] := by decide
  exact ((merge_independent_iff (v := ⟨[1, 4], 4⟩) Allocation.exact (Movelib.reference ℕ) true
    (fun _ => rfl) hv hi).mpr fun _ hlt => absurd hlt (by decide)).2.1

/-- **A vector that has none** moves the last element of an ordinary range. -/
theorem merge_spends_the_range :
    let it := Access.ordinary fun _ : ℕ => 0
    (Compare.stdLess ℕ).Sorted [1, 4] ∧ (Compare.stdLess ℕ).Sorted [2, 5]
      ∧ (merge Allocation.exact (Movelib.reference ℕ) (Compare.stdLess ℕ) it true ⟨[1, 4], 2⟩
        [2, 5]).2 = [2, 0] := by
  refine ⟨by decide, by decide, ?_⟩
  simp [merge, privMergeInNewBuffer, mergeLoop, Compare.stdLess, Access.ordinary]

end Vector
