import BoostContainer.Flat.FlatTree
import BoostContainer.Vector.VectorMergeUnique

/-!
# Merging flat trees

Where the comparisons of two flat trees are of one type, `merge` relies on the
order of the source: a sequence container that can merge ranges does so, and
any other one has the source appended, what it does not lack erased, and the
rest merged. Where the comparisons differ, the source is appended, sorted, and
then treated in the same way. All of them are given move iterators, and those
ways that append before they compare move from elements that are erased
afterwards.
-/

open Vector

namespace FlatTree

variable {κ α : Type*}

section Merge

variable (a : Allocation) (lib : Movelib α) (c : Compare α) (access : Access α)

/-- `flat_tree_merge_unique`, of a sequence container that has `merge_unique` and of one that
has not. -/
def flatTreeMergeUnique (hasMember : Bool) (dest : Contents α) (input : List α) :
    Contents α × List α :=
  if hasMember then Vector.mergeUnique a lib c access dest input
  else if input.isEmpty then (dest, input)
  else Vector.mergeUniqueGeneric a lib c access dest input

/-- `flat_tree_merge_equal`, of a sequence container that has `merge` and of one that has
not. -/
def flatTreeMergeEqual (hasMember : Bool) (dest : Contents α) (input : List α) :
    Contents α × List α :=
  if hasMember then Vector.merge a lib c access true dest input
  else if input.isEmpty then (dest, input)
  else Vector.privMergeGeneric a lib c access dest input

/-- `insert_unique_range` -/
def insertUniqueRange (seq : Contents α) (input : List α) : Contents α × List α :=
  let inserted := seq.insertEnd a access input
  let it := seq.elements.length
  let sorted := lib.pdqsort c (inserted.1.elements.drop it)
  let e := lib.inplaceSetUniqueDifference c sorted (inserted.1.elements.take it)
  let erased : Contents α := ⟨inserted.1.elements.take it ++ e, inserted.1.capacity⟩
  (if e.isEmpty then erased else erased.mergeFrom lib c it, inserted.2)

/-- `insert_equal_range` -/
def insertEqualRange (seq : Contents α) (input : List α) : Contents α × List α :=
  if input.isEmpty then (seq, input)
  else
    let inserted := seq.insertEnd a access input
    let it := seq.elements.length
    let sorted := lib.adaptiveSort c (inserted.1.capacity - inserted.1.elements.length)
      (inserted.1.elements.drop it)
    let ended : Contents α := ⟨inserted.1.elements.take it ++ sorted, inserted.1.capacity⟩
    (ended.mergeFrom lib c it, inserted.2)

end Merge

section MergeTrees

variable (a : Allocation) (lib : Movelib α) (moves : α → α)

/-- `merge_unique(source)`, where the comparisons are of the same type and where they are
not; `hasMember` says whether the sequence container has `merge_unique`, and `capacity` is
that of the sequence. -/
def mergeUnique (sameCompare hasMember : Bool) (capacity : ℕ) (t source : FlatTree κ α) :
    FlatTree κ α × FlatTree κ α :=
  let merged :=
    if sameCompare then
      flatTreeMergeUnique a lib t.valueComp (Access.moving moves) hasMember ⟨t.seq, capacity⟩
        source.seq
    else
      insertUniqueRange a lib t.valueComp (Access.moving moves) ⟨t.seq, capacity⟩ source.seq
  ({ t with seq := merged.1.elements }, { source with seq := merged.2 })

/-- `merge_equal(source)` -/
def mergeEqual (sameCompare hasMember : Bool) (capacity : ℕ) (t source : FlatTree κ α) :
    FlatTree κ α × FlatTree κ α :=
  let merged :=
    if sameCompare then
      flatTreeMergeEqual a lib t.valueComp (Access.moving moves) hasMember ⟨t.seq, capacity⟩
        source.seq
    else
      insertEqualRange a lib t.valueComp (Access.moving moves) ⟨t.seq, capacity⟩ source.seq
  ({ t with seq := merged.1.elements }, { source with seq := merged.2 })

/-- `merge`, of the containers of unique keys and of the others. -/
def merge (unique sameCompare hasMember : Bool) (capacity : ℕ) (t source : FlatTree κ α) :
    FlatTree κ α × FlatTree κ α :=
  if unique then mergeUnique a lib moves sameCompare hasMember capacity t source
  else mergeEqual a lib moves sameCompare hasMember capacity t source

end MergeTrees

/-! ## What each way gives and leaves -/

variable {c : Compare α} {access : Access α} {moves : α → α} {v : Contents α} {input : List α}

theorem flatTreeMergeUnique_of_ne (a : Allocation) (lib : Movelib α) (h : input.isEmpty = false) :
    flatTreeMergeUnique a lib c access false v input
      = Vector.mergeUniqueGeneric a lib c access v input := by
  rw [flatTreeMergeUnique, if_neg Bool.false_ne_true, h, if_neg Bool.false_ne_true]

theorem flatTreeMergeEqual_of_ne (a : Allocation) (lib : Movelib α) (h : input.isEmpty = false) :
    flatTreeMergeEqual a lib c access false v input
      = Vector.privMergeGeneric a lib c access v input := by
  rw [flatTreeMergeEqual, if_neg Bool.false_ne_true, h, if_neg Bool.false_ne_true]

theorem flatTreeMergeEqual_of_empty (a : Allocation) (lib : Movelib α)
    (h : input.isEmpty = true) :
    flatTreeMergeEqual a lib c access false v input = (v, input) := by
  rw [flatTreeMergeEqual, if_neg Bool.false_ne_true, if_pos h]

/-- **What a unique difference drops**: what has an equivalent in the other list, and what is
not the first of its run. -/
theorem exists_dropped {l r d : List α} (h : c.UniqueDifference l r d) :
    ∃ dropped, l.Perm (d ++ dropped)
      ∧ ∀ x, x ∈ dropped ↔ x ∈ l ∧ (c.run x r ≠ [] ∨ x ∈ (c.run x l).drop 1) := by
  classical
  have hcount : ∀ x ∈ d, d.count x ≤ l.count x := by
    intro x _
    have hown : ∀ k : List α, k.count x = (c.run x k).count x :=
      fun k => (List.count_filter (Compare.equiv_refl x)).symm
    rw [hown d, hown l, h.2 x]
    split
    · exact (List.take_sublist 1 _).count_le x
    · exact Nat.zero_le _
  have hperm : l.Perm (d ++ l.diff d) := (List.subperm_append_diff_self_of_count_le hcount).symm
  refine ⟨l.diff d, hperm, fun x => ?_⟩
  have hrun : (c.run x l).Perm (c.run x d ++ c.run x (l.diff d)) := by
    rw [← Compare.run_append]
    exact hperm.filter _
  have hmem : x ∈ l.diff d ↔ x ∈ c.run x (l.diff d) :=
    ⟨fun hx => Compare.mem_run.mpr ⟨hx, Compare.equiv_refl x⟩, fun hx => (Compare.mem_run.mp hx).1⟩
  rw [hmem]
  by_cases hr : c.run x r = []
  · rw [h.2 x, if_pos hr] at hrun
    have hdrop : (c.run x (l.diff d)).Perm ((c.run x l).drop 1) := by
      have := hrun
      nth_rewrite 1 [← List.take_append_drop 1 (c.run x l)] at this
      exact ((List.perm_append_left_iff _).mp this).symm
    rw [hdrop.mem_iff]
    refine ⟨fun hx => ⟨?_, Or.inr hx⟩, fun hx => hx.2.resolve_left (not_not_intro hr)⟩
    exact (Compare.mem_run.mp (List.mem_of_mem_drop hx)).1
  · rw [h.2 x, if_neg hr, List.nil_append] at hrun
    rw [← hrun.mem_iff, Compare.mem_run]
    exact ⟨fun hx => ⟨hx.1, Or.inl hr⟩, fun hx => ⟨hx.1, Compare.equiv_refl x⟩⟩

/-- **What `insert_unique_range` does**: it moves the whole range, and adds the unique
difference of the range as it is sorted. -/
theorem insertUniqueRange_adds (a : Allocation) (lib : Movelib α) (access : Access α)
    (v : Contents α) (input : List α) (hv : c.Sorted v.elements) :
    let sorted := lib.pdqsort c input
    c.StableMerge v.elements (lib.inplaceSetUniqueDifference c sorted v.elements)
        (insertUniqueRange a lib c access v input).1.elements
      ∧ (insertUniqueRange a lib c access v input).2 = input.map access.afterRead := by
  intro sorted
  have hd := lib.inplaceSetUniqueDifference_unique c sorted v.elements
    (lib.pdqsort_sorted c input) hv
  refine ⟨?_, rfl⟩
  have heq : (insertUniqueRange a lib c access v input).1
      = if (lib.inplaceSetUniqueDifference c sorted v.elements).isEmpty then
          ⟨v.elements ++ lib.inplaceSetUniqueDifference c sorted v.elements,
            v.capacityFor a (v.elements.length + input.length)⟩
        else Contents.mergeFrom lib c
          ⟨v.elements ++ lib.inplaceSetUniqueDifference c sorted v.elements,
            v.capacityFor a (v.elements.length + input.length)⟩ v.elements.length := by
    unfold insertUniqueRange Contents.insertEnd
    simp only [List.take_left, List.drop_left]
    rfl
  rw [heq]
  split
  · rename_i hempty
    rw [List.isEmpty_iff] at hempty
    rw [hempty]
    refine ⟨(List.append_nil v.elements).symm ▸ hv, fun z => ?_⟩
    rw [← Compare.run_append]
  · exact mergeFrom_append lib c _ hv hd.1

/-- **What `insert_equal_range` does**: it moves the whole range and adds it. -/
theorem insertEqualRange_adds (a : Allocation) (lib : Movelib α) (access : Access α)
    (hv : c.Sorted v.elements) (hne : input.isEmpty = false) :
    (insertEqualRange a lib c access v input).1.elements.Perm (v.elements ++ input)
      ∧ (insertEqualRange a lib c access v input).2 = input.map access.afterRead := by
  have hs := lib.adaptiveSort_stable c
    (v.capacityFor a (v.elements.length + input.length) - (v.elements ++ input).length) input
  have hm := mergeFrom_append lib c (v.capacityFor a (v.elements.length + input.length)) hv hs.1
  have heq : insertEqualRange a lib c access v input
      = (Contents.mergeFrom lib c
          ⟨v.elements ++ lib.adaptiveSort c
            (v.capacityFor a (v.elements.length + input.length) - (v.elements ++ input).length)
            input, v.capacityFor a (v.elements.length + input.length)⟩ v.elements.length,
        input.map access.afterRead) := by
    unfold insertEqualRange Contents.insertEnd
    simp only [hne, Bool.false_eq_true, if_false, List.take_left, List.drop_left]
  rw [heq]
  exact ⟨hm.perm.trans (hs.perm.append_left v.elements), rfl⟩

/-! ## What merging conserves -/

/-- **What `merge` is to conserve**: no element is lost, and the containers of unique keys do
not move from an element that they have an equivalent of. -/
def MergeConserves (unique : Bool) (t source : FlatTree κ α)
    (merged : FlatTree κ α × FlatTree κ α) : Prop :=
  Conserves t.seq source.seq merged.1.seq merged.2.seq
    ∧ (unique = true → List.Forall₂ (fun x left => t.valueComp.run x t.seq ≠ [] → left = x)
      source.seq merged.2.seq)

/-- **The elements that are moved in vain.** Where the sequence container has `merge_unique`, they
are those that have an equivalent in the destination and are not the first of their run;
elsewhere it is enough that they have one or are not the first. -/
def MovedInVain (lib : Movelib α) (sameCompare hasMember : Bool) (t source : FlatTree κ α)
    (x : α) : Prop :=
  let sorted := if sameCompare then source.seq else lib.pdqsort t.valueComp source.seq
  if sameCompare && hasMember then
    t.valueComp.run x t.seq ≠ [] ∧ x ∈ (t.valueComp.run x sorted).drop 1
  else t.valueComp.run x t.seq ≠ [] ∨ x ∈ (t.valueComp.run x sorted).drop 1

/-- What a way conserves that moves the whole source. -/
theorem conserves_of_difference (moves : α → α) {dest src sorted d dest' : List α}
    (hsorted : sorted.Perm src) (hd : c.UniqueDifference sorted dest d)
    (hdest : c.StableMerge dest d dest') :
    (Conserves dest src dest' (src.map moves)
        ∧ List.Forall₂ (fun x left => c.run x dest ≠ [] → left = x) src (src.map moves))
      ↔ ∀ x ∈ src, (c.run x dest ≠ [] ∨ x ∈ (c.run x sorted).drop 1) → moves x = x := by
  obtain ⟨dropped, hperm, hmem⟩ := exists_dropped hd
  rw [conserves_map_iff hdest.perm (hsorted.symm.trans hperm),
    (Distributes.map moves src).forall₂_iff]
  constructor
  · exact fun h x hx hvain => h.1 x ((hmem x).mpr ⟨hsorted.mem_iff.mpr hx, hvain⟩)
  · intro h
    refine ⟨fun x hx => ?_, fun x hx hhas => h x hx (Or.inl hhas)⟩
    obtain ⟨hin, hvain⟩ := (hmem x).mp hx
    exact h x (hsorted.mem_iff.mp hin) hvain

/-- What the way conserves that compares first. -/
theorem conserves_mergeUnique (a : Allocation) (lib : Movelib α) (moves : α → α)
    (hv : c.StrictlySorted v.elements) (hi : c.Sorted input) :
    (Conserves v.elements input
        (Vector.mergeUnique a lib c (Access.moving moves) v input).1.elements
        (Vector.mergeUnique a lib c (Access.moving moves) v input).2
        ∧ List.Forall₂ (fun x left => c.run x v.elements ≠ [] → left = x) input
          (Vector.mergeUnique a lib c (Access.moving moves) v input).2)
      ↔ ∀ x ∈ input, (c.run x v.elements ≠ [] ∧ x ∈ (c.run x input).drop 1) → moves x = x := by
  obtain ⟨d, hm, hdist, hrun⟩ := mergeUnique_merges a lib (Access.moving moves) hv hi
  rw [and_iff_right ⟨d, hdist.mono fun _ _ _ => trivial, hm.perm⟩, hdist.forall₂_iff]
  have hmem : ∀ x, c.run x v.elements ≠ [] → (x ∈ d ↔ x ∈ (c.run x input).drop 1) := by
    intro x hx
    have := hrun x
    rw [if_neg hx] at this
    rw [← this, Compare.mem_run, and_iff_left (Compare.equiv_refl x)]
  constructor
  · exact fun h x _ hvain => h x ((hmem x hvain.1).mpr hvain.2) hvain.1
  · intro h x hx hhas
    have hdrop := (hmem x hhas).mp hx
    exact h x (Compare.mem_run.mp (List.mem_of_mem_drop hdrop)).1 ⟨hhas, hdrop⟩

/-- What the containers of unique keys conserve. -/
theorem mergeUnique_conserves_iff (a : Allocation) (lib : Movelib α) (moves : α → α)
    (sameCompare hasMember : Bool) (capacity : ℕ) {t source : FlatTree κ α}
    (ht : t.SortedUnique) (hs : source.Sorted)
    (hsame : sameCompare = true → source.valueComp = t.valueComp) :
    MergeConserves true t source
        (mergeUnique a lib moves sameCompare hasMember capacity t source)
      ↔ ∀ x ∈ source.seq, MovedInVain lib sameCompare hasMember t source x → moves x = x := by
  have hunique : MergeConserves true t source
        (mergeUnique a lib moves sameCompare hasMember capacity t source)
      ↔ Conserves t.seq source.seq
          (mergeUnique a lib moves sameCompare hasMember capacity t source).1.seq
          (mergeUnique a lib moves sameCompare hasMember capacity t source).2.seq
        ∧ List.Forall₂ (fun x left => t.valueComp.run x t.seq ≠ [] → left = x) source.seq
          (mergeUnique a lib moves sameCompare hasMember capacity t source).2.seq :=
    and_congr_right fun _ => ⟨fun h => h rfl, fun h _ => h⟩
  rw [hunique]
  unfold MovedInVain mergeUnique
  cases sameCompare with
  | false =>
    have hadds := insertUniqueRange_adds a lib (Access.moving moves) ⟨t.seq, capacity⟩ source.seq
      ht.sorted
    have hd := lib.inplaceSetUniqueDifference_unique t.valueComp
      (lib.pdqsort t.valueComp source.seq) t.seq (lib.pdqsort_sorted _ _) ht.sorted
    exact conserves_of_difference moves (lib.pdqsort_perm t.valueComp source.seq) hd hadds.1
  | true =>
    have hs' : t.valueComp.Sorted source.seq := hsame rfl ▸ hs
    cases hasMember with
    | true => exact conserves_mergeUnique a lib moves ht hs'
    | false =>
      have hmerges := mergeUniqueGeneric_merges (v := ⟨t.seq, capacity⟩) a lib
        (Access.moving moves) ht.sorted hs'
      have hd := lib.inplaceSetUniqueDifference_unique t.valueComp source.seq t.seq hs' ht.sorted
      have hiff := conserves_of_difference moves (List.Perm.refl source.seq) hd hmerges.1
      cases hseq : source.seq.isEmpty with
      | false =>
        simp only [if_true, flatTreeMergeUnique_of_ne a lib hseq]
        exact hiff
      | true =>
        have hnil := List.isEmpty_iff.mp hseq
        rw [hnil]
        exact ⟨fun _ x hx => absurd hx List.not_mem_nil, fun _ =>
          ⟨⟨[], Distributes.nil, (List.append_nil t.seq).symm ▸ List.Perm.refl _⟩,
            List.Forall₂.nil⟩⟩

/-- **The containers of equal keys lose nothing.** -/
theorem mergeEqual_conserves (a : Allocation) (lib : Movelib α) (moves : α → α)
    (sameCompare hasMember : Bool) (capacity : ℕ) {t source : FlatTree κ α}
    (ht : t.Sorted) (hs : source.Sorted)
    (hsame : sameCompare = true → source.valueComp = t.valueComp) :
    Conserves t.seq source.seq
      (mergeEqual a lib moves sameCompare hasMember capacity t source).1.seq
      (mergeEqual a lib moves sameCompare hasMember capacity t source).2.seq := by
  have hmap := (Distributes.map moves source.seq).mono
    (fun _ _ _ => trivial : ∀ x left, left = moves x → True)
  have hempty : source.seq.isEmpty = true → Conserves t.seq source.seq t.seq source.seq := by
    intro hseq
    rw [List.isEmpty_iff.mp hseq]
    exact ⟨[], Distributes.nil, (List.append_nil t.seq).symm ▸ List.Perm.refl _⟩
  cases sameCompare with
  | false =>
    show Conserves t.seq source.seq
      (insertEqualRange a lib t.valueComp (Access.moving moves) ⟨t.seq, capacity⟩
        source.seq).1.elements
      (insertEqualRange a lib t.valueComp (Access.moving moves) ⟨t.seq, capacity⟩ source.seq).2
    cases hseq : source.seq.isEmpty with
    | true =>
      have heq : insertEqualRange a lib t.valueComp (Access.moving moves) ⟨t.seq, capacity⟩
          source.seq = (⟨t.seq, capacity⟩, source.seq) := if_pos hseq
      rw [heq]
      exact hempty hseq
    | false =>
      have hadds := insertEqualRange_adds (v := ⟨t.seq, capacity⟩) (c := t.valueComp) a lib
        (Access.moving moves) ht hseq
      rw [hadds.2]
      exact ⟨source.seq, hmap, hadds.1⟩
  | true =>
    have hs' : t.valueComp.Sorted source.seq := hsame rfl ▸ hs
    show Conserves t.seq source.seq
      (flatTreeMergeEqual a lib t.valueComp (Access.moving moves) hasMember
        ⟨t.seq, capacity⟩ source.seq).1.elements
      (flatTreeMergeEqual a lib t.valueComp (Access.moving moves) hasMember
        ⟨t.seq, capacity⟩ source.seq).2
    cases hasMember with
    | true =>
      exact ⟨source.seq, merge_distributes a lib t.valueComp (Access.moving moves) true
        ⟨t.seq, capacity⟩ source.seq,
        (merge_stable (v := ⟨t.seq, capacity⟩) a lib (Access.moving moves) true ht hs').perm⟩
    | false =>
      cases hseq : source.seq.isEmpty with
      | true =>
        rw [flatTreeMergeEqual_of_empty a lib hseq]
        exact hempty hseq
      | false =>
        rw [flatTreeMergeEqual_of_ne a lib hseq]
        exact ⟨source.seq, hmap, (mergeFrom_append lib t.valueComp _ ht hs').perm⟩

/-- **`merge_unique` does the same either way, and keeps keys unique, exactly for a range
without equivalents.** -/
theorem mergeUnique_agrees_iff (a : Allocation) (lib : Movelib α) (access : Access α)
    (moves : α → α) (capacity : ℕ) (hv : c.StrictlySorted v.elements) (hi : c.Sorted input)
    (t source : FlatTree κ α) (ht : t.SortedUnique) (hs : source.Sorted)
    (hsame : source.valueComp = t.valueComp) :
    (((Vector.mergeUnique a lib c access v input).1.elements
            = (Vector.mergeUniqueGeneric a lib c access v input).1.elements
          ∧ c.UniqueUnion v.elements input (Vector.mergeUnique a lib c access v input).1.elements)
        ↔ c.StrictlySorted input)
      ∧ ((merge a lib moves true true true capacity t source).1.SortedUnique
        ↔ source.SortedUnique) := by
  have hgeneric := mergeUniqueGeneric_union a lib access hv hi
  have hforward := mergeUnique_union_iff a lib access hv hi
  refine ⟨⟨fun h => hforward.mp h.2, fun h => ?_⟩, ?_⟩
  · have hunion := hforward.mpr h
    exact ⟨hunion.unique hgeneric, hunion⟩
  · have hs' : t.valueComp.Sorted source.seq := hsame ▸ hs
    have hiff := mergeUnique_strictlySorted_iff (v := ⟨t.seq, capacity⟩) a lib
      (Access.moving moves) ht hs'
    show t.valueComp.StrictlySorted _ ↔ source.valueComp.StrictlySorted source.seq
    rw [hsame]
    exact hiff

/-- Two ranges that alternate. -/
theorem mergeUnique_agrees_iff_alternating :
    (Vector.mergeUnique Allocation.exact (Movelib.reference ℕ) (Compare.stdLess ℕ)
        (Access.ordinary id) ⟨[1, 3], 2⟩ [2, 4]).1.elements
      = (Vector.mergeUniqueGeneric Allocation.exact (Movelib.reference ℕ) (Compare.stdLess ℕ)
        (Access.ordinary id) ⟨[1, 3], 2⟩ [2, 4]).1.elements := by
  have hv : (Compare.stdLess ℕ).StrictlySorted [1, 3] := by decide
  have hi : (Compare.stdLess ℕ).StrictlySorted [2, 4] := by decide
  let t : FlatTree ℕ ℕ := ⟨Compare.stdLess ℕ, id, [1, 3]⟩
  exact ((mergeUnique_agrees_iff (v := ⟨[1, 3], 2⟩) Allocation.exact (Movelib.reference ℕ)
    (Access.ordinary id) id 2 hv hi.sorted t t hv hv.sorted rfl).1.mpr hi).1

/-- **A second equivalent is added**, where the vector has one already. -/
theorem mergeUnique_adds_equivalent :
    let merged := Vector.mergeUnique Allocation.exact (Movelib.reference ℕ) (Compare.stdLess ℕ)
      (Access.ordinary id) ⟨[1], 1⟩ [1, 1]
    (Compare.stdLess ℕ).StrictlySorted [1] ∧ (Compare.stdLess ℕ).Sorted [1, 1]
      ∧ ¬ (Compare.stdLess ℕ).UniqueUnion [1] [1, 1] merged.1.elements := by
  intro merged
  have hv : (Compare.stdLess ℕ).StrictlySorted [1] := by decide
  have hi : (Compare.stdLess ℕ).Sorted [1, 1] := by decide
  refine ⟨hv, hi, fun h => ?_⟩
  have hstrict := (mergeUnique_union_iff (v := ⟨[1], 1⟩) Allocation.exact (Movelib.reference ℕ)
    (Access.ordinary id) hv hi).mp h
  exact absurd hstrict (by decide)

end FlatTree
