import BoostContainer.Detail.CopyMoveShift

/-!
# Insertion while all elements of a buffer are shifted

`expand_backward_forward_and_insert_alloc` takes a buffer with elements to the
same elements, and new ones among them, at another place of the buffer. It is
right on every path but for one shift: towards the front, before all elements,
by as many slots as there are new elements. The elements then stay where they
are, which the code sees where they have to be destroyed, but not where
destructors do nothing: there it constructs each of them from itself.
-/

namespace Slots

variable {κ : Type} {α : Type*} {e : Env α} {trivialDctrAfterMove : Bool}
  {s₀ : State κ α} {S₀ own : Set ℕ} {k : κ} {c : Cells α} {E : State κ α → Prop}
  {os ns sz eb p : ℕ} {srcs : List (Source α)} {pre vs suf xs : List α}

/-! ## What the slots hold -/

/-- What the slots hold after an insertion. -/
def insertedCells (e : Env α) (os ns sz eb : ℕ) (srcs : List (Source α)) (c : Cells α) : Cells α :=
  if ns < os then
    if os - ns < srcs.length then spreadCells e os ns sz eb srcs c
    else shiftedCells e os ns sz eb srcs c
  else if sz - eb ≤ ns - os then beyondCells e os ns sz eb srcs c
  else withinCells e os ns sz eb srcs c

/-- **What the new elements are**, read when the insertion reads them: after the elements
before the position were moved, or those after it, or both, or none. -/
def ReadsInserted (e : Env α) (os ns sz eb : ℕ) (srcs : List (Source α)) (vs : List α)
    (c : Cells α) : Prop :=
  if ns < os then
    Reads (moveCells e os ns eb c) (srcs.take (os - ns)) (vs.take (os - ns))
      ∧ Reads (moveCells e (os + eb) (os + eb + (srcs.length - (os - ns))) (sz - eb)
          (fillCells (ns + eb) (srcs.take (os - ns)) (moveCells e os ns eb c)))
        (srcs.drop (os - ns)) (vs.drop (os - ns))
  else if sz - eb ≤ ns - os then Reads c srcs vs
  else Reads (moveCells e (os + eb) (ns + eb + srcs.length) (sz - eb) c) srcs vs

/-- What is outside the slots is read at any time. -/
theorem readsInserted_of_external (hext : ∀ src ∈ srcs, src.External) (h : Reads c srcs vs) :
    ReadsInserted e os ns sz eb srcs vs c := by
  unfold ReadsInserted
  split
  · exact ⟨(h.take _).of_external (fun src hsrc => hext src (List.mem_of_mem_take hsrc)) _,
      (h.drop _).of_external (fun src hsrc => hext src (List.mem_of_mem_drop hsrc)) _⟩
  · split
    · exact h
    · exact h.of_external hext _

/-- Three lists that follow one another. -/
theorem at_append_three (hpre : At c p pre) (hvs : At c (p + pre.length) vs)
    (hsuf : At c (p + pre.length + vs.length) suf) : At c p (pre ++ vs ++ suf) := by
  refine at_append.mpr ⟨at_append.mpr ⟨hpre, hvs⟩, ?_⟩
  rw [List.length_append, ← Nat.add_assoc]
  exact hsuf

section Lists

variable (hc : At c os (pre ++ suf))

include hc

theorem at_shiftedCells (hns : ns < os) (hn : srcs.length ≤ os - ns)
    (hr : Reads (moveCells e os ns pre.length c) srcs vs) :
    At (shiftedCells e os ns (pre ++ suf).length pre.length srcs c) ns (pre ++ vs ++ suf) := by
  obtain ⟨hpre, hsuf⟩ := at_append.mp hc
  have hlen := hr.length_eq
  have hcount : (pre ++ suf).length - pre.length = suf.length := by
    rw [List.length_append, Nat.add_sub_cancel_left]
  unfold shiftedCells
  rw [hcount]
  refine at_append_three ?_ ?_ ?_
  · exact ((hpre.moved rfl).fillCells_of_disjoint (by omega)).moveCells_of_disjoint (by omega)
      (by omega)
  · exact hr.at_fillCells.moveCells_of_disjoint (by omega) (by omega)
  · rw [← hlen]
    exact ((hsuf.moveCells_of_disjoint (by omega) (by omega)).fillCells_of_disjoint
      (by omega)).moved rfl

theorem at_spreadCells (hns : ns < os) (hn : os - ns < srcs.length)
    (hr : Reads (moveCells e os ns pre.length c) (srcs.take (os - ns)) (vs.take (os - ns)))
    (hr' : Reads (moveCells e (os + pre.length) (os + pre.length + (srcs.length - (os - ns)))
        suf.length (fillCells (ns + pre.length) (srcs.take (os - ns))
          (moveCells e os ns pre.length c))) (srcs.drop (os - ns)) (vs.drop (os - ns))) :
    At (spreadCells e os ns (pre ++ suf).length pre.length srcs c) ns (pre ++ vs ++ suf) := by
  obtain ⟨hpre, hsuf⟩ := at_append.mp hc
  have htake : (srcs.take (os - ns)).length = os - ns := List.length_take_of_le hn.le
  have hdrop : (srcs.drop (os - ns)).length = srcs.length - (os - ns) := List.length_drop
  have hlen := hr.length_eq
  have hlen' := hr'.length_eq
  have hall : vs.length = srcs.length := by
    simp only [List.length_take, List.length_drop] at hlen hlen'
    omega
  have hcount : (pre ++ suf).length - pre.length = suf.length := by
    rw [List.length_append, Nat.add_sub_cancel_left]
  unfold spreadCells openedCells
  rw [hcount, hdrop]
  refine at_append_three ?_ ?_ ?_
  · exact (((hpre.moved rfl).fillCells_of_disjoint (by omega)).moveCells_of_disjoint (by omega)
      (by omega)).fillCells_of_disjoint (by omega)
  · rw [← List.take_append_drop (os - ns) vs]
    refine at_append.mpr ⟨?_, ?_⟩
    · exact (hr.at_fillCells.moveCells_of_disjoint (by omega) (by omega)).fillCells_of_disjoint
        (by omega)
    · have hpos : ns + pre.length + (vs.take (os - ns)).length = os + pre.length := by omega
      rw [hpos]
      exact hr'.at_fillCells
  · have hpos : ns + pre.length + vs.length
        = os + pre.length + (srcs.length - (os - ns)) := by omega
    rw [hpos]
    exact (((hsuf.moveCells_of_disjoint (by omega) (by omega)).fillCells_of_disjoint
      (by omega)).moved rfl).fillCells_of_disjoint (by omega)

theorem at_beyondCells (hns : os ≤ ns) (hn : suf.length ≤ ns - os) (hr : Reads c srcs vs) :
    At (beyondCells e os ns (pre ++ suf).length pre.length srcs c) ns (pre ++ vs ++ suf) := by
  obtain ⟨hpre, hsuf⟩ := at_append.mp hc
  have hlen := hr.length_eq
  have hcount : (pre ++ suf).length - pre.length = suf.length := by
    rw [List.length_append, Nat.add_sub_cancel_left]
  unfold beyondCells
  rw [hcount]
  refine at_append_three ?_ ?_ ?_
  · exact ((hpre.fillCells_of_disjoint (by omega)).moveCells_of_disjoint (by omega)
      (by omega)).moved rfl
  · exact (hr.at_fillCells.moveCells_of_disjoint (by omega) (by omega)).moveCells_of_disjoint
      (by omega) (by omega)
  · rw [← hlen]
    exact ((hsuf.fillCells_of_disjoint (by omega)).moved rfl).moveCells_of_disjoint (by omega)
      (by omega)

theorem at_withinCells (hns : os ≤ ns)
    (hr : Reads (moveCells e (os + pre.length) (ns + pre.length + srcs.length) suf.length c)
      srcs vs) :
    At (withinCells e os ns (pre ++ suf).length pre.length srcs c) ns (pre ++ vs ++ suf) := by
  obtain ⟨hpre, hsuf⟩ := at_append.mp hc
  have hlen := hr.length_eq
  have hcount : (pre ++ suf).length - pre.length = suf.length := by
    rw [List.length_append, Nat.add_sub_cancel_left]
  unfold withinCells
  rw [hcount]
  refine at_append_three ?_ ?_ ?_
  · exact ((hpre.moveCells_of_disjoint (by omega) (by omega)).fillCells_of_disjoint
      (by omega)).moved rfl
  · exact hr.at_fillCells.moveCells_of_disjoint (by omega) (by omega)
  · rw [← hlen]
    exact ((hsuf.moved rfl).fillCells_of_disjoint (by omega)).moveCells_of_disjoint (by omega)
      (by omega)

/-- **The elements before the position, the new ones, and the others** follow one
another, wherever they were read. -/
theorem at_insertedCells
    (hr : ReadsInserted e os ns (pre ++ suf).length pre.length srcs vs c) :
    At (insertedCells e os ns (pre ++ suf).length pre.length srcs c) ns (pre ++ vs ++ suf) := by
  have hcount : (pre ++ suf).length - pre.length = suf.length := by
    rw [List.length_append, Nat.add_sub_cancel_left]
  unfold ReadsInserted at hr
  unfold insertedCells
  rw [hcount] at hr ⊢
  by_cases hns : ns < os
  · rw [if_pos hns] at hr ⊢
    by_cases hn : os - ns < srcs.length
    · rw [if_pos hn]
      exact at_spreadCells hc hns hn hr.1 hr.2
    · have hlen := hr.2.length_eq
      have hlen' := hr.1.length_eq
      simp only [List.length_take, List.length_drop] at hlen hlen'
      have hr₁ := hr.1
      rw [List.take_of_length_le (by omega), List.take_of_length_le (by omega)] at hr₁
      rw [if_neg hn]
      exact at_shiftedCells hc hns (by omega) hr₁
  · rw [if_neg hns] at hr ⊢
    by_cases hn : suf.length ≤ ns - os
    · rw [if_pos hn] at hr ⊢
      exact at_beyondCells hc (by omega) hn hr
    · rw [if_neg hn] at hr ⊢
      exact at_withinCells hc (by omega) hr

end Lists

/-! ## Every shift -/

section Shift

variable (hold : Set.Ico (min os ns) (max (os + sz) (ns + (sz + srcs.length))) ⊆ own)
  (hs : Steady srcs) (hr : ∀ src ∈ srcs, src.Readable (Set.Ico os (os + sz)))

include hold hs hr

/-- **The elements are shifted and the new ones inserted**, unless elements without
destructors are left where they are. -/
theorem expandBackwardForward_holds (heb : eb ≤ sz)
    (hne : e.trivialDestructor = true → ns < os → ns + srcs.length = os → eb = 0 → sz = 0) :
    Ensures e (Holds e.trivialDestructor s₀ S₀ k own (Set.Ico os (os + sz)) c)
      (expandBackwardForwardAndInsertAlloc e trivialDctrAfterMove os sz ns (os + eb) srcs)
      (fun _ => HoldsOn e.trivialDestructor s₀ S₀ k own
        (Set.Ico ns (ns + (sz + srcs.length))) (insertedCells e os ns sz eb srcs c)) E := by
  unfold expandBackwardForwardAndInsertAlloc insertedCells
  by_cases hns : ns < os
  · have hold' : Set.Ico ns (os + sz) ⊆ own :=
      (Set.Ico_subset_Ico (by omega) (le_max_left _ _)).trans hold
    rw [if_pos hns, if_pos hns]
    by_cases hn : os - ns < srcs.length
    · rw [if_pos hn]
      exact expandMoveBackward_spread hns heb hn
        ((Set.Ico_subset_Ico (by omega) (by omega)).trans hold) hs hr
    · rw [if_neg hn]
      by_cases hfar : sz + srcs.length ≤ os - ns
      · exact expandMoveBackward_far hns heb hold' hs hr hfar
      · by_cases hnear : eb + srcs.length ≤ os - ns
        · exact expandMoveBackward_apart hns heb hold' hs hr hnear (by omega) (fun ht => by
            have := hne ht hns
            omega)
        · exact expandMoveBackward_near hns heb hold' hs hr (by omega) (by omega)
  · have hold' : Set.Ico os (ns + (sz + srcs.length)) ⊆ own :=
      (Set.Ico_subset_Ico (by omega) (le_max_right _ _)).trans hold
    rw [if_neg hns, if_neg hns]
    by_cases hn : sz - eb ≤ ns - os
    · rw [if_pos hn]
      exact expandMoveForward_beyond (by omega) heb hold' hs hr hn
    · rw [if_neg hn]
      exact expandMoveForward_within (by omega) heb hold' hs hr (by omega)

/-- **Elements that are left where they are** are constructed from themselves. -/
theorem expandMoveBackward_inPlace (ht : e.trivialDestructor = true) (hns : ns < os)
    (h : ns + srcs.length = os) (hsz : 0 < sz) :
    Ensures e (Holds e.trivialDestructor s₀ S₀ k own (Set.Ico os (os + sz)) c)
      (expandBackwardForwardAndInsertAlloc e trivialDctrAfterMove os sz ns os srcs)
      (fun _ => Holds e.trivialDestructor s₀ S₀ k own
        (Set.Ico ns (ns + (sz + srcs.length))) (spendCells e os sz (fillCells ns srcs c))) E := by
  have hraw : os - ns = srcs.length := by omega
  unfold expandBackwardForwardAndInsertAlloc expandMoveBackward
  dsimp only
  rw [if_pos hns, Nat.sub_self, hraw, Nat.zero_add, if_pos le_rfl, if_neg (by omega),
    if_neg (by rw [ht]; exact Bool.false_ne_true), Nat.add_sub_cancel_left, h]
  refine Ensures.bind (R := fun _ => Holds e.trivialDestructor s₀ S₀ k own
    (Set.Ico os (os + sz)) c) (ensures_pure (fun _ => id)) (fun _ => ?_)
  refine Ensures.bind (Ensures.onThrow (holds_uninitializedFill
    ((Set.Ico_subset_Ico (by omega) (by omega)).trans hold)
    (Set.disjoint_left.mpr (fun q hq hq' => ?_)) hs hr)) (fun _ => ?_)
  · rw [Set.mem_Ico] at hq hq'
    omega
  · refine Ensures.onThrow ((holds_uninitializedMove_self ht
      ((Set.Ico_subset_Ico (by omega) (by omega)).trans hold) Set.subset_union_left).post
        (fun _ s hs => hs.congr ?_))
    ext q
    simp only [Set.mem_union, Set.mem_Ico]
    omega

end Shift

/-! ## The lists that stand in a buffer -/

/-- **A list stands in a buffer**, whose slots are `own`, and no other element does. Since a
state `s₀` nothing but the buffer was touched, and its ledger was kept. -/
structure Stands (t : Bool) (own : Set ℕ) (s₀ : State κ α) (p : ℕ) (xs : List α)
    (s : State κ α) : Prop where
  owns : Owns t s₀ own s₀.object own (Set.Ico p (p + xs.length)) s
  list : At (cells s.heap) p xs

theorem HoldsOn.stands {s : State κ α} {n : ℕ}
    (h : HoldsOn e.trivialDestructor s₀ own s₀.object own (Set.Ico p (p + n)) c s)
    (hn : n = xs.length) (hx : At c p xs) : Stands e.trivialDestructor own s₀ p xs s := by
  subst hn
  exact ⟨h.choose_spec.1.owns, h.at hx subset_rfl⟩

/-- The condition under which elements are constructed from themselves. -/
def InPlace (e : Env α) (os ns : ℕ) (pre : List α) (srcs : List (Source α)) : Prop :=
  e.trivialDestructor = true ∧ pre = [] ∧ ns < os ∧ ns + srcs.length = os

instance (e : Env α) (os ns : ℕ) (pre : List α) (srcs : List (Source α)) [DecidableEq α] :
    Decidable (InPlace e os ns pre srcs) :=
  inferInstanceAs (Decidable (_ ∧ _ ∧ _ ∧ _))

/-- A list whose elements were left as a move leaves them is as before if moves change
nothing. -/
theorem at_spendCells_iff (h : At c p xs) :
    At (spendCells e p xs.length c) p xs ↔ ∀ x ∈ xs, e.moved x = x := by
  have hspent : ∀ (j : ℕ) (hj : j < xs.length),
      spendCells e p xs.length c (p + j) = some (e.moved xs[j]) := by
    intro j hj
    rw [spendCells, if_pos (by omega), h j hj, List.getElem?_eq_getElem hj, Option.map_some]
  constructor
  · intro hx x hmem
    obtain ⟨j, hj, rfl⟩ := List.mem_iff_getElem.mp hmem
    have heq := (hspent j hj).symm.trans (hx j hj)
    rwa [List.getElem?_eq_getElem hj, Option.some_inj] at heq
  · intro hx j hj
    rw [hspent j hj, hx _ (List.getElem_mem hj), List.getElem?_eq_getElem hj]

/-- A buffer of slots below `size` where a list stands from `p` on. -/
def bufferOf (size p : ℕ) (xs : List α) : State Unit α :=
  State.start (fun q => if q < size then some ⟨0, if p ≤ q then xs[q - p]? else none⟩ else none) ()

theorem stands_bufferOf {size : ℕ} (t : Bool) (h : p + xs.length ≤ size) :
    Stands t (Set.Iio size) (bufferOf size p xs) p xs (bufferOf size p xs) := by
  have hheap : ∀ q < size, (bufferOf size p xs).heap q
      = some ⟨0, if p ≤ q then xs[q - p]? else none⟩ := fun q hq => if_pos hq
  refine ⟨⟨rfl, Heap.Exchange.refl _ _, fun q hq => hq.2.trans_le h, fun q hq => ?_,
    fun q hq => ?_, fun _ q hq hl => ?_, fun _ _ => rfl⟩, fun j hj => ?_⟩
  · rw [hheap q hq]
    exact Option.some_ne_none _
  · obtain ⟨hq₁, hq₂⟩ := hq
    rw [shape, hheap q (by omega), if_pos hq₁, List.getElem?_eq_getElem (by omega)]
    rfl
  · rw [Set.mem_Ico, not_and_or, not_le, not_lt] at hl
    rw [shape, hheap q hq]
    rcases hl with hl | hl
    · rw [if_neg (by omega)]
      rfl
    · rw [if_pos (by omega), List.getElem?_eq_none (by omega)]
      rfl
  · show ((bufferOf size p xs).heap (p + j)).bind Slot.element = _
    rw [hheap _ (by omega), if_pos (Nat.le_add_right _ _), Nat.add_sub_cancel_left]
    rfl

section Shifted

variable {s : State κ α}
  (hold : Set.Ico (min os ns) (max (os + (pre ++ suf).length)
    (ns + ((pre ++ suf).length + srcs.length))) ⊆ own)
  (hb : Stands e.trivialDestructor own s os (pre ++ suf) s)
  (hext : ∀ src ∈ srcs, src.External) (hr : Reads (cells s.heap) srcs vs)

include hold hb hext hr

/-- What is inserted, where no elements are constructed from themselves. -/
theorem expandBackwardForward_stands (he : e.fuse = none)
    (hne : InPlace e os ns pre srcs → suf = []) :
    (expandBackwardForwardAndInsertAlloc e trivialDctrAfterMove os (pre ++ suf).length ns
      (os + pre.length) srcs s).Meets
      (fun _ => Stands e.trivialDestructor own s ns (pre ++ vs ++ suf)) (fun _ => False) := by
  have hlen := hr.length_eq
  have hnew : (pre ++ suf).length + srcs.length = (pre ++ vs ++ suf).length := by
    simp only [List.length_append, hlen]
    omega
  refine ((expandBackwardForward_holds hold (Or.inl hext) (fun src hsrc => (hext src hsrc).readable)
    (by rw [List.length_append]; omega) (fun ht hns heq hpre => ?_) s ⟨hb.owns, rfl⟩).2 he).imp
      (fun _ t h => ?_) (fun _ => id)
  · have hnil := List.length_eq_zero_iff.mp hpre
    rw [hne ⟨ht, hnil, hns, heq⟩, List.append_nil, hnil, List.length_nil]
  · exact h.stands hnew (at_insertedCells hb.list (readsInserted_of_external hext hr))

/-- What is inserted, where elements are constructed from themselves. -/
theorem expandBackwardForward_inPlace_iff (he : e.fuse = none) (hin : InPlace e os ns pre srcs)
    (hsuf : suf ≠ []) :
    (expandBackwardForwardAndInsertAlloc e trivialDctrAfterMove os (pre ++ suf).length ns
      (os + pre.length) srcs s).Meets
      (fun _ => Stands e.trivialDestructor own s ns (pre ++ vs ++ suf)) (fun _ => False)
    ↔ ∀ x ∈ suf, e.moved x = x := by
  obtain ⟨ht, rfl, hns, heq⟩ := hin
  have hlen := hr.length_eq
  rw [List.nil_append] at hb hold ⊢
  have hnew : ns + (vs ++ suf).length = ns + (suf.length + srcs.length) := by
    rw [List.length_append, hlen]
    omega
  have hpos : ns + vs.length = os := by omega
  have hrun := (@expandMoveBackward_inPlace κ α e trivialDctrAfterMove s own own s.object
    (cells s.heap) (fun _ => False) os ns suf.length srcs hold (Or.inl hext)
    (fun src hsrc => (hext src hsrc).readable) ht hns heq (List.length_pos_of_ne_nil hsuf) s
    ⟨hb.owns, rfl⟩).2 he
  have hlist : At (fillCells ns srcs (cells s.heap)) os suf :=
    hb.list.fillCells_of_disjoint (by omega)
  have hvs : At (spendCells e os suf.length (fillCells ns srcs (cells s.heap))) ns vs :=
    hr.at_fillCells.congr (fun q _ _ => if_neg (by omega))
  constructor
  · intro h
    rw [← at_spendCells_iff hlist]
    refine ((hrun.and_permits h.permits).imp (fun _ t ht => ?_) (fun _ hf => hf.1.elim)).const
    have hlist' := (at_append.mp ht.2.list).2
    rw [ht.1.cells_eq, hpos] at hlist'
    exact hlist'
  · intro hx
    refine hrun.imp (fun _ t h => ⟨?_, ?_⟩) (fun _ => id)
    · rw [hnew]
      exact h.owns
    · rw [h.cells_eq]
      exact at_append.mpr ⟨hvs, hpos ▸ (at_spendCells_iff hlist).mpr hx⟩

/-- **`expand_backward_forward_and_insert_alloc` inserts** at any position, for any shift of
the elements, exactly if it does not construct elements from themselves, or if that leaves
them as they were. -/
theorem expand_inserts_iff (he : e.fuse = none) :
    (expandBackwardForwardAndInsertAlloc e trivialDctrAfterMove os (pre ++ suf).length ns
      (os + pre.length) srcs s).Meets
      (fun _ => Stands e.trivialDestructor own s ns (pre ++ vs ++ suf)) (fun _ => False)
    ↔ ¬ InPlace e os ns pre srcs ∨ ∀ x ∈ suf, e.moved x = x := by
  by_cases hin : InPlace e os ns pre srcs
  · by_cases hsuf : suf = []
    · subst hsuf
      exact iff_of_true (expandBackwardForward_stands hold hb hext hr he (fun _ => rfl))
        (Or.inr (fun x hx => absurd hx List.not_mem_nil))
    · rw [expandBackwardForward_inPlace_iff hold hb hext hr he hin hsuf]
      exact ⟨Or.inr, fun h => h.resolve_left (not_not_intro hin)⟩
  · exact iff_of_true (expandBackwardForward_stands hold hb hext hr he (fun h => absurd h hin))
      (Or.inl hin)

end Shifted

/-- Elements without destructors that a move empties, and calls that do not throw. -/
def emptying : Env ℕ where
  fuse := none
  refusal := none
  address _ _ := none
  moved _ := 0
  trivialDestructor := true

theorem expand_inserts_iff_bufferOf :
    (expandBackwardForwardAndInsertAlloc emptying false 2 3 1 3
      [.value 8, .temporary 9] (bufferOf 6 2 [5, 6, 7])).Meets
      (fun _ => Stands true (Set.Iio 6) (bufferOf 6 2 [5, 6, 7]) 1 [5, 8, 9, 6, 7])
      (fun _ => False)
    ↔ ¬ InPlace emptying 2 1 [5] [.value 8, .temporary 9] ∨ ∀ x ∈ [6, 7], emptying.moved x = x := by
  have hsrc : ∀ src ∈ [(Source.value 8 : Source ℕ), .temporary 9], src.External := by
    intro src hsrc
    rcases List.mem_cons.mp hsrc with rfl | hsrc
    · trivial
    · rw [List.mem_singleton.mp hsrc]
      trivial
  exact @expand_inserts_iff Unit ℕ emptying false (Set.Iio 6) 2 1 [.value 8, .temporary 9] [5]
    [8, 9] [6, 7] (bufferOf 6 2 [5, 6, 7]) (fun q hq => hq.2.trans_le (by decide))
    (stands_bufferOf true (by decide)) hsrc rfl rfl

/-- One element is inserted before one, into the only slot there is. The other element is
constructed from itself. -/
theorem expand_empties :
    ¬ (expandBackwardForwardAndInsertAlloc emptying false 1 1 0 1 [.value 7]
      (bufferOf 2 1 [5])).Meets
      (fun _ => Stands true (Set.Iio 2) (bufferOf 2 1 [5]) 0 [7, 5]) (fun _ => False) := by
  have hsrc : ∀ src ∈ [(Source.value 7 : Source ℕ)], src.External := by
    intro src hsrc
    rw [List.mem_singleton.mp hsrc]
    trivial
  have hiff := @expandBackwardForward_inPlace_iff Unit ℕ emptying false (Set.Iio 2) 1 0
    [.value 7] [] [7] [5] (bufferOf 2 1 [5]) (fun q hq => hq.2.trans_le (by decide))
    (stands_bufferOf true (by decide)) hsrc rfl rfl ⟨rfl, rfl, by decide, rfl⟩
    (List.cons_ne_nil _ _)
  intro h
  exact absurd (hiff.mp h 5 List.mem_cons_self) (by decide)

end Slots
