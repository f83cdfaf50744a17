import BoostContainer.Detail.CopyMoveInsert

/-!
# Insertion at one end, and in a new buffer

Where the memory next to the elements is raw, only the elements on one side of
the position are moved. The code has each algorithm twice, for one element and
for a number of them. In a new buffer all elements are moved, before the new
ones and after them.
-/

namespace Slots

variable {κ : Type} {α : Type*} {e : Env α} {s₀ : State κ α} {S₀ own live : Set ℕ} {k : κ}
  {c : Cells α} {E : State κ α → Prop} {os ns sz eb f n p r a pos last : ℕ} {src : Source α}
  {srcs : List (Source α)} {pre vs suf : List α}

/-! ## One element -/

theorem holds_construct (hp : p ∈ own) (hl : p ∉ live) (hsrc : src.Readable live) :
    Ensures e (Holds e.trivialDestructor s₀ S₀ k own live c) (construct e p src)
      (fun _ => Holds e.trivialDestructor s₀ S₀ k own (insert p live)
        (src.spendIn e (Function.update c p (src.readIn c)))) E :=
  ensures_holds (construct_meets hp (Or.inr hl) hsrc) turns_construct takes_construct

/-- One element is moved to a raw slot. -/
theorem holds_constructMoved (hp : p ∈ own) (hl : p ∉ live) (hf : f ∈ live) :
    Ensures e (Holds e.trivialDestructor s₀ S₀ k own live c) (construct e p (.slot f))
      (fun _ => Holds e.trivialDestructor s₀ S₀ k own (insert p live) (moveCells e f p 1 c)) E := by
  have hne : p ≠ f := fun h => hl (h ▸ hf)
  rw [← moveCells_succ (n := 0) (by omega), moveCells_zero]
  exact holds_construct hp hl hf

/-- One element is constructed. -/
theorem holds_constructFill (hp : p ∈ own) (hl : p ∉ live) (hs : Steady [src])
    (hsrc : src.Readable live) :
    Ensures e (Holds e.trivialDestructor s₀ S₀ k own live c) (construct e p src)
      (fun _ => Holds e.trivialDestructor s₀ S₀ k own (insert p live) (fillCells p [src] c)) E := by
  have h := @holds_construct κ α e s₀ S₀ own live k c E p src hp hl hsrc
  rw [hs.spendIn_eq List.mem_cons_self] at h
  rw [← fillCells_succ hs, fillCells_nil]
  exact h

/-! ## At the end -/

theorem moveBackwardOverlapping_of_ne {l rl : ℕ} (h : l ≠ rl) :
    moveBackwardOverlapping e l n rl = (moveBackward e l rl n : Prog (State κ α) Unit) := if_pos h

section Forward

variable (hpos : a ≤ pos) (hlt : pos < last) (hold : Set.Ico a (last + srcs.length) ⊆ own)
  (hs : Steady srcs) (hr : ∀ src ∈ srcs, src.Readable (Set.Ico a last))

include hpos hlt hold hs hr

/-- **A range is inserted**, and the elements after it are moved towards the back. -/
theorem expandForwardAndInsertRange_holds (hn : srcs.length ≠ 0) :
    Ensures e (Holds e.trivialDestructor s₀ S₀ k own (Set.Ico a last) c)
      (expandForwardAndInsertRange e pos last srcs)
      (fun _ => Holds e.trivialDestructor s₀ S₀ k own (Set.Ico a (last + srcs.length))
        (openedCells e pos (last - pos) srcs c)) E := by
  unfold expandForwardAndInsertRange
  dsimp only
  refine Ensures.ite (fun hle => ?_) (fun hgt => ?_)
  · rw [← moveBackwardOverlapping_of_ne (by omega)]
    exact Ensures.bind (expandForward_last hold (by omega))
      (fun _ => expandForward_near hpos hlt.le hs hr hle)
  · exact Ensures.bind (expandForward_after hpos hlt.le hold (by omega))
      (fun _ => expandForward_far hpos hlt.le hold hs hr (by omega))

/-- **One element is inserted**, and the elements after it are moved towards the back. -/
theorem expandForwardAndInsertSingle_holds (h : srcs = [src]) :
    Ensures e (Holds e.trivialDestructor s₀ S₀ k own (Set.Ico a last) c)
      (expandForwardAndInsertSingle e pos last src)
      (fun _ => Holds e.trivialDestructor s₀ S₀ k own (Set.Ico a (last + srcs.length))
        (openedCells e pos (last - pos) srcs c)) E := by
  subst h
  unfold expandForwardAndInsertSingle
  rw [← moveBackwardOverlapping_of_ne (by omega)]
  refine Ensures.bind (R := fun _ => Holds e.trivialDestructor s₀ S₀ k own
    (Set.Ico a (last + [src].length)) (moveCells e (last - [src].length) last [src].length c))
    ((holds_constructMoved (hold ⟨by omega, by rw [List.length_singleton]; omega⟩)
      (fun h => absurd h.2 (lt_irrefl _))
      (show last - 1 ∈ Set.Ico a last from ⟨by omega, by omega⟩)).post
        (fun _ s hs => hs.congr ?_)) (fun _ => expandForward_near hpos hlt.le hs hr ?_)
  · ext q
    simp only [Set.mem_insert_iff, Set.mem_Ico, List.length_singleton]
    omega
  · rw [List.length_singleton]
    omega

end Forward

/-! ## At the start -/

/-- What the slots hold after an insertion, where the elements before the position were
moved, and then the new ones were filled in. -/
def drawnCells (e : Env α) (os ns eb : ℕ) (srcs : List (Source α)) (c : Cells α) : Cells α :=
  fillCells (ns + eb) srcs (moveCells e os ns eb c)

section Backward

variable (hfin : ns + srcs.length = os) (hpos : 0 < eb) (heb : eb ≤ sz) (hn : srcs.length ≠ 0)
  (hold : Set.Ico ns (os + sz) ⊆ own) (hs : Steady srcs)
  (hr : ∀ src ∈ srcs, src.Readable (Set.Ico os (os + sz)))

include hfin hpos heb hn hold hs hr

/-- **A range is inserted**, and the elements before it are moved towards the front. -/
theorem expandBackwardAndInsertRange_holds :
    Ensures e (Holds e.trivialDestructor s₀ S₀ k own (Set.Ico os (os + sz)) c)
      (expandBackwardAndInsertRange e os (os + eb) srcs)
      (fun _ => Holds e.trivialDestructor s₀ S₀ k own (Set.Ico ns (os + sz))
        (drawnCells e os ns eb srcs c)) E := by
  have hraw : srcs.length = os - ns := by omega
  have hstart : os - (os - ns) = ns := by omega
  unfold expandBackwardAndInsertRange drawnCells
  dsimp only
  rw [Nat.add_sub_cancel_left, hraw, hstart]
  refine Ensures.ite (fun hle => ?_) (fun hgt => ?_)
  · have hrest : os + eb - (os + (os - ns)) = eb - (os - ns) := by omega
    have hnext : os + (eb - (os - ns)) = ns + eb := by omega
    rw [hrest, hnext]
    exact Ensures.bind (expandBackward_first (by omega) (by omega) hold) (fun _ =>
      Ensures.bind (Ensures.onThrow (expandBackward_near (by omega) hle (by omega))) (fun _ =>
        Ensures.onThrow (holds_fill (Set.Ico_subset_Ico (by omega) (by omega)) hs
          (fun src hsrc => (hr src hsrc).mono (Set.Ico_subset_Ico (by omega) le_rfl)))))
  · have htake : (srcs.take (os - ns - eb)).length = os - ns - eb :=
      List.length_take_of_le (by omega)
    have hover := @expandMoveBackward_over κ α e s₀ S₀ own k c (fun _ => False) os ns sz eb srcs
      (by omega) heb hs hr eb (by omega) le_rfl (by omega)
    have hall : os - ns - eb + eb = srcs.length := by omega
    have hdrop : (srcs.drop (os - ns - eb)).take eb = srcs.drop (os - ns - eb) :=
      List.take_of_length_le (by rw [List.length_drop]; omega)
    rw [hall, List.take_length, hdrop] at hover
    exact Ensures.bind (expandBackward_before (by omega) (by omega) hold) (fun _ =>
      Ensures.bind (Ensures.onThrow (expandBackward_fill (by omega) hold (by omega) (hs.take _)
        (fun src hsrc => hr src (List.mem_of_mem_take hsrc)) subset_rfl)) (fun _ =>
          Ensures.onThrow hover))

/-- **One element is inserted**, and the elements before it are moved towards the front. -/
theorem expandBackwardAndInsertSingle_holds (h : srcs = [src]) :
    Ensures e (Holds e.trivialDestructor s₀ S₀ k own (Set.Ico os (os + sz)) c)
      (expandBackwardAndInsertSingle e os (os + eb) src)
      (fun _ => Holds e.trivialDestructor s₀ S₀ k own (Set.Ico ns (os + sz))
        (drawnCells e os ns eb srcs c)) E := by
  subst h
  rw [List.length_singleton] at hfin
  have hstart : os - 1 = ns := by omega
  have hone : os - ns = 1 := by omega
  have hrest : os + eb - (os + 1) = eb - (os - ns) := by omega
  have hnext : os + (eb - (os - ns)) = ns + eb := by omega
  have hnear := @expandBackward_near κ α e s₀ S₀ own k c (fun _ => False) os ns eb (os + sz)
    (by omega) (by omega) (by omega)
  unfold expandBackwardAndInsertSingle drawnCells
  dsimp only
  rw [hstart, hrest, hnext]
  rw [hone] at hnear ⊢
  refine Ensures.bind (R := fun _ => Holds e.trivialDestructor s₀ S₀ k own
    (Set.Ico ns (os + sz)) (moveCells e os ns 1 c))
    ((holds_constructMoved (hold ⟨le_rfl, by omega⟩) (fun h => absurd h.1 (by omega))
      (show os ∈ Set.Ico os (os + sz) from ⟨le_rfl, by omega⟩)).post
        (fun _ s hs => hs.congr ?_)) (fun _ => ?_)
  · ext q
    simp only [Set.mem_insert_iff, Set.mem_Ico]
    omega
  · exact Ensures.bind (Ensures.onThrow hnear) (fun _ =>
      Ensures.onThrow (holds_fill (Set.Ico_subset_Ico (by omega)
        (by rw [List.length_singleton]; omega)) hs
        (fun src hsrc => (hr src hsrc).mono (Set.Ico_subset_Ico (by omega) le_rfl))))

end Backward

/-! ## In a new buffer -/

/-- **All elements are moved to a new buffer**, with the new ones among them. -/
theorem uninitializedMoveAndInsertAlloc_holds (heb : eb ≤ sz)
    (hnew : Set.Ico ns (ns + (sz + srcs.length)) ⊆ own)
    (hd : Disjoint (Set.Ico os (os + sz)) (Set.Ico ns (ns + (sz + srcs.length))))
    (hs : Steady srcs) (hr : ∀ src ∈ srcs, src.Readable (Set.Ico os (os + sz))) :
    Ensures e (Holds e.trivialDestructor s₀ S₀ k own (Set.Ico os (os + sz)) c)
      (uninitializedMoveAndInsertAlloc e os (os + eb) (os + sz) ns srcs)
      (fun _ => Holds e.trivialDestructor s₀ S₀ k own
        (Set.Ico os (os + sz) ∪ Set.Ico ns (ns + (sz + srcs.length)))
        (shiftedCells e os ns sz eb srcs c)) E := by
  have hcount : os + sz - (os + eb) = sz - eb := by omega
  have hpart : ∀ {a b : ℕ}, ns ≤ a → b ≤ ns + (sz + srcs.length) → ∀ q ∈ Set.Ico a b,
      q ∈ own ∧ q ∉ Set.Ico os (os + sz) := by
    intro a b ha hb q hq
    have hmem : q ∈ Set.Ico ns (ns + (sz + srcs.length)) := ⟨ha.trans hq.1, hq.2.trans_le hb⟩
    exact ⟨hnew hmem, Set.disjoint_right.mp hd hmem⟩
  unfold uninitializedMoveAndInsertAlloc uninitializedMove
  dsimp only
  rw [Nat.add_sub_cancel_left, hcount]
  refine Ensures.bind (holds_uninitializedMove (fun q hq => (hpart le_rfl (by omega) q hq).1)
    (Set.disjoint_right.mpr (fun q hq => (hpart le_rfl (by omega) q hq).2))
    (Set.Ico_subset_Ico le_rfl (by omega))) (fun _ => ?_)
  refine Ensures.bind (Ensures.onThrow (holds_uninitializedFill
    (fun q hq => (hpart (by omega) (by omega) q hq).1)
    (Set.disjoint_right.mpr (fun q hq hq' => ?_)) hs
    (fun src hsrc => (hr src hsrc).mono Set.subset_union_left))) (fun _ => ?_)
  · rcases hq' with hq' | hq'
    · exact (hpart (by omega) (by omega) q hq).2 hq'
    · rw [Set.mem_Ico] at hq hq'
      omega
  refine Ensures.onThrow ((holds_uninitializedMove
    (fun q hq => (hpart (by omega) (by omega) q hq).1)
    (Set.disjoint_right.mpr (fun q hq hq' => ?_))
    (fun q hq => ?_)).post (fun _ s hs => hs.congr ?_))
  · rcases hq' with (hq' | hq') | hq'
    · exact (hpart (by omega) (by omega) q hq).2 hq'
    · rw [Set.mem_Ico] at hq hq'
      omega
    · rw [Set.mem_Ico] at hq hq'
      omega
  · simp only [Set.mem_union, Set.mem_Ico] at hq ⊢
    omega
  · ext q
    simp only [Set.mem_union, Set.mem_Ico]
    omega

/-! ## Where the lists are -/

section Lists

variable (hc : At c os (pre ++ suf))

include hc

theorem at_openedCells
    (hr : Reads (moveCells e (os + pre.length) (os + pre.length + srcs.length) suf.length c)
      srcs vs) :
    At (openedCells e (os + pre.length) suf.length srcs c) os (pre ++ vs ++ suf) := by
  obtain ⟨hpre, hsuf⟩ := at_append.mp hc
  have hlen := hr.length_eq
  unfold openedCells
  refine at_append_three ?_ hr.at_fillCells ?_
  · exact (hpre.moveCells_of_disjoint (by omega) (by omega)).fillCells_of_disjoint (by omega)
  · rw [← hlen]
    exact (hsuf.moved rfl).fillCells_of_disjoint (by omega)

theorem at_drawnCells (hfin : ns + srcs.length = os)
    (hr : Reads (moveCells e os ns pre.length c) srcs vs) :
    At (drawnCells e os ns pre.length srcs c) ns (pre ++ vs ++ suf) := by
  obtain ⟨hpre, hsuf⟩ := at_append.mp hc
  have hlen := hr.length_eq
  have hpos : ns + pre.length + vs.length = os + pre.length := by omega
  unfold drawnCells
  refine at_append_three ?_ hr.at_fillCells ?_
  · exact (hpre.moved rfl).fillCells_of_disjoint (by omega)
  · rw [hpos]
    exact (hsuf.moveCells_of_disjoint (by omega) (by omega)).fillCells_of_disjoint (by omega)

theorem at_shiftedCells_of_disjoint
    (hd : Disjoint (Set.Ico os (os + (pre ++ suf).length))
      (Set.Ico ns (ns + ((pre ++ suf).length + srcs.length))))
    (hr : Reads (moveCells e os ns pre.length c) srcs vs) :
    At (shiftedCells e os ns (pre ++ suf).length pre.length srcs c) ns (pre ++ vs ++ suf) := by
  obtain ⟨hpre, hsuf⟩ := at_append.mp hc
  have hlen := hr.length_eq
  have hcount : (pre ++ suf).length - pre.length = suf.length := by
    rw [List.length_append, Nat.add_sub_cancel_left]
  have happ : (pre ++ suf).length = pre.length + suf.length := List.length_append
  have hapart : os + (pre.length + suf.length) ≤ ns
      ∨ ns + (pre.length + suf.length + srcs.length) ≤ os
      ∨ pre.length + suf.length = 0 := by
    by_contra hne
    have hleft := Set.disjoint_left.mp hd
    rw [happ] at hleft
    by_cases hle : os ≤ ns
    · exact hleft ⟨hle, by omega⟩ ⟨le_rfl, by omega⟩
    · exact hleft ⟨le_rfl, by omega⟩ ⟨by omega, by omega⟩
  by_cases hnone : pre.length + suf.length = 0
  · have hpre₀ : pre = [] := List.length_eq_zero_iff.mp (by omega)
    have hsuf₀ : suf = [] := List.length_eq_zero_iff.mp (by omega)
    subst hpre₀ hsuf₀
    unfold shiftedCells
    rw [List.length_nil, moveCells_zero] at hr
    rw [List.append_nil, List.nil_append, List.append_nil, List.length_nil, Nat.sub_self,
      moveCells_zero, moveCells_zero]
    exact hr.at_fillCells
  unfold shiftedCells
  rw [hcount]
  refine at_append_three ?_ ?_ ?_
  · exact ((hpre.moved rfl).fillCells_of_disjoint (by omega)).moveCells_of_disjoint (by omega)
      (by omega)
  · exact hr.at_fillCells.moveCells_of_disjoint (by omega) (by omega)
  · rw [← hlen]
    exact ((hsuf.moveCells_of_disjoint (by omega) (by omega)).fillCells_of_disjoint
      (by omega)).moved rfl

end Lists

end Slots
