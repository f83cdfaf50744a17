import BoostContainer.Detail.CopyMoveAlgo

/-!
# What an insertion leaves in a buffer

Each algorithm that makes room for new elements is followed from slot to slot,
for every position, every number of new elements and every overlap of the old
place of the elements with the new one. What it leaves does not depend on the
path: the elements before the position, the new ones and the elements after it,
in slots that follow one another, and no element anywhere else.

New elements may be copies of an element of the buffer. What is inserted is
then what stands in the slot of that element when it is read, after some of the
elements have been moved.
-/

namespace Slots

variable {κ : Type} {α : Type*} {e : Env α} {trivialDctrAfterMove : Bool}
  {s₀ : State κ α} {S₀ own live : Set ℕ} {k : κ} {c : Cells α} {E : State κ α → Prop}
  {os ns sz eb f n p r a pos last : ℕ} {srcs : List (Source α)} {pre vs suf : List α}

/-! ## Elements that were moved from -/

theorem destroyN_holdsOn (hl : Set.Ico p (p + n) ⊆ live) :
    Ensures e (Holds e.trivialDestructor s₀ S₀ k own live c) (destroyN e p n)
      (fun _ => HoldsOn e.trivialDestructor s₀ S₀ k own (live \ Set.Ico p (p + n)) c) E := by
  refine (holds_destroyN hl).post (fun _ s hs => hs.on.congr rfl (fun q hq => ?_))
  have hq' := hq.2
  rw [Set.mem_Ico] at hq'
  exact clearCells_of_notMem (by omega)

theorem destroyMoved_holds (hl : Set.Ico p (p + n) ⊆ live) :
    Ensures e (Holds e.trivialDestructor s₀ S₀ k own live c)
      (destroyMoved e trivialDctrAfterMove p n)
      (fun _ => HoldsOn e.trivialDestructor s₀ S₀ k own (live \ Set.Ico p (p + n)) c) E := by
  unfold destroyMoved abandonN
  rw [ite_self]
  exact destroyN_holdsOn hl

theorem scopedDestroyMoved_holds (hl : Set.Ico p (p + n) ⊆ live) :
    Ensures e (Holds e.trivialDestructor s₀ S₀ k own live c)
      (scopedDestroyMoved e trivialDctrAfterMove p n)
      (fun _ => HoldsOn e.trivialDestructor s₀ S₀ k own (live \ Set.Ico p (p + n)) c) E := by
  unfold scopedDestroyMoved scopedDestructorN abandonN
  refine Ensures.ite (fun _ => destroyN_holdsOn hl)
    (fun _ => Ensures.ite (fun ht => ?_) (fun _ => destroyN_holdsOn hl))
  refine ensures_pure (fun s hs => ⟨c, ⟨hs.owns.forget Set.sdiff_subset (fun hf => ?_),
    hs.cells_eq⟩, fun _ _ => rfl⟩)
  rw [ht] at hf
  cases hf

theorem moveForwardOverlapping_holds (hr : Set.Ico r (r + n) ⊆ live)
    (hf : Set.Ico f (f + n) ⊆ live) (h : r ≤ f) :
    Ensures e (Holds e.trivialDestructor s₀ S₀ k own live c) (moveForwardOverlapping e f n r)
      (fun _ => Holds e.trivialDestructor s₀ S₀ k own live (moveCells e f r n c)) E := by
  unfold moveForwardOverlapping
  refine Ensures.ite (fun hne => holds_move hr hf (by omega)) (fun heq => ?_)
  rw [not_not.mp heq]
  exact ensures_pure (fun s hs => moveCells_self.symm ▸ hs)

theorem moveBackwardOverlapping_holds {l rl : ℕ} (hn : n ≤ l) (hl : Set.Ico (l - n) l ⊆ live)
    (hrl : Set.Ico (rl - n) rl ⊆ live) (h : l ≤ rl) :
    Ensures e (Holds e.trivialDestructor s₀ S₀ k own live c) (moveBackwardOverlapping e l n rl)
      (fun _ => Holds e.trivialDestructor s₀ S₀ k own live
        (moveCells e (l - n) (rl - n) n c)) E := by
  unfold moveBackwardOverlapping
  refine Ensures.ite (fun hne => holds_moveBackward hn (by omega) hl hrl (by omega)) (fun heq => ?_)
  rw [not_not.mp heq]
  exact ensures_pure (fun s hs => moveCells_self.symm ▸ hs)

/-! ## Towards the front -/

/-- The first elements are moved to the raw slots before them. -/
theorem expandBackward_first (hns : ns ≤ os) (hle : os + (os - ns) ≤ last)
    (hold : Set.Ico ns last ⊆ own) :
    Ensures e (Holds e.trivialDestructor s₀ S₀ k own (Set.Ico os last) c)
      (uninitializedMove e os (os - ns) ns)
      (fun _ => Holds e.trivialDestructor s₀ S₀ k own (Set.Ico ns last)
        (moveCells e os ns (os - ns) c)) E := by
  refine (holds_uninitializedMove ((Set.Ico_subset_Ico le_rfl (by omega)).trans hold)
    (Set.disjoint_left.mpr (fun q hq hq' => ?_)) (Set.Ico_subset_Ico le_rfl (by omega))).post
      (fun _ s hs => hs.congr ?_)
  · rw [Set.mem_Ico] at hq hq'
    omega
  · ext q
    simp only [Set.mem_union, Set.mem_Ico]
    omega

/-- The other elements before the position follow them. -/
theorem expandBackward_near (hns : ns < os) (h : os - ns ≤ eb) (hle : os + eb ≤ last) :
    Ensures e (Holds e.trivialDestructor s₀ S₀ k own (Set.Ico ns last)
        (moveCells e os ns (os - ns) c))
      (moveForward e (os + (os - ns)) (eb - (os - ns)) os)
      (fun _ => Holds e.trivialDestructor s₀ S₀ k own (Set.Ico ns last)
        (moveCells e os ns eb c)) E := by
  have hraw : ns + (os - ns) = os := by omega
  have hcount : os - ns + (eb - (os - ns)) = eb := by omega
  have htwo := @moveCells_moveCells_of_le α e os ns (eb - (os - ns)) c (os - ns) hns.le
  rw [hraw, hcount] at htwo
  rw [← htwo]
  exact holds_move (Set.Ico_subset_Ico (by omega) (by omega))
    (Set.Ico_subset_Ico (by omega) (by omega)) (by omega)

/-- The elements before the position are moved to raw slots. -/
theorem expandBackward_before (hns : ns + eb ≤ os) (hle : os + eb ≤ last)
    (hold : Set.Ico ns last ⊆ own) :
    Ensures e (Holds e.trivialDestructor s₀ S₀ k own (Set.Ico os last) c)
      (uninitializedMove e os eb ns)
      (fun _ => Holds e.trivialDestructor s₀ S₀ k own
        (Set.Ico os last ∪ Set.Ico ns (ns + eb)) (moveCells e os ns eb c)) E := by
  refine holds_uninitializedMove ((Set.Ico_subset_Ico le_rfl (by omega)).trans hold)
    (Set.disjoint_left.mpr (fun q hq hq' => ?_)) (Set.Ico_subset_Ico le_rfl (by omega))
  rw [Set.mem_Ico] at hq hq'
  omega

/-- New elements are filled in where the raw slots are. -/
theorem expandBackward_fill {srcs : List (Source α)} {d : Cells α} {L : Set ℕ}
    (hfin : ns + eb + srcs.length = os) (hold : Set.Ico ns last ⊆ own) (hle : os ≤ last)
    (hs : Steady srcs) (hr : ∀ src ∈ srcs, src.Readable L) (hL : L ⊆ Set.Ico os last) :
    Ensures e (Holds e.trivialDestructor s₀ S₀ k own
        (Set.Ico os last ∪ Set.Ico ns (ns + eb)) d)
      (uninitializedCopy e (ns + eb) srcs)
      (fun _ => Holds e.trivialDestructor s₀ S₀ k own (Set.Ico ns last)
        (fillCells (ns + eb) srcs d)) E := by
  refine (holds_uninitializedFill ((Set.Ico_subset_Ico (by omega) (by omega)).trans hold)
    (Set.disjoint_left.mpr (fun q hq hq' => ?_)) hs
    (fun src hsrc => (hr src hsrc).mono (hL.trans Set.subset_union_left))).post
      (fun _ s hs => hs.congr ?_)
  · simp only [Set.mem_union, Set.mem_Ico] at hq hq'
    omega
  · ext q
    simp only [Set.mem_union, Set.mem_Ico]
    omega

/-- What the slots hold after an insertion, where the elements before the position were
moved first, then the new ones were filled in, and then the others were moved. -/
def shiftedCells (e : Env α) (os ns sz eb : ℕ) (srcs : List (Source α)) (c : Cells α) : Cells α :=
  moveCells e (os + eb) (ns + eb + srcs.length) (sz - eb)
    (fillCells (ns + eb) srcs (moveCells e os ns eb c))

section MoveBackward

variable (hns : ns < os) (heb : eb ≤ sz) (hold : Set.Ico ns (os + sz) ⊆ own)
  (hs : Steady srcs) (hr : ∀ src ∈ srcs, src.Readable (Set.Ico os (os + sz)))

include hns heb hold hs hr

/-- The new place is before the old one. -/
theorem expandMoveBackward_far (h : sz + srcs.length ≤ os - ns) :
    Ensures e (Holds e.trivialDestructor s₀ S₀ k own (Set.Ico os (os + sz)) c)
      (expandMoveBackward e trivialDctrAfterMove os sz ns (os + eb) srcs)
      (fun _ => HoldsOn e.trivialDestructor s₀ S₀ k own
        (Set.Ico ns (ns + (sz + srcs.length))) (shiftedCells e os ns sz eb srcs c)) E := by
  unfold expandMoveBackward
  dsimp only
  rw [Nat.add_sub_cancel_left, if_pos (by omega), if_pos (by omega)]
  refine Ensures.bind (Ensures.onThrow (holds_uninitializedMove
    ((Set.Ico_subset_Ico le_rfl (by omega)).trans hold)
    (Set.disjoint_left.mpr (fun q hq hq' => ?_)) (Set.Ico_subset_Ico le_rfl (by omega))))
    (fun _ => ?_)
  · rw [Set.mem_Ico] at hq hq'
    omega
  refine Ensures.bind (Ensures.onThrow (holds_uninitializedFill
    ((Set.Ico_subset_Ico (by omega) (by omega)).trans hold)
    (Set.disjoint_left.mpr (fun q hq hq' => ?_)) hs
    (fun src hsrc => (hr src hsrc).mono Set.subset_union_left))) (fun _ => ?_)
  · simp only [Set.mem_union, Set.mem_Ico] at hq hq'
    omega
  refine Ensures.bind (R := fun _ => Holds e.trivialDestructor s₀ S₀ k own
    (Set.Ico os (os + sz) ∪ Set.Ico ns (ns + (sz + srcs.length)))
    (shiftedCells e os ns sz eb srcs c)) ?_ (fun _ => ?_)
  · have hlen : os + sz - (os + eb) = sz - eb := by omega
    have hpos : ns + (eb + srcs.length) = ns + eb + srcs.length := by omega
    rw [hlen, hpos]
    refine Ensures.ite (fun _ => ?_) (fun heq => ensures_pure (fun s hs => ?_))
    · refine Ensures.onThrow ((holds_uninitializedMove
        ((Set.Ico_subset_Ico (by omega) (by omega)).trans hold)
        (Set.disjoint_left.mpr (fun q hq hq' => ?_)) (fun q hq => ?_)).post
          (fun _ s hs => hs.congr ?_))
      · simp only [Set.mem_union, Set.mem_Ico] at hq hq'
        omega
      · simp only [Set.mem_union, Set.mem_Ico] at hq ⊢
        omega
      · ext q
        simp only [Set.mem_union, Set.mem_Ico]
        omega
    · have hzero : sz - eb = 0 := by omega
      unfold shiftedCells
      rw [hzero, moveCells_zero]
      refine hs.congr ?_
      ext q
      simp only [Set.mem_union, Set.mem_Ico]
      omega
  · refine (scopedDestroyMoved_holds Set.subset_union_left).post
      (fun _ s hs => hs.congr ?_ (fun _ _ => rfl))
    ext q
    simp only [Set.mem_union, Set.mem_sdiff, Set.mem_Ico]
    omega

/-- The elements after the position are moved over the old place of the elements,
and not to where they stand. -/
theorem expandMoveBackward_apart (h : eb + srcs.length ≤ os - ns)
    (h' : os - ns < sz + srcs.length)
    (hne : e.trivialDestructor = true → eb + srcs.length ≠ os - ns ∨ 0 < eb) :
    Ensures e (Holds e.trivialDestructor s₀ S₀ k own (Set.Ico os (os + sz)) c)
      (expandMoveBackward e trivialDctrAfterMove os sz ns (os + eb) srcs)
      (fun _ => HoldsOn e.trivialDestructor s₀ S₀ k own
        (Set.Ico ns (ns + (sz + srcs.length))) (shiftedCells e os ns sz eb srcs c)) E := by
  unfold expandMoveBackward
  dsimp only
  rw [Nat.add_sub_cancel_left, if_pos (by omega), if_neg (by omega)]
  refine Ensures.bind (Ensures.onThrow (holds_uninitializedMove
    ((Set.Ico_subset_Ico le_rfl (by omega)).trans hold)
    (Set.disjoint_left.mpr (fun q hq hq' => ?_)) (Set.Ico_subset_Ico le_rfl (by omega))))
    (fun _ => ?_)
  · rw [Set.mem_Ico] at hq hq'
    omega
  refine Ensures.bind (Ensures.onThrow (holds_uninitializedFill
    ((Set.Ico_subset_Ico (by omega) (by omega)).trans hold)
    (Set.disjoint_left.mpr (fun q hq hq' => ?_)) hs
    (fun src hsrc => (hr src hsrc).mono Set.subset_union_left))) (fun _ => ?_)
  · simp only [Set.mem_union, Set.mem_Ico] at hq hq'
    omega
  have hpos : ns + (eb + srcs.length) = ns + eb + srcs.length := by omega
  rw [hpos]
  refine Ensures.ite (fun _ => ?_) (fun ht => ?_)
  · refine Ensures.bind (Ensures.onThrow (holds_uninitializedMove
      ((Set.Ico_subset_Ico (by omega) (by omega)).trans hold)
      (Set.disjoint_left.mpr (fun q hq hq' => ?_)) (fun q hq => ?_))) (fun _ => ?_)
    · simp only [Set.mem_union, Set.mem_Ico] at hq hq'
      omega
    · simp only [Set.mem_union, Set.mem_Ico] at hq ⊢
      omega
    refine Ensures.bind (Ensures.onThrow (moveForwardOverlapping_holds (fun q hq => ?_)
      (fun q hq => ?_) (by omega))) (fun _ => ?_)
    · simp only [Set.mem_union, Set.mem_Ico] at hq ⊢
      omega
    · simp only [Set.mem_union, Set.mem_Ico] at hq ⊢
      omega
    refine (destroyMoved_holds (fun q hq => ?_)).post (fun _ s hs => hs.congr ?_ (fun q _ => ?_))
    · simp only [Set.mem_union, Set.mem_Ico] at hq ⊢
      omega
    · ext q
      simp only [Set.mem_union, Set.mem_sdiff, Set.mem_Ico]
      omega
    · -- the move in two steps is one
      have hdest : ns + eb + srcs.length + (os - ns - (eb + srcs.length)) = os := by omega
      have hcount : os - ns - (eb + srcs.length)
          + (os + sz - (os + eb + (os - ns - (eb + srcs.length)))) = sz - eb := by omega
      have htwo := @moveCells_moveCells_of_le α e (os + eb) (ns + eb + srcs.length)
        (os + sz - (os + eb + (os - ns - (eb + srcs.length))))
        (fillCells (ns + eb) srcs (moveCells e os ns eb c)) (os - ns - (eb + srcs.length))
        (by omega)
      rw [hdest, hcount] at htwo
      exact congrFun htwo q
  · have htriv : e.trivialDestructor = true := by simpa using ht
    have hmoves := hne htriv
    have hlen : os + sz - (os + eb) = sz - eb := by omega
    rw [hlen]
    refine Ensures.onThrow ((holds_uninitializedMove_of_trivial htriv (fun q hq => ?_)
      (fun q hq => ?_) (by omega)).post (fun _ s hs => ?_))
    · rw [Set.mem_Ico] at hq
      exact hold ⟨by omega, by omega⟩
    · simp only [Set.mem_union, Set.mem_Ico] at hq ⊢
      omega
    · refine ⟨_, ⟨hs.owns.forget (fun q hq => ?_) (fun hf => ?_), hs.cells_eq⟩, fun _ _ => rfl⟩
      · simp only [Set.mem_union, Set.mem_Ico] at hq ⊢
        omega
      · rw [htriv] at hf
        cases hf

/-- **The elements before the position are moved to the front**, and new ones are
filled in after them, as many as there were raw slots, or all. -/
theorem expandMoveBackward_prefix {m : ℕ} (h : os - ns ≤ eb) (hm : m ≤ os - ns)
    (hlen : m ≤ srcs.length) {c₁ c₂ rest : Prog (State κ α) Unit} {Q : Unit → State κ α → Prop}
    (hrest : Ensures e (Holds e.trivialDestructor s₀ S₀ k own (Set.Ico ns (os + sz))
      (fillCells (ns + eb) (srcs.take m) (moveCells e os ns eb c))) rest Q E) :
    Ensures e (Holds e.trivialDestructor s₀ S₀ k own (Set.Ico os (os + sz)) c)
      (do
        (uninitializedMove e os (os - ns) ns).onThrow c₁
        (moveForward e (os + (os - ns)) (eb - (os - ns)) os).onThrow c₂
        (copy e (os + (eb - (os - ns))) (srcs.take m)).onThrow c₂
        rest) Q E := by
  have htake : (srcs.take m).length = m := List.length_take_of_le hlen
  have hnext : os + (eb - (os - ns)) = ns + eb := by omega
  refine Ensures.bind (Ensures.onThrow (expandBackward_first hns.le (by omega) hold)) (fun _ =>
    Ensures.bind (Ensures.onThrow (expandBackward_near hns h (by omega))) (fun _ => ?_))
  rw [hnext]
  exact Ensures.bind (Ensures.onThrow (holds_fill (Set.Ico_subset_Ico (by omega) (by omega))
    (hs.take m) (fun src hsrc => (hr src (List.mem_of_mem_take hsrc)).mono
      (Set.Ico_subset_Ico (by omega) le_rfl)))) (fun _ => hrest)

/-- **The elements before the position are moved to raw slots**, and new ones are
filled in after them, as long as there are raw slots. -/
theorem expandMoveBackward_split (h : eb < os - ns) (hlen : os - ns - eb ≤ srcs.length)
    {c₁ c₂ rest : Prog (State κ α) Unit} {Q : Unit → State κ α → Prop}
    (hrest : Ensures e (Holds e.trivialDestructor s₀ S₀ k own (Set.Ico ns (os + sz))
      (fillCells (ns + eb) (srcs.take (os - ns - eb)) (moveCells e os ns eb c))) rest Q E) :
    Ensures e (Holds e.trivialDestructor s₀ S₀ k own (Set.Ico os (os + sz)) c)
      (do
        (uninitializedMove e os eb ns).onThrow c₁
        (uninitializedCopy e (ns + eb) (srcs.take (os - ns - eb))).onThrow c₂
        rest) Q E := by
  have htake : (srcs.take (os - ns - eb)).length = os - ns - eb := List.length_take_of_le hlen
  exact Ensures.bind (Ensures.onThrow (expandBackward_before (by omega) (by omega) hold))
    (fun _ => Ensures.bind (Ensures.onThrow (expandBackward_fill (by omega) hold (by omega)
      (hs.take _) (fun src hsrc => hr src (List.mem_of_mem_take hsrc)) subset_rfl))
      (fun _ => hrest))

omit hold in
/-- New ones are filled in over the old place of the elements before the position. -/
theorem expandMoveBackward_over {m : ℕ} (h : eb < os - ns) (hm : m ≤ eb)
    (hlen : os - ns - eb + m ≤ srcs.length) :
    Ensures e (Holds e.trivialDestructor s₀ S₀ k own (Set.Ico ns (os + sz))
        (fillCells (ns + eb) (srcs.take (os - ns - eb)) (moveCells e os ns eb c)))
      (copy e os ((srcs.drop (os - ns - eb)).take m))
      (fun _ => Holds e.trivialDestructor s₀ S₀ k own (Set.Ico ns (os + sz))
        (fillCells (ns + eb) (srcs.take (os - ns - eb + m)) (moveCells e os ns eb c))) E := by
  have hdrop : ((srcs.drop (os - ns - eb)).take m).length = m := by
    rw [List.length_take, List.length_drop]
    omega
  have hdest : ns + eb + (os - ns - eb) = os := by omega
  have htwo := @fillCells_fillCells α (ns + eb) (srcs.take (os - ns - eb + m))
    (moveCells e os ns eb c) (hs.take _) (os - ns - eb)
    (by rw [List.length_take_of_le hlen]; omega)
  rw [hdest, List.take_take, Nat.min_eq_left (Nat.le_add_right _ _), List.drop_take,
    Nat.add_sub_cancel_left] at htwo
  rw [← htwo]
  exact holds_fill (Set.Ico_subset_Ico (by omega) (by omega)) ((hs.drop _).take m)
    (fun src hsrc => (hr src (List.mem_of_mem_drop (List.mem_of_mem_take hsrc))).mono
      (Set.Ico_subset_Ico (by omega) le_rfl))

omit hns hold hs hr in
/-- The elements after the position follow the new ones, and what they leave is
destroyed. -/
theorem expandMoveBackward_rest {d : Cells α} {c₁ : Prog (State κ α) Unit}
    (h : ns + eb + n ≤ os + eb) :
    Ensures e (Holds e.trivialDestructor s₀ S₀ k own (Set.Ico ns (os + sz)) d)
      (do
        (moveForwardOverlapping e (os + eb) (os + sz - (os + eb)) (ns + eb + n)).onThrow c₁
        destroyMoved e trivialDctrAfterMove (ns + eb + n + (os + sz - (os + eb)))
          (os + sz - (ns + eb + n + (os + sz - (os + eb)))))
      (fun _ => HoldsOn e.trivialDestructor s₀ S₀ k own (Set.Ico ns (ns + (sz + n)))
        (moveCells e (os + eb) (ns + eb + n) (sz - eb) d)) E := by
  have hcount : os + sz - (os + eb) = sz - eb := by omega
  rw [hcount]
  refine Ensures.bind (Ensures.onThrow (moveForwardOverlapping_holds
    (Set.Ico_subset_Ico (by omega) (by omega)) (Set.Ico_subset_Ico (by omega) (by omega)) h))
    (fun _ => ?_)
  refine (destroyMoved_holds (Set.Ico_subset_Ico (by omega) (by omega))).post
    (fun _ s hs => hs.congr ?_ (fun _ _ => rfl))
  ext q
  simp only [Set.mem_sdiff, Set.mem_Ico]
  omega

/-- The raw slots are fewer than the elements before the position and the new ones,
but at least as many as the new ones. -/
theorem expandMoveBackward_near (h : srcs.length ≤ os - ns) (h' : os - ns < eb + srcs.length) :
    Ensures e (Holds e.trivialDestructor s₀ S₀ k own (Set.Ico os (os + sz)) c)
      (expandMoveBackward e trivialDctrAfterMove os sz ns (os + eb) srcs)
      (fun _ => HoldsOn e.trivialDestructor s₀ S₀ k own
        (Set.Ico ns (ns + (sz + srcs.length))) (shiftedCells e os ns sz eb srcs c)) E := by
  unfold expandMoveBackward
  dsimp only
  rw [Nat.add_sub_cancel_left, if_neg (by omega)]
  simp only [if_neg (show ¬ os - ns < srcs.length by omega),
    if_pos (show ¬ os - ns < srcs.length by omega)]
  refine Ensures.bind (R := fun _ => HoldsOn e.trivialDestructor s₀ S₀ k own
    (Set.Ico ns (ns + (sz + srcs.length))) (shiftedCells e os ns sz eb srcs c))
    (Ensures.ite (fun hle => ?_) (fun hgt => ?_)) (fun _ => ensures_pure (fun _ => id))
  · have hnext : os + (eb - (os - ns)) = ns + eb := by omega
    refine expandMoveBackward_prefix hns heb hold hs hr hle h le_rfl ?_
    rw [hnext, List.take_length]
    exact expandMoveBackward_rest heb (by omega)
  · have hcount : os - ns - eb + (srcs.length - (os - ns - eb)) = srcs.length := by omega
    have hdest : os + (srcs.length - (os - ns - eb)) = ns + eb + srcs.length := by omega
    have hover := @expandMoveBackward_over κ α e s₀ S₀ own k c (fun _ => False) os ns sz eb srcs
      hns heb hs hr (srcs.length - (os - ns - eb)) (by omega) (by omega) hcount.le
    rw [hcount, List.take_length] at hover
    refine expandMoveBackward_split hns heb hold hs hr (by omega) (by omega)
      (Ensures.bind (Ensures.onThrow hover) (fun _ => ?_))
    rw [hdest]
    exact expandMoveBackward_rest heb (by omega)

end MoveBackward

/-! ## Towards the back -/

/-- What the slots hold after an insertion, where the elements after the position were
moved first, and then the new ones were filled in. -/
def openedCells (e : Env α) (pos n : ℕ) (srcs : List (Source α)) (c : Cells α) : Cells α :=
  fillCells pos srcs (moveCells e pos (pos + srcs.length) n c)

section Forward

variable (hpos : a ≤ pos) (hle : pos ≤ last) (hold : Set.Ico a (last + srcs.length) ⊆ own)
  (hs : Steady srcs) (hr : ∀ src ∈ srcs, src.Readable (Set.Ico a last))

include hpos hle hold

omit hpos hle in
/-- The last elements are moved to raw slots, as many as there are new ones. -/
theorem expandForward_last (h : a + srcs.length ≤ last) :
    Ensures e (Holds e.trivialDestructor s₀ S₀ k own (Set.Ico a last) c)
      (uninitializedMove e (last - srcs.length) srcs.length last)
      (fun _ => Holds e.trivialDestructor s₀ S₀ k own (Set.Ico a (last + srcs.length))
        (moveCells e (last - srcs.length) last srcs.length c)) E := by
  refine (holds_uninitializedMove ((Set.Ico_subset_Ico (by omega) le_rfl).trans hold)
    (Set.disjoint_left.mpr (fun q hq hq' => ?_)) (Set.Ico_subset_Ico (by omega) (by omega))).post
      (fun _ s hs => hs.congr ?_)
  · rw [Set.mem_Ico] at hq hq'
    omega
  · ext q
    simp only [Set.mem_union, Set.mem_Ico]
    omega

include hs hr in
omit hold in
/-- The other elements after the position are moved, and the new ones take their
place. -/
theorem expandForward_near (h : srcs.length ≤ last - pos) {c₁ : Prog (State κ α) Unit} :
    Ensures e (Holds e.trivialDestructor s₀ S₀ k own (Set.Ico a (last + srcs.length))
        (moveCells e (last - srcs.length) last srcs.length c))
      (do
        (moveBackwardOverlapping e (last - srcs.length) (last - srcs.length - pos) last).onThrow c₁
        (copy e pos srcs).onThrow c₁)
      (fun _ => Holds e.trivialDestructor s₀ S₀ k own (Set.Ico a (last + srcs.length))
        (openedCells e pos (last - pos) srcs c)) E := by
  have htwo := @moveCells_moveCells_of_ge α e pos (pos + srcs.length) (last - srcs.length - pos) c
    srcs.length (Nat.le_add_right _ _)
  have hfrom : pos + (last - srcs.length - pos) = last - srcs.length := by omega
  have hto : pos + srcs.length + (last - srcs.length - pos) = last := by omega
  have hcount : last - srcs.length - pos + srcs.length = last - pos := by omega
  rw [hfrom, hto, hcount] at htwo
  have hl : last - srcs.length - (last - srcs.length - pos) = pos := by omega
  have hrl : last - (last - srcs.length - pos) = pos + srcs.length := by omega
  refine Ensures.bind (Ensures.onThrow (moveBackwardOverlapping_holds (by omega)
    (Set.Ico_subset_Ico (by omega) (by omega)) (Set.Ico_subset_Ico (by omega) (by omega))
    (by omega))) (fun _ => ?_)
  rw [hl, hrl, htwo]
  exact Ensures.onThrow (holds_fill (Set.Ico_subset_Ico hpos (by omega)) hs
    (fun src hsrc => (hr src hsrc).mono (Set.Ico_subset_Ico le_rfl (by omega))))

/-- The elements after the position are moved, and leave raw slots before them. -/
theorem expandForward_after (h : last - pos < srcs.length) :
    Ensures e (Holds e.trivialDestructor s₀ S₀ k own (Set.Ico a last) c)
      (uninitializedMove e pos (last - pos) (pos + srcs.length))
      (fun _ => Holds e.trivialDestructor s₀ S₀ k own
        (Set.Ico a last ∪ Set.Ico (pos + srcs.length) (last + srcs.length))
        (moveCells e pos (pos + srcs.length) (last - pos) c)) E := by
  have hlast : pos + srcs.length + (last - pos) = last + srcs.length := by omega
  refine (holds_uninitializedMove ((Set.Ico_subset_Ico (by omega) (by omega)).trans hold)
    (Set.disjoint_left.mpr (fun q hq hq' => ?_)) (Set.Ico_subset_Ico (by omega) (by omega))).post
      (fun _ s hs => hlast ▸ hs)
  rw [Set.mem_Ico] at hq hq'
  omega

include hs hr in
/-- The new ones are filled in over them, and in the raw slots. -/
theorem expandForward_far (h : last - pos < srcs.length) {c₁ c₂ : Prog (State κ α) Unit} :
    Ensures e (Holds e.trivialDestructor s₀ S₀ k own
        (Set.Ico a last ∪ Set.Ico (pos + srcs.length) (last + srcs.length))
        (moveCells e pos (pos + srcs.length) (last - pos) c))
      (do
        (copy e pos (srcs.take (last - pos))).onThrow c₁
        (uninitializedCopy e last (srcs.drop (last - pos))).onThrow c₂)
      (fun _ => Holds e.trivialDestructor s₀ S₀ k own (Set.Ico a (last + srcs.length))
        (openedCells e pos (last - pos) srcs c)) E := by
  have htake : (srcs.take (last - pos)).length = last - pos := List.length_take_of_le h.le
  have hdrop : (srcs.drop (last - pos)).length = srcs.length - (last - pos) := List.length_drop
  have hlast : pos + (last - pos) = last := by omega
  have htwo := @fillCells_fillCells α pos srcs (moveCells e pos (pos + srcs.length) (last - pos) c)
    hs (last - pos) h.le
  rw [hlast] at htwo
  refine Ensures.bind (Ensures.onThrow (holds_fill (fun q hq => ?_) (hs.take _)
    (fun src hsrc => (hr src (List.mem_of_mem_take hsrc)).mono Set.subset_union_left)))
    (fun _ => ?_)
  · rw [Set.mem_Ico] at hq
    exact Or.inl ⟨by omega, by omega⟩
  refine Ensures.onThrow ((holds_uninitializedFill
    ((Set.Ico_subset_Ico (by omega) (by omega)).trans hold)
    (Set.disjoint_left.mpr (fun q hq hq' => ?_)) (hs.drop _)
    (fun src hsrc => (hr src (List.mem_of_mem_drop hsrc)).mono Set.subset_union_left)).post
      (fun _ s hs => ?_))
  · simp only [Set.mem_union, Set.mem_Ico] at hq hq'
    omega
  · rw [htwo] at hs
    refine hs.congr ?_
    ext q
    simp only [Set.mem_union, Set.mem_Ico]
    omega

end Forward

/-! ## Towards the front, and beyond the old end -/

/-- What the slots hold after an insertion of more elements than there were raw slots:
those that find no slot before the old place of the elements after the position follow
when these have been moved. -/
def spreadCells (e : Env α) (os ns sz eb : ℕ) (srcs : List (Source α)) (c : Cells α) : Cells α :=
  openedCells e (os + eb) (sz - eb) (srcs.drop (os - ns))
    (fillCells (ns + eb) (srcs.take (os - ns)) (moveCells e os ns eb c))

section MoveBackward

variable (hns : ns < os) (heb : eb ≤ sz) (hin : os - ns < srcs.length)
  (hold : Set.Ico ns (os + sz + (srcs.length - (os - ns))) ⊆ own) (hs : Steady srcs)
  (hr : ∀ src ∈ srcs, src.Readable (Set.Ico os (os + sz)))

include hns heb hin hold hs hr

/-- The new elements are more than the raw slots. -/
theorem expandMoveBackward_spread :
    Ensures e (Holds e.trivialDestructor s₀ S₀ k own (Set.Ico os (os + sz)) c)
      (expandMoveBackward e trivialDctrAfterMove os sz ns (os + eb) srcs)
      (fun _ => HoldsOn e.trivialDestructor s₀ S₀ k own
        (Set.Ico ns (ns + (sz + srcs.length))) (spreadCells e os ns sz eb srcs c)) E := by
  have hold' : Set.Ico ns (os + sz) ⊆ own := (Set.Ico_subset_Ico le_rfl (by omega)).trans hold
  have hrest : (srcs.drop (os - ns)).length = srcs.length - (os - ns) := List.length_drop
  have hreadable : ∀ src ∈ srcs.drop (os - ns), src.Readable (Set.Ico ns (os + sz)) :=
    fun src hsrc => (hr src (List.mem_of_mem_drop hsrc)).mono
      (Set.Ico_subset_Ico (by omega) le_rfl)
  have hafter : os + sz - (os + eb) = sz - eb := by omega
  unfold expandMoveBackward
  dsimp only
  rw [Nat.add_sub_cancel_left, if_neg (by omega)]
  simp only [if_pos hin, if_neg (not_not_intro hin)]
  refine Ensures.bind (R := fun _ => Holds e.trivialDestructor s₀ S₀ k own
    (Set.Ico ns (os + sz)) (fillCells (ns + eb) (srcs.take (os - ns)) (moveCells e os ns eb c)))
    (Ensures.ite (fun hle => ?_) (fun hgt => ?_)) (fun _ => ?_)
  · exact expandMoveBackward_prefix hns heb hold' hs hr hle le_rfl hin.le
      (ensures_pure (fun _ => id))
  · have hcount : os - ns - eb + eb = os - ns := by omega
    have hover := @expandMoveBackward_over κ α e s₀ S₀ own k c (fun _ => False) os ns sz eb srcs
      hns heb hs hr eb (by omega) le_rfl (by omega)
    rw [hcount] at hover
    exact expandMoveBackward_split hns heb hold' hs hr (by omega) (by omega)
      (Ensures.onThrow hover)
  · rw [← hrest, ← hafter]
    have hend : os + sz + (srcs.drop (os - ns)).length = ns + (sz + srcs.length) := by omega
    refine Ensures.ite (fun hle => ?_) (fun hgt => ?_)
    · rw [List.take_length]
      refine Ensures.bind (Ensures.onThrow (expandForward_last (hrest.symm ▸ hold)
        (by omega))) (fun _ => ?_)
      refine (expandForward_near (by omega) (by omega) (hs.drop _) hreadable hle).post
        (fun _ s h => ?_)
      rw [hend, hafter] at h
      exact h.on
    · have hmid : os + sz + ((srcs.drop (os - ns)).length - (os + sz - (os + eb)))
          = os + eb + (srcs.drop (os - ns)).length := by omega
      have hnew : ((srcs.drop (os - ns)).drop (os + sz - (os + eb))).length
          = (srcs.drop (os - ns)).length - (os + sz - (os + eb)) := List.length_drop
      rw [hmid, ← hnew, List.take_length]
      refine Ensures.bind (Ensures.onThrow (expandForward_after (a := ns) (by omega) (by omega)
        (hrest.symm ▸ hold) (by omega))) (fun _ => ?_)
      refine (expandForward_far (by omega) (by omega) (hrest.symm ▸ hold) (hs.drop _) hreadable
        (by omega)).post (fun _ s h => ?_)
      rw [hend, hafter] at h
      exact h.on

end MoveBackward

/-! ## All elements towards the back -/

/-- What the slots hold after an insertion, where the new place of the elements after the
position is beyond the old end: the new ones were filled in first. -/
def beyondCells (e : Env α) (os ns sz eb : ℕ) (srcs : List (Source α)) (c : Cells α) : Cells α :=
  moveCells e os ns eb
    (moveCells e (os + eb) (ns + eb + srcs.length) (sz - eb) (fillCells (ns + eb) srcs c))

/-- What the slots hold after an insertion, where the elements after the position were
moved first, and those before it last. -/
def withinCells (e : Env α) (os ns sz eb : ℕ) (srcs : List (Source α)) (c : Cells α) : Cells α :=
  moveCells e os ns eb
    (fillCells (ns + eb) srcs (moveCells e (os + eb) (ns + eb + srcs.length) (sz - eb) c))

section MoveForward

variable (hns : os ≤ ns) (heb : eb ≤ sz)
  (hold : Set.Ico os (ns + (sz + srcs.length)) ⊆ own) (hs : Steady srcs)
  (hr : ∀ src ∈ srcs, src.Readable (Set.Ico os (os + sz)))

include hns heb hold hs hr

/-- The elements after the position are moved to raw slots, behind the new ones. -/
theorem expandMoveForward_beyond (h : sz - eb ≤ ns - os) :
    Ensures e (Holds e.trivialDestructor s₀ S₀ k own (Set.Ico os (os + sz)) c)
      (expandMoveForward e trivialDctrAfterMove os sz ns (os + eb) srcs)
      (fun _ => HoldsOn e.trivialDestructor s₀ S₀ k own
        (Set.Ico ns (ns + (sz + srcs.length))) (beyondCells e os ns sz eb srcs c)) E := by
  have hraw : ns + (sz + srcs.length) - (os + sz) = ns - os + srcs.length := by omega
  have hafter : os + sz - (os + eb) = sz - eb := by omega
  have hnew : ns + (sz + srcs.length) - (sz - eb + srcs.length) = ns + eb := by omega
  unfold expandMoveForward
  dsimp only
  rw [hafter, hraw, if_pos (by omega), hnew, Nat.add_sub_cancel_left]
  refine Ensures.bind (Ensures.onThrow (holds_uninitializedFill
    ((Set.Ico_subset_Ico (by omega) (by omega)).trans hold)
    (Set.disjoint_left.mpr (fun q hq hq' => ?_)) hs hr)) (fun _ => ?_)
  · rw [Set.mem_Ico] at hq hq'
    omega
  refine Ensures.bind (R := fun _ => Holds e.trivialDestructor s₀ S₀ k own
    (Set.Ico os (os + sz) ∪ Set.Ico (ns + eb) (ns + (sz + srcs.length)))
    (moveCells e (os + eb) (ns + eb + srcs.length) (sz - eb) (fillCells (ns + eb) srcs c)))
    (Ensures.onThrow ((holds_uninitializedMove
      ((Set.Ico_subset_Ico (by omega) (by omega)).trans hold)
      (Set.disjoint_left.mpr (fun q hq hq' => ?_)) (fun q hq => ?_)).post
        (fun _ s hs => hs.congr ?_))) (fun _ => ?_)
  · simp only [Set.mem_union, Set.mem_Ico] at hq hq'
    omega
  · simp only [Set.mem_union, Set.mem_Ico] at hq ⊢
    omega
  · ext q
    simp only [Set.mem_union, Set.mem_Ico]
    omega
  refine Ensures.ite (fun hle => ?_) (fun hgt => ?_)
  · refine Ensures.bind (Ensures.onThrow (holds_uninitializedMove
      ((Set.Ico_subset_Ico (by omega) (by omega)).trans hold)
      (Set.disjoint_left.mpr (fun q hq hq' => ?_)) (fun q hq => ?_))) (fun _ => ?_)
    · simp only [Set.mem_union, Set.mem_Ico] at hq hq'
      omega
    · simp only [Set.mem_union, Set.mem_Ico] at hq ⊢
      omega
    refine (scopedDestroyMoved_holds (fun q hq => ?_)).post
      (fun _ s hs => hs.congr ?_ (fun _ _ => rfl))
    · exact Or.inl (Or.inl hq)
    · ext q
      simp only [Set.mem_union, Set.mem_sdiff, Set.mem_Ico]
      omega
  · have hgap : ns - os + srcs.length - (sz - eb + srcs.length) = ns - os - (sz - eb) := by omega
    have hpre : os + (os + eb - (ns - os - (sz - eb)) - os) = os + eb - (ns - os - (sz - eb)) := by
      omega
    have hfin : ns + (os + eb - (ns - os - (sz - eb)) - os) = os + sz := by omega
    have hcount : os + eb - (ns - os - (sz - eb)) - os + (ns - os - (sz - eb)) = eb := by omega
    have hfrom : os + eb - (ns - os - (sz - eb)) - (os + eb - (ns - os - (sz - eb)) - os) = os := by
      omega
    have hto : os + sz - (os + eb - (ns - os - (sz - eb)) - os) = ns := by omega
    rw [hgap]
    refine Ensures.bind (R := fun _ => Holds e.trivialDestructor s₀ S₀ k own
      (Set.Ico os (ns + (sz + srcs.length))) (moveCells e (os + eb - (ns - os - (sz - eb)))
        (os + sz) (ns - os - (sz - eb)) (moveCells e (os + eb) (ns + eb + srcs.length) (sz - eb)
          (fillCells (ns + eb) srcs c))))
      (Ensures.onThrow ((holds_uninitializedMove
        ((Set.Ico_subset_Ico (by omega) (by omega)).trans hold)
        (Set.disjoint_left.mpr (fun q hq hq' => ?_)) (fun q hq => ?_)).post
          (fun _ s hs => hs.congr ?_))) (fun _ => ?_)
    · simp only [Set.mem_union, Set.mem_Ico] at hq hq'
      omega
    · simp only [Set.mem_union, Set.mem_Ico] at hq ⊢
      omega
    · ext q
      simp only [Set.mem_union, Set.mem_Ico]
      omega
    have htwo := @moveCells_moveCells_of_ge α e os ns (os + eb - (ns - os - (sz - eb)) - os)
      (moveCells e (os + eb) (ns + eb + srcs.length) (sz - eb) (fillCells (ns + eb) srcs c))
      (ns - os - (sz - eb)) hns
    rw [hpre, hfin, hcount] at htwo
    refine Ensures.bind (Ensures.onThrow (moveBackwardOverlapping_holds (by omega)
      (Set.Ico_subset_Ico (by omega) (by omega)) (Set.Ico_subset_Ico (by omega) (by omega))
      (by omega))) (fun _ => ?_)
    rw [hfrom, hto, htwo]
    refine (destroyMoved_holds (Set.Ico_subset_Ico le_rfl (by omega))).post
      (fun _ s hs => hs.congr ?_ (fun _ _ => rfl))
    ext q
    simp only [Set.mem_sdiff, Set.mem_Ico]
    omega

omit hold hs hr in
/-- The elements before the position follow the new ones, and what they leave is
destroyed. -/
theorem expandMoveForward_rest {d : Cells α} {c₁ : Prog (State κ α) Unit} :
    Ensures e (Holds e.trivialDestructor s₀ S₀ k own (Set.Ico os (ns + (sz + n))) d)
      (do
        (moveBackwardOverlapping e (os + eb) eb (ns + eb)).onThrow c₁
        destroyMoved e trivialDctrAfterMove os (ns + eb - eb - os))
      (fun _ => HoldsOn e.trivialDestructor s₀ S₀ k own (Set.Ico ns (ns + (sz + n)))
        (moveCells e os ns eb d)) E := by
  have hsub : ns + eb - eb - os = ns - os := by omega
  have hmove := @moveBackwardOverlapping_holds κ α e s₀ S₀ own (Set.Ico os (ns + (sz + n))) k d
    (fun _ => False) eb (os + eb) (ns + eb) (by omega)
    (Set.Ico_subset_Ico (by omega) (by omega)) (Set.Ico_subset_Ico (by omega) (by omega))
    (by omega)
  rw [Nat.add_sub_cancel, Nat.add_sub_cancel] at hmove
  rw [hsub]
  refine Ensures.bind (Ensures.onThrow hmove) (fun _ => ?_)
  refine (destroyMoved_holds (Set.Ico_subset_Ico le_rfl (by omega))).post
    (fun _ s hs => hs.congr ?_ (fun _ _ => rfl))
  ext q
  simp only [Set.mem_sdiff, Set.mem_Ico]
  omega

/-- The elements after the position are moved, in part or all, over their old place. -/
theorem expandMoveForward_within (h : ns - os < sz - eb) :
    Ensures e (Holds e.trivialDestructor s₀ S₀ k own (Set.Ico os (os + sz)) c)
      (expandMoveForward e trivialDctrAfterMove os sz ns (os + eb) srcs)
      (fun _ => HoldsOn e.trivialDestructor s₀ S₀ k own
        (Set.Ico ns (ns + (sz + srcs.length))) (withinCells e os ns sz eb srcs c)) E := by
  have hraw : ns + (sz + srcs.length) - (os + sz) = ns - os + srcs.length := by omega
  have hafter : os + sz - (os + eb) = sz - eb := by omega
  unfold expandMoveForward
  dsimp only
  rw [hafter, hraw, if_neg (by omega), Nat.add_sub_cancel_left]
  refine Ensures.ite (fun hlt => ?_) (fun hge => ?_)
  · have hp : ns + (sz + srcs.length) - (sz - eb) = ns + eb + srcs.length := by omega
    have hrest : srcs.length - (ns - os + srcs.length - (sz - eb)) = sz - eb - (ns - os) := by omega
    have hbeg : os + sz - (sz - eb - (ns - os)) = ns + eb := by omega
    have hdrop : (srcs.drop (sz - eb - (ns - os))).length = ns - os + srcs.length - (sz - eb) := by
      rw [List.length_drop]
      omega
    have htake : (srcs.take (sz - eb - (ns - os))).length = sz - eb - (ns - os) :=
      List.length_take_of_le (by omega)
    have hfin : ns + eb + (sz - eb - (ns - os)) = os + sz := by omega
    rw [hp, hrest, hbeg, ← hdrop, List.take_length]
    refine Ensures.bind (Ensures.onThrow (holds_uninitializedMove
      ((Set.Ico_subset_Ico (by omega) (by omega)).trans hold)
      (Set.disjoint_left.mpr (fun q hq hq' => ?_)) (fun q hq => ?_))) (fun _ => ?_)
    · rw [Set.mem_Ico] at hq hq'
      omega
    · rw [Set.mem_Ico] at hq ⊢
      omega
    refine Ensures.bind (Ensures.onThrow (holds_fill (fun q hq => ?_) (hs.take _)
      (fun src hsrc => (hr src (List.mem_of_mem_take hsrc)).mono Set.subset_union_left)))
      (fun _ => ?_)
    · rw [Set.mem_Ico] at hq
      exact Or.inl ⟨by omega, by omega⟩
    have htwo := @fillCells_fillCells α (ns + eb) srcs
      (moveCells e (os + eb) (ns + eb + srcs.length) (sz - eb) c) hs (sz - eb - (ns - os))
      (by omega)
    rw [hfin] at htwo
    refine Ensures.bind (R := fun _ => Holds e.trivialDestructor s₀ S₀ k own
      (Set.Ico os (ns + (sz + srcs.length))) (fillCells (ns + eb) srcs
        (moveCells e (os + eb) (ns + eb + srcs.length) (sz - eb) c)))
      (Ensures.onThrow ((holds_uninitializedFill
        ((Set.Ico_subset_Ico (by omega) (by omega)).trans hold)
        (Set.disjoint_left.mpr (fun q hq hq' => ?_)) (hs.drop _)
        (fun src hsrc => (hr src (List.mem_of_mem_drop hsrc)).mono Set.subset_union_left)).post
          (fun _ s hs => ?_))) (fun _ => ?_)
    · simp only [Set.mem_union, Set.mem_Ico] at hq hq'
      omega
    · rw [htwo] at hs
      refine hs.congr ?_
      ext q
      simp only [Set.mem_union, Set.mem_Ico]
      omega
    · exact expandMoveForward_rest hns heb
  · have hbeg : os + sz - (os + sz - (ns - os + srcs.length) - (os + eb)) - srcs.length
        = ns + eb := by omega
    rw [hbeg]
    refine Ensures.bind (R := fun _ => Holds e.trivialDestructor s₀ S₀ k own
      (Set.Ico os (ns + (sz + srcs.length))) (moveCells e (os + sz - (ns - os + srcs.length))
        (os + sz) (ns - os + srcs.length) c))
      (Ensures.onThrow ((holds_uninitializedMove
        ((Set.Ico_subset_Ico (by omega) (by omega)).trans hold)
        (Set.disjoint_left.mpr (fun q hq hq' => ?_)) (Set.Ico_subset_Ico (by omega)
          (by omega))).post (fun _ s hs => hs.congr ?_))) (fun _ => ?_)
    · rw [Set.mem_Ico] at hq hq'
      omega
    · ext q
      simp only [Set.mem_union, Set.mem_Ico]
      omega
    have htwo := @moveCells_moveCells_of_ge α e (os + eb) (ns + eb + srcs.length)
      (os + sz - (ns - os + srcs.length) - (os + eb)) c (ns - os + srcs.length) (by omega)
    have hfrom : os + eb + (os + sz - (ns - os + srcs.length) - (os + eb))
        = os + sz - (ns - os + srcs.length) := by omega
    have hto : ns + eb + srcs.length + (os + sz - (ns - os + srcs.length) - (os + eb))
        = os + sz := by omega
    have hcount : os + sz - (ns - os + srcs.length) - (os + eb) + (ns - os + srcs.length)
        = sz - eb := by omega
    have hl : os + sz - (ns - os + srcs.length)
        - (os + sz - (ns - os + srcs.length) - (os + eb)) = os + eb := by omega
    have hrl : os + sz - (os + sz - (ns - os + srcs.length) - (os + eb))
        = ns + eb + srcs.length := by omega
    rw [hfrom, hto, hcount] at htwo
    refine Ensures.bind (Ensures.onThrow (moveBackwardOverlapping_holds (by omega)
      (Set.Ico_subset_Ico (by omega) (by omega)) (Set.Ico_subset_Ico (by omega) (by omega))
      (by omega))) (fun _ => ?_)
    rw [hl, hrl, htwo]
    exact Ensures.bind (Ensures.onThrow (holds_fill (Set.Ico_subset_Ico (by omega) (by omega)) hs
      (fun src hsrc => (hr src hsrc).mono (Set.Ico_subset_Ico le_rfl (by omega)))))
      (fun _ => expandMoveForward_rest hns heb)

end MoveForward

end Slots
