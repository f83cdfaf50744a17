import BoostContainer.Detail.CopyMoveEnds
import BoostContainer.Detail.NextCapacity
import BoostContainer.Devector.Devector

/-!
# Insertion into a devector

New elements go where the least has to be moved: to the end or to the start if
there is room, or between elements, of which those before the position or
those after it are moved. Where there is no room on that side, all elements
are shifted, to the middle of the buffer if enough of it would stay free, or
to the middle of a new one.

Whatever the path, the sequence grows by the new elements at the position, and
the iterator that is returned is at the first of them.
-/

open Slots

namespace Devector

variable {α : Type*}

/-- **What a devector is made with.** -/
structure Traits where
  /-- The bits of `size_type`. -/
  width : ℕ
  /-- `growth_factor_type` -/
  growthFactor : NextCapacity.GrowthFactor width
  /-- `devector_min_free_fraction` -/
  minFreeFraction : ℕ
  /-- `allocator_traits::max_size` -/
  maxSize : ℕ
  /-- `stored_size_type(-1)` -/
  storedMax : ℕ
  /-- The allocator. -/
  allocator : ℕ
  /-- `has_trivial_destructor_after_move` -/
  trivialDctrAfterMove : Bool
  maxSize_lt : maxSize < 2 ^ width

variable (e : Env α) (T : Traits)

/-- `calculate_new_capacity` -/
def calculateNewCapacity (m : Impl) (requestedCapacity : ℕ) : Prog (State Impl α) ℕ :=
  let max := min T.maxSize T.storedMax
  let remainingAdditionalCap := max - m.capacity
  let minAdditionalCap := requestedCapacity - m.capacity
  if remainingAdditionalCap < minAdditionalCap then Prog.throw
  else pure (T.growthFactor.grow m.capacity minAdditionalCap max)

/-- `do_allocate` -/
def allocateBuffer (cap : ℕ) : Prog (State Impl α) ℕ :=
  if cap ≠ 0 then
    if T.storedMax < cap then Prog.throw else allocate e T.allocator cap
  else pure 0

/-- `deallocate_buffer`, and an `allocation_guard` at the end of its scope. -/
def deallocateBuffer (buffer cap : ℕ) : Prog (State Impl α) Unit :=
  if buffer ≠ 0 then deallocate buffer cap else pure ()

/-- The start of the elements after they were shifted to another front index. The unsigned
difference of the indices is converted to `ptrdiff_t`. -/
def newRawBeg (m : Impl) (newFrontIdx : ℕ) : ℕ :=
  ((m.rawBegin : ℤ) - ((m.frontIdx : ℤ) - newFrontIdx)).toNat

/-- **`insert_range_slow_path`** -/
def insertRangeSlowPath (p : ℕ) (srcs : List (Source α)) : Prog (State Impl α) ℕ := do
  let m ← object
  let n := srcs.length
  let freeCap := m.frontFreeCapacity + m.backFreeCapacity
  let index := p - m.rawBegin
  (if n ≤ freeCap ∧ m.capacity / T.minFreeFraction ≤ freeCap - n then do
    let oldSize := m.size
    let newSize := oldSize + n
    let newFrontIdx := (m.capacity - newSize) / 2
    setObject fun m => { m with frontIdx := 0, backIdx := 0 }
    expandBackwardForwardAndInsertAlloc e T.trivialDctrAfterMove m.rawBegin oldSize
      (newRawBeg m newFrontIdx) p srcs
    setObject fun m => { m with frontIdx := newFrontIdx, backIdx := newFrontIdx + newSize }
  else do
    let newCapacity ← calculateNewCapacity T m (m.capacity + n)
    let newBuffer ← allocateBuffer e T newCapacity
    let oldSize := m.size
    let newFrontIndex := (newCapacity - oldSize - n) / 2
    (uninitializedMoveAndInsertAlloc e m.rawBegin p m.rawEnd (newBuffer + newFrontIndex)
      srcs).onThrow (deallocateBuffer newBuffer newCapacity)
    destroyElements e m.rawBegin m.rawEnd
    deallocateBuffer m.buffer m.capacity
    setObject fun m => { m with
      capacity := newCapacity
      buffer := newBuffer
      backIdx := newFrontIndex + oldSize + n
      frontIdx := newFrontIndex })
  let m ← object
  pure (m.rawBegin + index)

/-- `should_move_back` -/
def shouldMoveBack (m : Impl) (p : ℕ) : Prop := m.size / 2 ≤ p - m.rawBegin

instance (m : Impl) (p : ℕ) : Decidable (shouldMoveBack m p) :=
  inferInstanceAs (Decidable (_ ≤ _))

/-- **`insert_range`**, of a forward range. -/
def insertRange (position : ℕ) (srcs : List (Source α)) : Prog (State Impl α) ℕ := do
  let m ← object
  let n := srcs.length
  if n = 0 then pure (m.rawBegin + (position - m.rawBegin))
  else if position = m.rawEnd then
    if n ≤ m.backFreeCapacity then do
      uninitializedCopy e m.rawEnd srcs
      setObject fun m => { m with backIdx := m.backIdx + n }
      pure m.rawEnd
    else insertRangeSlowPath e T position srcs
  else if position = m.rawBegin then
    if n ≤ m.frontFreeCapacity then do
      uninitializedCopy e (m.rawBegin - n) srcs
      setObject fun m => { m with frontIdx := m.frontIdx - n }
      let m ← object
      pure m.rawBegin
    else insertRangeSlowPath e T position srcs
  else if shouldMoveBack m position then
    if n ≤ m.backFreeCapacity then do
      expandForwardAndInsertRange e position m.rawEnd srcs
      setObject fun m => { m with backIdx := m.backIdx + n }
      pure position
    else insertRangeSlowPath e T position srcs
  else if n ≤ m.frontFreeCapacity then do
    expandBackwardAndInsertRange e m.rawBegin position srcs
    setObject fun m => { m with frontIdx := m.frontIdx - n }
    pure (position - n)
  else insertRangeSlowPath e T position srcs

/-- **`emplace`** -/
def emplace (position : ℕ) (src : Source α) : Prog (State Impl α) ℕ := do
  let m ← object
  if position = m.rawEnd then
    if m.backFreeCapacity ≠ 0 then do
      construct e m.rawEnd src
      setObject fun m => { m with backIdx := m.backIdx + 1 }
      pure m.rawEnd
    else insertRangeSlowPath e T position [src]
  else if position = m.rawBegin then
    if m.frontFreeCapacity ≠ 0 then do
      construct e (m.rawBegin - 1) src
      setObject fun m => { m with frontIdx := m.frontIdx - 1 }
      pure (m.rawBegin - 1)
    else insertRangeSlowPath e T position [src]
  else if shouldMoveBack m position then
    if m.backFreeCapacity ≠ 0 then do
      expandForwardAndInsertSingle e position m.rawEnd src
      setObject fun m => { m with backIdx := m.backIdx + 1 }
      pure position
    else insertRangeSlowPath e T position [src]
  else if m.frontFreeCapacity ≠ 0 then do
    expandBackwardAndInsertSingle e m.rawBegin position src
    setObject fun m => { m with frontIdx := m.frontIdx - 1 }
    pure (position - 1)
  else insertRangeSlowPath e T position [src]

/-! ## The slow path -/

section Insert

variable {e T} {s₀ s : State Impl α} {S₀ own live : Set ℕ} {m : Impl} {c : Cells α}
  {pre vs suf xs : List α} {srcs : List (Source α)} {src : Source α} {n cap buffer p : ℕ}
  {E : State Impl α → Prop}

/-- **What an insertion promises**: the new elements are among the others, and an iterator to
the first of them is returned. -/
def Inserted (e : Env α) (s₀ : State Impl α) (S₀ : Set ℕ) (pre vs suf : List α) (r : ℕ)
    (s : State Impl α) : Prop :=
  ∃ m, Contains e s₀ S₀ m (pre ++ vs ++ suf) s ∧ r = m.rawBegin + pre.length

theorem newRawBeg_eq (m : Impl) (n : ℕ) : newRawBeg m n = m.buffer + n := by
  unfold newRawBeg Impl.rawBegin
  omega

/-- A new capacity is enough, and no more than can be stored. -/
theorem calculateNewCapacity_holds (hn : n ≠ 0) :
    Ensures e (Holds e.trivialDestructor s₀ S₀ m own live c)
      (calculateNewCapacity T m (m.capacity + n))
      (fun cap s => (m.capacity + n ≤ cap ∧ cap ≤ T.storedMax)
        ∧ Holds e.trivialDestructor s₀ S₀ m own live c s)
      (Holds e.trivialDestructor s₀ S₀ m own live c) := by
  unfold calculateNewCapacity
  dsimp only
  rw [Nat.add_sub_cancel_left]
  refine Ensures.ite (fun _ => ensures_of_meets (Prog.meets_throw (fun _ => id))) (fun hle => ?_)
  have hmax : min T.maxSize T.storedMax < 2 ^ T.width :=
    (Nat.min_le_left _ _).trans_lt T.maxSize_lt
  have hfit : m.capacity + n ≤ min T.maxSize T.storedMax := by omega
  exact ensures_pure (fun s hs => ⟨⟨T.growthFactor.le_grow hfit hmax,
    (T.growthFactor.grow_le hfit hmax).trans (Nat.min_le_right _ _)⟩, hs⟩)

/-- A buffer is allocated, apart from what there is. -/
theorem allocateBuffer_holds (hn : n ≠ 0) (hfit : n ≤ T.storedMax) :
    Ensures e (Holds e.trivialDestructor s₀ S₀ m own live c) (allocateBuffer e T n)
      (fun p s => (p ≠ 0 ∧ Disjoint own (Set.Ico p (p + n)))
        ∧ Holds e.trivialDestructor s₀ S₀ m (own ∪ Set.Ico p (p + n)) live c s)
      (Holds e.trivialDestructor s₀ S₀ m own live c) := by
  unfold allocateBuffer
  rw [if_pos hn, if_neg (by omega)]
  exact holds_allocate

/-- A buffer without elements is given back, if there is one. -/
theorem deallocateBuffer_holds (hnull : buffer = 0 → cap = 0)
    (hin : Set.Ico buffer (buffer + cap) ⊆ own)
    (hl : Disjoint live (Set.Ico buffer (buffer + cap))) :
    Ensures e (Holds e.trivialDestructor s₀ S₀ m own live c) (deallocateBuffer buffer cap)
      (fun _ => Holds e.trivialDestructor s₀ S₀ m (own \ Set.Ico buffer (buffer + cap)) live
        (clearCells buffer cap c)) E := by
  unfold deallocateBuffer
  refine Ensures.ite (fun _ => holds_deallocate hin hl) (fun h => ?_)
  have hb : buffer = 0 := not_not.mp h
  have hclear : clearCells buffer 0 c = c := funext (fun q => clearCells_of_notMem (by omega))
  rw [hnull hb, Nat.add_zero, Set.Ico_self, Set.sdiff_empty, hclear]
  exact ensures_pure (fun _ => id)

/-- A devector that was made is read once more. -/
theorem object_inserted (g : Impl → ℕ) (h : ∀ m, g m = m.rawBegin + pre.length) :
    Ensures e (fun s => ∃ m, Contains e s₀ S₀ m (pre ++ vs ++ suf) s)
      (do
        let m ← object
        pure (g m))
      (Inserted e s₀ S₀ pre vs suf) E := by
  refine fun s ⟨m, hm⟩ => ?_
  have hobj := hm.owns.object_eq
  have hrun : Inserted e s₀ S₀ pre vs suf (g s.object) s := ⟨m, hm, by rw [hobj, h m]⟩
  exact ⟨hrun, fun _ => hrun⟩

/-- A devector is given by where its elements are. -/
theorem contains_of_holdsOn {b l : ℕ} (hb : b = m.buffer + m.frontIdx)
    (hl : l = m.buffer + m.backIdx) (hm : m.Sound) (hlen : xs.length = m.size)
    (h : HoldsOn e.trivialDestructor s₀ S₀ m m.slots (Set.Ico b l) c s) (hlist : At c b xs) :
    Contains e s₀ S₀ m xs s := by
  subst hb hl
  have hend : m.buffer + m.frontIdx + xs.length = m.buffer + m.backIdx := by
    have := hm.front_le
    rw [hlen]
    unfold Impl.size
    omega
  exact ⟨hm, hlen, h.choose_spec.1.owns, h.at hlist (Set.Ico_subset_Ico le_rfl hend.le)⟩

section Path

variable (hm : m.Sound) (hlen : (pre ++ suf).length = m.size) (hc : At c m.rawBegin (pre ++ suf))
  (hext : ∀ src ∈ srcs, src.External) (hr : Reads c srcs vs) (hn : srcs.length ≠ 0)

include hm hlen hc hext hr hn

/-- **`insert_range_slow_path` inserts**, unless elements would be shifted to where they are
(which the callers rule out). -/
theorem insertRangeSlowPath_inserts (hne : pre = [] → suf = [] ∨ m.frontIdx < srcs.length) :
    Ensures e (Holds e.trivialDestructor s₀ S₀ m m.slots m.elements c)
      (insertRangeSlowPath e T (m.rawBegin + pre.length) srcs)
      (Inserted e s₀ S₀ pre vs suf) (Contains e s₀ S₀ m (pre ++ suf)) := by
  have hfront := hm.front_le
  have hback := hm.back_le
  have hvs := hr.length_eq
  have hnew : (pre ++ vs ++ suf).length = m.size + srcs.length := by
    rw [← hlen, hvs]
    simp only [List.length_append]
    omega
  have hsize : m.size = m.backIdx - m.frontIdx := rfl
  have helems : m.elements = Set.Ico m.rawBegin (m.rawBegin + m.size) := by
    rw [← hm.rawEnd_eq]
    rfl
  have hread : ∀ (live : Set ℕ), ∀ src ∈ srcs, src.Readable live :=
    fun _ src hsrc => (hext src hsrc).readable
  have heb : pre.length ≤ m.size := by
    rw [← hlen, List.length_append]
    omega
  unfold insertRangeSlowPath
  refine holds_object_bind ?_
  dsimp only
  rw [Nat.add_sub_cancel_left]
  refine Ensures.bind (R := fun _ s => ∃ m, Contains e s₀ S₀ m (pre ++ vs ++ suf) s)
    (Ensures.ite (fun hfits => ?_) (fun hfull => ?_)) (fun _ => object_inserted _ (fun _ => rfl))
  · have hfree : srcs.length ≤ m.frontIdx + (m.capacity - m.backIdx) := hfits.1
    obtain ⟨nf, hnf⟩ : ∃ nf, nf = (m.capacity - (m.size + srcs.length)) / 2 := ⟨_, rfl⟩
    have hbegin : m.rawBegin = m.buffer + m.frontIdx := rfl
    rw [← hnf, newRawBeg_eq, helems]
    refine Ensures.bind holds_setObject (fun _ => Ensures.bind
      (expandBackwardForward_holds (Set.Ico_subset_Ico ?_ ?_) (Or.inl hext) (hread _) heb ?_)
      (fun _ => holdsOn_setObject.post (fun _ s h => ⟨{ m with
        frontIdx := nf, backIdx := nf + (m.size + srcs.length) }, ?_⟩)))
    · exact le_min (Nat.le_add_right _ _) (Nat.le_add_right _ _)
    · refine max_le ?_ ?_
      · omega
      · omega
    · intro ht hlt heq hpre
      have hpre₀ := List.length_eq_zero_iff.mp hpre
      rcases hne hpre₀ with hsuf | hlt'
      · rw [← hlen, hpre₀, hsuf]
        rfl
      · omega
    · refine contains_of_holdsOn rfl ?_ ⟨Nat.le_add_right _ _, ?_, hm.null_iff⟩ ?_ h ?_
      · exact Nat.add_assoc _ _ _
      · show nf + (m.size + srcs.length) ≤ m.capacity
        omega
      · exact hnew.trans (Nat.add_sub_cancel_left _ _).symm
      · rw [← hlen]
        exact at_insertedCells hc (readsInserted_of_external hext hr)
  · refine Ensures.bind ((calculateNewCapacity_holds hn).conseq (fun _ => id) (fun _ _ => id)
      (fun s h => ⟨hm, hlen, h.owns, h.cells_eq ▸ hc⟩)) (fun cap =>
        Ensures.of_pre (fun hcap => ?_))
    refine Ensures.bind ((allocateBuffer_holds (by omega) hcap.2).conseq (fun _ => id)
      (fun _ _ => id) (fun s h => ⟨hm, hlen, h.owns, h.cells_eq ▸ hc⟩)) (fun b =>
        Ensures.of_pre (fun hb => ?_))
    obtain ⟨nf, hnf⟩ : ∃ nf, nf = (cap - m.size - srcs.length) / 2 := ⟨_, rfl⟩
    rw [← hnf, hm.rawEnd_eq, helems]
    have hfit : nf + (m.size + srcs.length) ≤ cap := by omega
    have hin : Set.Ico (b + nf) (b + nf + (m.size + srcs.length)) ⊆ Set.Ico b (b + cap) :=
      Set.Ico_subset_Ico (by omega) (by omega)
    have hold : Set.Ico m.rawBegin (m.rawBegin + m.size) ⊆ m.slots :=
      helems ▸ hm.elements_sub
    have hapart := hb.2.mono hold hin
    refine Ensures.bind (Ensures.onThrow (uninitializedMoveAndInsertAlloc_holds heb
      (hin.trans Set.subset_union_right) hapart (Or.inl hext) (hread _))) (fun _ => ?_)
    unfold destroyElements
    rw [Nat.add_sub_cancel_left]
    refine Ensures.bind (holds_destroyN Set.subset_union_left) (fun _ => ?_)
    refine Ensures.bind (deallocateBuffer_holds hm.null_iff.mp Set.subset_union_left ?_)
      (fun _ => holds_setObject.post (fun _ s h => ⟨{ m with
        capacity := cap
        buffer := b
        backIdx := nf + m.size + srcs.length
        frontIdx := nf }, ?_⟩))
    · rw [Set.union_sdiff_left]
      exact (hb.2.mono_right (Set.sdiff_subset.trans hin)).symm
    · have howned : (m.slots ∪ Set.Ico b (b + cap)) \ Set.Ico m.buffer (m.buffer + m.capacity)
          = Set.Ico b (b + cap) := by
        show (m.slots ∪ Set.Ico b (b + cap)) \ m.slots = _
        rw [Set.union_sdiff_left, hb.2.sdiff_eq_right]
      rw [howned, Set.union_sdiff_left, hapart.sdiff_eq_right] at h
      refine contains_of_holdsOn rfl ?_ ⟨?_, ?_, iff_of_false hb.1 (by show cap ≠ 0; omega)⟩ ?_
        h.on ?_
      · show b + nf + (m.size + srcs.length) = b + (nf + m.size + srcs.length)
        omega
      · show nf ≤ nf + m.size + srcs.length
        omega
      · show nf + m.size + srcs.length ≤ cap
        omega
      · show (pre ++ vs ++ suf).length = nf + m.size + srcs.length - nf
        omega
      · have hlist := at_shiftedCells_of_disjoint hc (hlen.symm ▸ hapart)
          (hr.of_external hext (moveCells e m.rawBegin (b + nf) pre.length c))
        rw [hlen] at hlist
        have hnew' : Set.Ico (b + nf) (b + nf + (pre ++ vs ++ suf).length)
            ⊆ Set.Ico b (b + cap) := by
          rw [hnew]
          exact hin
        exact (hlist.clearCells_of_apart (hb.2.mono hold hnew')).clearCells_of_apart
          (hb.2.mono subset_rfl hnew')

omit hc hext hn in
/-- New elements took raw slots after the last element. -/
theorem insertedBack {a : Prog (State Impl α) Unit} {rest : Prog (State Impl α) ℕ} {d : Cells α}
    {Q : ℕ → State Impl α → Prop} (hfit : srcs.length ≤ m.capacity - m.backIdx)
    (ha : Ensures e (Holds e.trivialDestructor s₀ S₀ m m.slots m.elements c) a
      (fun _ => Holds e.trivialDestructor s₀ S₀ m m.slots
        (Set.Ico m.rawBegin (m.rawEnd + srcs.length)) d) E)
    (hlist : At d m.rawBegin (pre ++ vs ++ suf))
    (hrest : Ensures e (Contains e s₀ S₀ { m with backIdx := m.backIdx + srcs.length }
      (pre ++ vs ++ suf)) rest Q E) :
    Ensures e (Holds e.trivialDestructor s₀ S₀ m m.slots m.elements c)
      (do
        a
        setObject fun m => { m with backIdx := m.backIdx + srcs.length }
        rest) Q E := by
  have hfront := hm.front_le
  have hback := hm.back_le
  have hvs := hr.length_eq
  have hsize : m.size = m.backIdx - m.frontIdx := rfl
  refine Ensures.bind ha (fun _ => Ensures.bind (holds_setObject.post (fun _ s h => ?_))
    (fun _ => hrest))
  refine contains_of_holdsOn rfl ?_ ⟨?_, ?_, hm.null_iff⟩ ?_ h.on hlist
  · exact Nat.add_assoc _ _ _
  · exact hfront.trans (Nat.le_add_right _ _)
  · show m.backIdx + srcs.length ≤ m.capacity
    omega
  · show (pre ++ vs ++ suf).length = m.backIdx + srcs.length - m.frontIdx
    rw [List.length_append] at hlen
    rw [List.length_append, List.length_append]
    omega

omit hc hext hn in
/-- New elements took raw slots before the first element. -/
theorem insertedFront {a : Prog (State Impl α) Unit} {rest : Prog (State Impl α) ℕ} {d : Cells α}
    {Q : ℕ → State Impl α → Prop} (hfit : srcs.length ≤ m.frontIdx)
    (ha : Ensures e (Holds e.trivialDestructor s₀ S₀ m m.slots m.elements c) a
      (fun _ => Holds e.trivialDestructor s₀ S₀ m m.slots
        (Set.Ico (m.rawBegin - srcs.length) m.rawEnd) d) E)
    (hlist : At d (m.rawBegin - srcs.length) (pre ++ vs ++ suf))
    (hrest : Ensures e (Contains e s₀ S₀ { m with frontIdx := m.frontIdx - srcs.length }
      (pre ++ vs ++ suf)) rest Q E) :
    Ensures e (Holds e.trivialDestructor s₀ S₀ m m.slots m.elements c)
      (do
        a
        setObject fun m => { m with frontIdx := m.frontIdx - srcs.length }
        rest) Q E := by
  have hfront := hm.front_le
  have hback := hm.back_le
  have hvs := hr.length_eq
  have hsize : m.size = m.backIdx - m.frontIdx := rfl
  have hbegin : m.rawBegin - srcs.length = m.buffer + (m.frontIdx - srcs.length) := by
    unfold Impl.rawBegin
    omega
  refine Ensures.bind ha (fun _ => Ensures.bind (holds_setObject.post (fun _ s h => ?_))
    (fun _ => hrest))
  refine contains_of_holdsOn hbegin rfl ⟨?_, hback, hm.null_iff⟩ ?_ h.on hlist
  · exact (Nat.sub_le _ _).trans hfront
  · show (pre ++ vs ++ suf).length = m.backIdx - (m.frontIdx - srcs.length)
    rw [List.length_append] at hlen
    rw [List.length_append, List.length_append]
    omega

omit hn in
/-- **`insert_range` inserts**, on each of its paths. -/
theorem insertRange_inserts :
    Ensures e (Holds e.trivialDestructor s₀ S₀ m m.slots m.elements c)
      (insertRange e T (m.rawBegin + pre.length) srcs)
      (Inserted e s₀ S₀ pre vs suf) (Contains e s₀ S₀ m (pre ++ suf)) := by
  have hfront := hm.front_le
  have hback := hm.back_le
  have hvs := hr.length_eq
  have hsize : m.size = m.backIdx - m.frontIdx := rfl
  have hbegin : m.rawBegin = m.buffer + m.frontIdx := rfl
  have hend := hm.rawEnd_eq
  have happ : pre.length + suf.length = m.size := by rw [← hlen, List.length_append]
  have hnew : (pre ++ vs ++ suf).length = m.size + srcs.length := by
    rw [← happ, hvs]
    simp only [List.length_append]
    omega
  have helems : m.elements = Set.Ico m.rawBegin (m.rawBegin + m.size) := by
    rw [← hend]
    rfl
  have hslots : m.slots = Set.Ico m.buffer (m.buffer + m.capacity) := rfl
  have hread : ∀ (live : Set ℕ), ∀ src ∈ srcs, src.Readable live :=
    fun _ src hsrc => (hext src hsrc).readable
  unfold insertRange
  refine holds_object_bind ?_
  dsimp only
  refine Ensures.ite (fun hzero => ?_) (fun hn => ?_)
  · have hvs₀ : vs = [] := List.length_eq_zero_iff.mp (hvs.symm.trans hzero)
    refine ensures_pure (fun s h => ⟨m, ⟨hm, ?_, h.owns, ?_⟩, by rw [Nat.add_sub_cancel_left]⟩)
    · rw [hnew, hzero]
      rfl
    · rw [h.cells_eq, hvs₀, List.append_nil]
      exact hc
  refine Ensures.ite (fun hpos => ?_) (fun hpos => ?_)
  · have hsuf : suf = [] := List.length_eq_zero_iff.mp (by omega)
    subst hsuf
    refine Ensures.ite (fun hfit => ?_) (fun _ =>
      insertRangeSlowPath_inserts hm hlen hc hext hr hn (fun _ => Or.inl rfl))
    have hfit' : srcs.length ≤ m.capacity - m.backIdx := hfit
    refine insertedBack hm hlen hr hfit ((holds_uninitializedFill ?_
      (Set.disjoint_left.mpr (fun q hq hq' => absurd hq'.1 (Nat.not_le.mpr hq.2))) (Or.inl hext)
      (hread _)).post (fun _ s h => h.congr ?_)) ?_
      (ensures_pure (fun s h => ⟨_, h, hpos.symm⟩))
    · exact Set.Ico_subset_Ico (by omega) (by unfold Impl.rawEnd; omega)
    · rw [helems]
      ext q
      simp only [Set.mem_union, Set.mem_Ico]
      omega
    · rw [List.append_nil] at hc ⊢
      refine at_append.mpr ⟨hc.fillCells_of_disjoint (by omega), ?_⟩
      rw [hpos]
      exact hr.at_fillCells
  refine Ensures.ite (fun hpos' => ?_) (fun hpos' => ?_)
  · have hpre : pre = [] := List.length_eq_zero_iff.mp (by omega)
    subst hpre
    refine Ensures.ite (fun hfit => ?_) (fun hfull =>
      insertRangeSlowPath_inserts hm hlen hc hext hr hn (fun _ => Or.inr (Nat.lt_of_not_le hfull)))
    have hfit' : srcs.length ≤ m.frontIdx := hfit
    have hstart : m.rawBegin - srcs.length + srcs.length = m.rawBegin := by omega
    refine insertedFront hm hlen hr hfit ((holds_uninitializedFill ?_
      (Set.disjoint_left.mpr (fun q hq hq' => ?_)) (Or.inl hext) (hread _)).post
        (fun _ s h => h.congr ?_)) ?_
      ((object_inserted Impl.rawBegin (fun _ => rfl)).pre (fun s h => ⟨_, h⟩))
    · exact Set.Ico_subset_Ico (by omega) (by unfold Impl.rawBegin; omega)
    · rw [helems, Set.mem_Ico] at hq
      rw [Set.mem_Ico] at hq'
      omega
    · rw [helems, hend]
      ext q
      simp only [Set.mem_union, Set.mem_Ico]
      omega
    · refine at_append.mpr ⟨hr.at_fillCells, ?_⟩
      have hafter : m.rawBegin - srcs.length + ([] ++ vs).length = m.rawBegin := by
        rw [List.nil_append, ← hvs, hstart]
      rw [hafter]
      exact At.fillCells_of_disjoint hc (by omega)
  have hslow : pre = [] → suf = [] ∨ m.frontIdx < srcs.length :=
    fun hpre => absurd (by rw [hpre]; rfl) hpos'
  refine Ensures.ite (fun _ => Ensures.ite (fun hfit => ?_) (fun _ =>
      insertRangeSlowPath_inserts hm hlen hc hext hr hn hslow))
    (fun _ => Ensures.ite (fun hfit => ?_) (fun _ =>
      insertRangeSlowPath_inserts hm hlen hc hext hr hn hslow))
  · have hfit' : srcs.length ≤ m.capacity - m.backIdx := hfit
    have hafter : m.rawEnd - (m.rawBegin + pre.length) = suf.length := by omega
    refine insertedBack hm hlen hr hfit (expandForwardAndInsertRange_holds (by omega) (by omega) ?_
      (Or.inl hext) (hread _) hn) ?_ (ensures_pure (fun s h => ⟨_, h, rfl⟩))
    · exact Set.Ico_subset_Ico (by omega) (by unfold Impl.rawEnd; omega)
    · rw [hafter]
      exact at_openedCells hc (hr.of_external hext _)
  · have hfit' : srcs.length ≤ m.frontIdx := hfit
    have hstart : m.rawBegin - srcs.length + srcs.length = m.rawBegin := by omega
    refine insertedFront hm hlen hr hfit ?_
      (at_drawnCells (e := e) hc hstart (hr.of_external hext _))
      (ensures_pure (fun s h => ⟨_, h, ?_⟩))
    · rw [helems, hend]
      exact expandBackwardAndInsertRange_holds hstart (by omega) (by omega) hn
        (Set.Ico_subset_Ico (by omega) (by omega)) (Or.inl hext) (hread _)
    · show m.rawBegin + pre.length - srcs.length
        = m.buffer + (m.frontIdx - srcs.length) + pre.length
      omega

omit hn in
/-- **`emplace` inserts** one element, on each of its paths. -/
theorem emplace_inserts (hone : srcs = [src]) :
    Ensures e (Holds e.trivialDestructor s₀ S₀ m m.slots m.elements c)
      (emplace e T (m.rawBegin + pre.length) src)
      (Inserted e s₀ S₀ pre vs suf) (Contains e s₀ S₀ m (pre ++ suf)) := by
  have hfront := hm.front_le
  have hback := hm.back_le
  have hvs := hr.length_eq
  have hn : srcs.length = 1 := by rw [hone, List.length_singleton]
  have hsize : m.size = m.backIdx - m.frontIdx := rfl
  have hbegin : m.rawBegin = m.buffer + m.frontIdx := rfl
  have hend := hm.rawEnd_eq
  have happ : pre.length + suf.length = m.size := by rw [← hlen, List.length_append]
  have helems : m.elements = Set.Ico m.rawBegin (m.rawBegin + m.size) := by
    rw [← hend]
    rfl
  have hsrc : src.External := hext src (hone ▸ List.mem_cons_self)
  have hsteady : Steady [src] := hone ▸ Or.inl hext
  have hread : ∀ (live : Set ℕ), ∀ src ∈ srcs, src.Readable live :=
    fun _ src hsrc => (hext src hsrc).readable
  have hslow : (pre = [] → suf = [] ∨ m.frontIdx < srcs.length) →
      Ensures e (Holds e.trivialDestructor s₀ S₀ m m.slots m.elements c)
        (insertRangeSlowPath e T (m.rawBegin + pre.length) [src])
        (Inserted e s₀ S₀ pre vs suf) (Contains e s₀ S₀ m (pre ++ suf)) :=
    fun hne => hone ▸ insertRangeSlowPath_inserts hm hlen hc hext hr (by omega) hne
  have hopen : ∀ {own live : Set ℕ} {q : ℕ}, q ∈ own → q ∉ live →
      Ensures e (Holds e.trivialDestructor s₀ S₀ m own live c) (construct e q src)
        (fun _ => Holds e.trivialDestructor s₀ S₀ m own (insert q live) (fillCells q srcs c))
        (Contains e s₀ S₀ m (pre ++ suf)) :=
    fun hq hl => hone ▸ holds_constructFill hq hl hsteady hsrc.readable
  unfold emplace
  refine holds_object_bind ?_
  rw [← hn]
  refine Ensures.ite (fun hpos => ?_) (fun hpos => ?_)
  · have hsuf : suf = [] := List.length_eq_zero_iff.mp (by omega)
    subst hsuf
    refine Ensures.ite (fun hfit => ?_) (fun _ => hslow (fun _ => Or.inl rfl))
    have hfit' : m.capacity - m.backIdx ≠ 0 := hfit
    have hin : m.rawEnd ∈ m.slots := ⟨Nat.le_add_right _ _, Nat.add_lt_add_left (by omega) _⟩
    have hout : m.rawEnd ∉ m.elements := fun h => absurd h.2 (lt_irrefl _)
    refine insertedBack hm hlen hr (by omega) ((hopen hin hout).post
      (fun _ s h => h.congr ?_)) ?_ (ensures_pure (fun s h => ⟨_, h, hpos.symm⟩))
    · rw [helems]
      ext q
      simp only [Set.mem_insert_iff, Set.mem_Ico]
      omega
    · rw [List.append_nil] at hc ⊢
      refine at_append.mpr ⟨hc.fillCells_of_disjoint (by omega), ?_⟩
      rw [hpos]
      exact hr.at_fillCells
  refine Ensures.ite (fun hpos' => ?_) (fun hpos' => ?_)
  · have hpre : pre = [] := List.length_eq_zero_iff.mp (by omega)
    subst hpre
    refine Ensures.ite (fun hfit => ?_) (fun hfull => hslow (fun _ => Or.inr ?_))
    · have hfit' : m.frontIdx ≠ 0 := hfit
      have hstart : m.rawBegin - srcs.length + srcs.length = m.rawBegin := by omega
      have hin : m.rawBegin - srcs.length ∈ m.slots := ⟨by omega, by omega⟩
      have hout : m.rawBegin - srcs.length ∉ m.elements := by
        rw [helems, Set.mem_Ico]
        omega
      refine insertedFront hm hlen hr (by omega) ((hopen hin hout).post
        (fun _ s h => h.congr ?_)) ?_ (ensures_pure (fun s h => ⟨_, h, ?_⟩))
      · rw [helems, hend]
        ext q
        simp only [Set.mem_insert_iff, Set.mem_Ico]
        omega
      · refine at_append.mpr ⟨hr.at_fillCells, ?_⟩
        have hafter : m.rawBegin - srcs.length + ([] ++ vs).length = m.rawBegin := by
          rw [List.nil_append, ← hvs, hstart]
        rw [hafter]
        exact At.fillCells_of_disjoint hc (by omega)
      · show m.rawBegin - srcs.length = m.buffer + (m.frontIdx - srcs.length) + 0
        omega
    · have hfull' : ¬ m.frontIdx ≠ 0 := hfull
      omega
  have hmid : pre = [] → suf = [] ∨ m.frontIdx < srcs.length :=
    fun hpre => absurd (by rw [hpre]; rfl) hpos'
  refine Ensures.ite (fun _ => Ensures.ite (fun hfit => ?_) (fun _ => hslow hmid))
    (fun _ => Ensures.ite (fun hfit => ?_) (fun _ => hslow hmid))
  · have hfit' : m.capacity - m.backIdx ≠ 0 := hfit
    have hafter : m.rawEnd - (m.rawBegin + pre.length) = suf.length := by omega
    refine insertedBack hm hlen hr (by omega) (expandForwardAndInsertSingle_holds (by omega)
      (by omega) ?_ (Or.inl hext) (hread _) hone) ?_ (ensures_pure (fun s h => ⟨_, h, rfl⟩))
    · exact Set.Ico_subset_Ico (by omega) (by unfold Impl.rawEnd; omega)
    · rw [hafter]
      exact at_openedCells hc (hr.of_external hext _)
  · have hfit' : m.frontIdx ≠ 0 := hfit
    have hstart : m.rawBegin - srcs.length + srcs.length = m.rawBegin := by omega
    refine insertedFront hm hlen hr (by omega) ?_
      (at_drawnCells (e := e) hc hstart (hr.of_external hext _))
      (ensures_pure (fun s h => ⟨_, h, ?_⟩))
    · rw [helems, hend]
      exact expandBackwardAndInsertSingle_holds hstart (by omega) (by omega) (by omega)
        (Set.Ico_subset_Ico (by omega) (by omega)) (Or.inl hext) (hread _) hone
    · show m.rawBegin + pre.length - srcs.length
        = m.buffer + (m.frontIdx - srcs.length) + pre.length
      omega

end Path

/-- What an insertion does to a valid devector. -/
def Refines (e : Env α) (s : State Impl α) (xs vs : List α) (k : ℕ)
    (a : Prog (State Impl α) ℕ) : Prop :=
  (a s).Permits (Inserted e s s.object.slots (xs.take k) vs (xs.drop k)) (fun _ => True)
    ∧ (e.fuse = none → (a s).Meets (Inserted e s s.object.slots (xs.take k) vs (xs.drop k))
      (Contains e s s.object.slots s.object xs))

/-- The default options. -/
def defaultTraits : Traits where
  width := 64
  growthFactor := NextCapacity.growthFactor60 64
  minFreeFraction := 10
  maxSize := 2 ^ 60
  storedMax := 2 ^ 64 - 1
  allocator := 0
  trivialDctrAfterMove := false
  maxSize_lt := Nat.pow_lt_pow_right Nat.one_lt_two (by omega)

end Insert

end Devector
