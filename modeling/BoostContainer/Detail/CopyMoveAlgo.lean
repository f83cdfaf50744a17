import BoostContainer.Lib.SlotCells

/-!
# Insertion into a buffer

The algorithms by which contiguous containers make room for new elements: in a
new buffer, at one end of the elements where the memory next to it is raw, or
by shifting all elements of the buffer, towards its front or its back. What is
inserted is given by a proxy, from which the algorithms take elements in order:
a list of sources.

An algorithm mixes construction in raw slots with assignment to slots that
hold elements, so it has guards, which destroy what would be lost when it
throws. A guard is an object; what it destroys changes as the algorithm goes
on, and every statement is guarded by what the guards hold at that time, the
last one first.
-/

namespace Slots

variable {κ : Type} {α : Type*} (e : Env α)

/-- `scoped_destructor_n` and its kin, at the end of their scope; where nothing has
to be destroyed they are null. -/
def scopedDestructorN (p n : ℕ) : Prog (State κ α) Unit :=
  if e.trivialDestructor then pure () else destroyN e p n

/-- Elements that were moved from, whose destructor does nothing any more: it is not
called, and the slots are raw. -/
def abandonN (p n : ℕ) : Prog (State κ α) Unit := destroyN e p n

/-- `destroy_alloc`, of elements that were moved from, unless
`has_trivial_destructor_after_move`. -/
def destroyMoved (trivialDctrAfterMove : Bool) (p n : ℕ) : Prog (State κ α) Unit :=
  if trivialDctrAfterMove then abandonN e p n else destroyN e p n

/-- A `scoped_destructor_n` at the end of its scope, released before if
`has_trivial_destructor_after_move`. -/
def scopedDestroyMoved (trivialDctrAfterMove : Bool) (p n : ℕ) : Prog (State κ α) Unit :=
  if trivialDctrAfterMove then abandonN e p n else scopedDestructorN e p n

/-- `uninitialized_move_alloc` and `uninitialized_move_alloc_n`: `n` elements from `f`
on, to raw slots from `r` on. -/
def uninitializedMove (f n r : ℕ) : Prog (State κ α) Unit := uninitializedCopy e r (slots f n)

/-- `move`: `n` elements from `f` on, to elements from `r` on. -/
def moveForward (f n r : ℕ) : Prog (State κ α) Unit := copy e r (slots f n)

/-- `move_forward_overlapping` -/
def moveForwardOverlapping (f n r : ℕ) : Prog (State κ α) Unit :=
  if f ≠ r then moveForward e f n r else pure ()

/-- `move_backward_overlapping`: the `n` elements before `l`, to those before `rl`. -/
def moveBackwardOverlapping (l n rl : ℕ) : Prog (State κ α) Unit :=
  if l ≠ rl then moveBackward e l rl n else pure ()

/-- **`uninitialized_move_and_insert_alloc`**: elements of a buffer and new ones, to
another buffer. -/
def uninitializedMoveAndInsertAlloc (first pos last dFirst : ℕ) (srcs : List (Source α)) :
    Prog (State κ α) Unit := do
  uninitializedMove e first (pos - first) dFirst
  let dLast := dFirst + (pos - first)
  (uninitializedCopy e dLast srcs).onThrow (scopedDestructorN e dFirst (dLast - dFirst))
  let dLast := dLast + srcs.length
  (uninitializedMove e pos (last - pos) dLast).onThrow
    (scopedDestructorN e dFirst (dLast - dFirst))

/-! ## Towards one end -/

/-- `expand_backward_and_insert_nonempty_middle_alloc`, of a single value. -/
def expandBackwardAndInsertSingle (first pos : ℕ) (src : Source α) : Prog (State κ α) Unit := do
  construct e (first - 1) (.slot first)
  (moveForward e (first + 1) (pos - (first + 1)) first).onThrow
    (scopedDestructorN e (first - 1) 1)
  let aux := first + (pos - (first + 1))
  (copy e aux [src]).onThrow (scopedDestructorN e (first - 1) 1)

/-- `expand_backward_and_insert_nonempty_middle_alloc`, of a range. -/
def expandBackwardAndInsertRange (first pos : ℕ) (srcs : List (Source α)) :
    Prog (State κ α) Unit :=
  let n := srcs.length
  let elemsBefore := pos - first
  if n ≤ elemsBefore then do
    uninitializedMove e first n (first - n)
    (moveForward e (first + n) (pos - (first + n)) first).onThrow
      (scopedDestructorN e (first - n) n)
    let nxt := first + (pos - (first + n))
    (copy e nxt srcs).onThrow (scopedDestructorN e (first - n) n)
  else do
    uninitializedMove e first elemsBefore (first - n)
    let aux := first - n + elemsBefore
    (uninitializedCopy e aux (srcs.take (n - elemsBefore))).onThrow
      (scopedDestructorN e (first - n) elemsBefore)
    (copy e first (srcs.drop (n - elemsBefore))).onThrow
      (scopedDestructorN e (first - n) elemsBefore)

/-- `expand_forward_and_insert_nonempty_middle_alloc`, of a single value. -/
def expandForwardAndInsertSingle (pos last : ℕ) (src : Source α) : Prog (State κ α) Unit := do
  construct e last (.slot (last - 1))
  (moveBackward e (last - 1) last (last - 1 - pos)).onThrow (scopedDestructorN e last 1)
  (copy e pos [src]).onThrow (scopedDestructorN e last 1)

/-- `expand_forward_and_insert_nonempty_middle_alloc`, of a range. -/
def expandForwardAndInsertRange (pos last : ℕ) (srcs : List (Source α)) :
    Prog (State κ α) Unit :=
  let n := srcs.length
  let elemsAfter := last - pos
  if n ≤ elemsAfter then do
    uninitializedMove e (last - n) n last
    (moveBackward e (last - n) last (last - n - pos)).onThrow (scopedDestructorN e last n)
    (copy e pos srcs).onThrow (scopedDestructorN e last n)
  else do
    uninitializedMove e pos elemsAfter (pos + n)
    (copy e pos (srcs.take elemsAfter)).onThrow (scopedDestructorN e (pos + n) elemsAfter)
    (uninitializedCopy e last (srcs.drop elemsAfter)).onThrow
      (scopedDestructorN e (pos + n) elemsAfter)

/-- **`expand_forward_and_insert_alloc`**, of a range. -/
def expandForwardAndInsertAlloc (pos last : ℕ) (srcs : List (Source α)) :
    Prog (State κ α) Unit :=
  if last = pos then uninitializedCopy e last srcs
  else if srcs.length = 0 then pure ()
  else expandForwardAndInsertRange e pos last srcs

/-! ## All elements of a buffer -/

variable (trivialDctrAfterMove : Bool)

/-- **`expand_backward_forward_and_insert_alloc_move_backward`**: the elements are
shifted towards the front of the buffer. -/
def expandMoveBackward (oldStart oldSize newStart pos : ℕ) (srcs : List (Source α)) :
    Prog (State κ α) Unit :=
  let n := srcs.length
  let oldFinish := oldStart + oldSize
  let elemsBefore := pos - oldStart
  let rawBefore := oldStart - newStart
  let beforePlusNew := elemsBefore + n
  if beforePlusNew ≤ rawBefore then do
    (uninitializedMove e oldStart elemsBefore newStart).onThrow
      (scopedDestructorN e oldStart oldSize)
    (uninitializedCopy e (newStart + elemsBefore) srcs).onThrow do
      scopedDestructorN e newStart elemsBefore
      scopedDestructorN e oldStart oldSize
    let newSize := oldSize + n
    if newSize ≤ rawBefore then do
      (if beforePlusNew ≠ newSize then
        (uninitializedMove e pos (oldFinish - pos) (newStart + beforePlusNew)).onThrow do
          scopedDestructorN e newStart beforePlusNew
          scopedDestructorN e oldStart oldSize
        else pure ())
      scopedDestroyMoved e trivialDctrAfterMove oldStart oldSize
    else if !e.trivialDestructor then do
      let rawGap := rawBefore - beforePlusNew
      (uninitializedMove e pos rawGap (newStart + beforePlusNew)).onThrow do
        scopedDestructorN e newStart beforePlusNew
        scopedDestructorN e oldStart oldSize
      let rest := oldFinish - (pos + rawGap)
      (moveForwardOverlapping e (pos + rawGap) rest oldStart).onThrow
        (scopedDestructorN e (oldStart - rawBefore) (oldSize + rawBefore))
      destroyMoved e trivialDctrAfterMove (oldStart + rest) (oldFinish - (oldStart + rest))
    else
      (uninitializedMove e pos (oldFinish - pos) (newStart + beforePlusNew)).onThrow do
        scopedDestructorN e newStart beforePlusNew
        scopedDestructorN e oldStart oldSize
  else do
    let doAfter := rawBefore < n
    let all := scopedDestructorN e (oldStart - rawBefore) (oldSize + rawBefore)
    (if rawBefore ≤ elemsBefore then do
      (uninitializedMove e oldStart rawBefore newStart).onThrow
        (scopedDestructorN e oldStart oldSize)
      let new1stRange := if doAfter then rawBefore else n
      (moveForward e (oldStart + rawBefore) (elemsBefore - rawBefore) oldStart).onThrow all
      let next := oldStart + (elemsBefore - rawBefore)
      (copy e next (srcs.take new1stRange)).onThrow all
      (if ¬ doAfter then do
        let newFirst := next + new1stRange
        (moveForwardOverlapping e pos (oldFinish - pos) newFirst).onThrow all
        let p := newFirst + (oldFinish - pos)
        destroyMoved e trivialDctrAfterMove p (oldFinish - p)
      else pure ())
    else do
      (uninitializedMove e oldStart elemsBefore newStart).onThrow
        (scopedDestructorN e oldStart oldSize)
      let midN := rawBefore - elemsBefore
      (uninitializedCopy e (newStart + elemsBefore) (srcs.take midN)).onThrow do
        scopedDestructorN e newStart elemsBefore
        scopedDestructorN e oldStart oldSize
      (if doAfter then
        (copy e oldStart ((srcs.drop midN).take elemsBefore)).onThrow all
      else do
        let restNew := n - midN
        (copy e oldStart ((srcs.drop midN).take restNew)).onThrow all
        let moveStart := oldStart + restNew
        (moveForwardOverlapping e pos (oldFinish - pos) moveStart).onThrow all
        let moveEnd := moveStart + (oldFinish - pos)
        destroyMoved e trivialDctrAfterMove moveEnd (oldFinish - moveEnd)))
    (if doAfter then do
      let nAfter := n - rawBefore
      let elemsAfter := oldSize - elemsBefore
      let rest := srcs.drop rawBefore
      (if nAfter ≤ elemsAfter then do
        let finishN := oldFinish - nAfter
        let allAfter :=
          scopedDestructorN e (oldStart - rawBefore) (oldSize + rawBefore + nAfter)
        (uninitializedMove e finishN nAfter oldFinish).onThrow all
        (moveBackwardOverlapping e finishN (finishN - pos) oldFinish).onThrow allAfter
        (copy e pos (rest.take nAfter)).onThrow allAfter
      else do
        let midLastDist := nAfter - elemsAfter
        let midLast := oldFinish + midLastDist
        (uninitializedMove e pos elemsAfter midLast).onThrow all
        (copy e pos (rest.take elemsAfter)).onThrow do
          scopedDestructorN e midLast elemsAfter
          all
        (uninitializedCopy e oldFinish ((rest.drop elemsAfter).take midLastDist)).onThrow do
          scopedDestructorN e midLast elemsAfter
          all)
    else pure ())

/-- **`expand_backward_forward_and_insert_alloc_move_forward`**: the elements are
shifted towards the back of the buffer, or not at all. -/
def expandMoveForward (oldStart oldSize newStart pos : ℕ) (srcs : List (Source α)) :
    Prog (State κ α) Unit :=
  let n := srcs.length
  let oldFinish := oldStart + oldSize
  let newSize := oldSize + n
  let newFinish := newStart + newSize
  let elemsAfter := oldFinish - pos
  let rawAfter := newFinish - oldFinish
  let afterPlusNew := elemsAfter + n
  if afterPlusNew ≤ rawAfter then do
    let newElemPos := newFinish - afterPlusNew
    (uninitializedCopy e newElemPos srcs).onThrow (scopedDestructorN e oldStart oldSize)
    (uninitializedMove e pos elemsAfter (newElemPos + n)).onThrow do
      scopedDestructorN e newElemPos n
      scopedDestructorN e oldStart oldSize
    if newSize ≤ rawAfter then do
      (uninitializedMove e oldStart (pos - oldStart) newStart).onThrow do
        scopedDestructorN e newElemPos afterPlusNew
        scopedDestructorN e oldStart oldSize
      scopedDestroyMoved e trivialDctrAfterMove oldStart oldSize
    else do
      let rawGap := rawAfter - afterPlusNew
      let prePosRaw := pos - rawGap
      (uninitializedMove e prePosRaw rawGap oldFinish).onThrow do
        scopedDestructorN e newElemPos afterPlusNew
        scopedDestructorN e oldStart oldSize
      (moveBackwardOverlapping e prePosRaw (prePosRaw - oldStart) oldFinish).onThrow
        (scopedDestructorN e oldStart (oldSize + rawAfter))
      destroyMoved e trivialDctrAfterMove oldStart (newStart - oldStart)
  else do
    -- the size grows, and the start goes back by as much
    let all := scopedDestructorN e (oldStart - rawAfter) (oldSize + rawAfter)
    if elemsAfter < rawAfter then do
      let p := newFinish - elemsAfter
      (uninitializedMove e pos elemsAfter p).onThrow (scopedDestructorN e oldStart oldSize)
      let midN := rawAfter - elemsAfter
      let restNew := n - midN
      let newRngStart := oldFinish - restNew
      (copy e newRngStart (srcs.take restNew)).onThrow do
        scopedDestructorN e p elemsAfter
        scopedDestructorN e oldStart oldSize
      (uninitializedCopy e oldFinish ((srcs.drop restNew).take midN)).onThrow do
        scopedDestructorN e p elemsAfter
        scopedDestructorN e oldStart oldSize
      (moveBackwardOverlapping e pos (pos - oldStart) newRngStart).onThrow all
      destroyMoved e trivialDctrAfterMove oldStart (newRngStart - (pos - oldStart) - oldStart)
    else do
      let oldEndPivot := oldFinish - rawAfter
      (uninitializedMove e oldEndPivot rawAfter oldFinish).onThrow
        (scopedDestructorN e oldStart oldSize)
      (moveBackwardOverlapping e oldEndPivot (oldEndPivot - pos) oldFinish).onThrow all
      let newEndPos := oldFinish - (oldEndPivot - pos)
      let newBegPos := newEndPos - n
      (copy e newBegPos srcs).onThrow all
      (moveBackwardOverlapping e pos (pos - oldStart) newBegPos).onThrow all
      destroyMoved e trivialDctrAfterMove oldStart (newBegPos - (pos - oldStart) - oldStart)

/-- **`expand_backward_forward_and_insert_alloc`** -/
def expandBackwardForwardAndInsertAlloc (oldStart oldSize newStart pos : ℕ)
    (srcs : List (Source α)) : Prog (State κ α) Unit :=
  if newStart < oldStart then
    expandMoveBackward e trivialDctrAfterMove oldStart oldSize newStart pos srcs
  else expandMoveForward e trivialDctrAfterMove oldStart oldSize newStart pos srcs

end Slots
