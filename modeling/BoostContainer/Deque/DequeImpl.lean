import BoostContainer.Deque.DequeReserve

/-!
# Insertion, erasure and construction of a deque

The operations of `deque_impl` that touch elements. An iterator is a map and an
offset: the node and the element it points to are read where they are used. A
pointer loop that does not reach its end has no defined behaviour.

What an insertion inserts comes from a proxy, which gives its values one after
the other, to construct elements or to assign to them.
-/

open Slots

namespace DequeImpl

section Programs

variable {α : Type*} (o : Options) (rot : Rotation) (e : Env α)

/-! ## Ranges of elements -/

/-- The element at an offset of a map. -/
def elementIn (map : List (Option ℕ)) (off : ℕ) : Prog (State Members α) ℕ := do
  let p ← nodeIn map (off / o.blockSize)
  pure (p + off % o.blockSize)

/-- `prot_destroy_range`, from the pointer `p + i` to the pointer `p + j`. -/
def protDestroySegment (p i j : ℕ) : Prog (State Members α) Unit :=
  if e.trivialDestructor then pure ()
  else if i ≤ j then destroyN e (p + i) (j - i)
  else Prog.undefined

/-- The elements of `n` nodes are destroyed. -/
def destroyNodes (map : List (Option ℕ)) (nstart : ℕ) : ℕ → Prog (State Members α) Unit
  | 0 => pure ()
  | n + 1 => do
    let p ← nodeIn map nstart
    protDestroySegment e p 0 o.blockSize
    destroyNodes map (nstart + 1) n

/-- **`prot_destroy_range`**, from the iterator at `start` to that at `finish`. -/
def protDestroyRange (map : List (Option ℕ)) (start finish : ℕ) : Prog (State Members α) Unit :=
  if e.trivialDestructor = true ∨ map = [] then pure ()
  else do
    let startNode := start / o.blockSize
    let finishNode := finish / o.blockSize
    destroyNodes o e map (startNode + 1) (finishNode - (startNode + 1))
    if startNode ≠ finishNode then do
      let p ← nodeIn map startNode
      protDestroySegment e p (start % o.blockSize) o.blockSize
      let p ← nodeIn map finishNode
      protDestroySegment e p 0 (finish % o.blockSize)
    else do
      let p ← nodeIn map startNode
      protDestroySegment e p (start % o.blockSize) (finish % o.blockSize)

/-- `n` elements from `off` on are destroyed, one by one. -/
def destroyOffsets (map : List (Option ℕ)) (off : ℕ) : ℕ → Prog (State Members α) Unit
  | 0 => pure ()
  | n + 1 => do
    let p ← elementIn o map off
    destroy e p
    destroyOffsets map (off + 1) n

/-- The loop of `uninitialized_move_alloc_n` and `uninitialized_copy_alloc_n` to an
iterator. What it constructed so far starts at `back`, and is destroyed when it
throws. -/
def uninitializedToLoop (map : List (Option ℕ)) (back dest : ℕ) :
    List (Source α) → Prog (State Members α) Unit
  | [] => pure ()
  | src :: srcs => do
    let p ← elementIn o map dest
    (construct e p src).onThrow (destroyOffsets o e map back (dest - back))
    uninitializedToLoop map back (dest + 1) srcs

/-- `uninitialized_move_alloc_n` and `uninitialized_copy_alloc_n`, to an iterator. -/
def uninitializedTo (map : List (Option ℕ)) (dest : ℕ) (srcs : List (Source α)) :
    Prog (State Members α) Unit :=
  uninitializedToLoop o e map dest dest srcs

/-- `move_n`, to an iterator. -/
def moveNTo (map : List (Option ℕ)) (f dest : ℕ) : ℕ → Prog (State Members α) Unit
  | 0 => pure ()
  | n + 1 => do
    let p ← elementIn o map dest
    assign e p (.slot f)
    moveNTo map (f + 1) (dest + 1) n

/-- `move_backward_n`, of the elements before the pointer `l`, to an iterator. -/
def moveBackwardNTo (map : List (Option ℕ)) (l destLast : ℕ) : ℕ → Prog (State Members α) Unit
  | 0 => pure ()
  | n + 1 => do
    let p ← elementIn o map (destLast - 1)
    assign e p (.slot (l - 1))
    moveBackwardNTo map (l - 1) (destLast - 1) n

/-- `priv_segmented_uninitialized_move_alloc_n` and
`priv_segmented_uninitialized_copy_alloc_n`: `sources` are what elements in
memory are moved or copied from. The cleanup is given the range that was read. -/
def privSegmentedUninitializedAllocN (sources : ℕ → ℕ → List (Source α))
    (srcMap : List (Option ℕ)) (first n : ℕ) (map : List (Option ℕ)) (dest : ℕ) :
    Prog (State Members α) Unit :=
  forSegmentsN o.blockSize o.blockSize_pos (fun off cnt =>
    (do
      let p ← elementIn o srcMap off
      uninitializedTo o e map (dest + (off - first)) (sources p cnt)).onThrow
      (protDestroyRange o e srcMap first (off / o.blockSize * o.blockSize))) first n

/-- `priv_segmented_uninitialized_move_alloc_n`, of one element or of `n`. -/
def privSegmentedUninitializedMoveAllocN (single : Bool) (map : List (Option ℕ))
    (first n dest : ℕ) : Prog (State Members α) Unit :=
  if single then do
    let q ← elementIn o map dest
    let p ← elementIn o map first
    construct e q (.slot p)
  else privSegmentedUninitializedAllocN o e slots map first n map dest

/-- `priv_segmented_uninitialized_copy_alloc_n`, from another deque. -/
def privSegmentedUninitializedCopyAllocN (srcMap : List (Option ℕ)) (first n : ℕ)
    (map : List (Option ℕ)) (dest : ℕ) : Prog (State Members α) Unit :=
  privSegmentedUninitializedAllocN o e copies srcMap first n map dest

/-- **`priv_segmented_move_n`** -/
def privSegmentedMoveN (map : List (Option ℕ)) (first n dest : ℕ) :
    Prog (State Members α) ℕ := do
  forSegmentsN o.blockSize o.blockSize_pos (fun off cnt => do
    let p ← elementIn o map off
    moveNTo o e map p (dest + (off - first)) cnt) first n
  pure (dest + n)

/-- **`priv_segmented_move_backward_n`** -/
def privSegmentedMoveBackwardN (map : List (Option ℕ)) (last n destLast : ℕ) :
    Prog (State Members α) ℕ := do
  forSegmentsBackward o.blockSize o.blockSize_pos (fun off cnt => do
    let p ← elementIn o map (off - cnt)
    moveBackwardNTo o e map (p + cnt) (destLast - (last - off)) cnt) last n
  pure (destLast - n)

/-! ## Insertion -/

/-- **What is inserted**: the values of a range, copies among them, one value, or
what a constructor makes of its arguments. -/
inductive InsertProxy (α : Type*)
  | range (vs : List α)
  | value (v : α)
  | emplace (v : α)

namespace InsertProxy

variable {α : Type*}

/-- `is_single_value_proxy` -/
def single : InsertProxy α → Bool
  | range _ => false
  | _ => true

/-- What elements are constructed from. -/
def constructed : InsertProxy α → List (Source α)
  | range vs => vs.map .value
  | value v => [.value v]
  | emplace v => [.value v]

/-- What is assigned to elements. -/
def assigned : InsertProxy α → List (Source α)
  | range vs => vs.map .value
  | value v => [.value v]
  | emplace v => [.temporary v]

/-- How many elements are inserted. -/
def size (proxy : InsertProxy α) : ℕ := proxy.constructed.length

end InsertProxy

/-- **`priv_segmented_proxy_uninitialized_copy_n_and_update`** -/
def privSegmentedProxyUninitializedCopyNAndUpdate (single : Bool) (map : List (Option ℕ))
    (first : ℕ) (srcs : List (Source α)) : Prog (State Members α) Unit :=
  if single then do
    let p ← elementIn o map first
    uninitializedCopy e p srcs
  else forSegments o.blockSize o.blockSize_pos (fun off part =>
    (do
      let p ← elementIn o map off
      uninitializedCopy e p part).onThrow
      (protDestroyRange o e map first (off / o.blockSize * o.blockSize))) first srcs

/-- **`priv_segmented_proxy_copy_n_and_update`** -/
def privSegmentedProxyCopyNAndUpdate (single : Bool) (map : List (Option ℕ)) (first : ℕ)
    (srcs : List (Source α)) : Prog (State Members α) Unit :=
  if single then do
    let p ← elementIn o map first
    copy e p srcs
  else forSegments o.blockSize o.blockSize_pos (fun off part => do
    let p ← elementIn o map off
    copy e p part) first srcs

/-- `priv_insert_segmented_uninitialized_copy_n_and_update` -/
def privInsertSegmentedUninitializedCopyNAndUpdate (single : Bool) (map : List (Option ℕ))
    (first : ℕ) (srcs : List (Source α)) : Prog (State Members α) Unit :=
  (privSegmentedProxyUninitializedCopyNAndUpdate o e single map first srcs).onThrow
    (protDeallocateNodesIfNotReservable o (first / o.blockSize + 1)
      ((first + srcs.length) / o.blockSize + 1))

/-- **`priv_insert_back_aux_impl`** -/
def privInsertBackAuxImpl (proxy : InsertProxy α) : Prog (State Members α) ℕ := do
  privReserveElementsAtBack o rot e proxy.size
  let k ← object
  privInsertSegmentedUninitializedCopyNAndUpdate o e proxy.single k.map k.finishOff
    proxy.constructed
  setObject (Members.protIncFinish o proxy.size)
  pure k.finishOff

/-- **`priv_insert_front_aux_impl`** -/
def privInsertFrontAuxImpl (proxy : InsertProxy α) : Prog (State Members α) ℕ := do
  privReserveElementsAtFront o rot e proxy.size
  let k ← object
  privInsertSegmentedUninitializedCopyNAndUpdate o e proxy.single k.map
    (k.startOff - proxy.size) proxy.constructed
  setObject (Members.decStart o proxy.size)
  pure (k.startOff - proxy.size)

/-- **`emplace_back`**, and what calls it. -/
def emplaceBack (v : α) : Prog (State Members α) Unit := do
  let k ← object
  if k.map ≠ [] ∧ k.finishOff % o.blockSize ≠ o.blockSize - 1 then do
    let p ← elementIn o k.map k.finishOff
    construct e p (.value v)
    setObject (Members.protIncFinish o 1)
  else do
    let _ ← privInsertBackAuxImpl o rot e (.emplace v)
    pure ()

/-- **`emplace_front`**, and what calls it. -/
def emplaceFront (v : α) : Prog (State Members α) Unit := do
  let k ← object
  if k.startOff % o.blockSize ≠ 0 then do
    let p ← nodeIn k.map (k.startOff / o.blockSize)
    construct e (p + (k.startOff % o.blockSize - 1)) (.value v)
    setObject (Members.decStart o 1)
  else do
    let _ ← privInsertFrontAuxImpl o rot e (.emplace v)
    pure ()

/-- `priv_insert_middle_aux_impl`, where the elements before are moved. -/
def insertMiddleMovingFront (elemsbefore : ℕ) (proxy : InsertProxy α) :
    Prog (State Members α) ℕ := do
  let n := proxy.size
  privReserveElementsAtFront o rot e n
  let k ← object
  let oldStart := k.startOff
  let newStart := oldStart - n
  if proxy.single = true ∨ n ≤ elemsbefore then do
    (privSegmentedUninitializedMoveAllocN o e proxy.single k.map oldStart n newStart).onThrow
      (protDeallocateNodesIfNotReservable o (newStart / o.blockSize) (oldStart / o.blockSize))
    setObject (Members.decStart o n)
    let p ← privSegmentedMoveN o e k.map (oldStart + n) (elemsbefore - n) oldStart
    privSegmentedProxyCopyNAndUpdate o e proxy.single k.map p proxy.assigned
    pure p
  else do
    let midCount := n - elemsbefore
    let midStart := oldStart - midCount
    (do
      privSegmentedProxyUninitializedCopyNAndUpdate o e proxy.single k.map midStart
        (proxy.constructed.take midCount)
      setObject (Members.decStart o midCount)
      privSegmentedUninitializedMoveAllocN o e false k.map oldStart elemsbefore newStart).onThrow
      (protDeallocateNodesIfNotReservable o (newStart / o.blockSize) (oldStart / o.blockSize))
    setObject (Members.decStart o (n - midCount))
    privSegmentedProxyCopyNAndUpdate o e proxy.single k.map oldStart (proxy.assigned.drop midCount)
    pure midStart

/-- `priv_insert_middle_aux_impl`, where the elements after are moved. -/
def insertMiddleMovingBack (elemsbefore length : ℕ) (proxy : InsertProxy α) :
    Prog (State Members α) ℕ := do
  let n := proxy.size
  privReserveElementsAtBack o rot e n
  let k ← object
  let oldFinish := k.finishOff
  let elemsafter := length - elemsbefore
  if proxy.single = true ∨ n ≤ elemsafter then do
    (privSegmentedUninitializedMoveAllocN o e proxy.single k.map (oldFinish - n) n
      oldFinish).onThrow
      (protDeallocateNodesIfNotReservable o (oldFinish / o.blockSize + 1)
        ((oldFinish + n) / o.blockSize + 1))
    setObject (Members.protIncFinish o n)
    let _ ← privSegmentedMoveBackwardN o e k.map (oldFinish - n) (elemsafter - n) oldFinish
    privSegmentedProxyCopyNAndUpdate o e proxy.single k.map (oldFinish - n - (elemsafter - n))
      proxy.assigned
    pure (oldFinish - n - (elemsafter - n))
  else do
    let rawGap := n - elemsafter
    let pos := oldFinish - elemsafter
    (do
      privSegmentedUninitializedMoveAllocN o e false k.map pos elemsafter (oldFinish + rawGap)
      (do
        privSegmentedProxyCopyNAndUpdate o e proxy.single k.map pos
          (proxy.assigned.take elemsafter)
        privSegmentedProxyUninitializedCopyNAndUpdate o e proxy.single k.map oldFinish
          (proxy.constructed.drop elemsafter)).onThrow
        (protDestroyRange o e k.map oldFinish (oldFinish + elemsafter))).onThrow
      (protDeallocateNodesIfNotReservable o (oldFinish / o.blockSize + 1)
        ((oldFinish + n) / o.blockSize + 1))
    setObject (Members.protIncFinish o n)
    pure pos

/-- **`priv_insert_middle_aux_impl`** -/
def privInsertMiddleAuxImpl (elemsbefore : ℕ) (proxy : InsertProxy α) :
    Prog (State Members α) ℕ := do
  let k ← object
  if o.singleEnded = false ∧ elemsbefore < k.protSize / 2 then
    insertMiddleMovingFront o rot e elemsbefore proxy
  else insertMiddleMovingBack o rot e elemsbefore k.protSize proxy

/-- **`priv_insert_aux_impl`**, given how many elements are before the position. -/
def privInsertAuxImpl (elemsbefore : ℕ) (proxy : InsertProxy α) : Prog (State Members α) ℕ := do
  let k ← object
  if elemsbefore = k.protSize then privInsertBackAuxImpl o rot e proxy
  else if o.singleEnded = false ∧ elemsbefore = 0 then privInsertFrontAuxImpl o rot e proxy
  else privInsertMiddleAuxImpl o rot e elemsbefore proxy

/-! ## Erasure -/

/-- `prot_deallocate_node_if_not_reservable` -/
def protDeallocateNodeIfNotReservable (p : ℕ) : Prog (State Members α) Unit :=
  if o.reservable then pure () else protDeallocateNode o p

/-- The loop of `clear`, over `n` nodes full of elements. -/
def clearNodes (map : List (Option ℕ)) (nstart : ℕ) : ℕ → Prog (State Members α) Unit
  | 0 => pure ()
  | n + 1 => do
    let p ← nodeIn map nstart
    protDestroySegment e p 0 o.blockSize
    protDeallocateNodeIfNotReservable o p
    clearNodes map (nstart + 1) n

/-- **`clear`** -/
def clear : Prog (State Members α) Unit := do
  let k ← object
  if k.startOff = k.finishOff then pure ()
  else do
    let startNode := k.protStartNode o
    let finishNode := k.protFinishNode o
    clearNodes o e k.map (startNode + 1) (finishNode - (startNode + 1))
    if startNode ≠ finishNode then do
      let p ← nodeIn k.map startNode
      protDestroySegment e p (k.startOff % o.blockSize) o.blockSize
      let p ← nodeIn k.map finishNode
      protDestroySegment e p 0 (k.finishOff % o.blockSize)
      protDeallocateNodeIfNotReservable o p
    else do
      let p ← nodeIn k.map startNode
      protDestroySegment e p (k.startOff % o.blockSize) (k.finishOff % o.blockSize)
    setObject fun k => { k with finishOff := k.startOff }

/-- **`erase`**, of the range between two offsets. -/
def eraseRange (first last : ℕ) : Prog (State Members α) ℕ := do
  let k ← object
  let n := last - first
  if n = k.protSize then do
    clear o e
    let k ← object
    pure k.finishOff
  else do
    let elemsBefore := first - k.startOff
    let elemsAfter := k.protSize - n - elemsBefore
    if o.singleEnded = false ∧ elemsBefore < elemsAfter then do
      let newStart ← privSegmentedMoveBackwardN o e k.map first elemsBefore last
      protDestroyRange o e k.map k.startOff newStart
      protDeallocateNodesIfNotReservable o (k.startOff / o.blockSize) (newStart / o.blockSize)
      setObject (Members.incStart o n)
    else do
      let newFinish ← privSegmentedMoveN o e k.map last elemsAfter first
      protDestroyRange o e k.map newFinish k.finishOff
      protDeallocateNodesIfNotReservable o (newFinish / o.blockSize + 1)
        (k.finishOff / o.blockSize + 1)
      setObject (Members.protDecFinish o n)
    let k ← object
    pure (k.startOff + elemsBefore)

/-! ## Construction from another deque -/

/-- The members of a deque that has nothing. -/
def Members.null (a : ℕ) : Members := ⟨a, [], 0, 0, 0⟩

/-- The constructors that copy the elements of another deque, or move them: when
they throw the destructor of `deque_base` runs. -/
def constructFrom (sources : ℕ → ℕ → List (Source α)) (x : Members) :
    Prog (State Members α) Unit :=
  (if x.protSize ≠ 0 then do
    protInitializeMapAndNodes o e x.protSize
    let k ← object
    privSegmentedUninitializedAllocN o e sources x.map x.startOff x.protSize k.map k.startOff
  else pure ()).onThrow (destroyBase o)

/-- **`deque_impl(const deque_impl&)`**, and the constructor that takes an
allocator as well. -/
def copyConstruct (x : Members) : Prog (State Members α) Unit := constructFrom o e copies x

/-- **`deque_impl(BOOST_RV_REF(deque_impl), const allocator_type&)`**: what is left
of the other deque. -/
def moveConstruct (x : Members) : Prog (State Members α) Members := do
  let k ← object
  if x.alloc = k.alloc then do
    setObject fun _ => x
    pure k
  else do
    constructFrom o e slots x
    pure x

end Programs

end DequeImpl
