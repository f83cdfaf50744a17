import BoostContainer.Lib.Blocks

/-!
# The map of a deque

`deque_base` keeps the elements of a deque in nodes of one block size, and the
addresses of its nodes in an array, the map. Two offsets, counted through all
blocks of the map, tell where the elements start and where they end. A deque
of four kinds is one class: `reservable` deques own a node for every place of
the map, others only those from the start node to the finish node, and
single-ended deques start at offset 0.

Memory of maps holds no elements, so a map is a list here, and what is asked
for it is a request. A place of the map that was never written is `none`; to
read it has no defined behaviour, nor has to read or write outside of a map.
Sizes are numbers, and casts to the stored size type are where the code has
them.

`rotate_gcd` is not part of the repository: it is what rotates a range.
-/

open Slots

namespace DequeImpl

/-- **The options of a deque**, and what its allocator allows. -/
structure Options where
  /-- `get_block_size()` -/
  blockSize : ℕ
  blockSize_pos : 0 < blockSize
  /-- `is_reservable` -/
  reservable : Bool
  /-- `is_single_ended` -/
  singleEnded : Bool
  /-- The width of `stored_size_type`. -/
  storedBits : ℕ
  /-- `allocator_traits::max_size` -/
  allocMaxSize : ℕ

/-- **The members of a deque**: `m_map` is empty when it is null. -/
structure Members where
  alloc : ℕ
  map : List (Option ℕ)
  mapSize : ℕ
  startOff : ℕ
  finishOff : ℕ

/-- **`boost::movelib::rotate_gcd`**: the ranges `[a, m)` and `[m, b)` change
places. -/
structure Rotation where
  rotateGcd : List (Option ℕ) → ℕ → ℕ → ℕ → List (Option ℕ)
  rotateGcd_eq : ∀ (l : List (Option ℕ)) (a m b : ℕ), a ≤ m → m ≤ b → b ≤ l.length →
    rotateGcd l a m b
      = l.take a ++ (l.drop m).take (b - m) ++ (l.drop a).take (m - a) ++ l.drop b

/-- A cast to `stored_size_type`. -/
def Options.stored (o : Options) (v : ℕ) : ℕ := v % 2 ^ o.storedBits

/-- The largest offset, of `test_size_against_max`. -/
def Options.maxSize (o : Options) : ℕ := min o.allocMaxSize (2 ^ o.storedBits - 1)

/-- `InitialMapSize` -/
def initialMapSize : ℕ := 4

namespace Members

/-- `set_start_off` -/
def setStartOff (o : Options) (v : ℕ) (k : Members) : Members :=
  if o.singleEnded then k else { k with startOff := o.stored v }

/-- `inc_start` -/
def incStart (o : Options) (n : ℕ) (k : Members) : Members :=
  if o.singleEnded then k else { k with startOff := o.stored (k.startOff + n) }

/-- `dec_start` -/
def decStart (o : Options) (n : ℕ) (k : Members) : Members :=
  if o.singleEnded then k else { k with startOff := o.stored (k.startOff - n) }

/-- `prot_inc_finish` -/
def protIncFinish (o : Options) (n : ℕ) (k : Members) : Members :=
  { k with finishOff := o.stored (k.finishOff + n) }

/-- `prot_dec_finish` -/
def protDecFinish (o : Options) (n : ℕ) (k : Members) : Members :=
  { k with finishOff := o.stored (k.finishOff - n) }

/-- `prot_start_node` -/
def protStartNode (o : Options) (k : Members) : ℕ := k.startOff / o.blockSize

/-- `prot_finish_node` -/
def protFinishNode (o : Options) (k : Members) : ℕ := k.finishOff / o.blockSize

/-- `prot_start_update_node` -/
def protStartUpdateNode (o : Options) (newStart : ℕ) (k : Members) : Members :=
  k.setStartOff o (o.stored (newStart * o.blockSize) + k.startOff % o.blockSize)

/-- `prot_finish_update_node` -/
def protFinishUpdateNode (o : Options) (newFinish : ℕ) (k : Members) : Members :=
  { k with finishOff :=
      o.stored (o.stored (newFinish * o.blockSize) + k.finishOff % o.blockSize) }

/-- `prot_size` -/
def protSize (k : Members) : ℕ := k.finishOff - k.startOff

/-- `prot_front_free_capacity` -/
def protFrontFreeCapacity (o : Options) (k : Members) : ℕ :=
  if o.reservable then k.startOff else k.startOff % o.blockSize

/-- `prot_back_free_capacity` -/
def protBackFreeCapacity (o : Options) (k : Members) : ℕ :=
  if o.reservable then
    k.mapSize * o.blockSize - (if k.map = [] then 0 else 1) - k.finishOff
  else if k.map = [] then 0 else (o.blockSize - 1) - k.finishOff % o.blockSize

end Members

/-- Entries of a map, written over those of another from `b` on. -/
def moveEntries (src : List (Option ℕ)) (a n : ℕ) (dst : List (Option ℕ)) (b : ℕ) :
    List (Option ℕ) :=
  dst.take b ++ (src.drop a).take n ++ dst.drop (b + n)

/-- Nodes, written into a map from `start` on. -/
def writeNodes (map : List (Option ℕ)) (start : ℕ) (nodes : List ℕ) : List (Option ℕ) :=
  moveEntries (nodes.map some) 0 nodes.length map start

/-- `priv_new_offset`, of a double-ended deque. -/
def privNewOffset (addAtFront : Bool) (mapSize activeNodes additionalNodes : ℕ) : ℕ :=
  (mapSize - activeNodes) / 2 + if addAtFront then additionalNodes else 0

section Programs

variable {α : Type*} (o : Options) (rot : Rotation) (e : Env α)

/-- The node at a place of a map. -/
def nodeIn (map : List (Option ℕ)) (i : ℕ) : Prog (State Members α) ℕ :=
  match map[i]? with
  | some (some p) => pure p
  | _ => Prog.undefined

/-- `n` places of a map, from `a` on, are read or written: outside of the map
that has no defined behaviour. -/
def within (map : List (Option ℕ)) (a n : ℕ) : Prog (State Members α) Unit :=
  if a + n ≤ map.length then pure () else Prog.undefined

/-- The `n` places of a map before place `b`. -/
def withinBefore (map : List (Option ℕ)) (b n : ℕ) : Prog (State Members α) Unit :=
  if n ≤ b ∧ b ≤ map.length then pure () else Prog.undefined

/-- `test_size_against_max` -/
def testSizeAgainstMax (n : ℕ) : Prog (State Members α) Unit :=
  if o.maxSize < n then Prog.throw else pure ()

/-- `test_size_against_n_nodes` -/
def testSizeAgainstNNodes (nNodes : ℕ) : Prog (State Members α) Unit :=
  testSizeAgainstMax o (nNodes * o.blockSize - 1)

/-- `prot_allocate_map` -/
def protAllocateMap (_n : ℕ) : Prog (State Members α) Unit := request e

/-- `prot_allocate_node` -/
def protAllocateNode : Prog (State Members α) ℕ := do
  let k ← object
  allocate e k.alloc o.blockSize

/-- `prot_deallocate_node` -/
def protDeallocateNode (p : ℕ) : Prog (State Members α) Unit := deallocate p o.blockSize

/-- The cleanup of `prot_allocate_nodes`. -/
def deallocateAll : List ℕ → Prog (State Members α) Unit
  | [] => pure ()
  | p :: ps => do
    protDeallocateNode o p
    deallocateAll ps

/-- The loop of `prot_allocate_nodes`, which has allocated `nodes`. -/
def protAllocateNodesLoop (nodes : List ℕ) : ℕ → Prog (State Members α) (List ℕ)
  | 0 => pure nodes
  | n + 1 => do
    let p ← (protAllocateNode o e).onThrow (deallocateAll o nodes)
    protAllocateNodesLoop (nodes ++ [p]) n

/-- **`prot_allocate_nodes`**: all nodes or none. -/
def protAllocateNodes (n : ℕ) : Prog (State Members α) (List ℕ) :=
  protAllocateNodesLoop o e [] n

/-- The loop of `prot_deallocate_nodes`, over `n` places of the map. -/
def protDeallocateNodesLoop (map : List (Option ℕ)) (nstart : ℕ) :
    ℕ → Prog (State Members α) Unit
  | 0 => pure ()
  | n + 1 => do
    let p ← nodeIn map nstart
    protDeallocateNode o p
    protDeallocateNodesLoop map (nstart + 1) n

/-- `prot_deallocate_nodes` -/
def protDeallocateNodes (nstart nfinish : ℕ) : Prog (State Members α) Unit := do
  let k ← object
  protDeallocateNodesLoop o k.map nstart (nfinish - nstart)

/-- `prot_deallocate_nodes_if_not_reservable` -/
def protDeallocateNodesIfNotReservable (nstart nfinish : ℕ) : Prog (State Members α) Unit :=
  if o.reservable then pure () else protDeallocateNodes o nstart nfinish

/-- `prot_deallocate_all_nodes` -/
def protDeallocateAllNodes : Prog (State Members α) Unit := do
  let k ← object
  if o.reservable then protDeallocateNodes o 0 k.mapSize
  else protDeallocateNodes o (k.protStartNode o) (k.protFinishNode o + 1)

/-- The destructor of `deque_base`, after which there is nothing to read. -/
def destroyBase : Prog (State Members α) Unit := do
  let k ← object
  if k.map = [] then pure () else protDeallocateAllNodes o

/-! ## Making room -/

/-- **`prot_initialize_map_and_nodes`** -/
def protInitializeMapAndNodes (numElements : ℕ) : Prog (State Members α) Unit := do
  let numNodes := numElements / o.blockSize + 1
  let mapSize := max initialMapSize
    (numNodes + if o.reservable then 0 else 1 + if o.singleEnded then 0 else 1)
  let startMapPos := if o.singleEnded then 0 else (mapSize - numNodes) / 2
  testSizeAgainstNNodes o mapSize
  protAllocateMap e mapSize
  setObject fun k => { k with map := List.replicate mapSize none, mapSize := o.stored mapSize }
  within (List.replicate mapSize none) (if o.reservable then 0 else startMapPos)
    (if o.reservable then mapSize else numNodes)
  let nodes ← (protAllocateNodes o e (if o.reservable then mapSize else numNodes)).onThrow
    (setObject fun k => { k with map := [], mapSize := 0 })
  setObject fun k =>
    { k with map := writeNodes k.map (if o.reservable then 0 else startMapPos) nodes }
  setObject fun k => k.setStartOff o (o.stored (startMapPos * o.blockSize))
  setObject fun k => { k with finishOff := o.stored (k.startOff + numElements) }

/-- `prot_reallocate_map_and_nodes`, reservable and single-ended. -/
def reallocateReservableSingleEnded (newElems : ℕ) : Prog (State Members α) Unit := do
  let k ← object
  let additionalNodes := (newElems - 1) / o.blockSize + 1
  let newActiveNodes := k.mapSize + additionalNodes
  let newMapSize := max (k.mapSize + k.mapSize / 2) (newActiveNodes + 2)
  testSizeAgainstNNodes o newMapSize
  protAllocateMap e newMapSize
  within (List.replicate newMapSize none) k.mapSize (newMapSize - k.mapSize)
  let nodes ← protAllocateNodes o e (newMapSize - k.mapSize)
  let newMap := writeNodes (List.replicate newMapSize none) k.mapSize nodes
  within k.map 0 k.mapSize
  within newMap 0 k.mapSize
  setObject fun k =>
    { k with map := moveEntries k.map 0 k.mapSize newMap 0, mapSize := o.stored newMapSize }

/-- `prot_reallocate_map_and_nodes`, not reservable and single-ended. -/
def reallocateSingleEnded (newElems : ℕ) : Prog (State Members α) Unit := do
  let additionalNodes := (newElems - 1) / o.blockSize + 1
  let k ← object
  let oldActiveNodes := k.protFinishNode o + 1
  let unusedSlots := k.mapSize - oldActiveNodes
  if additionalNodes > unusedSlots then
    let newActiveNodes := oldActiveNodes + additionalNodes
    let newMapSize := max (k.mapSize * 2) (newActiveNodes + 2)
    testSizeAgainstNNodes o newMapSize
    protAllocateMap e newMapSize
    within k.map 0 oldActiveNodes
    within (List.replicate newMapSize none) 0 oldActiveNodes
    setObject fun k => { k with
      map := moveEntries k.map 0 oldActiveNodes (List.replicate newMapSize none) 0
      mapSize := o.stored newMapSize }
  let k ← object
  within k.map (k.protFinishNode o + 1) additionalNodes
  let nodes ← protAllocateNodes o e additionalNodes
  setObject fun k => { k with map := writeNodes k.map (k.protFinishNode o + 1) nodes }

/-- The active nodes of a map, rotated to a place where other nodes are. -/
def rotateNodes (map : List (Option ℕ)) (start active newStart : ℕ) : List (Option ℕ) :=
  if newStart < start then rot.rotateGcd map newStart start (start + active)
  else rot.rotateGcd map start (start + active) (newStart + active)

/-- `prot_reallocate_map_and_nodes`, reservable and double-ended. -/
def reallocateReservable (newElems : ℕ) (addAtFront : Bool) : Prog (State Members α) Unit := do
  let k ← object
  let startNode := k.protStartNode o
  let nextFinishNode := k.protFinishNode o + 1
  let oldActiveNodes := nextFinishNode - startNode
  let additionalNodes := (newElems - 1) / o.blockSize + 1
  let unusedSlots := if addAtFront then startNode else k.mapSize - nextFinishNode
  let newActiveNodes := additionalNodes + unusedSlots + oldActiveNodes
  if k.mapSize / 3 ≥ newActiveNodes / 2 then
    let newNstart :=
      privNewOffset addAtFront k.mapSize newActiveNodes (additionalNodes + unusedSlots)
    within k.map startNode oldActiveNodes
    within k.map newNstart oldActiveNodes
    setObject fun k => { k with map := rotateNodes rot k.map startNode oldActiveNodes newNstart }
    setObject fun k => k.protStartUpdateNode o newNstart
    setObject fun k => k.protFinishUpdateNode o (newNstart + (oldActiveNodes - 1))
  else
    let newMapSize := max (k.mapSize + k.mapSize / 2) (newActiveNodes + 1)
    testSizeAgainstNNodes o newMapSize
    protAllocateMap e newMapSize
    let newNstart :=
      privNewOffset addAtFront newMapSize newActiveNodes (additionalNodes + unusedSlots)
    let newNodes := newMapSize - k.mapSize
    within (List.replicate newMapSize none) 0 newNodes
    let nodes ← protAllocateNodes o e newNodes
    within k.map 0 k.mapSize
    within (List.replicate newMapSize none) newNodes k.mapSize
    let newMap := moveEntries k.map 0 k.mapSize
      (writeNodes (List.replicate newMapSize none) 0 nodes) newNodes
    let activeStart := newNodes + startNode
    within newMap activeStart oldActiveNodes
    within newMap newNstart oldActiveNodes
    setObject fun k => { k with
      map := rotateNodes rot newMap activeStart oldActiveNodes newNstart
      mapSize := o.stored newMapSize }
    setObject fun k => k.protStartUpdateNode o newNstart
    setObject fun k => k.protFinishUpdateNode o (newNstart + (oldActiveNodes - 1))

/-- `prot_reallocate_map_and_nodes`, not reservable and double-ended. -/
def reallocateDoubleEnded (newElems : ℕ) (addAtFront : Bool) : Prog (State Members α) Unit := do
  let additionalNodes := (newElems - 1) / o.blockSize + 1
  let k ← object
  let startNode := k.protStartNode o
  let finishNode := k.protFinishNode o
  let unusedSlots := if addAtFront then startNode else k.mapSize - 1 - finishNode
  if additionalNodes > unusedSlots then
    let oldActiveNodes := finishNode + 1 - startNode
    let newActiveNodes := oldActiveNodes + additionalNodes
    if k.mapSize / 2 ≥ newActiveNodes then
      let newNstart := privNewOffset addAtFront k.mapSize newActiveNodes additionalNodes
      within k.map startNode oldActiveNodes
      within k.map newNstart oldActiveNodes
      setObject fun k =>
        { k with map := moveEntries k.map startNode oldActiveNodes k.map newNstart }
      setObject fun k => k.protStartUpdateNode o newNstart
      setObject fun k => k.protFinishUpdateNode o (newNstart + (oldActiveNodes - 1))
    else
      let newMapSize := max (k.mapSize * 2) (newActiveNodes + 1)
      testSizeAgainstNNodes o newMapSize
      protAllocateMap e newMapSize
      let newNstart := privNewOffset addAtFront newMapSize newActiveNodes additionalNodes
      within k.map startNode oldActiveNodes
      within (List.replicate newMapSize none) newNstart oldActiveNodes
      setObject fun k => { k with
        map := moveEntries k.map startNode oldActiveNodes
          (List.replicate newMapSize none) newNstart
        mapSize := o.stored newMapSize }
      setObject fun k => k.protStartUpdateNode o newNstart
      setObject fun k => k.protFinishUpdateNode o (newNstart + (oldActiveNodes - 1))
  let k ← object
  if addAtFront then
    withinBefore k.map (k.protStartNode o) additionalNodes
    let nodes ← protAllocateNodes o e additionalNodes
    setObject fun k =>
      { k with map := writeNodes k.map (k.protStartNode o - additionalNodes) nodes }
  else
    within k.map (k.protFinishNode o + 1) additionalNodes
    let nodes ← protAllocateNodes o e additionalNodes
    setObject fun k => { k with map := writeNodes k.map (k.protFinishNode o + 1) nodes }

/-- **`priv_reserve_elements_at_front`** -/
def privReserveElementsAtFront (n : ℕ) : Prog (State Members α) Unit := do
  let k ← object
  let vacancies := k.protFrontFreeCapacity o
  if n > vacancies then
    if k.map = [] then
      protInitializeMapAndNodes o e n
      setObject fun k => k.setStartOff o k.finishOff
    else if o.reservable then reallocateReservable o rot e (n - vacancies) true
    else reallocateDoubleEnded o e (n - vacancies) true
  else pure ()

/-- **`priv_reserve_elements_at_back`** -/
def privReserveElementsAtBack (n : ℕ) : Prog (State Members α) Unit := do
  let k ← object
  let vacancies := k.protBackFreeCapacity o
  if n > vacancies then
    if k.map = [] then
      protInitializeMapAndNodes o e n
      setObject fun k => { k with finishOff := k.startOff }
    else if o.reservable then
      if o.singleEnded then reallocateReservableSingleEnded o e (n - vacancies)
      else reallocateReservable o rot e (n - vacancies) false
    else
      if o.singleEnded then reallocateSingleEnded o e (n - vacancies)
      else reallocateDoubleEnded o e (n - vacancies) false
  else pure ()

end Programs

end DequeImpl
