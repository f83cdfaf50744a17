import BoostContainer.Lib.Word
import BoostContainer.Lib.Run
import BoostContainer.Lib.Region
import BoostContainer.Lib.SortedList

/-!
# The adaptive node pool

`private_adaptive_node_pool_impl_common` serves nodes of one size from
aligned blocks, and keeps the free nodes of each block on a list in the
block's own header, so that a node finds its block by masking its address.
The blocks that have a free node are kept on a container, which is what
allocation takes nodes from; a block without free nodes is on no list at all
and comes back when one of its nodes does. Blocks that are wholly free are
counted, and handed back when there are more of them than a bound.

Three flags choose between variants. In the *align only* variant a block is
one aligned piece of memory with its header in front; otherwise it is several
aligned sub-blocks, each marked with the offset of the header, which is in
front of the last. The container is a multiset ordered by the number of free
nodes, by address, or by both; or, with neither flag, a list.
-/

/-- **What the constructors of a pool compute**: the flags, and the sizes of a
block and its parts. -/
structure PoolShape where
  alignOnly : Bool
  sizeOrdered : Bool
  addressOrdered : Bool
  /-- Bits of an address. -/
  bits : ℕ
  /-- The block alignment is two to this power. -/
  alignmentBits : ℕ
  realNodeSize : ℕ
  realNumNode : ℕ
  numSubblocks : ℕ
  hdrSize : ℕ
  hdrOffSize : ℕ
  payloadPerAllocation : ℕ
  maxFreeBlocks : ℕ
  deriving DecidableEq, Repr

namespace PoolShape

variable (g : PoolShape)

def realBlockAlignment : ℕ := 2 ^ g.alignmentBits

/-- The size of a block, less what the segment manager adds to it. -/
def realBlockSize : ℕ :=
  if g.alignOnly then g.realBlockAlignment - g.payloadPerAllocation
  else g.realBlockAlignment * g.numSubblocks - g.payloadPerAllocation

def elementsPerSubblockMid : ℕ := (g.realBlockAlignment - g.hdrOffSize) / g.realNodeSize

def elementsPerSubblockEnd : ℕ :=
  (g.realBlockAlignment - g.hdrOffSize - g.payloadPerAllocation) / g.realNodeSize

def hdrSubblockElements : ℕ :=
  (g.realBlockAlignment - g.hdrSize - g.payloadPerAllocation) / g.realNodeSize

/-- The sub-block at an index, of those before the header: where its nodes
start and how many it holds. -/
def subblockArea (memAddress subblock : ℕ) : ℕ × ℕ :=
  (memAddress + subblock * g.realBlockAlignment + g.hdrOffSize,
    if subblock ≠ g.numSubblocks - 1 - 1 then g.elementsPerSubblockMid
    else g.elementsPerSubblockEnd)

/-- **Where the nodes of a block go**, in the order `priv_append_from_new_blocks`
fills it. -/
def areas (memAddress : ℕ) : List (ℕ × ℕ) :=
  if g.alignOnly then [(memAddress + g.hdrSize, g.realNumNode)]
  else
    (List.range (g.numSubblocks - 1)).map (g.subblockArea memAddress)
      ++ [(memAddress + g.realBlockAlignment * (g.numSubblocks - 1) + g.hdrSize,
        g.hdrSubblockElements)]

/-- The nodes of the block at an address of memory. -/
def slots (memAddress : ℕ) : List ℕ :=
  (g.areas memAddress).flatMap (fun area => Region.slots g.realNodeSize area.2 area.1)

/-- The header of the block at an address of memory. -/
def blockInfo (memAddress : ℕ) : ℕ :=
  if g.alignOnly then memAddress
  else memAddress + g.realBlockAlignment * (g.numSubblocks - 1)

/-- `priv_first_subblock_from_block`. -/
def firstSubblockFromBlock (block : ℕ) : ℕ :=
  if g.alignOnly then block else block - (g.numSubblocks - 1) * g.realBlockAlignment

/-- The container is a multiset. -/
def ordered : Bool := g.sizeOrdered || g.addressOrdered

/-- `less_func`, for blocks with given numbers of free nodes at given
addresses. -/
def less (ls rs la ra : ℕ) : Bool :=
  match g.sizeOrdered, g.addressOrdered with
  | false, false => true
  | true, false => decide (ls < rs)
  | false, true => decide (la < ra)
  | true, true => decide (ls < rs) || (decide (ls = rs) && decide (la < ra))

end PoolShape

/-- **A shape whose nodes fit**: every part of a block holds its header, the
nodes put there and the payload, and all of them are `real_num_node`. -/
structure PoolLayout extends PoolShape where
  node_pos : 0 < realNodeSize
  num_pos : 0 < realNumNode
  hdr_pos : 0 < hdrSize
  hdrOff_pos : 0 < hdrOffSize
  hdr_fits : hdrSize + payloadPerAllocation ≤ toPoolShape.realBlockAlignment
  hdrOff_fits : hdrOffSize + payloadPerAllocation ≤ toPoolShape.realBlockAlignment
  nodes_fit : alignOnly = true →
    hdrSize + realNumNode * realNodeSize + payloadPerAllocation
      ≤ toPoolShape.realBlockAlignment
  subblocks_pos : alignOnly = false → 0 < numSubblocks
  nodes_sum : ((toPoolShape.areas 0).map Prod.snd).sum = realNumNode

/-- **The pool's state.** The headers of the blocks live in the blocks, so they
are read and written by address. -/
structure AdaptivePool where
  /-- The blocks with a free node, by the address of their header. -/
  blockContainer : List ℕ
  totallyFreeBlocks : ℕ
  /-- The free nodes recorded in the header at an address. -/
  freeNodes : ℕ → List ℕ
  /-- The offset of the header recorded at an address. -/
  hdrOffset : ℕ → ℕ
  /-- What the segment manager has given and not been handed back. -/
  segment : List ℕ

namespace AdaptivePool

variable (g : PoolShape)

/-- A new pool. -/
def construct : AdaptivePool := ⟨[], 0, fun _ => [], fun _ => 0, []⟩

/-- `block_info_t::operator <`. -/
def Less (s : AdaptivePool) (l r : ℕ) : Prop :=
  g.less (s.freeNodes l).length (s.freeNodes r).length l r = true

instance (s : AdaptivePool) : DecidableRel (s.Less g) :=
  fun _ _ => inferInstanceAs (Decidable (_ = true))

/-- All nodes of the block at an address are free. -/
def isFull (s : AdaptivePool) (block : ℕ) : Bool :=
  decide ((s.freeNodes block).length = g.realNumNode)

/-! ## The container of blocks -/

/-- `reinsert_was_used` of a multiset: the block is swapped with its successor
where that restores the order, and taken out and inserted otherwise. -/
def reinsertOrdered (lt : ℕ → ℕ → Prop) [DecidableRel lt] (container : List ℕ) (v : ℕ) :
    List ℕ :=
  match (container.dropWhile (fun b => b ≠ v)).tail with
  | [] => container
  | next :: rest =>
    if lt next v then
      if rest.head?.all (fun next2 => ¬ lt next2 v) then
        container.takeWhile (fun b => b ≠ v) ++ next :: v :: rest
      else (container.erase v).insertUpper lt v
    else container

/-- `block_container_traits::reinsert_was_used`. -/
def reinsertWasUsed (s : AdaptivePool) (v : ℕ) (full : Bool) : List ℕ :=
  if g.ordered then reinsertOrdered (s.Less g) s.blockContainer v
  else if full then s.blockContainer.erase v ++ [v]
  else s.blockContainer

/-- `block_container_traits::insert_was_empty`. -/
def insertWasEmpty (s : AdaptivePool) (v : ℕ) (full : Bool) : List ℕ :=
  if g.ordered then s.blockContainer.insertUpper (s.Less g) v
  else if full then s.blockContainer ++ [v]
  else v :: s.blockContainer

/-- `priv_reinsert_block`. -/
def privReinsertBlock (s : AdaptivePool) (block : ℕ) (wasEmpty : Bool) : AdaptivePool :=
  let full := s.isFull g block
  { s with
    totallyFreeBlocks := s.totallyFreeBlocks + full.toNat
    blockContainer :=
      if wasEmpty then s.insertWasEmpty g block full else s.reinsertWasUsed g block full }

/-! ## Handing back free blocks -/

/-- The loop of `priv_deallocate_free_blocks_impl` over a container ordered by
size: that many blocks are taken off its end. What is taken, first the last
one taken, and what is left. -/
def eraseLast : ℕ → List ℕ → List ℕ → List ℕ × List ℕ
  | 0, container, chain => (chain, container)
  | n + 1, container, chain =>
    match container.getLast? with
    | none => (chain, container)
    | some block => eraseLast n container.dropLast (block :: chain)

/-- The loop over any other container: from its end, the first so many blocks
that are wholly free are taken out. The container is given backwards. -/
def eraseFull (s : AdaptivePool) : ℕ → List ℕ → List ℕ → List ℕ × List ℕ
  | 0, before, chain => (chain, before)
  | _ + 1, [], chain => (chain, [])
  | n + 1, block :: before, chain =>
    if s.isFull g block then s.eraseFull n before (block :: chain)
    else
      let (chain, left) := s.eraseFull (n + 1) before chain
      (chain, block :: left)

/-- The blocks `priv_deallocate_free_blocks_impl` takes out, and the container
it leaves. -/
def takeFreeBlocks (s : AdaptivePool) (n : ℕ) : List ℕ × List ℕ :=
  if g.sizeOrdered then eraseLast n s.blockContainer []
  else
    let (chain, left) := s.eraseFull g n s.blockContainer.reverse []
    (chain, left.reverse)

/-- `priv_deallocate_free_blocks`. -/
def privDeallocateFreeBlocks (s : AdaptivePool) (maxFreeBlocks : ℕ) : AdaptivePool :=
  if s.totallyFreeBlocks > maxFreeBlocks then
    let (chain, left) := s.takeFreeBlocks g (s.totallyFreeBlocks - maxFreeBlocks)
    { s with
      blockContainer := left
      totallyFreeBlocks := maxFreeBlocks
      segment := s.segment.diff (chain.map g.firstSubblockFromBlock) }
  else s

/-! ## Giving nodes back -/

/-- `priv_block_from_node`. -/
def privBlockFromNode (s : AdaptivePool) (node : ℕ) : ℕ :=
  let hdrOffHolder := node &&& Word.compl g.bits (g.realBlockAlignment - 1)
  if g.alignOnly then hdrOffHolder else hdrOffHolder + s.hdrOffset hdrOffHolder

/-- Nodes are put at the end of the free list of a block. -/
def pushFreeNodes (s : AdaptivePool) (block : ℕ) (nodes : List ℕ) : AdaptivePool :=
  { s with freeNodes := Function.update s.freeNodes block (s.freeNodes block ++ nodes) }

/-- `priv_deallocate_node`. -/
def privDeallocateNode (s : AdaptivePool) (node : ℕ) : AdaptivePool :=
  let block := s.privBlockFromNode g node
  let wasEmpty := decide ((s.freeNodes block).length = 0)
  ((s.pushFreeNodes block [node]).privReinsertBlock g block wasEmpty).privDeallocateFreeBlocks
    g g.maxFreeBlocks

/-- **The loop of `priv_deallocate_nodes` between two nodes**: the block of the
node before, whether it was empty when the loop came to it, and the nodes
that are still to be put on its free list. -/
structure Batch where
  prevBlock : Option ℕ
  prevBlockWasEmpty : Bool
  nodes : List ℕ
  pool : AdaptivePool

/-- The nodes of the block before are put on its free list, and the block is
put in its place. -/
def Batch.flush (w : Batch) : AdaptivePool :=
  match w.prevBlock with
  | none => w.pool
  | some block =>
    (w.pool.pushFreeNodes block w.nodes).privReinsertBlock g block w.prevBlockWasEmpty

/-- One round of the loop. -/
def Batch.round (w : Batch) (node : ℕ) : Batch :=
  let block := w.pool.privBlockFromNode g node
  if w.prevBlock = some block then { w with nodes := w.nodes ++ [node] }
  else
    let pool := w.flush g
    { prevBlock := some block
      prevBlockWasEmpty := (pool.freeNodes block).isEmpty
      nodes := [node]
      pool := pool }

/-- `priv_deallocate_nodes`. -/
def privDeallocateNodes (s : AdaptivePool) (nodes : List ℕ) : AdaptivePool :=
  let w := nodes.foldl (Batch.round g) ⟨none, false, [], s⟩
  match w.prevBlock with
  | none => w.pool
  | some _ => (w.flush g).privDeallocateFreeBlocks g g.maxFreeBlocks

/-! ## Taking nodes -/

/-- What the segment manager answers a request for an aligned block: memory, a
null pointer, or an exception. -/
inductive Answer
  | memory (address : ℕ)
  | null
  | throws
  deriving DecidableEq, Repr

/-- `priv_fill_chain_remaining_to_block`, for the part of a block that starts at
an address and holds so many nodes: the chain and the free nodes of the
block. -/
def fillChainRemainingToBlock (targetElemInChain : ℕ) (filled : List ℕ × List ℕ)
    (area : ℕ × ℕ) : List ℕ × List ℕ :=
  let (chain, freeNodes) := filled
  let addToChain := min area.2 (targetElemInChain - chain.length)
  (chain ++ Region.slots g.realNodeSize addToChain area.1,
    freeNodes ++ Region.slots g.realNodeSize (area.2 - addToChain)
      (area.1 + addToChain * g.realNodeSize))

/-- The offsets of the header that are written into a new block: in front of
each sub-block, and in the header itself. -/
def writeHdrOffsets (hdrOffset : ℕ → ℕ) (memAddress : ℕ) : ℕ → ℕ :=
  fun a =>
    if a = g.blockInfo memAddress then 0
    else if g.alignOnly = false
        ∧ ∃ i ∈ List.range (g.numSubblocks - 1), a = memAddress + i * g.realBlockAlignment then
      g.blockInfo memAddress - a
    else hdrOffset a

/-- One block is obtained: its nodes go to the chain first. -/
def appendBlock (s : AdaptivePool) (targetElemInChain : ℕ) (chain : List ℕ)
    (memAddress : ℕ) : List ℕ × AdaptivePool :=
  let block := g.blockInfo memAddress
  let (chain, free) :=
    (g.areas memAddress).foldl (fillChainRemainingToBlock g targetElemInChain) (chain, [])
  let s : AdaptivePool := { s with
    freeNodes := Function.update s.freeNodes block free
    hdrOffset := writeHdrOffsets g s.hdrOffset memAddress
    segment := memAddress :: s.segment }
  let full := s.isFull g block
  let s : AdaptivePool :=
    if g.alignOnly then
      if free.length ≠ 0 then
        { s with
          totallyFreeBlocks := s.totallyFreeBlocks + full.toNat
          blockContainer := s.insertWasEmpty g block full }
      else s
    else
      { s with
        totallyFreeBlocks := s.totallyFreeBlocks + full.toNat
        blockContainer :=
          if free.length ≠ 0 then block :: s.blockContainer else s.blockContainer }
  (chain, s)

/-- The loop of `priv_append_from_new_blocks`: whether it returned, the chain,
and the state. Where the segment manager has no memory, the nodes of the
chain are given back. -/
def appendBlocks (targetElemInChain : ℕ) :
    ℕ → List Answer → List ℕ → AdaptivePool → Bool × List ℕ × AdaptivePool
  | 0, _, chain, s => (true, chain, s)
  | _ + 1, [], chain, s => (false, chain, s)
  | _ + 1, .throws :: _, chain, s => (false, chain, s)
  | _ + 1, .null :: _, chain, s => (false, [], s.privDeallocateNodes g chain)
  | n + 1, .memory memAddress :: answers, chain, s =>
    let (chain, s) := s.appendBlock g targetElemInChain chain memAddress
    appendBlocks targetElemInChain n answers chain s

/-- `priv_append_from_new_blocks`. -/
def privAppendFromNewBlocks (s : AdaptivePool) (minElements : ℕ) (chain : List ℕ)
    (answers : List Answer) : Bool × List ℕ × AdaptivePool :=
  appendBlocks g (chain.length + minElements) ((minElements - 1) / g.realNumNode + 1)
    answers chain s

/-- `priv_allocate_node`: the node, or `none` where the call throws. -/
def privAllocateNode (s : AdaptivePool) (answers : List Answer) : Option ℕ × AdaptivePool :=
  match s.blockContainer with
  | block :: rest =>
    let count := (s.freeNodes block).length
    let left := (s.freeNodes block).tail
    ((s.freeNodes block).head?,
      { s with
        freeNodes := Function.update s.freeNodes block left
        blockContainer := if left.isEmpty then rest else s.blockContainer
        totallyFreeBlocks :=
          s.totallyFreeBlocks - (decide (count = g.realNumNode)).toNat })
  | [] =>
    let (ok, chain, s) := s.privAppendFromNewBlocks g 1 [] answers
    if ok then (chain.head?, s) else (none, s)

/-- The loop of `priv_allocate_nodes` as long as it takes nodes from blocks of
the container, which is given: how many are left to take, the chain, and the
state. -/
def takeFromBlocks : List ℕ → ℕ → List ℕ → AdaptivePool → ℕ × List ℕ × AdaptivePool
  | [], left, chain, s => (left, chain, s)
  | _ :: _, 0, chain, s => (0, chain, s)
  | block :: rest, left + 1, chain, s =>
    let before := (s.freeNodes block).length
    let totallyFree := s.totallyFreeBlocks - (decide (before = g.realNumNode)).toNat
    if left + 1 < before then
      (0, chain ++ (s.freeNodes block).take (left + 1),
        { s with
          freeNodes := Function.update s.freeNodes block ((s.freeNodes block).drop (left + 1))
          totallyFreeBlocks := totallyFree })
    else
      takeFromBlocks rest (left + 1 - before) (chain ++ s.freeNodes block)
        { s with
          freeNodes := Function.update s.freeNodes block []
          blockContainer := rest
          totallyFreeBlocks := totallyFree }

/-- `priv_allocate_nodes`: whether it returned, the chain, and the state. On an
exception the nodes of the chain are given back. -/
def privAllocateNodes (s : AdaptivePool) (n : ℕ) (chain : List ℕ) (answers : List Answer) :
    Bool × List ℕ × AdaptivePool :=
  let (left, chain, s) := takeFromBlocks g s.blockContainer n chain s
  if left = 0 then (true, chain, s)
  else
    let (ok, chain, s) := s.privAppendFromNewBlocks g left chain answers
    if ok then (true, chain, s) else (false, [], s.privDeallocateNodes g chain)

end AdaptivePool
