import BoostContainer.Lib.Run
import BoostContainer.Lib.Region

/-!
# The segregated node pool

`private_node_pool_impl` serves nodes of one size. It obtains blocks of a
fixed number of nodes from a segment manager, keeps the blocks on one list
and the nodes that are not lent on another, and never looks at which block a
node belongs to – until `deallocate_free_blocks`, which sorts the free nodes
by block to find the blocks that are wholly free, hands those back, and
gathers what is left into the free list again.

The free list is an intrusive list of another library. What is used of it
within its documented contract is modelled by what it documents. One
operation is used outside it: a splice whose last position is not a position
of the list spliced from. What that does is not documented, so the list is a
parameter of the model, `IntrusiveSlist`, known only where the contract
holds.
-/

/-- **An intrusive list with a counter**: the nodes, first to last, and the
size the list records. -/
structure Slist where
  nodes : List ℕ
  size : ℕ
  deriving DecidableEq, Repr

namespace Slist

/-- The empty list. -/
def nil : Slist := ⟨[], 0⟩

/-- The list records its length. -/
def WellFormed (l : Slist) : Prop := l.size = l.nodes.length

instance (l : Slist) : Decidable l.WellFormed := inferInstanceAs (Decidable (_ = _))

/-- `push_front`. -/
def pushFront (l : Slist) (a : ℕ) : Slist := ⟨a :: l.nodes, l.size + 1⟩

/-- `pop_front`, after `front`; `none` where there is no front. -/
def popFront (l : Slist) : Option (ℕ × Slist) :=
  match l.nodes with
  | [] => none
  | a :: rest => some (a, ⟨rest, l.size - 1⟩)

/-- `erase_after (before_begin ()) (it) n`, with `it` advanced `n` times from
the first node: the nodes taken off the front, and the list left. -/
def eraseFront (l : Slist) (n : ℕ) : List ℕ × Slist :=
  (l.nodes.take n, ⟨l.nodes.drop n, l.size - n⟩)

/-- `remove_and_dispose_if`: the nodes removed, in the order they are disposed
of, and the list left. -/
def removeIf (l : Slist) (pred : ℕ → Bool) : List ℕ × Slist :=
  let removed := l.nodes.filter pred
  (removed, ⟨l.nodes.filter (fun a => !pred a), l.size - removed.length⟩)

end Slist

/-- **An iterator of an intrusive list**: the position before the first node
of some list, or a node. -/
inductive SlistIterator (ι : Type)
  | beforeBegin (list : ι)
  | node (a : ℕ)
  deriving DecidableEq, Repr

/-- **The contract of a splice**: the last position is a position of the list
spliced from, and as many nodes as announced come up to it. -/
def Slist.Covers {ι : Type} (src : Slist) (name : ι) (last : SlistIterator ι)
    (n : ℕ) : Prop :=
  match last with
  | .beforeBegin list => list = name ∧ n = 0
  | .node a => ∃ i, src.nodes[i]? = some a ∧ n = i + 1

/-- **The intrusive list the pool is built on**, as far as the pool can rely
on it: `spliceAfter dst src name last n` is
`dst.splice_after (dst.before_begin (), src, src.before_begin (), last, n)`,
where `src` is the list called `name`. Within the contract the nodes up to
`last` move to the front of `dst`, and the counter grows by their number. -/
structure IntrusiveSlist (ι : Type) where
  spliceAfter : Slist → Slist → ι → SlistIterator ι → ℕ → Slist
  spliceAfter_spec : ∀ dst src name last n, src.Covers name last n →
    spliceAfter dst src name last n = ⟨src.nodes.take n ++ dst.nodes, dst.size + n⟩

/-- **The sizes of a list node**, which every node of a pool must hold. -/
structure NodeLayout where
  sizeofListNode : ℕ
  listNodeAlign : ℕ
  sizeofListNode_pos : 0 < sizeofListNode
  listNodeAlign_pos : 0 < listNodeAlign

/-- **The pool's state.** -/
structure NodePool where
  nodesPerBlock : ℕ
  realNodeSize : ℕ
  /-- The blocks, by their first address. -/
  blocklist : List ℕ
  freelist : Slist
  allocated : ℕ
  deriving DecidableEq, Repr

namespace NodePool

/-- `get_rounded_size`. -/
def roundedSize (origSize roundTo : ℕ) : ℕ := ((origSize - 1) / roundTo + 1) * roundTo

/-- The constructor: the node size is raised to hold a list node, and rounded
to the alignments of a list node and of a node. -/
def construct (layout : NodeLayout) (nodeSize nodesPerBlock nodeAlignment : ℕ) :
    NodePool :=
  let size :=
    if nodeSize < layout.sizeofListNode then layout.sizeofListNode else nodeSize
  let size := roundedSize size layout.listNodeAlign
  let size :=
    if nodeAlignment < layout.listNodeAlign then size
    else if nodeAlignment > layout.listNodeAlign then roundedSize size nodeAlignment
    else size
  { nodesPerBlock := nodesPerBlock
    realNodeSize := size
    blocklist := []
    freelist := Slist.nil
    allocated := 0 }

/-- The bytes of a block that hold nodes. -/
def blocksize (s : NodePool) : ℕ := s.realNodeSize * s.nodesPerBlock

/-- The loop of `priv_alloc_block` that pushes the nodes of one block. -/
def pushNodes (realNodeSize : ℕ) : ℕ → ℕ → Slist → Slist
  | 0, _, l => l
  | n + 1, a, l => pushNodes realNodeSize n (a + realNodeSize) (l.pushFront a)

/-- One round of `priv_alloc_block`, for the block at an address. -/
def pushBlock (s : NodePool) (q : ℕ) : NodePool :=
  { s with
    blocklist := q :: s.blocklist
    freelist := pushNodes s.realNodeSize s.nodesPerBlock q s.freelist }

/-- `priv_alloc_block`: whether it returned, and the state left. The segment
manager's answers are given in order, `none` where it throws; the blocks
obtained before an exception stay. -/
def privAllocBlock (s : NodePool) : ℕ → List (Option ℕ) → Bool × NodePool
  | 0, _ => (true, s)
  | _ + 1, [] => (false, s)
  | _ + 1, none :: _ => (false, s)
  | n + 1, some q :: answers => (s.pushBlock q).privAllocBlock n answers

/-- `priv_alloc_node`: the node, or `none` where the call throws. -/
def privAllocNode (s : NodePool) (answers : List (Option ℕ)) : Option ℕ × NodePool :=
  let (ok, s) := if s.freelist.nodes = [] then s.privAllocBlock 1 answers else (true, s)
  if ok then
    match s.freelist.popFront with
    | none => (none, s)
    | some (a, rest) =>
      (some a, { s with freelist := rest, allocated := s.allocated + 1 })
  else (none, s)

/-- `priv_dealloc_node`. -/
def privDeallocNode (s : NodePool) (a : ℕ) : NodePool :=
  { s with freelist := s.freelist.pushFront a, allocated := s.allocated - 1 }

/-- `allocate_nodes`: the nodes put at the front of the chain, none where none
are asked for, or `none` where the call throws. -/
def allocateNodes (s : NodePool) (n : ℕ) (answers : List (Option ℕ)) :
    Option (List ℕ) × NodePool :=
  let curNodes := s.freelist.size
  let (ok, s) :=
    if curNodes < n then
      s.privAllocBlock (((n - curNodes) - 1) / s.nodesPerBlock + 1) answers
    else (true, s)
  if ok then
    let (taken, rest) := s.freelist.eraseFront n
    (some taken, { s with freelist := rest, allocated := s.allocated + n })
  else (none, s)

/-- `deallocate_nodes`. -/
def deallocateNodes (s : NodePool) (chain : List ℕ) : NodePool :=
  chain.foldl privDeallocNode s

/-- `is_between`, for a block and the size of its nodes. -/
def isBetween (beg size : ℕ) (a : ℕ) : Bool := decide (beg ≤ a) && decide (beg + size > a)

/-- **The state of `deallocate_free_blocks` between two rounds.** The lists
are called by name: `none` is the backup list, and `some b` the list that
lives for the round of block `b`. -/
structure Sweep where
  freelist : Slist
  backupList : Slist
  backupListLast : SlistIterator (Option ℕ)
  /-- The blocks that stay on the list. -/
  kept : List ℕ
  /-- The blocks handed back to the segment manager. -/
  returned : List ℕ

/-- The position `push_in_list` caches in the round of a block: the first node
it pushed, which is the last of its list, or the position it started with. -/
def lastIt (b : ℕ) (removed : List ℕ) : SlistIterator (Option ℕ) :=
  match removed with
  | [] => .beforeBegin (some b)
  | a :: _ => .node a

/-- **One round**, for the block at an address: its free nodes are pushed one
by one on a list of their own, whose last position is cached, and either the
block is handed back or that list is spliced to the front of the backup
list. -/
def Sweep.round (sl : IntrusiveSlist (Option ℕ)) (nodesPerBlock blocksize : ℕ)
    (w : Sweep) (b : ℕ) : Sweep :=
  let (removed, freelist) := w.freelist.removeIf (isBetween b blocksize)
  let freeNodes : Slist := removed.foldl Slist.pushFront Slist.nil
  if freeNodes.size = nodesPerBlock then
    { w with freelist := freelist, returned := w.returned ++ [b] }
  else
    { freelist := freelist
      backupList :=
        sl.spliceAfter w.backupList freeNodes (some b) (lastIt b removed) freeNodes.size
      backupListLast :=
        if w.backupList.nodes = [] ∧ freelist.nodes ≠ [] then lastIt b removed
        else w.backupListLast
      kept := w.kept ++ [b]
      returned := w.returned }

/-- The rounds over the list of blocks. -/
def sweep (sl : IntrusiveSlist (Option ℕ)) (s : NodePool) : Sweep :=
  s.blocklist.foldl (Sweep.round sl s.nodesPerBlock s.blocksize)
    { freelist := s.freelist
      backupList := Slist.nil
      backupListLast := .beforeBegin none
      kept := []
      returned := [] }

/-- `deallocate_free_blocks`: the blocks handed back, and the state left. -/
def deallocateFreeBlocks (sl : IntrusiveSlist (Option ℕ)) (s : NodePool) :
    List ℕ × NodePool :=
  let w := s.sweep sl
  (w.returned,
    { s with
      blocklist := w.kept
      freelist :=
        sl.spliceAfter w.freelist w.backupList none w.backupListLast w.backupList.size })

/-! ## Nodes and blocks -/

/-- The nodes of the block at an address. -/
def slots (s : NodePool) (b : ℕ) : List ℕ :=
  Region.slots s.realNodeSize s.nodesPerBlock b

/-- The nodes of all owned blocks. -/
def allSlots (s : NodePool) : List ℕ := s.blocklist.flatMap s.slots

/-- The bytes of a block that hold nodes, as a range. -/
def blockRegion (s : NodePool) (b : ℕ) : Region := ⟨b, s.blocksize⟩

/-- The free nodes of the block at an address. -/
def freeIn (s : NodePool) (b : ℕ) : List ℕ :=
  s.freelist.nodes.filter (isBetween b s.blocksize)

/-- The block at an address is wholly free. -/
def TotallyFree (s : NodePool) (b : ℕ) : Prop :=
  ∀ a ∈ s.slots b, a ∈ s.freelist.nodes

instance (s : NodePool) : DecidablePred s.TotallyFree :=
  fun _ => inferInstanceAs (Decidable (∀ _ ∈ _, _))

end NodePool
