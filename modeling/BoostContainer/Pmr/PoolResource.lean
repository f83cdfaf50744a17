import BoostContainer.Lib.Lists
import BoostContainer.Pmr.MemoryBlocks

/-!
# The pool resource

A pool resource serves small requests from pools and large ones from
upstream. Pool `k` hands out blocks of one size, the `k`-th power of two from
the smallest; it keeps a free list threaded through the blocks it is not
lending, and when that is empty it asks upstream for a *chunk*, cuts it into
blocks, and pushes them all. A request above the largest pooled size gets a
block of its own on the oversized list.

Both `do_allocate` and `do_deallocate` classify by the number of bytes alone,
so a block comes back to where it was taken from as long as the caller gives
the size it asked for. The alignment is ignored by both: what a chunk or an
oversized block is aligned to is `max_align`, and so is everything cut from
it, since every pooled size is a multiple of `max_align`.
-/

/-- **A pool**: `pool_data_t`. -/
structure PoolData where
  /-- The chunks obtained from upstream. -/
  chunks : BlockList
  /-- The blocks that are not lent, next to be lent first. -/
  freeSlist : List ℕ
  /-- How many blocks the next chunk is to have. -/
  nextBlocksPerChunk : ℕ
  deriving DecidableEq, Repr

/-- **`pool_options`**, as the caller gives them. -/
structure PoolOptions where
  maxBlocksPerChunk : ℕ
  largestRequiredPoolBlock : ℕ
  deriving DecidableEq, Repr

/-- **The resource's state.** -/
structure PoolResource where
  /-- The options after `priv_fix_options`. -/
  options : PoolOptions
  /-- The blocks too large for any pool. -/
  oversizedList : BlockList
  /-- Where the array of pools is, once it has been allocated. -/
  poolData : Option Region
  /-- The pools of the array; none before it is allocated. -/
  pools : List PoolData
  deriving DecidableEq, Repr

/-- What a call to `do_allocate` ends in: an exception, or a pointer, which
is `none` where it is null. -/
inductive AllocateOutcome
  | threw
  | returned (p : Option ℕ)
  deriving DecidableEq, Repr

variable (pf : Platform)

namespace PoolOptions

/-- `pool_options_minimum_max_blocks_per_chunk`. -/
def minimumMaxBlocksPerChunk : ℕ := 1

/-- `pool_options_default_max_blocks_per_chunk`. -/
def defaultMaxBlocksPerChunk : ℕ := 32

/-- `pool_options_minimum_largest_required_pool_block`. -/
def minimumLargestRequiredPoolBlock : ℕ :=
  if pf.maxAlign > 2 * pf.sizeofPtr then pf.maxAlign else 2 * pf.sizeofPtr

/-- `pool_options_default_largest_required_pool_block`. -/
def defaultLargestRequiredPoolBlock : ℕ :=
  if minimumLargestRequiredPoolBlock pf > 4096 then minimumLargestRequiredPoolBlock pf
  else 4096

/-- `priv_limit_option`: zero stands for the greatest value allowed. -/
def privLimitOption (val min max : ℕ) : ℕ :=
  if val = 0 then max else if val < min then min else Nat.min val max

/-- A limited option is not below the minimum. -/
theorem le_privLimitOption {min max : ℕ} (val : ℕ) (h : min ≤ max) :
    min ≤ privLimitOption val min max := by
  unfold privLimitOption
  split
  · exact h
  · split
    · exact le_rfl
    · rename_i hge
      exact Nat.le_min.mpr ⟨Nat.not_lt.mp hge, h⟩

/-- Nor above the maximum. -/
theorem privLimitOption_le {min max : ℕ} (val : ℕ) (h : min ≤ max) :
    privLimitOption val min max ≤ max := by
  unfold privLimitOption
  split
  · exact le_rfl
  · split
    · exact h
    · exact Nat.min_le_right _ _

end PoolOptions

open PoolOptions

namespace PoolData

variable (math : IntrusiveMath pf.bits)

/-- The rounded size of a chunk's header, that of `block_slist`. -/
def headerSize : ℕ := pf.headerSize pf.sizeofBlockSlistHeader

/-- A new pool. -/
def init : PoolData := ⟨[], [], minimumMaxBlocksPerChunk⟩

/-- `allocate_block`: the first free block, or null. -/
def allocateBlock (p : PoolData) : Option ℕ × PoolData :=
  match p.freeSlist with
  | [] => (none, p)
  | a :: rest => (some a, { p with freeSlist := rest })

/-- `deallocate_block`. -/
def deallocateBlock (p : PoolData) (a : ℕ) : PoolData :=
  { p with freeSlist := a :: p.freeSlist }

/-- `release`: the chunks handed back to upstream, and the empty pool. -/
def release (p : PoolData) : List Region × PoolData :=
  (p.chunks.release.1,
    { chunks := p.chunks.release.2
      freeSlist := []
      nextBlocksPerChunk := minimumMaxBlocksPerChunk })

/-- The loop of `replenish` that pushes `n` blocks cut from address `a`. -/
def pushBlocks (poolBlock : ℕ) : ℕ → ℕ → List ℕ → List ℕ
  | 0, _, free => free
  | n + 1, a, free => pushBlocks poolBlock n (a + poolBlock) (a :: free)

/-- How many blocks `replenish` asks for. -/
def blocksPerChunk (p : PoolData) (poolBlock maxBlocksPerChunk : ℕ) : ℕ :=
  Nat.min (Nat.min maxBlocksPerChunk p.nextBlocksPerChunk) (pf.sizeMax / poolBlock)

/-- `replenish`: the chunk obtained from upstream and the pool with its
blocks, or `none` where the call throws. -/
def replenish (p : PoolData) (poolBlock maxBlocksPerChunk : ℕ) (mr : Upstream) :
    Option (List Region × PoolData) :=
  let n := p.blocksPerChunk pf poolBlock maxBlocksPerChunk
  match p.chunks.allocate pf (headerSize pf) (n * poolBlock) mr with
  | none => none
  | some (a, chunks) =>
    some (chunks.take 1,
      { chunks := chunks
        freeSlist := pushBlocks poolBlock n a p.freeSlist
        nextBlocksPerChunk :=
          if maxBlocksPerChunk / 2 < n then maxBlocksPerChunk else n * 2 })

end PoolData

namespace PoolResource

variable (math : IntrusiveMath pf.bits)

/-- The rounded size of an oversized block's header, that of `block_list`. -/
def headerSize : ℕ := pf.headerSize pf.sizeofBlockListHeader

/-- `priv_pool_index`. -/
def privPoolIndex (blockSize : ℕ) : ℕ :=
  math.ceilLog2 (max blockSize (minimumLargestRequiredPoolBlock pf))
    - math.ceilLog2 (minimumLargestRequiredPoolBlock pf)

/-- `priv_pool_block`. -/
def privPoolBlock (index : ℕ) : ℕ := minimumLargestRequiredPoolBlock pf <<< index

/-- `priv_fix_options`. -/
def privFixOptions (o : PoolOptions) : PoolOptions where
  maxBlocksPerChunk :=
    privLimitOption o.maxBlocksPerChunk minimumMaxBlocksPerChunk
      defaultMaxBlocksPerChunk
  largestRequiredPoolBlock :=
    math.ceilPow2 (privLimitOption o.largestRequiredPoolBlock
      (minimumLargestRequiredPoolBlock pf) (defaultLargestRequiredPoolBlock pf))

/-- The constructor. -/
def construct (opts : PoolOptions) : PoolResource where
  options := privFixOptions pf math opts
  oversizedList := []
  poolData := none
  pools := []

/-- How many pools the array has. -/
def numPools (s : PoolResource) : ℕ :=
  privPoolIndex pf math s.options.largestRequiredPoolBlock + 1

/-- `priv_init_pools`: what was obtained from upstream and the state with the
array, or `none` where the call throws. -/
def privInitPools (s : PoolResource) (mr : Upstream) :
    Option (List Region × PoolResource) :=
  let size := pf.sizeofPoolData * s.numPools pf math
  match mr size with
  | none => none
  | some q =>
    some ([⟨q, size⟩],
      { s with
        poolData := some ⟨q, size⟩
        pools := List.replicate (s.numPools pf math) PoolData.init })

/-- The first statement of `do_allocate`: the array of pools is created on
the first call. -/
def ensurePools (s : PoolResource) (mr : Upstream) :
    Option (List Region × PoolResource) :=
  match s.poolData with
  | none => s.privInitPools pf math mr
  | some _ => some ([], s)

/-- **The part of `do_allocate` after the pools exist**: the outcome, what was
obtained from upstream, and the state left. -/
def serve (s : PoolResource) (bytes : ℕ) (mr : Upstream) :
    AllocateOutcome × List Region × PoolResource :=
  if bytes > s.options.largestRequiredPoolBlock then
    match s.oversizedList.allocate pf (headerSize pf) bytes mr with
    | none => (.threw, [], s)
    | some (p, blocks) =>
      (.returned (some p), blocks.take 1, { s with oversizedList := blocks })
  else
    let poolIdx := privPoolIndex pf math bytes
    match s.pools[poolIdx]? with
    | none => (.returned none, [], s)
    | some pool =>
      match pool.allocateBlock with
      | (some p, pool') =>
        (.returned (some p), [], { s with pools := s.pools.set poolIdx pool' })
      | (none, _) =>
        match pool.replenish pf (privPoolBlock pf poolIdx)
            s.options.maxBlocksPerChunk mr with
        | none => (.threw, [], s)
        | some (obtained, pool') =>
          (.returned pool'.allocateBlock.1, obtained,
            { s with pools := s.pools.set poolIdx pool'.allocateBlock.2 })

/-- `do_allocate`. The first answers of upstream are for the array of pools,
the second for what follows; the alignment is ignored. -/
def doAllocate (s : PoolResource) (bytes _alignment : ℕ) (mrPools mr : Upstream) :
    AllocateOutcome × List Region × PoolResource :=
  match s.ensurePools pf math mrPools with
  | none => (.threw, [], s)
  | some (obtained, s') =>
    let (outcome, obtained', s'') := s'.serve pf math bytes mr
    (outcome, obtained ++ obtained', s'')

/-- `block_list_base::deallocate`: the header is found before the pointer,
and the block is unlinked and handed back with the size it records. -/
def deallocateOversized (s : PoolResource) (p : ℕ) : List Region × PoolResource :=
  match s.oversizedList.find? (fun r => r.base + headerSize pf = p) with
  | none => ([], s)
  | some r => ([r], { s with oversizedList := s.oversizedList.erase r })

/-- `do_deallocate`: what is handed back to upstream, and the state left. -/
def doDeallocate (s : PoolResource) (p bytes _alignment : ℕ) :
    List Region × PoolResource :=
  if bytes > s.options.largestRequiredPoolBlock then s.deallocateOversized pf p
  else
    let poolIdx := privPoolIndex pf math bytes
    match s.pools[poolIdx]? with
    | none => ([], s)
    | some pool =>
      ([], { s with pools := s.pools.set poolIdx (pool.deallocateBlock p) })

/-- `release`: what is handed back to upstream, and the state left. -/
def release (s : PoolResource) : List Region × PoolResource :=
  (s.oversizedList.release.1 ++ (s.pools.map (fun p => p.release.1)).flatten,
    { s with
      oversizedList := s.oversizedList.release.2
      pools := s.pools.map (fun p => p.release.2) })

/-- The destructor: what is handed back to upstream. -/
def destroy (s : PoolResource) : List Region :=
  (s.release).1 ++ s.poolData.toList

/-! ## What the resource holds -/

/-- The regions obtained from upstream and not handed back. -/
def held (s : PoolResource) : List Region :=
  s.poolData.toList ++ s.oversizedList
    ++ List.gather (fun _ p => p.chunks) s.pools

/-- The blocks of the pools that are not lent. -/
def freeBlocks (s : PoolResource) : List Region :=
  List.gather (fun k p => p.freeSlist.map (fun a => ⟨a, privPoolBlock pf k⟩)) s.pools

/-! ## Sizes -/

variable {pf math}

/-- The binary logarithm of the smallest pooled size. -/
def minimumLog2 (pf : Platform) : ℕ := max pf.maxAlignLog2 (pf.sizeofPtrLog2 + 1)

theorem minimumLargestRequiredPoolBlock_eq :
    minimumLargestRequiredPoolBlock pf = 2 ^ minimumLog2 pf := by
  have hptr : 2 * pf.sizeofPtr = 2 ^ (pf.sizeofPtrLog2 + 1) := by
    rw [Platform.sizeofPtr, pow_succ, Nat.mul_comm]
  unfold minimumLargestRequiredPoolBlock minimumLog2
  rw [hptr, Platform.maxAlign]
  split
  · rename_i h
    rw [max_eq_left ((Nat.pow_lt_pow_iff_right (by decide)).mp h).le]
  · rename_i h
    rw [max_eq_right ((Nat.pow_le_pow_iff_right (by decide)).mp (Nat.not_lt.mp h))]

theorem ceilLog2_two_pow (k : ℕ) : math.ceilLog2 (2 ^ k) = k := by
  refine le_antisymm ((math.ceilLog2_spec _ (Nat.two_pow_pos k) k).mpr le_rfl) ?_
  have hle := (math.ceilLog2_spec _ (Nat.two_pow_pos k) _).mp le_rfl
  exact (Nat.pow_le_pow_iff_right (by decide)).mp hle

/-- The blocks of a pool are the smallest pooled size, doubled once for each
pool before it. -/
theorem privPoolBlock_eq (k : ℕ) : privPoolBlock pf k = 2 ^ (minimumLog2 pf + k) := by
  rw [privPoolBlock, minimumLargestRequiredPoolBlock_eq, Nat.shiftLeft_eq, pow_add]

theorem privPoolBlock_pos (k : ℕ) : 0 < privPoolBlock pf k := by
  rw [privPoolBlock_eq]
  exact Nat.two_pow_pos _

/-- **Every pooled size is a multiple of `max_align`.** -/
theorem maxAlign_dvd_privPoolBlock (k : ℕ) : pf.maxAlign ∣ privPoolBlock pf k := by
  rw [privPoolBlock_eq, Platform.maxAlign]
  exact Nat.pow_dvd_pow 2 ((le_max_left _ _).trans (Nat.le_add_right _ _))

/-- **A request fits in the blocks of its pool.** -/
theorem le_privPoolBlock_privPoolIndex (bytes : ℕ) :
    bytes ≤ privPoolBlock pf (privPoolIndex pf math bytes) := by
  have hmin : minimumLargestRequiredPoolBlock pf = 2 ^ minimumLog2 pf :=
    minimumLargestRequiredPoolBlock_eq
  have hpos := Nat.two_pow_pos (minimumLog2 pf)
  have hM : minimumLog2 pf
      ≤ math.ceilLog2 (max bytes (minimumLargestRequiredPoolBlock pf)) := by
    rw [hmin]
    have hle := (math.ceilLog2_spec (max bytes (2 ^ minimumLog2 pf))
      (by omega) _).mp le_rfl
    exact (Nat.pow_le_pow_iff_right (by decide)).mp ((le_max_right _ _).trans hle)
  rw [privPoolBlock_eq, privPoolIndex]
  have hlog : math.ceilLog2 (minimumLargestRequiredPoolBlock pf) = minimumLog2 pf := by
    rw [hmin, ceilLog2_two_pow]
  rw [hlog, Nat.add_sub_cancel' hM]
  have hle := (math.ceilLog2_spec (max bytes (minimumLargestRequiredPoolBlock pf))
    (by omega) _).mp le_rfl
  exact (le_max_left _ _).trans hle

/-- Larger requests have no smaller pool. -/
theorem privPoolIndex_mono {m n : ℕ} (h : m ≤ n) :
    privPoolIndex pf math m ≤ privPoolIndex pf math n := by
  have hpos : 0 < minimumLargestRequiredPoolBlock pf := by
    rw [minimumLargestRequiredPoolBlock_eq]
    exact Nat.two_pow_pos _
  refine Nat.sub_le_sub_right ?_ _
  rw [math.ceilLog2_spec _ (by omega)]
  have hle := (math.ceilLog2_spec (max n (minimumLargestRequiredPoolBlock pf))
    (by omega) _).mp le_rfl
  omega

/-- **Whatever options are given**, the largest pooled size is a power of two
that is not below the smallest, and a `std::size_t`. -/
theorem largestRequiredPoolBlock_spec (o : PoolOptions) :
    ∃ L, (privFixOptions pf math o).largestRequiredPoolBlock = 2 ^ L
      ∧ minimumLog2 pf ≤ L ∧ L < pf.bits := by
  have hmin : minimumLargestRequiredPoolBlock pf = 2 ^ minimumLog2 pf :=
    minimumLargestRequiredPoolBlock_eq
  have hbits := pf.bits_ge
  have hlog : minimumLog2 pf ≤ pf.bits - 1 := by
    have := pf.maxAlign_fits
    have := pf.sizeofPtr_fits
    unfold minimumLog2
    omega
  have hle : minimumLargestRequiredPoolBlock pf ≤ defaultLargestRequiredPoolBlock pf := by
    unfold defaultLargestRequiredPoolBlock
    split <;> omega
  have hdef : defaultLargestRequiredPoolBlock pf ≤ 2 ^ (pf.bits - 1) := by
    unfold defaultLargestRequiredPoolBlock
    split
    · rw [hmin]
      exact Nat.pow_le_pow_right (by decide) hlog
    · calc 4096 = 2 ^ 12 := by norm_num
        _ ≤ 2 ^ (pf.bits - 1) := Nat.pow_le_pow_right (by decide) (by omega)
  set x := privLimitOption o.largestRequiredPoolBlock
    (minimumLargestRequiredPoolBlock pf) (defaultLargestRequiredPoolBlock pf) with hx
  have hxlo : minimumLargestRequiredPoolBlock pf ≤ x := le_privLimitOption _ hle
  have hxhi : x ≤ defaultLargestRequiredPoolBlock pf := privLimitOption_le _ hle
  have hpos : 0 < x := by
    have := Nat.two_pow_pos (minimumLog2 pf)
    omega
  obtain ⟨L, hL, hge, hlt⟩ := math.ceilPow2_spec x hpos (hxhi.trans hdef)
  refine ⟨L, hL, ?_, ?_⟩
  · have : 2 ^ minimumLog2 pf ≤ 2 ^ L := by omega
    exact (Nat.pow_le_pow_iff_right (by decide)).mp this
  · have hdouble : 2 * 2 ^ (pf.bits - 1) = 2 ^ pf.bits := by
      rw [← pow_succ']
      congr 1
      omega
    have : 2 ^ L < 2 ^ pf.bits := by omega
    exact (Nat.pow_lt_pow_iff_right (by decide)).mp this

/-- **Whatever options are given**, a chunk may have at least one block. -/
theorem one_le_maxBlocksPerChunk (o : PoolOptions) :
    1 ≤ (privFixOptions pf math o).maxBlocksPerChunk :=
  le_privLimitOption _ (by decide)

variable (pf math)

/-- **Where the request for a number of bytes is served**: by a pool, or, with
`none`, by the oversized list. -/
def poolFor (s : PoolResource) (bytes : ℕ) : Option ℕ :=
  if bytes > s.options.largestRequiredPoolBlock then none
  else some (privPoolIndex pf math bytes)

end PoolResource
