import BoostContainer.Pool.AdaptivePoolPlan
import BoostContainer.Pool.AdaptivePoolRuns

/-!
# The blocks a pool's constructor plans

What planner and filler have to agree on: a block holds at least the nodes
that were asked for, exactly as many as the pool reckons with, apart from each
other and from every header, inside the block, aligned, and each knows its
block.

A pool of blocks of several parts is always so. A block of one piece is sized
by its header and its nodes alone, and the payload is then taken off it: the
pool is so exactly where the payload still fits below the power of two.
-/

namespace PoolShape

variable (g : PoolShape)

/-- The size of the header in front of a part: that of the block in front of
the last one, an offset in front of the others. -/
def headerSize (i : ℕ) : ℕ := if i + 1 = g.parts then g.hdrSize else g.hdrOffSize

/-- The headers of a block. -/
def headers (memAddress : ℕ) : List Region :=
  (List.range g.parts).map
    (fun i => ⟨memAddress + i * g.realBlockAlignment, g.headerSize i⟩)

/-- The filler writes the header of the block where the headers have it. -/
theorem blockInfo_eq_headers (memAddress : ℕ) :
    g.blockInfo memAddress = memAddress + (g.parts - 1) * g.realBlockAlignment := by
  unfold blockInfo parts
  split
  · rw [Nat.sub_self, Nat.zero_mul, Nat.add_zero]
  · rw [Nat.mul_comm]

end PoolShape

namespace PoolLayout

variable (L : PoolLayout)

/-! ## Nodes in their parts -/

/-- **An area starts behind the header of its part.** -/
theorem exists_header {m : ℕ} {area : ℕ × ℕ} (h : area ∈ L.areas m) :
    ∃ i, L.PartBounds m i area
      ∧ area.1 = m + i * L.realBlockAlignment + L.headerSize i := by
  cases hn : L.alignOnly with
  | true =>
    have hparts : L.parts = 1 := by rw [PoolShape.parts, hn]; rfl
    rw [PoolShape.areas_of_alignOnly hn, List.mem_singleton] at h
    refine ⟨0, h ▸ L.partBounds_alignOnly hn, ?_⟩
    rw [h, PoolShape.headerSize, hparts, if_pos rfl, Nat.zero_mul, Nat.add_zero]
  | false =>
    have hparts : L.parts = L.numSubblocks := by rw [PoolShape.parts, hn]; rfl
    have hpos := L.subblocks_pos hn
    rw [PoolShape.areas_of_subblocks hn, List.mem_append, List.mem_map,
      List.mem_singleton] at h
    rcases h with ⟨i, hi, rfl⟩ | rfl
    · have hlt := List.mem_range.mp hi
      refine ⟨i, L.partBounds_subblock hn hlt, ?_⟩
      rw [PoolShape.headerSize, if_neg (by omega)]
      rfl
    · refine ⟨L.numSubblocks - 1, L.partBounds_header hn, ?_⟩
      rw [PoolShape.headerSize, if_pos (by omega), Nat.mul_comm]

/-- A node lies behind the header of a part and before the end of the part. -/
theorem exists_node_part {m x : ℕ} (hx : x ∈ L.slots m) :
    ∃ i < L.parts, m + i * L.realBlockAlignment + L.headerSize i ≤ x
      ∧ x + L.realNodeSize ≤ m + (i + 1) * L.realBlockAlignment
      ∧ x + L.realNodeSize ≤ m + L.realBlockSize := by
  obtain ⟨area, harea, hx⟩ := List.mem_flatMap.mp hx
  obtain ⟨i, hi, hstart⟩ := L.exists_header harea
  obtain ⟨hle, hstop⟩ := Region.slots_within hx
  rw [Region.stop_mk, Region.stop_mk] at hstop
  rw [hstart] at hle
  exact ⟨i, hi.index_lt, hle, hstop.trans hi.before_end, hstop.trans hi.in_block⟩

/-- **No two nodes overlap.** -/
theorem nodes_apart (m : ℕ) :
    ((L.slots m).map (fun x => (⟨x, L.realNodeSize⟩ : Region))).Pairwise Region.Apart := by
  unfold PoolShape.slots
  rw [List.pairwise_map, List.pairwise_flatMap]
  refine ⟨fun area _ => List.pairwise_map.mp (Region.slots_apart _ _ _),
    (L.areas_pairwise m).imp fun {a b} hab x hx y hy => ?_⟩
  have hstop := (Region.slots_within hx).2
  have hbase := (Region.slots_within hy).1
  rw [Region.stop_mk, Region.stop_mk] at hstop
  exact Region.apart_iff.mpr (Or.inr (Or.inr (Or.inl (hstop.trans (hab.trans hbase)))))

/-- **A node lies in its block.** -/
theorem node_within {m x : ℕ} (hx : x ∈ L.slots m) :
    (⟨x, L.realNodeSize⟩ : Region).Within (L.memory m) := by
  obtain ⟨i, _, hle, _, hstop⟩ := L.exists_node_part hx
  exact ⟨by show m ≤ x; omega, hstop⟩

/-- A header takes no more than its part. -/
theorem headerSize_le (i : ℕ) : L.headerSize i ≤ L.realBlockAlignment := by
  have h₁ := L.hdr_fits
  have h₂ := L.hdrOff_fits
  unfold PoolShape.headerSize
  split <;> omega

/-- **No node overlaps a header.** -/
theorem node_outside {m x : ℕ} (hx : x ∈ L.slots m) :
    ∀ h ∈ L.headers m, (⟨x, L.realNodeSize⟩ : Region).Apart h := by
  rintro h hh
  obtain ⟨j, -, rfl⟩ := List.mem_map.mp hh
  obtain ⟨i, -, hle, hlt, -⟩ := L.exists_node_part hx
  have hsize := L.headerSize_le j
  refine Region.apart_iff.mpr (Or.inr (Or.inr ?_))
  show x + L.realNodeSize ≤ m + j * L.realBlockAlignment
    ∨ m + j * L.realBlockAlignment + L.headerSize j ≤ x
  rcases Nat.lt_trichotomy i j with hij | rfl | hij
  · have hmul := Nat.mul_le_mul_right L.realBlockAlignment (Nat.succ_le_of_lt hij)
    rw [Nat.succ_eq_add_one] at hmul
    exact Or.inl (by omega)
  · exact Or.inr hle
  · have hmul := Nat.mul_le_mul_right L.realBlockAlignment (Nat.succ_le_of_lt hij)
    rw [Nat.succ_mul] at hmul
    exact Or.inr (by omega)

/-- **Nodes are aligned** as the block, its headers and the nodes' size are. -/
theorem node_aligned {m x d : ℕ} (hx : x ∈ L.slots m) (hm : d ∣ m)
    (halign : d ∣ L.realBlockAlignment) (hhdr : d ∣ L.hdrSize) (hoff : d ∣ L.hdrOffSize)
    (hsize : d ∣ L.realNodeSize) : d ∣ x := by
  obtain ⟨area, harea, hx⟩ := List.mem_flatMap.mp hx
  obtain ⟨i, -, hstart⟩ := L.exists_header harea
  have hheader : d ∣ L.headerSize i := by
    unfold PoolShape.headerSize
    split
    · exact hhdr
    · exact hoff
  have hbase : d ∣ area.1 := by
    rw [hstart]
    exact (hm.add (halign.mul_left i)).add hheader
  exact Nat.dvd_of_mod_eq_zero (Region.slots_mod hbase hsize hx)

end PoolLayout

namespace AdaptivePool

/-! ## The filler -/

variable (g : PoolShape) (s : AdaptivePool) (target : ℕ) (chain : List ℕ) (m : ℕ)

/-- A new block is marked, whatever becomes of its nodes. -/
theorem appendBlock_hdrOffset :
    (s.appendBlock g target chain m).2.hdrOffset = writeHdrOffsets g s.hdrOffset m := by
  unfold appendBlock
  dsimp only
  split
  · split <;> rfl
  · rfl

/-- **The nodes of a new block** go on the chain and on the block's free list,
in order. -/
theorem appendBlock_nodes :
    (s.appendBlock g target chain m).1
        ++ (s.appendBlock g target chain m).2.freeNodes (g.blockInfo m)
      = chain ++ g.slots m := by
  have hfill := foldl_fill (g := g) target (g.areas m) chain []
  have hfree : (s.appendBlock g target chain m).2.freeNodes (g.blockInfo m)
      = ((g.areas m).foldl (fillChainRemainingToBlock g target) (chain, [])).2 := by
    unfold appendBlock
    dsimp only
    split
    · split <;> exact Function.update_self _ _ _
    · exact Function.update_self _ _ _
  rw [hfree, hfill, List.nil_append]
  show ((g.areas m).foldl (fillChainRemainingToBlock g target) (chain, [])).1 ++ _ = _
  rw [hfill, List.append_assoc, List.take_append_drop]
  rfl

variable {s target chain m}

/-- **A node of a new block knows its block.** -/
theorem privBlockFromNode_appendBlock (L : PoolLayout) (hm : L.realBlockAlignment ∣ m)
    (hstop : (L.memory m).stop ≤ 2 ^ L.bits) {x : ℕ} (hx : x ∈ L.slots m) :
    (s.appendBlock L.toPoolShape target chain m).2.privBlockFromNode L.toPoolShape x
      = L.blockInfo m := by
  obtain ⟨i, hi, hle, hlt, hin⟩ := L.exists_part hx
  have hmask := L.mask_eq hm (lt_of_lt_of_le hin hstop) hle hlt
  unfold privBlockFromNode
  dsimp only
  rw [hmask, appendBlock_hdrOffset]
  cases hn : L.alignOnly with
  | true =>
    have hone : L.parts = 1 := by rw [PoolShape.parts, hn]; rfl
    obtain rfl : i = 0 := by omega
    rw [if_pos rfl, Nat.zero_mul, PoolShape.blockInfo, hn]
    rfl
  | false =>
    rw [if_neg Bool.false_ne_true]
    exact writeHdrOffsets_self hn hi

end AdaptivePool

namespace PoolParameters

variable (q : PoolParameters)

/-- **The nodes of a pool's blocks are as they should be.** -/
structure Carved (g : PoolShape) : Prop where
  enough : q.nodesPerBlock ≤ g.realNumNode
  /-- A node has room for what it is for. -/
  room : q.nodeSize ≤ g.realNodeSize
  /-- The filler carves exactly so many nodes. -/
  carved : ∀ (s : AdaptivePool) (target : ℕ) (chain : List ℕ) (m : ℕ),
    (s.appendBlock g target chain m).1
        ++ (s.appendBlock g target chain m).2.freeNodes (g.blockInfo m)
      = chain ++ g.slots m
  count : ∀ m, (g.slots m).length = g.realNumNode
  apart : ∀ m, ((g.slots m).map
    (fun x => (⟨x, g.realNodeSize⟩ : Region))).Pairwise Region.Apart
  within : ∀ m, ∀ x ∈ g.slots m, (⟨x, g.realNodeSize⟩ : Region).Within (g.memory m)
  outside : ∀ m, ∀ x ∈ g.slots m, ∀ h ∈ g.headers m,
    (⟨x, g.realNodeSize⟩ : Region).Apart h
  aligned : ∀ m, g.realBlockAlignment ∣ m → ∀ x ∈ g.slots m, q.nodeAlign ∣ x
  /-- `priv_block_from_node` names the header of the block. -/
  owner : ∀ m, g.realBlockAlignment ∣ m → (g.memory m).stop ≤ 2 ^ g.bits →
    ∀ (s : AdaptivePool) (target : ℕ) (chain : List ℕ), ∀ x ∈ g.slots m,
      (s.appendBlock g target chain m).2.privBlockFromNode g x = g.blockInfo m

variable {q}

/-- **A layout with the sizes of the request** is carved as it should be. -/
theorem carved_of_layout (hf : q.Fits) (L : PoolLayout)
    (hnum : q.nodesPerBlock ≤ L.realNumNode)
    (hsize : L.realNodeSize = q.realNodeSize)
    (hhdr : L.hdrSize = q.getHdrSize q.realNodeAlign)
    (hoff : L.hdrOffSize = q.getHdrOffSize q.realNodeAlign) : q.Carved L.toPoolShape := by
  have hlcm : L.realNodeSize = Nat.lcm q.nodeSize q.realNodeAlign :=
    hsize.trans hf.realNodeSize_eq
  have hroom : q.nodeSize ≤ L.realNodeSize := by
    rw [hlcm]
    exact Nat.le_of_dvd q.lcm_pos (Nat.dvd_lcm_left _ _)
  have halign : q.realNodeAlign ∣ L.realBlockAlignment := by
    refine dvd_of_le_of_isPowerOfTwo q.realNodeAlign_pow ⟨L.alignmentBits, rfl⟩ ?_
    have hfits := L.hdrOff_fits
    have hle := q.le_hdrOffSize
    rw [hoff] at hfits
    omega
  refine ⟨hnum, hroom, fun s target chain m => s.appendBlock_nodes _ target chain m,
    L.length_slots, L.nodes_apart, fun m x hx => L.node_within hx,
    fun m x hx => L.node_outside hx, fun m hm x hx => ?_,
    fun m hm hstop s target chain x hx =>
      AdaptivePool.privBlockFromNode_appendBlock L hm hstop hx⟩
  refine q.nodeAlign_dvd.trans (L.node_aligned hx (halign.trans hm) halign ?_ ?_ ?_)
  · rw [hhdr]
    exact q.dvd_hdrSize
  · rw [hoff]
    exact q.dvd_hdrOffSize
  · rw [hlcm]
    exact Nat.dvd_lcm_right _ _

/-- **Where the nodes of a block of one piece are inside it**, the payload
fits. -/
theorem PayloadFits.of_carved (hf : q.Fits) {n : ℕ} (hn : q.alignOnly = true)
    (h : q.Carved (q.shape q.realNodeAlign (Nat.clog 2 q.asked) 0 n)) :
    q.PayloadFits := by
  have hnum : q.nodesPerBlock ≤ n := h.enough
  have hpos := q.nodesPerBlock_pos
  have hlast : q.getHdrSize q.realNodeAlign + (q.nodesPerBlock - 1) * q.realNodeSize
      ∈ (q.shape q.realNodeAlign (Nat.clog 2 q.asked) 0 n).slots 0 := by
    refine List.mem_flatMap.mpr ⟨(0 + q.getHdrSize q.realNodeAlign, n), ?_, ?_⟩
    · rw [PoolShape.areas_of_alignOnly hn]
      exact List.mem_singleton_self _
    · exact Region.mem_slots.mpr ⟨q.nodesPerBlock - 1, by omega, by rw [Nat.zero_add]; rfl⟩
  have hstop := (h.within 0 _ hlast).2
  have hsize : (q.shape q.realNodeAlign (Nat.clog 2 q.asked) 0 n).memory 0
      = ⟨0, 2 ^ Nat.clog 2 q.asked - q.payloadPerAllocation⟩ :=
    congrArg (Region.mk 0) (if_pos hn)
  rw [hsize, Region.stop_mk, Region.stop_mk] at hstop
  have hnodes : (q.nodesPerBlock - 1) * q.realNodeSize + q.realNodeSize
      = Nat.lcm q.nodeSize q.realNodeAlign * q.nodesPerBlock := by
    rw [← Nat.succ_mul, Nat.succ_eq_add_one, Nat.sub_add_cancel hpos, hf.realNodeSize_eq,
      Nat.mul_comm]
  have hroom : 0 < q.getHdrSize q.realNodeAlign :=
    q.realNodeAlign_pos.trans_le (q.le_hdrOffSize.trans q.hdrOffSize_le)
  change q.getHdrSize q.realNodeAlign + (q.nodesPerBlock - 1) * q.realNodeSize
    + q.realNodeSize ≤ _ at hstop
  unfold PayloadFits
  generalize 2 ^ Nat.clog 2 q.asked = a at hstop ⊢
  unfold asked
  omega

/-- A pointer takes eight bytes, where a word has 64 bits. -/
theorem pointer_size_pos : 0 < 8 := by decide

/-- Nodes that hold a pointer, on a platform of 64 bits: a header is three words
of a tree, three of a list and an offset, and the payload is a word. -/
def pointers (nodesPerBlock overheadPercent : ℕ) (h : 0 < nodesPerBlock) :
    PoolParameters where
  bits := 64
  ptrAlign := 8
  blockInfoSize := 56
  hdrOffsetHolderSize := 8
  payloadPerAllocation := 8
  sizeOrdered := true
  addressOrdered := false
  nodeSize := 8
  nodesPerBlock := nodesPerBlock
  maxFreeBlocks := 2
  overheadPercent := overheadPercent
  nodeAlign := 8
  ptrAlign_pow := ⟨3, rfl⟩
  nodeAlign_pow := ⟨3, rfl⟩
  nodeSize_pos := pointer_size_pos
  nodesPerBlock_pos := h
  holder_le := by decide

end PoolParameters
