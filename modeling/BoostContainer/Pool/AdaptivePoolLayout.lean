import BoostContainer.Pool.AdaptivePool

/-!
# Where the nodes of a block lie

A block is cut into parts of the block alignment, each with a header in front
and nodes behind it. A node therefore lies in the part its masked address
names, and the nodes of all parts are as many as the pool reckons with. This
is all that the run of a pool uses of its shape.
-/

namespace PoolShape

variable (g : PoolShape)

/-- The number of aligned parts of a block. -/
def parts : ℕ := if g.alignOnly then 1 else g.numSubblocks

/-- The nodes of the block whose header is at an address. -/
def nodesOf (block : ℕ) : List ℕ := g.slots (g.firstSubblockFromBlock block)

/-- The memory of the block at an address. -/
def memory (memAddress : ℕ) : Region := ⟨memAddress, g.realBlockSize⟩

@[simp] theorem firstSubblockFromBlock_blockInfo (m : ℕ) :
    g.firstSubblockFromBlock (g.blockInfo m) = m := by
  unfold firstSubblockFromBlock blockInfo
  split
  · rfl
  · rw [Nat.mul_comm, Nat.add_sub_cancel]

theorem blockInfo_injective : Function.Injective g.blockInfo := fun a b h => by
  rw [← g.firstSubblockFromBlock_blockInfo a, h, g.firstSubblockFromBlock_blockInfo]

theorem nodesOf_blockInfo (m : ℕ) : g.nodesOf (g.blockInfo m) = g.slots m := by
  rw [nodesOf, firstSubblockFromBlock_blockInfo]

/-- How many nodes the parts hold does not depend on the address. -/
theorem areas_snd (m : ℕ) : (g.areas m).map Prod.snd = (g.areas 0).map Prod.snd := by
  unfold areas
  split
  · rfl
  · simp only [List.map_append, List.map_map]
    rfl

end PoolShape

namespace PoolLayout

variable (L : PoolLayout)

theorem align_pos : 0 < L.realBlockAlignment := Nat.two_pow_pos _

theorem parts_pos : 0 < L.parts := by
  unfold PoolShape.parts
  cases hn : L.alignOnly with
  | true => exact Nat.one_pos
  | false => exact L.subblocks_pos hn

theorem payload_lt : L.payloadPerAllocation < L.realBlockAlignment := by
  have := L.hdr_pos
  have := L.hdr_fits
  omega

theorem realBlockSize_eq :
    L.realBlockSize = L.parts * L.realBlockAlignment - L.payloadPerAllocation := by
  unfold PoolShape.realBlockSize PoolShape.parts
  split
  · rw [Nat.one_mul]
  · rw [Nat.mul_comm]

/-- The start of a part lies in the block. -/
theorem part_lt {i : ℕ} (hi : i < L.parts) :
    i * L.realBlockAlignment < L.realBlockSize := by
  have hle := Nat.mul_le_mul_right L.realBlockAlignment (Nat.succ_le_of_lt hi)
  have := L.payload_lt
  rw [Nat.succ_mul] at hle
  rw [realBlockSize_eq]
  omega

/-- **Where a part puts its nodes**: behind its header, before its end, and
inside the block. -/
structure PartBounds (m i : ℕ) (area : ℕ × ℕ) : Prop where
  index_lt : i < L.parts
  after_header : m + i * L.realBlockAlignment < area.1
  before_end : area.1 + area.2 * L.realNodeSize ≤ m + (i + 1) * L.realBlockAlignment
  in_block : area.1 + area.2 * L.realNodeSize ≤ m + L.realBlockSize

/-- Elements that fill what a header and a payload leave fit there. -/
theorem elements_le {n : ℕ} (hdr rest : ℕ) (hfit : hdr + rest ≤ L.realBlockAlignment)
    (hn : n = (L.realBlockAlignment - hdr - rest) / L.realNodeSize) :
    hdr + n * L.realNodeSize + rest ≤ L.realBlockAlignment := by
  have := Nat.div_mul_le_self (L.realBlockAlignment - hdr - rest) L.realNodeSize
  rw [hn]
  omega

theorem partBounds_subblock {m i : ℕ} (hn : L.alignOnly = false)
    (hi : i < L.numSubblocks - 1) : L.PartBounds m i (L.subblockArea m i) := by
  have hparts : L.parts = L.numSubblocks := by rw [PoolShape.parts, hn]; rfl
  have hfits := L.hdrOff_fits
  have hpos := L.hdrOff_pos
  have hmid := L.elements_le L.hdrOffSize 0 (by omega)
    (n := L.elementsPerSubblockMid) rfl
  have hend := L.elements_le _ _ L.hdrOff_fits (n := L.elementsPerSubblockEnd) rfl
  have hlast : L.hdrOffSize + (L.subblockArea m i).2 * L.realNodeSize
      ≤ L.realBlockAlignment := by
    unfold PoolShape.subblockArea
    dsimp only
    split <;> omega
  have hstart : (L.subblockArea m i).1 = m + i * L.realBlockAlignment + L.hdrOffSize := rfl
  -- the parts that follow hold at least the payload
  have hblock : (i + 2) * L.realBlockAlignment ≤ L.parts * L.realBlockAlignment :=
    Nat.mul_le_mul_right _ (by omega)
  have := L.payload_lt
  have hsize := L.realBlockSize_eq
  rw [Nat.add_mul] at hblock
  refine ⟨by omega, by omega, ?_, ?_⟩
  · rw [hstart, Nat.add_one_mul]
    omega
  · rw [hstart]
    omega

theorem partBounds_header {m : ℕ} (hn : L.alignOnly = false) :
    L.PartBounds m (L.numSubblocks - 1)
      (m + L.realBlockAlignment * (L.numSubblocks - 1) + L.hdrSize,
        L.hdrSubblockElements) := by
  have hparts : L.parts = L.numSubblocks := by rw [PoolShape.parts, hn]; rfl
  have hsub := L.subblocks_pos hn
  have hpos := L.hdr_pos
  have hend := L.elements_le _ _ L.hdr_fits (n := L.hdrSubblockElements) rfl
  have hsize := L.realBlockSize_eq
  have hmul : L.parts * L.realBlockAlignment
      = (L.numSubblocks - 1) * L.realBlockAlignment + L.realBlockAlignment := by
    rw [hparts, ← Nat.succ_mul, Nat.succ_eq_add_one, Nat.sub_add_cancel hsub]
  have hcomm := Nat.mul_comm L.realBlockAlignment (L.numSubblocks - 1)
  refine ⟨by omega, ?_, ?_, ?_⟩
  · show _ < m + L.realBlockAlignment * (L.numSubblocks - 1) + L.hdrSize
    omega
  · show m + L.realBlockAlignment * (L.numSubblocks - 1) + L.hdrSize
      + L.hdrSubblockElements * L.realNodeSize ≤ _
    rw [Nat.add_one_mul]
    omega
  · show m + L.realBlockAlignment * (L.numSubblocks - 1) + L.hdrSize
      + L.hdrSubblockElements * L.realNodeSize ≤ _
    omega

theorem partBounds_alignOnly {m : ℕ} (hn : L.alignOnly = true) :
    L.PartBounds m 0 (m + L.hdrSize, L.realNumNode) := by
  have hparts : L.parts = 1 := by rw [PoolShape.parts, hn]; rfl
  have hfit := L.nodes_fit hn
  have hpos := L.hdr_pos
  have hsize := L.realBlockSize_eq
  rw [hparts] at hsize
  refine ⟨by omega, ?_, ?_, ?_⟩
  · show _ < m + L.hdrSize
    omega
  · show m + L.hdrSize + L.realNumNode * L.realNodeSize ≤ _
    omega
  · show m + L.hdrSize + L.realNumNode * L.realNodeSize ≤ _
    omega

/-- **Every area lies in a part of its own.** -/
theorem exists_partBounds {m : ℕ} {area : ℕ × ℕ} (h : area ∈ L.areas m) :
    ∃ i, L.PartBounds m i area := by
  unfold PoolShape.areas at h
  cases hn : L.alignOnly with
  | true =>
    rw [hn, if_pos rfl, List.mem_singleton] at h
    exact ⟨0, h ▸ L.partBounds_alignOnly hn⟩
  | false =>
    rw [hn, if_neg (by simp), List.mem_append, List.mem_map, List.mem_singleton] at h
    rcases h with ⟨i, hi, rfl⟩ | rfl
    · exact ⟨i, L.partBounds_subblock hn (List.mem_range.mp hi)⟩
    · exact ⟨_, L.partBounds_header hn⟩

/-- The areas follow each other in memory. -/
theorem areas_pairwise (m : ℕ) : (L.areas m).Pairwise
    (fun a b => a.1 + a.2 * L.realNodeSize ≤ b.1) := by
  unfold PoolShape.areas
  cases hn : L.alignOnly with
  | true =>
    rw [if_pos rfl]
    exact List.pairwise_singleton _ _
  | false =>
    have hmono : ∀ {i j : ℕ} {a b : ℕ × ℕ}, L.PartBounds m i a → L.PartBounds m j b →
        i < j → a.1 + a.2 * L.realNodeSize ≤ b.1 := by
      intro i j a b ha hb hij
      have hle := Nat.mul_le_mul_right L.realBlockAlignment (Nat.succ_le_of_lt hij)
      have h₁ := ha.before_end
      have h₂ := hb.after_header
      rw [Nat.succ_eq_add_one] at hle
      omega
    rw [if_neg (by simp), List.pairwise_append, List.pairwise_map]
    refine ⟨?_, List.pairwise_singleton _ _, ?_⟩
    · refine List.pairwise_lt_range.imp_of_mem (fun {i j} hi hj hij => ?_)
      exact hmono (L.partBounds_subblock hn (List.mem_range.mp hi))
        (L.partBounds_subblock hn (List.mem_range.mp hj)) hij
    · intro a ha b hb
      obtain ⟨i, hi, rfl⟩ := List.mem_map.mp ha
      rw [List.mem_singleton] at hb
      subst hb
      exact hmono (L.partBounds_subblock hn (List.mem_range.mp hi)) (L.partBounds_header hn)
        (List.mem_range.mp hi)

theorem slots_nodup (m : ℕ) : (L.slots m).Nodup := by
  unfold PoolShape.slots
  rw [List.nodup_flatMap]
  refine ⟨fun area _ => Region.nodup_slots L.node_pos,
    (L.areas_pairwise m).imp (fun {a b} hab x hx hy => ?_)⟩
  have h₁ := (Region.mem_bytes_of_mem_slots L.node_pos hx).2
  have h₂ := (Region.mem_bytes_of_mem_slots L.node_pos hy).1
  simp only [Region.stop_mk] at h₁
  exact absurd (h₁.trans_le (hab.trans h₂)) (lt_irrefl x)

/-- **A block has as many nodes as the pool reckons with.** -/
theorem length_slots (m : ℕ) : (L.slots m).length = L.realNumNode := by
  unfold PoolShape.slots
  rw [List.length_flatMap, ← L.nodes_sum, ← L.areas_snd m]
  congr 1
  exact List.map_congr_left (fun _ _ => Region.length_slots _ _ _)

/-- **A node lies in one part**, and in the block. -/
theorem exists_part {m x : ℕ} (hx : x ∈ L.slots m) :
    ∃ i < L.parts, m + i * L.realBlockAlignment ≤ x
      ∧ x < m + (i + 1) * L.realBlockAlignment ∧ x < m + L.realBlockSize := by
  obtain ⟨area, harea, hx⟩ := List.mem_flatMap.mp hx
  obtain ⟨i, hi⟩ := L.exists_partBounds harea
  obtain ⟨hle, hlt⟩ := Region.mem_bytes_of_mem_slots L.node_pos hx
  simp only [Region.stop_mk] at hle hlt
  have h₁ := hi.after_header
  have h₂ := hi.before_end
  have h₃ := hi.in_block
  exact ⟨i, hi.index_lt, by omega, by omega, by omega⟩

theorem mem_memory {m x : ℕ} (hx : x ∈ L.slots m) : x ∈ (L.memory m).bytes := by
  obtain ⟨i, _, hle, _, hlt⟩ := L.exists_part hx
  exact ⟨(Nat.le_add_right _ _).trans hle, hlt⟩

/-- **Masking the address of a node names the part it lies in.** -/
theorem mask_eq {m x i : ℕ} (hm : L.realBlockAlignment ∣ m) (hx : x < 2 ^ L.bits)
    (hle : m + i * L.realBlockAlignment ≤ x)
    (hlt : x < m + (i + 1) * L.realBlockAlignment) :
    x &&& Word.compl L.bits (L.realBlockAlignment - 1) = m + i * L.realBlockAlignment := by
  have hmask : x &&& Word.compl L.bits (2 ^ L.alignmentBits - 1) = _ :=
    Word.land_compl_eq hx
  refine hmask.trans ?_
  show x - x % L.realBlockAlignment = _
  obtain ⟨c, rfl⟩ := hm
  have hstart : L.realBlockAlignment * c + i * L.realBlockAlignment
      = L.realBlockAlignment * (c + i) := by ring
  rw [Nat.add_one_mul, ← Nat.add_assoc] at hlt
  rw [hstart] at hle hlt ⊢
  have hmod : x % L.realBlockAlignment = x - L.realBlockAlignment * (c + i) := by
    rw [Nat.mod_eq_sub_mul_div]
    congr 2
    exact Nat.div_eq_of_lt_le (by rw [Nat.mul_comm]; exact hle)
      (by rw [Nat.succ_mul, Nat.mul_comm]; exact hlt)
  omega

end PoolLayout
