import BoostContainer.Pool.AdaptivePoolLayout

/-!
# Planning the blocks of an adaptive pool

The constructor of a pool is told the size and the alignment of a node and how
many nodes a block is to hold at least, and works out how large a block is,
into how many aligned sub-blocks it falls and how many nodes fit. The filler of
`priv_append_from_new_blocks` later works the nodes of each sub-block out
again.

With overhead zero the block is one piece: the header and the nodes, rounded
up to a power of two. Otherwise an alignment is searched for, doubling it until
the part of the block that is not node is a small enough share. All of it is
computed in `size_type`, which wraps.
-/

/-- **What a pool is made with**: the platform, the constants of the segment
manager, and the arguments of the constructor. -/
structure PoolParameters where
  /-- Bits of `size_type`, and of an address. -/
  bits : ℕ
  /-- `alignment_of<void_pointer>`. -/
  ptrAlign : ℕ
  /-- `sizeof(block_info_t)`. -/
  blockInfoSize : ℕ
  /-- `sizeof(hdr_offset_holder)`. -/
  hdrOffsetHolderSize : ℕ
  payloadPerAllocation : ℕ
  sizeOrdered : Bool
  addressOrdered : Bool
  nodeSize : ℕ
  nodesPerBlock : ℕ
  maxFreeBlocks : ℕ
  overheadPercent : ℕ
  nodeAlign : ℕ
  ptrAlign_pow : ptrAlign.isPowerOfTwo
  nodeAlign_pow : nodeAlign.isPowerOfTwo
  nodeSize_pos : 0 < nodeSize
  nodesPerBlock_pos : 0 < nodesPerBlock
  /-- A `block_info_t` is a `hdr_offset_holder`. -/
  holder_le : hdrOffsetHolderSize ≤ blockInfoSize

/-- **The loop of `log2_ceil` and of `upper_power_of_2`**: how often the power
was doubled, and the power. No answer where it does not end; a power that was
doubled as often as a word has bits is zero, and stays zero. -/
def doublingLoop (w a : ℕ) : ℕ → ℕ → ℕ → Option (ℕ × ℕ)
  | 0, _, _ => none
  | fuel + 1, i, powerOf2 =>
    if powerOf2 < a then doublingLoop w a fuel (i + 1) (Word.shl w powerOf2 1)
    else some (i, powerOf2)

/-- `log2_ceil`. -/
def log2Ceil (w a : ℕ) : Option ℕ := (doublingLoop w a (w + 1) 0 1).map Prod.fst

/-- `upper_power_of_2`. -/
def upperPowerOf2 (w a : ℕ) : Option ℕ := (doublingLoop w a (w + 1) 0 1).map Prod.snd

namespace PoolParameters

variable (q : PoolParameters)

/-- A pool without overhead is align only. -/
def alignOnly : Bool := decide (q.overheadPercent = 0)

/-- The alignment of a node is not less than that of a pointer. -/
def realNodeAlign : ℕ := if q.nodeAlign < q.ptrAlign then q.ptrAlign else q.nodeAlign

/-- `lcm` of the size of a node and its alignment. -/
def realNodeSize : ℕ :=
  Word.mul q.bits (q.nodeSize / Nat.gcd q.nodeSize q.realNodeAlign) q.realNodeAlign

/-- `get_hdr_size`. -/
def getHdrSize (realNodeAlign : ℕ) : ℕ :=
  ((q.blockInfoSize - 1) / realNodeAlign + 1) * realNodeAlign

/-- `get_hdr_off_size`. -/
def getHdrOffSize (realNodeAlign : ℕ) : ℕ :=
  ((q.hdrOffsetHolderSize - 1) / realNodeAlign + 1) * realNodeAlign

/-- The alignment `get_node_alignment` reads back: only its logarithm is kept. -/
def getNodeAlignment : Option ℕ :=
  (log2Ceil q.bits (q.realNodeAlign / q.ptrAlign)).map (Word.shl q.bits q.ptrAlign)

/-- **One round of `candidate_power_of_2_rt`**: the sub-blocks that are not the
first, the nodes of all of them, and whether the overhead is satisfied. No
answer stands for a division by zero. -/
def candidateRound (initialAlignment : ℕ) : Option (ℕ × ℕ × Bool) := do
  let w := q.bits
  let hdrSize := q.getHdrSize q.realNodeAlign
  let hdrOffsetSize := q.getHdrOffSize q.realNodeAlign
  let hdrSubblockElementsAlone :=
    Word.sub w (Word.sub w initialAlignment hdrSize) q.payloadPerAllocation / q.realNodeSize
  let hdrSubblockElementsFirst :=
    Word.sub w (Word.sub w initialAlignment hdrSize) q.payloadPerAllocation / q.realNodeSize
  let elementsPerBSubblockMid := Word.sub w initialAlignment hdrOffsetSize / q.realNodeSize
  let elementsPerBSubblockEnd :=
    Word.sub w (Word.sub w initialAlignment hdrOffsetSize) q.payloadPerAllocation
      / q.realNodeSize
  let numBSubblock ←
    (if q.nodesPerBlock ≤ hdrSubblockElementsAlone then some 0
    else if q.nodesPerBlock
        ≤ Word.add w hdrSubblockElementsFirst elementsPerBSubblockEnd then some 1
    else if elementsPerBSubblockMid = 0 then none
    else some (Word.add w 2
      (Word.sub w (Word.sub w (Word.sub w q.nodesPerBlock hdrSubblockElementsFirst)
        elementsPerBSubblockEnd) 1 / elementsPerBSubblockMid)))
  let numBSubblockMid := if numBSubblock > 1 then numBSubblock - 1 else 0
  let totalNodes :=
    if numBSubblock = 0 then hdrSubblockElementsAlone
    else if numBSubblock = 1 then
      Word.add w hdrSubblockElementsFirst elementsPerBSubblockEnd
    else
      Word.add w
        (Word.add w hdrSubblockElementsFirst
          (Word.mul w numBSubblockMid elementsPerBSubblockMid))
        elementsPerBSubblockEnd
  let totalData := Word.mul w totalNodes q.realNodeSize
  let totalSize := Word.mul w initialAlignment (Word.add w numBSubblock 1)
  if totalSize = 0 then none
  else some (numBSubblock, totalNodes,
    decide (Word.mul w (Word.sub w totalSize totalData) 100 / totalSize < q.overheadPercent))

/-- The loop of `candidate_power_of_2_rt`: the alignment, the sub-blocks and the
nodes. -/
def candidateLoop : ℕ → ℕ → Option (ℕ × ℕ × ℕ)
  | 0, _ => none
  | fuel + 1, initialAlignment => do
    let (numBSubblock, totalNodes, overheadSatisfied) ← q.candidateRound initialAlignment
    if overheadSatisfied then some (initialAlignment, numBSubblock + 1, totalNodes)
    else candidateLoop fuel (Word.shl q.bits initialAlignment 1)

/-- `candidate_power_of_2_rt`. An alignment that was doubled as often as a word
has bits is zero, and there the round divides by zero. -/
def candidatePowerOf2Rt (initialAlignment : ℕ) : Option (ℕ × ℕ × ℕ) :=
  q.candidateLoop (q.bits + 1) initialAlignment

/-- The alignment, the sub-blocks and the nodes of a block. An align-only pool
does not set the number of sub-blocks. -/
def plan : Option (ℕ × ℕ × ℕ) :=
  let w := q.bits
  let hdrSize := q.getHdrSize q.realNodeAlign
  if q.alignOnly then do
    let realBlockAlignment ←
      upperPowerOf2 w (Word.add w hdrSize (Word.mul w q.realNodeSize q.nodesPerBlock))
    some (realBlockAlignment, 0,
      Word.sub w (Word.sub w realBlockAlignment q.payloadPerAllocation) hdrSize
        / q.realNodeSize)
  else do
    let initialAlignment ←
      upperPowerOf2 w (Word.add w (Word.add w hdrSize q.payloadPerAllocation) q.realNodeSize)
    q.candidatePowerOf2Rt
      (if initialAlignment < q.realNodeAlign then q.realNodeAlign else initialAlignment)

/-- The shape of the blocks, for an alignment of the nodes, which gives the
headers, and what was planned. -/
def shape (nodeAlignment alignmentBits numSubblocks realNumNode : ℕ) : PoolShape where
  alignOnly := q.alignOnly
  sizeOrdered := q.sizeOrdered
  addressOrdered := q.addressOrdered
  bits := q.bits
  alignmentBits := alignmentBits
  realNodeSize := q.realNodeSize
  realNumNode := realNumNode
  numSubblocks := numSubblocks
  hdrSize := q.getHdrSize nodeAlignment
  hdrOffSize := q.getHdrOffSize nodeAlignment
  payloadPerAllocation := q.payloadPerAllocation
  maxFreeBlocks := q.maxFreeBlocks

/-- **The constructor of `private_adaptive_node_pool_impl_rt`.** No answer where
it does not return. -/
def construct : Option PoolShape := do
  let nodeAlignment ← q.getNodeAlignment
  let (realBlockAlignment, numSubblocks, realNumNode) ← q.plan
  some (q.shape nodeAlignment (Nat.log2 realBlockAlignment) numSubblocks realNumNode)

end PoolParameters

/-! ## Powers of two -/

theorem doublingLoop_pow {w a : ℕ} (ha : Nat.clog 2 a < w) (fuel i : ℕ)
    (hi : i ≤ Nat.clog 2 a) (hfuel : Nat.clog 2 a < i + fuel) :
    doublingLoop w a fuel i (2 ^ i) = some (Nat.clog 2 a, 2 ^ Nat.clog 2 a) := by
  induction fuel generalizing i with
  | zero => omega
  | succ fuel ih =>
    unfold doublingLoop
    by_cases hlt : i < Nat.clog 2 a
    · have hpow : 2 ^ i * 2 ^ 1 = 2 ^ (i + 1) := (Nat.pow_add 2 i 1).symm
      have hw : 2 ^ (i + 1) < 2 ^ w := Nat.pow_lt_pow_right (by omega) (by omega)
      rw [if_pos ((Nat.lt_clog_iff_pow_lt Nat.one_lt_two).mp hlt),
        Word.shl_of_lt (hpow ▸ hw), hpow]
      exact ih (i + 1) hlt (by omega)
    · have hle : a ≤ 2 ^ i := (Nat.clog_le_iff_le_pow Nat.one_lt_two).mp (not_lt.mp hlt)
      rw [if_neg (not_lt.mpr hle), le_antisymm hi (not_lt.mp hlt)]

/-- **The loop ends** where the power it looks for is a word. -/
theorem doublingLoop_eq {w a : ℕ} (ha : Nat.clog 2 a < w) :
    doublingLoop w a (w + 1) 0 1 = some (Nat.clog 2 a, 2 ^ Nat.clog 2 a) :=
  doublingLoop_pow ha (w + 1) 0 (Nat.zero_le _) (by omega)

theorem log2Ceil_eq {w a : ℕ} (ha : Nat.clog 2 a < w) :
    log2Ceil w a = some (Nat.clog 2 a) := by
  rw [log2Ceil, doublingLoop_eq ha, Option.map_some]

theorem upperPowerOf2_eq {w a : ℕ} (ha : Nat.clog 2 a < w) :
    upperPowerOf2 w a = some (2 ^ Nat.clog 2 a) := by
  rw [upperPowerOf2, doublingLoop_eq ha, Option.map_some]

/-- The areas of a block of one piece. -/
theorem PoolShape.areas_of_alignOnly {g : PoolShape} (hn : g.alignOnly = true) (m : ℕ) :
    g.areas m = [(m + g.hdrSize, g.realNumNode)] := if_pos hn

/-- The areas of a block of several parts. -/
theorem PoolShape.areas_of_subblocks {g : PoolShape} (hn : g.alignOnly = false) (m : ℕ) :
    g.areas m = (List.range (g.numSubblocks - 1)).map (g.subblockArea m)
      ++ [(m + g.realBlockAlignment * (g.numSubblocks - 1) + g.hdrSize,
        g.hdrSubblockElements)] := if_neg (by rw [hn]; exact Bool.false_ne_true)

namespace PoolParameters

variable (q : PoolParameters)

/-! ## The alignment and the size of a node -/

/-- What a header, the payload and one node take. -/
def least : ℕ :=
  q.getHdrSize q.realNodeAlign + q.payloadPerAllocation
    + Nat.lcm q.nodeSize q.realNodeAlign

/-- **Nothing that is computed wraps**: the largest alignment the search comes
to, for as many sub-blocks as it asks for, can be multiplied with a hundred. -/
def Fits : Prop := 20000 * q.least * (q.nodesPerBlock + 2) < 2 ^ q.bits

instance : Decidable q.Fits := inferInstanceAs (Decidable (_ < _))

theorem realNodeAlign_pow : q.realNodeAlign.isPowerOfTwo := by
  unfold realNodeAlign
  split
  · exact q.ptrAlign_pow
  · exact q.nodeAlign_pow

theorem realNodeAlign_pos : 0 < q.realNodeAlign := Nat.pos_of_isPowerOfTwo q.realNodeAlign_pow

/-- Of two powers of two, the smaller divides the greater. -/
theorem dvd_of_le_of_isPowerOfTwo {a b : ℕ} (ha : a.isPowerOfTwo) (hb : b.isPowerOfTwo)
    (h : a ≤ b) : a ∣ b := by
  obtain ⟨i, rfl⟩ := ha
  obtain ⟨j, rfl⟩ := hb
  exact Nat.pow_dvd_pow 2 ((Nat.pow_le_pow_iff_right Nat.one_lt_two).mp h)

theorem nodeAlign_dvd : q.nodeAlign ∣ q.realNodeAlign := by
  refine dvd_of_le_of_isPowerOfTwo q.nodeAlign_pow q.realNodeAlign_pow ?_
  unfold realNodeAlign
  split <;> omega

theorem ptrAlign_dvd : q.ptrAlign ∣ q.realNodeAlign := by
  refine dvd_of_le_of_isPowerOfTwo q.ptrAlign_pow q.realNodeAlign_pow ?_
  unfold realNodeAlign
  split <;> omega

theorem dvd_hdrSize : q.realNodeAlign ∣ q.getHdrSize q.realNodeAlign := Nat.dvd_mul_left _ _

theorem dvd_hdrOffSize : q.realNodeAlign ∣ q.getHdrOffSize q.realNodeAlign :=
  Nat.dvd_mul_left _ _

theorem le_hdrOffSize : q.realNodeAlign ≤ q.getHdrOffSize q.realNodeAlign := by
  rw [getHdrOffSize, Nat.succ_mul]
  exact Nat.le_add_left _ _

theorem hdrOffSize_le : q.getHdrOffSize q.realNodeAlign ≤ q.getHdrSize q.realNodeAlign := by
  unfold getHdrOffSize getHdrSize
  have hle : q.hdrOffsetHolderSize - 1 ≤ q.blockInfoSize - 1 :=
    Nat.sub_le_sub_right q.holder_le 1
  exact Nat.mul_le_mul_right _ (Nat.succ_le_succ (Nat.div_le_div_right hle))

theorem lcm_pos : 0 < Nat.lcm q.nodeSize q.realNodeAlign :=
  Nat.lcm_pos q.nodeSize_pos q.realNodeAlign_pos

variable {q}

theorem Fits.least_lt (hf : q.Fits) : 200 * q.least < 2 ^ q.bits := by
  refine lt_of_le_of_lt ?_ hf
  exact (Nat.mul_le_mul_right _ (by omega)).trans (Nat.le_mul_of_pos_right _ (by omega))

theorem Fits.realNodeSize_eq (hf : q.Fits) :
    q.realNodeSize = Nat.lcm q.nodeSize q.realNodeAlign := by
  have hlcm : q.nodeSize / Nat.gcd q.nodeSize q.realNodeAlign * q.realNodeAlign
      = Nat.lcm q.nodeSize q.realNodeAlign :=
    Nat.div_mul_right_comm (Nat.gcd_dvd_left _ _) _
  have hlt := hf.least_lt
  unfold least at hlt
  rw [realNodeSize, Word.mul_of_lt (by omega), hlcm]

/-- **The alignment is read back as it was stored.** -/
theorem Fits.getNodeAlignment_eq (hf : q.Fits) :
    q.getNodeAlignment = some q.realNodeAlign := by
  obtain ⟨c, hc⟩ := q.ptrAlign_dvd
  obtain ⟨i, hi⟩ := q.realNodeAlign_pow
  obtain ⟨j, hj⟩ := q.ptrAlign_pow
  have hji : j ≤ i := by
    have hle := Nat.le_of_dvd q.realNodeAlign_pos q.ptrAlign_dvd
    rw [hi, hj] at hle
    exact (Nat.pow_le_pow_iff_right Nat.one_lt_two).mp hle
  have hquot : q.realNodeAlign / q.ptrAlign = 2 ^ (i - j) := by
    rw [hi, hj, Nat.pow_div hji (by omega)]
  have hlt : q.realNodeAlign < 2 ^ q.bits := by
    have h₁ := hf.least_lt
    have h₂ := q.le_hdrOffSize
    have h₃ := q.hdrOffSize_le
    unfold least at h₁
    omega
  have hi' : i < q.bits := (Nat.pow_lt_pow_iff_right Nat.one_lt_two).mp (hi ▸ hlt)
  have hback : q.ptrAlign * 2 ^ (i - j) = q.realNodeAlign := by
    rw [hi, hj, ← Nat.pow_add, Nat.add_sub_cancel' hji]
  have hclog : Nat.clog 2 (2 ^ (i - j)) = i - j := Nat.clog_pow 2 _ Nat.one_lt_two
  rw [getNodeAlignment, hquot, log2Ceil_eq (by omega), hclog, Option.map_some,
    Word.shl_of_lt (hback ▸ hlt), hback]


/-! ## A round of the search -/

variable (q)

/-- The block at an alignment of `2 ^ k`, whose elements the filler counts. -/
def shapeAt (k : ℕ) : PoolShape := q.shape q.realNodeAlign k 0 0

/-- The sub-blocks that are not the first, in numbers that do not wrap. -/
def numBSubblock (k : ℕ) : ℕ :=
  if q.nodesPerBlock ≤ (q.shapeAt k).hdrSubblockElements then 0
  else if q.nodesPerBlock
      ≤ (q.shapeAt k).hdrSubblockElements + (q.shapeAt k).elementsPerSubblockEnd then 1
  else
    2 + (q.nodesPerBlock - (q.shapeAt k).hdrSubblockElements
      - (q.shapeAt k).elementsPerSubblockEnd - 1) / (q.shapeAt k).elementsPerSubblockMid

/-- The nodes of all sub-blocks. -/
def totalNodes (k : ℕ) : ℕ :=
  if q.numBSubblock k = 0 then (q.shapeAt k).hdrSubblockElements
  else
    (q.shapeAt k).hdrSubblockElements
      + (q.numBSubblock k - 1) * (q.shapeAt k).elementsPerSubblockMid
      + (q.shapeAt k).elementsPerSubblockEnd

/-- Elements that fill a part take less than one more than the part. -/
theorem elements_bounds {n a size : ℕ} (hsize : 0 < size) (hn : n = a / size) :
    n * size ≤ a ∧ a < n * size + size := by
  have hlt := Nat.lt_div_mul_add hsize (a := a)
  exact ⟨hn ▸ Nat.div_mul_le_self a size, hn ▸ hlt⟩

/-- **What the parts of a block at an alignment of `2 ^ k` hold**: all of it but
a header, the payload and less than one node. -/
structure Parts (k : ℕ) : Prop where
  node_pos : 0 < q.realNodeSize
  first_pos : 0 < (q.shapeAt k).hdrSubblockElements
  mid_pos : 0 < (q.shapeAt k).elementsPerSubblockMid
  first_le : (q.shapeAt k).hdrSubblockElements * q.realNodeSize ≤ 2 ^ k
  mid_le : (q.shapeAt k).elementsPerSubblockMid * q.realNodeSize ≤ 2 ^ k
  end_le : (q.shapeAt k).elementsPerSubblockEnd * q.realNodeSize ≤ 2 ^ k
  lt_first : 2 ^ k < (q.shapeAt k).hdrSubblockElements * q.realNodeSize + q.least
  lt_mid : 2 ^ k < (q.shapeAt k).elementsPerSubblockMid * q.realNodeSize + q.least
  lt_end : 2 ^ k < (q.shapeAt k).elementsPerSubblockEnd * q.realNodeSize + q.least

variable {q} {k : ℕ}

theorem Fits.parts (hf : q.Fits) (hk : q.least ≤ 2 ^ k) : q.Parts k := by
  have hns := hf.realNodeSize_eq
  have hpos : 0 < q.realNodeSize := hns ▸ q.lcm_pos
  have hoff := q.hdrOffSize_le
  unfold least at hk
  rw [← hns] at hk
  have hfirst := elements_bounds hpos (n := (q.shapeAt k).hdrSubblockElements) rfl
  have hmid := elements_bounds hpos (n := (q.shapeAt k).elementsPerSubblockMid) rfl
  have hend := elements_bounds hpos (n := (q.shapeAt k).elementsPerSubblockEnd) rfl
  change _ ≤ 2 ^ k - q.getHdrSize q.realNodeAlign - q.payloadPerAllocation ∧
    2 ^ k - q.getHdrSize q.realNodeAlign - q.payloadPerAllocation < _ at hfirst
  change _ ≤ 2 ^ k - q.getHdrOffSize q.realNodeAlign ∧
    2 ^ k - q.getHdrOffSize q.realNodeAlign < _ at hmid
  change _ ≤ 2 ^ k - q.getHdrOffSize q.realNodeAlign - q.payloadPerAllocation ∧
    2 ^ k - q.getHdrOffSize q.realNodeAlign - q.payloadPerAllocation < _ at hend
  have hone : ∀ {n : ℕ}, q.realNodeSize < n * q.realNodeSize + q.realNodeSize → 0 < n :=
    fun {n} h => Nat.pos_of_ne_zero fun h0 => by
      rw [h0, Nat.zero_mul] at h
      omega
  refine ⟨hpos, hone (by omega), hone (by omega), by omega, by omega, by omega, ?_, ?_, ?_⟩ <;>
  · unfold least
    rw [← hns]
    omega

section Parts

variable (hp : q.Parts k)
include hp

theorem Parts.numBSubblock_le : q.numBSubblock k ≤ q.nodesPerBlock := by
  have hfirst := hp.first_pos
  have hone := q.nodesPerBlock_pos
  unfold numBSubblock
  split
  · omega
  split
  · omega
  · have hdiv := Nat.div_le_self (q.nodesPerBlock - (q.shapeAt k).hdrSubblockElements
      - (q.shapeAt k).elementsPerSubblockEnd - 1) (q.shapeAt k).elementsPerSubblockMid
    omega

/-- **There are as many nodes as were asked for.** -/
theorem Parts.le_totalNodes : q.nodesPerBlock ≤ q.totalNodes k := by
  have hmid := hp.mid_pos
  unfold totalNodes numBSubblock
  generalize (q.shapeAt k).hdrSubblockElements = first
  generalize (q.shapeAt k).elementsPerSubblockEnd = last
  generalize (q.shapeAt k).elementsPerSubblockMid = mid at hmid ⊢
  by_cases h₀ : q.nodesPerBlock ≤ first
  · rw [if_pos h₀, if_pos rfl]
    exact h₀
  by_cases h₁ : q.nodesPerBlock ≤ first + last
  · rw [if_neg h₀, if_pos h₁, if_neg one_ne_zero, Nat.sub_self, Nat.zero_mul]
    exact h₁
  · have hdiv := Nat.lt_div_mul_add hmid (a := q.nodesPerBlock - first - last - 1)
    rw [if_neg h₀, if_neg h₁]
    generalize (q.nodesPerBlock - first - last - 1) / mid = more at hdiv ⊢
    rw [if_neg (Nat.ne_of_gt (Nat.add_pos_left Nat.two_pos _)),
      show 2 + more - 1 = more + 1 by omega, Nat.add_one_mul]
    omega

omit hp in
/-- The nodes of all sub-blocks, as bytes. -/
theorem data_eq : q.totalNodes k * q.realNodeSize
    = (q.shapeAt k).hdrSubblockElements * q.realNodeSize
      + if q.numBSubblock k = 0 then 0
        else (q.numBSubblock k - 1) * ((q.shapeAt k).elementsPerSubblockMid * q.realNodeSize)
          + (q.shapeAt k).elementsPerSubblockEnd * q.realNodeSize := by
  unfold totalNodes
  split
  · rfl
  · rw [Nat.add_mul, Nat.add_mul, Nat.mul_assoc, Nat.add_assoc]

/-- The nodes fit in the block. -/
theorem Parts.data_le :
    q.totalNodes k * q.realNodeSize ≤ 2 ^ k * (q.numBSubblock k + 1) := by
  have hfirst := hp.first_le
  have hend := hp.end_le
  rw [data_eq]
  split
  · next h =>
    rw [h]
    omega
  · have hmid := Nat.mul_le_mul_left (q.numBSubblock k - 1) hp.mid_le
    have hblock : 2 ^ k * (q.numBSubblock k + 1)
        = 2 ^ k + ((q.numBSubblock k - 1) * 2 ^ k + 2 ^ k) := by
      obtain ⟨c, hc⟩ : ∃ c, q.numBSubblock k = c + 1 := ⟨q.numBSubblock k - 1, by omega⟩
      rw [hc, Nat.add_sub_cancel]
      ring
    omega

/-- **Where the alignment is a hundred times what a part wastes**, no percent of
the block is wasted. -/
theorem Parts.overhead (hbig : 100 * q.least ≤ 2 ^ k) :
    (2 ^ k * (q.numBSubblock k + 1) - q.totalNodes k * q.realNodeSize) * 100
      < 2 ^ k * (q.numBSubblock k + 1) := by
  have hfirst := hp.lt_first
  have hend := hp.lt_end
  have hwaste : 2 ^ k * (q.numBSubblock k + 1) + (q.numBSubblock k + 1)
      ≤ q.totalNodes k * q.realNodeSize + (q.numBSubblock k + 1) * q.least := by
    rw [data_eq]
    split
    · next h =>
      rw [h]
      omega
    · have hmid := Nat.mul_le_mul_left (q.numBSubblock k - 1) (Nat.succ_le_of_lt hp.lt_mid)
      obtain ⟨c, hc⟩ : ∃ c, q.numBSubblock k = c + 1 := ⟨q.numBSubblock k - 1, by omega⟩
      rw [hc, Nat.add_sub_cancel] at hmid ⊢
      have h₁ : 2 ^ k * (c + 1 + 1) = 2 ^ k + (c * 2 ^ k + 2 ^ k) := by ring
      have h₂ : (c + 1 + 1) * q.least = q.least + (c * q.least + q.least) := by ring
      have h₃ : c * (2 ^ k).succ = c * 2 ^ k + c := Nat.mul_succ _ _
      have h₄ : c * ((q.shapeAt k).elementsPerSubblockMid * q.realNodeSize + q.least)
          = c * ((q.shapeAt k).elementsPerSubblockMid * q.realNodeSize) + c * q.least :=
        Nat.mul_add _ _ _
      omega
  have hmul := Nat.mul_le_mul_left (q.numBSubblock k + 1) hbig
  rw [Nat.mul_left_comm, Nat.mul_comm (q.numBSubblock k + 1) (2 ^ k)] at hmul
  have hpos : 0 < 2 ^ k * (q.numBSubblock k + 1) :=
    Nat.mul_pos (Nat.two_pow_pos k) (Nat.succ_pos _)
  generalize 2 ^ k * (q.numBSubblock k + 1) = size at hwaste hmul hpos ⊢
  omega

end Parts

/-- All sub-blocks of the alignments the search comes to are words, and so is a
hundred times their size. -/
theorem Fits.size_lt (hf : q.Fits) (hp : q.Parts k) (hle : 2 ^ k ≤ 200 * q.least) :
    2 ^ k * (q.numBSubblock k + 1) * 100 < 2 ^ q.bits := by
  refine lt_of_le_of_lt ?_ hf
  have hn : q.numBSubblock k + 1 ≤ q.nodesPerBlock + 2 := by
    have := hp.numBSubblock_le
    omega
  refine (Nat.mul_le_mul_right 100 (Nat.mul_le_mul hle hn)).trans_eq ?_
  ring

/-- **A round computes what the numbers say**, as nothing wraps. -/
theorem Fits.candidateRound_eq (hf : q.Fits) (hk : q.least ≤ 2 ^ k)
    (hle : 2 ^ k ≤ 200 * q.least) :
    q.candidateRound (2 ^ k) = some (q.numBSubblock k, q.totalNodes k,
      decide ((2 ^ k * (q.numBSubblock k + 1) - q.totalNodes k * q.realNodeSize) * 100
        / (2 ^ k * (q.numBSubblock k + 1)) < q.overheadPercent)) := by
  have hp := hf.parts hk
  have hsize := hf.size_lt hp hle
  have hnum := hp.numBSubblock_le
  have hdata := hp.data_le
  have hnode := hp.node_pos
  have hpos : 0 < 2 ^ k * (q.numBSubblock k + 1) :=
    Nat.mul_pos (Nat.two_pow_pos k) (Nat.succ_pos _)
  have hnodes : q.totalNodes k ≤ q.totalNodes k * q.realNodeSize :=
    Nat.le_mul_of_pos_right _ hnode
  have hasked : q.nodesPerBlock ≤ q.totalNodes k := hp.le_totalNodes
  have hA : 2 ^ k ≤ 2 ^ k * (q.numBSubblock k + 1) :=
    Nat.le_mul_of_pos_right _ (Nat.succ_pos _)
  have hoff := q.hdrOffSize_le
  have hleast := hk
  unfold least at hleast
  have h₁ : Word.sub q.bits (Word.sub q.bits (2 ^ k) (q.getHdrSize q.realNodeAlign))
      q.payloadPerAllocation / q.realNodeSize = (q.shapeAt k).hdrSubblockElements := by
    rw [Word.sub_sub_of_le (by omega) (by omega)]
    rfl
  have h₂ : Word.sub q.bits (2 ^ k) (q.getHdrOffSize q.realNodeAlign) / q.realNodeSize
      = (q.shapeAt k).elementsPerSubblockMid := by
    rw [Word.sub_of_le (by omega) (by omega)]
    rfl
  have h₃ : Word.sub q.bits (Word.sub q.bits (2 ^ k) (q.getHdrOffSize q.realNodeAlign))
      q.payloadPerAllocation / q.realNodeSize = (q.shapeAt k).elementsPerSubblockEnd := by
    rw [Word.sub_sub_of_le (by omega) (by omega)]
    rfl
  have hfirst : (q.shapeAt k).hdrSubblockElements ≤ 2 ^ k :=
    (Nat.le_mul_of_pos_right _ hnode).trans hp.first_le
  have hend : (q.shapeAt k).elementsPerSubblockEnd ≤ 2 ^ k :=
    (Nat.le_mul_of_pos_right _ hnode).trans hp.end_le
  have hsum : Word.add q.bits (q.shapeAt k).hdrSubblockElements
      (q.shapeAt k).elementsPerSubblockEnd
      = (q.shapeAt k).hdrSubblockElements + (q.shapeAt k).elementsPerSubblockEnd :=
    Word.add_of_lt (by omega)
  have hcount : (if q.nodesPerBlock ≤ (q.shapeAt k).hdrSubblockElements then some 0
      else if q.nodesPerBlock ≤ (q.shapeAt k).hdrSubblockElements
        + (q.shapeAt k).elementsPerSubblockEnd then some 1
      else if (q.shapeAt k).elementsPerSubblockMid = 0 then none
      else some (Word.add q.bits 2
        (Word.sub q.bits (Word.sub q.bits (Word.sub q.bits q.nodesPerBlock
          (q.shapeAt k).hdrSubblockElements) (q.shapeAt k).elementsPerSubblockEnd) 1
          / (q.shapeAt k).elementsPerSubblockMid))) = some (q.numBSubblock k) := by
    have hmid := hp.mid_pos
    unfold numBSubblock at hnum ⊢
    split
    · rfl
    split
    · rfl
    · next h₀ h₁ =>
      rw [if_neg h₀, if_neg h₁] at hnum
      rw [if_neg (by omega), Word.sub_sub_of_le (a := q.nodesPerBlock) (by omega) (by omega),
        Word.sub_of_le (by omega) (by omega), Word.add_of_lt]
      omega
  have htotal : (if q.numBSubblock k = 0 then (q.shapeAt k).hdrSubblockElements
      else if q.numBSubblock k = 1 then
        (q.shapeAt k).hdrSubblockElements + (q.shapeAt k).elementsPerSubblockEnd
      else Word.add q.bits (Word.add q.bits (q.shapeAt k).hdrSubblockElements
        (Word.mul q.bits (if q.numBSubblock k > 1 then q.numBSubblock k - 1 else 0)
          (q.shapeAt k).elementsPerSubblockMid)) (q.shapeAt k).elementsPerSubblockEnd)
      = q.totalNodes k := by
    unfold totalNodes at hnodes hdata ⊢
    by_cases hn₀ : q.numBSubblock k = 0
    · rw [if_pos hn₀, if_pos hn₀]
    by_cases hn₁ : q.numBSubblock k = 1
    · rw [if_neg hn₀, if_pos hn₁, if_neg hn₀, hn₁, Nat.sub_self, Nat.zero_mul, Nat.add_zero]
    · rw [if_neg hn₀] at hnodes hdata
      rw [if_neg hn₀, if_neg hn₁, if_pos (by omega), if_neg hn₀, Word.mul_of_lt (by omega),
        Word.add_of_lt (a := (q.shapeAt k).hdrSubblockElements) (by omega),
        Word.add_of_lt (by omega)]
  have hn₁ : Word.add q.bits (q.numBSubblock k) 1 = q.numBSubblock k + 1 :=
    Word.add_of_lt (by omega)
  have hbytes : Word.mul q.bits (q.totalNodes k) q.realNodeSize
      = q.totalNodes k * q.realNodeSize := Word.mul_of_lt (by omega)
  have hblock : Word.mul q.bits (2 ^ k) (q.numBSubblock k + 1)
      = 2 ^ k * (q.numBSubblock k + 1) := Word.mul_of_lt (by omega)
  unfold candidateRound
  dsimp only
  rw [h₁, h₂, h₃, hsum, hcount]
  dsimp only [Option.bind_eq_bind, Option.bind_some]
  rw [htotal, hn₁, hbytes, hblock, if_neg (by omega), Word.sub_of_le (by omega) hdata,
    Word.mul_of_lt (by omega)]

/-! ## The search -/

/-- **The search ends**, at an alignment that leaves room for a node. -/
theorem Fits.candidateLoop_eq (hf : q.Fits) (ho : 0 < q.overheadPercent) (fuel k : ℕ)
    (hk : q.least ≤ 2 ^ k) (hle : 2 ^ k ≤ 200 * q.least)
    (hfuel : 100 * q.least < 2 ^ k * 2 ^ fuel) :
    ∃ k', q.least ≤ 2 ^ k' ∧
      q.candidateLoop (fuel + 1) (2 ^ k)
        = some (2 ^ k', q.numBSubblock k' + 1, q.totalNodes k') := by
  induction fuel generalizing k with
  | zero =>
    refine ⟨k, hk, ?_⟩
    have hover := (hf.parts hk).overhead (by omega)
    unfold candidateLoop
    rw [hf.candidateRound_eq hk hle, Nat.div_eq_of_lt hover, decide_eq_true ho]
    rfl
  | succ fuel ih =>
    unfold candidateLoop
    rw [hf.candidateRound_eq hk hle]
    dsimp only [Option.bind_eq_bind, Option.bind_some]
    split
    · exact ⟨k, hk, rfl⟩
    · next h =>
      have hsmall : 2 ^ k < 100 * q.least := by
        by_contra hbig
        have hover := (hf.parts hk).overhead (not_lt.mp hbig)
        rw [Nat.div_eq_of_lt hover, decide_eq_true ho] at h
        exact h rfl
      have hlt := hf.least_lt
      have hpow : 2 ^ k * 2 ^ 1 = 2 ^ (k + 1) := (Nat.pow_add 2 k 1).symm
      rw [Word.shl_of_lt (by omega), hpow]
      exact ih (k + 1) (by omega) (by omega)
        (by rw [Nat.pow_succ, Nat.mul_assoc, ← Nat.pow_succ']; exact hfuel)

theorem Fits.clog_lt (hf : q.Fits) {a : ℕ} (ha : 2 * a < 2 ^ q.bits) :
    Nat.clog 2 a < q.bits := by
  have hpos : 0 < q.bits := by
    refine Nat.pos_of_ne_zero fun h => ?_
    have hlt := hf.least_lt
    have hlcm := q.lcm_pos
    rw [h] at hlt
    unfold least at hlt
    omega
  refine lt_of_le_of_lt (Nat.clog_le_of_le_pow (y := q.bits - 1) ?_) (Nat.sub_one_lt_of_lt hpos)
  have hpow : 2 ^ q.bits = 2 ^ (q.bits - 1) * 2 := by
    rw [← Nat.pow_succ, Nat.succ_eq_add_one, Nat.sub_add_cancel hpos]
  omega

/-- **The alignment of a block of several parts is found**, with room for a
node beside header and payload. -/
theorem Fits.plan_eq (hf : q.Fits) (hn : q.alignOnly = false) :
    ∃ k, q.least ≤ 2 ^ k ∧
      q.plan = some (2 ^ k, q.numBSubblock k + 1, q.totalNodes k) := by
  have hlt := hf.least_lt
  have hlcm := q.lcm_pos
  have hoff := q.hdrOffSize_le
  have halign := q.le_hdrOffSize
  have hpos := q.realNodeAlign_pos
  have hsum : Word.add q.bits (Word.add q.bits (q.getHdrSize q.realNodeAlign)
      q.payloadPerAllocation) q.realNodeSize = q.least := by
    rw [hf.realNodeSize_eq]
    unfold least at hlt ⊢
    rw [Word.add_of_lt (a := q.getHdrSize q.realNodeAlign) (by omega),
      Word.add_of_lt (by omega)]
  have hle : q.least ≤ 2 ^ Nat.clog 2 q.least := Nat.le_pow_clog Nat.one_lt_two _
  have hpred := Nat.pow_pred_clog_lt_self Nat.one_lt_two
    (show 1 < q.least by unfold least; omega)
  have hclog : 0 < Nat.clog 2 q.least :=
    Nat.clog_pos Nat.one_lt_two (show 1 < q.least by unfold least; omega)
  have hpow : 2 ^ Nat.clog 2 q.least = 2 ^ (Nat.clog 2 q.least).pred * 2 := by
    rw [← Nat.pow_succ, Nat.succ_pred_eq_of_pos hclog]
  have hstart : ¬ 2 ^ Nat.clog 2 q.least < q.realNodeAlign := by
    have hleast : q.realNodeAlign ≤ q.least := by
      unfold least
      omega
    omega
  obtain ⟨k, hk, hloop⟩ := hf.candidateLoop_eq
    (by rw [alignOnly] at hn; exact Nat.pos_of_ne_zero (of_decide_eq_false hn))
    q.bits _ hle (by omega)
    (lt_of_lt_of_le (by omega) (Nat.le_mul_of_pos_left _ (Nat.two_pow_pos _)))
  refine ⟨k, hk, ?_⟩
  unfold plan
  dsimp only
  rw [hn, if_neg (by simp), hsum, upperPowerOf2_eq (hf.clog_lt (by omega))]
  dsimp only [Option.bind_eq_bind, Option.bind_some]
  rw [if_neg hstart]
  exact hloop

variable (q)

/-- The header and as many nodes as were asked for. -/
def asked : ℕ :=
  q.getHdrSize q.realNodeAlign + Nat.lcm q.nodeSize q.realNodeAlign * q.nodesPerBlock

/-- **The payload fits** between what was asked for and the power of two that is
allocated for it. -/
def PayloadFits : Prop := q.asked + q.payloadPerAllocation ≤ 2 ^ Nat.clog 2 q.asked

instance : Decidable q.PayloadFits := inferInstanceAs (Decidable (_ ≤ _))

variable {q}

theorem Fits.asked_lt (hf : q.Fits) : 2 * q.asked < 2 ^ q.bits := by
  refine lt_of_le_of_lt ?_ hf
  have h₁ : q.getHdrSize q.realNodeAlign ≤ q.least * (q.nodesPerBlock + 2) := by
    refine le_trans ?_ (Nat.le_mul_of_pos_right _ (Nat.succ_pos _))
    unfold least
    omega
  have h₂ : Nat.lcm q.nodeSize q.realNodeAlign * q.nodesPerBlock
      ≤ q.least * (q.nodesPerBlock + 2) := by
    refine Nat.mul_le_mul ?_ (Nat.le_add_right _ _)
    unfold least
    omega
  unfold asked
  rw [Nat.mul_assoc]
  omega

/-- **The alignment of a block that is one piece** is a power of two that takes
the header and the nodes. -/
theorem Fits.plan_alignOnly (hf : q.Fits) (hn : q.alignOnly = true) :
    q.plan = some (2 ^ Nat.clog 2 q.asked, 0,
      Word.sub q.bits (Word.sub q.bits (2 ^ Nat.clog 2 q.asked) q.payloadPerAllocation)
        (q.getHdrSize q.realNodeAlign) / q.realNodeSize) := by
  have hlt := hf.asked_lt
  have hsum : Word.add q.bits (q.getHdrSize q.realNodeAlign)
      (Word.mul q.bits q.realNodeSize q.nodesPerBlock) = q.asked := by
    rw [hf.realNodeSize_eq]
    unfold asked at hlt ⊢
    rw [Word.mul_of_lt (by omega), Word.add_of_lt (by omega)]
  unfold plan
  dsimp only
  rw [hn, if_pos rfl, hsum, upperPowerOf2_eq (hf.clog_lt hlt)]
  rfl

/-! ## The layouts -/

/-- The sub-blocks before the last hold all but the nodes of the last. -/
theorem sum_subblockArea (g : PoolShape) (n : ℕ) (hn : g.numSubblocks = n + 1) :
    (((List.range n).map (g.subblockArea 0)).map Prod.snd).sum
      = if n = 0 then 0
        else (n - 1) * g.elementsPerSubblockMid + g.elementsPerSubblockEnd := by
  cases n with
  | zero => rfl
  | succ c =>
    have hmid : (List.range c).map (fun i => (g.subblockArea 0 i).2)
        = List.replicate c g.elementsPerSubblockMid := by
      rw [List.eq_replicate_iff, List.length_map, List.length_range]
      refine ⟨rfl, fun b hb => ?_⟩
      obtain ⟨i, hi, rfl⟩ := List.mem_map.mp hb
      have hlt := List.mem_range.mp hi
      exact if_pos (by omega)
    have hend : (g.subblockArea 0 c).2 = g.elementsPerSubblockEnd :=
      if_neg (not_not.mpr (by omega))
    rw [List.map_map, List.range_succ, List.map_append, List.sum_append]
    show ((List.range c).map (fun i => (g.subblockArea 0 i).2)).sum
      + [(g.subblockArea 0 c).2].sum = _
    rw [hmid, hend, List.sum_replicate, List.sum_singleton, if_neg (Nat.succ_ne_zero c)]
    rfl

/-- **A block of several parts**, at an alignment that leaves room for a node:
planner and filler count the same nodes. -/
def Fits.layout (hf : q.Fits) (hn : q.alignOnly = false) {k : ℕ} (hk : q.least ≤ 2 ^ k) :
    PoolLayout where
  toPoolShape := q.shape q.realNodeAlign k (q.numBSubblock k + 1) (q.totalNodes k)
  node_pos := (hf.parts hk).node_pos
  num_pos := q.nodesPerBlock_pos.trans_le (hf.parts hk).le_totalNodes
  hdr_pos := q.realNodeAlign_pos.trans_le (q.le_hdrOffSize.trans q.hdrOffSize_le)
  hdrOff_pos := q.realNodeAlign_pos.trans_le q.le_hdrOffSize
  hdr_fits := (Nat.le_add_right _ _).trans hk
  hdrOff_fits := (Nat.add_le_add_right q.hdrOffSize_le _).trans ((Nat.le_add_right _ _).trans hk)
  nodes_fit := fun h => absurd (hn.symm.trans h) Bool.false_ne_true
  subblocks_pos := fun _ => Nat.succ_pos _
  nodes_sum := by
    refine (congrArg (fun l => (l.map Prod.snd).sum) (PoolShape.areas_of_subblocks
      (g := q.shape q.realNodeAlign k (q.numBSubblock k + 1) (q.totalNodes k)) hn 0)).trans ?_
    rw [List.map_append, List.sum_append]
    show (((List.range (q.numBSubblock k)).map _).map Prod.snd).sum
      + [(q.shapeAt k).hdrSubblockElements].sum = q.totalNodes k
    rw [sum_subblockArea _ _ rfl, List.sum_singleton]
    unfold totalNodes
    split
    · exact Nat.zero_add _
    · exact (Nat.add_comm _ _).trans (Nat.add_assoc _ _ _).symm

/-- Where the payload fits, the nodes asked for do. -/
theorem PayloadFits.nodes (hpay : q.PayloadFits) :
    q.nodesPerBlock * Nat.lcm q.nodeSize q.realNodeAlign
      ≤ 2 ^ Nat.clog 2 q.asked - q.payloadPerAllocation - q.getHdrSize q.realNodeAlign := by
  unfold PayloadFits at hpay
  generalize 2 ^ Nat.clog 2 q.asked = a at hpay ⊢
  unfold asked at hpay
  rw [Nat.mul_comm]
  omega

theorem PayloadFits.le (hpay : q.PayloadFits) :
    q.getHdrSize q.realNodeAlign + q.payloadPerAllocation ≤ 2 ^ Nat.clog 2 q.asked := by
  unfold PayloadFits at hpay
  generalize 2 ^ Nat.clog 2 q.asked = a at hpay ⊢
  unfold asked at hpay
  omega

/-- **A block of one piece**, where the payload fits. -/
def Fits.alignOnlyLayout (hf : q.Fits) (hn : q.alignOnly = true) (hpay : q.PayloadFits) :
    PoolLayout where
  toPoolShape := q.shape q.realNodeAlign (Nat.clog 2 q.asked) 0
    ((2 ^ Nat.clog 2 q.asked - q.payloadPerAllocation - q.getHdrSize q.realNodeAlign)
      / q.realNodeSize)
  node_pos := q.lcm_pos.trans_eq hf.realNodeSize_eq.symm
  num_pos := by
    refine q.nodesPerBlock_pos.trans_le ?_
    rw [hf.realNodeSize_eq]
    exact (Nat.le_div_iff_mul_le q.lcm_pos).mpr hpay.nodes
  hdr_pos := q.realNodeAlign_pos.trans_le (q.le_hdrOffSize.trans q.hdrOffSize_le)
  hdrOff_pos := q.realNodeAlign_pos.trans_le q.le_hdrOffSize
  hdr_fits := hpay.le
  hdrOff_fits := (Nat.add_le_add_right q.hdrOffSize_le _).trans hpay.le
  nodes_fit := fun _ => by
    have hdata := Nat.div_mul_le_self
      (2 ^ Nat.clog 2 q.asked - q.payloadPerAllocation - q.getHdrSize q.realNodeAlign)
      q.realNodeSize
    have hle := hpay.le
    show q.getHdrSize q.realNodeAlign + (2 ^ Nat.clog 2 q.asked - q.payloadPerAllocation
      - q.getHdrSize q.realNodeAlign) / q.realNodeSize * q.realNodeSize
      + q.payloadPerAllocation ≤ 2 ^ Nat.clog 2 q.asked
    omega
  subblocks_pos := fun h => absurd (h.symm.trans hn) Bool.false_ne_true
  nodes_sum := (congrArg (fun l => (l.map Prod.snd).sum)
    (PoolShape.areas_of_alignOnly (g := q.shape _ _ _ _) hn 0)).trans List.sum_singleton

/-! ## What the constructor makes -/

/-- **A pool of blocks of several parts** is always laid out. -/
theorem Fits.construct_eq (hf : q.Fits) (hn : q.alignOnly = false) :
    ∃ k, ∃ hk : q.least ≤ 2 ^ k, q.construct = some (hf.layout hn hk).toPoolShape := by
  obtain ⟨k, hk, hplan⟩ := hf.plan_eq hn
  refine ⟨k, hk, ?_⟩
  unfold construct
  rw [hf.getNodeAlignment_eq, hplan]
  dsimp only [Option.bind_eq_bind, Option.bind_some]
  rw [Nat.log2_two_pow]
  rfl

/-- The pool of blocks of one piece. -/
theorem Fits.construct_alignOnly (hf : q.Fits) (hn : q.alignOnly = true) :
    q.construct = some (q.shape q.realNodeAlign (Nat.clog 2 q.asked) 0
      (Word.sub q.bits (Word.sub q.bits (2 ^ Nat.clog 2 q.asked) q.payloadPerAllocation)
        (q.getHdrSize q.realNodeAlign) / q.realNodeSize)) := by
  unfold construct
  rw [hf.getNodeAlignment_eq, hf.plan_alignOnly hn]
  dsimp only [Option.bind_eq_bind, Option.bind_some]
  rw [Nat.log2_two_pow]

/-- Where the payload fits, it is laid out. -/
theorem Fits.construct_layout (hf : q.Fits) (hn : q.alignOnly = true)
    (hpay : q.PayloadFits) :
    q.construct = some (hf.alignOnlyLayout hn hpay).toPoolShape := by
  have hlt : 2 ^ Nat.clog 2 q.asked < 2 ^ q.bits :=
    Nat.pow_lt_pow_right Nat.one_lt_two (hf.clog_lt hf.asked_lt)
  have hle := hpay.le
  rw [hf.construct_alignOnly hn, Word.sub_sub_of_le hlt (by omega)]
  rfl

end PoolParameters
