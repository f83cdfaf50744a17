import BoostContainer.Lib.Run
import BoostContainer.Pmr.MemoryBlocks

/-!
# The monotonic buffer resource

A monotonic buffer resource cuts what it hands out from the front of one
current buffer and replaces the buffer when a request does not fit. Its
whole state is where the current buffer's free part starts, how many bytes
are left there, and how large the next buffer is to be.

The bytes left are an unsigned counter, and `allocate_from_current`
subtracts the bytes wasted for alignment and the bytes requested from it.
The test before it compares the request with the *clamped* remaining
storage – zero when alignment alone overruns the buffer – and a request for
no bytes passes that test whatever the alignment wastes. There the counter
wraps, and the resource goes on handing out addresses past the end of its
buffer. `Session.contained_iff` says that this is the only way to lose
containment.
-/

/-- **The resource's state.** -/
structure MonotonicBufferResource where
  /-- The blocks obtained from upstream. -/
  memoryBlocks : BlockList
  /-- Where the free part of the current buffer starts. -/
  currentBuffer : ℕ
  /-- How many bytes the free part has. -/
  currentBufferSize : ℕ
  /-- How many bytes the next buffer is to have. -/
  nextBufferSize : ℕ
  /-- The buffer supplied at construction, null where there is none. -/
  initialBuffer : ℕ
  initialBufferSize : ℕ
  deriving DecidableEq, Repr

namespace MonotonicBufferResource

variable (pf : Platform) (math : IntrusiveMath pf.bits)

/-- The rounded size of a `block_slist` header. -/
def headerSize : ℕ := pf.headerSize pf.sizeofBlockSlistHeader

/-- `initial_next_buffer_size`. -/
def initialNextBufferSize : ℕ := 32 * pf.sizeofPtr

/-- `minimum_buffer_size`. -/
def minimumBufferSize : ℕ := 2 * pf.sizeofPtr

/-- Doubles the size of the next buffer, up to the greatest `std::size_t`. -/
def increaseNextBuffer (s : MonotonicBufferResource) : MonotonicBufferResource :=
  { s with
    nextBufferSize :=
      if pf.sizeMax / 2 < s.nextBufferSize then pf.sizeMax
      else s.nextBufferSize * 2 }

/-- Raises the size of the next buffer to a power of two that is not below
the minimum, or to the minimum itself where no such power is a
`std::size_t`. -/
def increaseNextBufferAtLeastTo (s : MonotonicBufferResource)
    (minimumSize : ℕ) : MonotonicBufferResource :=
  if s.nextBufferSize < minimumSize then
    if math.isPow2 minimumSize then { s with nextBufferSize := minimumSize }
    else if pf.sizeMax / 2 < minimumSize then
      { s with nextBufferSize := minimumSize }
    else { s with nextBufferSize := math.ceilPow2 minimumSize }
  else s

/-- The constructor from an upstream resource alone. -/
def ofUpstream : MonotonicBufferResource where
  memoryBlocks := []
  currentBuffer := 0
  currentBufferSize := 0
  nextBufferSize := initialNextBufferSize pf
  initialBuffer := 0
  initialBufferSize := 0

/-- The constructor from the size of the first buffer. -/
def ofInitialSize (initialSize : ℕ) : MonotonicBufferResource :=
  increaseNextBufferAtLeastTo pf math
    { memoryBlocks := []
      currentBuffer := 0
      currentBufferSize := 0
      nextBufferSize := minimumBufferSize pf
      initialBuffer := 0
      initialBufferSize := 0 }
    (initialSize + (if initialSize = 0 then 1 else 0))

/-- The constructor from a buffer. -/
def ofBuffer (buffer bufferSize : ℕ) : MonotonicBufferResource :=
  increaseNextBuffer pf
    { memoryBlocks := []
      currentBuffer := buffer
      currentBufferSize := bufferSize
      nextBufferSize :=
        math.previousOrEqualPow2 (max bufferSize (initialNextBufferSize pf))
      initialBuffer := buffer
      initialBufferSize := bufferSize }

/-- Returns every block to upstream and goes back to the initial buffer. -/
def release (s : MonotonicBufferResource) : MonotonicBufferResource :=
  { s with
    memoryBlocks := s.memoryBlocks.release.2
    currentBuffer := s.initialBuffer
    currentBufferSize := s.initialBufferSize
    nextBufferSize := initialNextBufferSize pf }

/-- The bytes lost by aligning the start of the free part. -/
def wastedDueToAlignment (s : MonotonicBufferResource) (alignment : ℕ) : ℕ :=
  let upAlignmentMinus1 := alignment - 1
  let upAlignmentMask := Word.compl pf.bits upAlignmentMinus1
  let upAddr := s.currentBuffer
  let upAlignedAddr := Word.add pf.bits upAddr upAlignmentMinus1 &&& upAlignmentMask
  Word.sub pf.bits upAlignedAddr upAddr

/-- The bytes available for an alignment, and the bytes wasted by it. -/
def remainingStorage (s : MonotonicBufferResource) (alignment : ℕ) : ℕ × ℕ :=
  let wasted := s.wastedDueToAlignment pf alignment
  (if s.currentBufferSize ≤ wasted then 0 else s.currentBufferSize - wasted, wasted)

/-- Cuts a request from the front of the free part. -/
def allocateFromCurrent (s : MonotonicBufferResource) (aligner bytes : ℕ) :
    ℕ × MonotonicBufferResource :=
  let p := Word.add pf.bits s.currentBuffer aligner
  (p, { s with
        currentBuffer := Word.add pf.bits p bytes
        currentBufferSize :=
          Word.sub pf.bits s.currentBufferSize (Word.add pf.bits aligner bytes) })

/-- **The part of `do_allocate` before the extraction**: the aligner to
extract with, from the state with a buffer the request passed the test for;
or `none` where the call throws. -/
def prepareBuffer (s : MonotonicBufferResource) (bytes alignment : ℕ)
    (mr : Upstream) : Option ℕ × MonotonicBufferResource :=
  if pf.maxAlign < alignment then (none, s)
  else
    let (remaining, aligner) := s.remainingStorage pf alignment
    if remaining < bytes then
      -- the new buffer is aligned to the strictest alignment
      let grown := increaseNextBufferAtLeastTo pf math s bytes
      match s.memoryBlocks.allocate pf (headerSize pf) grown.nextBufferSize mr with
      | none => (none, grown)
      | some (buffer, blocks) =>
        (some 0, increaseNextBuffer pf
          { grown with
            memoryBlocks := blocks
            currentBuffer := buffer
            currentBufferSize := grown.nextBufferSize })
    else (some aligner, s)

/-- `do_allocate`: the address returned, or `none` where the call throws. -/
def doAllocate (s : MonotonicBufferResource) (bytes alignment : ℕ)
    (mr : Upstream) : Option ℕ × MonotonicBufferResource :=
  match s.prepareBuffer pf math bytes alignment mr with
  | (none, s') => (none, s')
  | (some aligner, s') =>
    let (p, s'') := s'.allocateFromCurrent pf aligner bytes
    (some p, s'')

/-- The free part of the current buffer. -/
def free (s : MonotonicBufferResource) : Region :=
  ⟨s.currentBuffer, s.currentBufferSize⟩

/-- **The storage the resource may hand out from**: the initial buffer and
the blocks obtained from upstream. -/
def storage (s : MonotonicBufferResource) : List Region :=
  ⟨s.initialBuffer, s.initialBufferSize⟩ :: s.memoryBlocks

/-! ## What the pieces of an allocation do -/

variable {pf math}

@[simp] theorem storage_increaseNextBuffer (s : MonotonicBufferResource) :
    (increaseNextBuffer pf s).storage = s.storage := rfl

@[simp] theorem free_increaseNextBuffer (s : MonotonicBufferResource) :
    (increaseNextBuffer pf s).free = s.free := rfl

@[simp] theorem storage_increaseNextBufferAtLeastTo (s : MonotonicBufferResource)
    (n : ℕ) : (increaseNextBufferAtLeastTo pf math s n).storage = s.storage := by
  unfold increaseNextBufferAtLeastTo
  split_ifs <;> rfl

@[simp] theorem free_increaseNextBufferAtLeastTo (s : MonotonicBufferResource)
    (n : ℕ) : (increaseNextBufferAtLeastTo pf math s n).free = s.free := by
  unfold increaseNextBufferAtLeastTo
  split_ifs <;> rfl

/-- **The next buffer is at least what was asked for.** -/
theorem le_nextBufferSize (s : MonotonicBufferResource) (n : ℕ) :
    n ≤ (increaseNextBufferAtLeastTo pf math s n).nextBufferSize := by
  unfold increaseNextBufferAtLeastTo
  split_ifs with hlt _ hbig
  · exact le_rfl
  · exact le_rfl
  · have hn : n ≤ 2 ^ (pf.bits - 1) := by
      cases hb : pf.bits with
      | zero =>
        rw [Platform.sizeMax, Word.max, hb] at hbig
        simp only [Nat.not_lt, pow_zero] at hbig
        omega
      | succ b =>
        rw [Platform.sizeMax, Word.max, hb, pow_succ] at hbig
        rw [Nat.add_sub_cancel]
        omega
    obtain ⟨k, hk, hle, _⟩ := math.ceilPow2_spec n (by omega) hn
    exact hk ▸ hle
  · exact Nat.le_of_not_lt hlt

/-- **The aligned start.** Where alignment does not overrun the free part,
skipping the wasted bytes lands on a multiple of the alignment. -/
theorem add_wasted_mod {s : MonotonicBufferResource} {k : ℕ}
    (hk : 2 ^ k ≤ 2 ^ pf.bits) (hspace : s.free.stop < 2 ^ pf.bits)
    (hfit : s.wastedDueToAlignment pf (2 ^ k) ≤ s.currentBufferSize) :
    (s.currentBuffer + s.wastedDueToAlignment pf (2 ^ k)) % 2 ^ k = 0 := by
  have hpos := Nat.two_pow_pos k
  have hcur : s.currentBuffer + s.currentBufferSize < 2 ^ pf.bits := hspace
  unfold wastedDueToAlignment at hfit ⊢
  simp only at hfit ⊢
  rw [Word.land_compl_eq (Word.add_lt _ _)] at hfit ⊢
  by_cases hwrap : s.currentBuffer + (2 ^ k - 1) < 2 ^ pf.bits
  · rw [Word.add_of_lt hwrap] at hfit ⊢
    set a := s.currentBuffer + (2 ^ k - 1) with ha
    have hmod : a % 2 ^ k < 2 ^ k := Nat.mod_lt _ hpos
    have hle : s.currentBuffer ≤ a - a % 2 ^ k := by omega
    rw [Word.sub_of_le (by omega) hle] at hfit ⊢
    rw [Nat.add_sub_cancel' hle]
    exact Nat.sub_mod_eq_zero_of_mod_eq (Nat.mod_mod _ _).symm
  · -- the aligned address wraps to zero, so the waste passes the end
    have hadd : Word.add pf.bits s.currentBuffer (2 ^ k - 1)
        = s.currentBuffer + (2 ^ k - 1) - 2 ^ pf.bits := by
      unfold Word.add
      rw [Nat.mod_eq_sub_mod (by omega)]
      exact Nat.mod_eq_of_lt (by omega)
    rw [hadd, Nat.mod_eq_of_lt (by omega), Nat.sub_self,
      Word.sub_of_lt (by omega) (by omega)] at hfit
    omega

/-- The clamped remaining storage is the truncated difference. -/
theorem remainingStorage_eq (s : MonotonicBufferResource) (alignment : ℕ) :
    s.remainingStorage pf alignment
      = (s.currentBufferSize - s.wastedDueToAlignment pf alignment,
        s.wastedDueToAlignment pf alignment) := by
  unfold remainingStorage
  simp only [Prod.mk.injEq, and_true]
  split <;> omega

/-- **An extraction that does not wrap** hands out the front of the free
part, after the aligner, and leaves the rest. -/
theorem allocateFromCurrent_eq {s : MonotonicBufferResource} {aligner bytes : ℕ}
    (hspace : s.free.stop < 2 ^ pf.bits)
    (hfit : aligner + bytes ≤ s.currentBufferSize) :
    s.allocateFromCurrent pf aligner bytes
      = (s.currentBuffer + aligner,
        { s with
          currentBuffer := s.currentBuffer + aligner + bytes
          currentBufferSize := s.currentBufferSize - (aligner + bytes) }) := by
  have hcur : s.currentBuffer + s.currentBufferSize < 2 ^ pf.bits := hspace
  unfold allocateFromCurrent
  simp only
  rw [Word.add_of_lt (show s.currentBuffer + aligner < 2 ^ pf.bits by omega),
    Word.add_of_lt (show s.currentBuffer + aligner + bytes < 2 ^ pf.bits by omega),
    Word.add_of_lt (show aligner + bytes < 2 ^ pf.bits by omega),
    Word.sub_of_le (by omega) hfit]

@[simp] theorem storage_allocateFromCurrent (s : MonotonicBufferResource)
    (aligner bytes : ℕ) :
    (s.allocateFromCurrent pf aligner bytes).2.storage = s.storage := rfl

end MonotonicBufferResource
