import BoostContainer.Lib.ByteMemory
import BoostContainer.Lib.Word

/-!
# An allocator as a memory resource

A memory resource is asked for an alignment, and an allocator is not. The
adaptor passes a request on when the allocator aligns enough by itself.
Otherwise it asks for more: the bytes, the slack that aligning them may take,
and a word in front of them for the address the allocator gave, which it reads
back when the bytes are returned.

The enlarged count is computed in `size_t` and nobody looks whether it wrapped.
So a request is served exactly when it did not: the allocator is otherwise
asked for fewer bytes than the caller gets.
-/

namespace Pmr

/-- **The platform and the adapted allocator.** -/
structure ResourceAdaptor where
  /-- `sizeof(void*)`. -/
  sizeofVoidPtr : ℕ
  /-- `max_allocator_alignment<Allocator>::value`. -/
  guaranteedAllocatorAlignment : ℕ
  sizeofVoidPtr_pos : 0 < sizeofVoidPtr
  guaranteed_pow : guaranteedAllocatorAlignment.isPowerOfTwo

namespace ResourceAdaptor

/-- The bits of `size_t`, to which a pointer is cast. -/
def bits (A : ResourceAdaptor) : ℕ := 8 * A.sizeofVoidPtr

/-- **A call of `m_alloc.allocate`**, and what the caller does with the address
it returns. Where it throws, nothing is done. -/
structure AllocateCall where
  count : ℕ
  resume : ℕ → ℕ × ByteMemory

/-- `priv_extra_bytes_for_overalignment` -/
def privExtraBytesForOveralignment (A : ResourceAdaptor) (alignment : ℕ) : ℕ :=
  Word.add A.bits (Word.sub A.bits alignment 1) A.sizeofVoidPtr

/-- `priv_bookeeping_addr_from_aligned_ptr` -/
def privBookeepingAddrFromAlignedPtr (A : ResourceAdaptor) (alignedPtr : ℕ) : ℕ :=
  Word.sub A.bits alignedPtr A.sizeofVoidPtr

/-- `priv_aligned_alloc` -/
def privAlignedAlloc (A : ResourceAdaptor) (m : ByteMemory) (bytes alignment : ℕ) :
    AllocateCall where
  count := Word.add A.bits bytes (A.privExtraBytesForOveralignment alignment)
  resume p :=
    if p ≠ 0 then
      let alignedPtr := Word.add A.bits p (A.privExtraBytesForOveralignment alignment)
        &&& Word.compl A.bits (Word.sub A.bits alignment 1)
      (alignedPtr, m.store A.sizeofVoidPtr (A.privBookeepingAddrFromAlignedPtr alignedPtr) p)
    else (0, m)

/-- `priv_aligned_dealloc`: the pointer and the count that the allocator gets
back. -/
def privAlignedDealloc (A : ResourceAdaptor) (m : ByteMemory)
    (alignedPtr bytes alignment : ℕ) : ℕ × ℕ :=
  (m.load A.sizeofVoidPtr (A.privBookeepingAddrFromAlignedPtr alignedPtr),
    Word.add A.bits bytes (A.privExtraBytesForOveralignment alignment))

/-- **`do_allocate`.** -/
def doAllocate (A : ResourceAdaptor) (m : ByteMemory) (bytes alignment : ℕ) : AllocateCall :=
  if alignment ≤ A.guaranteedAllocatorAlignment then ⟨bytes, fun p => (p, m)⟩
  else A.privAlignedAlloc m bytes alignment

/-- **`do_deallocate`.** -/
def doDeallocate (A : ResourceAdaptor) (m : ByteMemory) (p bytes alignment : ℕ) : ℕ × ℕ :=
  if alignment ≤ A.guaranteedAllocatorAlignment then (p, bytes)
  else A.privAlignedDealloc m p bytes alignment

/-- **The addresses an allocator may return** for a count: not null, aligned as
it guarantees, and of bytes whose end is an address too. -/
structure MayReturn (A : ResourceAdaptor) (count p : ℕ) : Prop where
  pos : 0 < p
  aligned : A.guaranteedAllocatorAlignment ∣ p
  stop_lt : p + count < 2 ^ A.bits

/-- The word of the bookkeeping, in front of the user's bytes. -/
def bookeeping (A : ResourceAdaptor) (q : ℕ) : Region := ⟨q - A.sizeofVoidPtr, A.sizeofVoidPtr⟩

/-- **A request is served**, when the allocator answers it: the bytes are
aligned, and they and the bookkeeping lie apart inside the block, outside of
which nothing is written; and whatever the user writes to the bytes, to return
them gives the allocator the block back. -/
structure Served (A : ResourceAdaptor) (m : ByteMemory) (bytes alignment p : ℕ) : Prop where
  aligned : alignment ∣ ((A.doAllocate m bytes alignment).resume p).1
  front : A.sizeofVoidPtr ≤ ((A.doAllocate m bytes alignment).resume p).1
  apart : (A.bookeeping ((A.doAllocate m bytes alignment).resume p).1).Apart
    ⟨((A.doAllocate m bytes alignment).resume p).1, bytes⟩
  bookeeping_within : (A.bookeeping ((A.doAllocate m bytes alignment).resume p).1).Within
    ⟨p, (A.doAllocate m bytes alignment).count⟩
  bytes_within : (⟨((A.doAllocate m bytes alignment).resume p).1, bytes⟩ : Region).Within
    ⟨p, (A.doAllocate m bytes alignment).count⟩
  frame : ByteMemory.AgreeOn
    (Set.compl (⟨p, (A.doAllocate m bytes alignment).count⟩ : Region).bytes)
    m ((A.doAllocate m bytes alignment).resume p).2
  returned : ∀ m', ByteMemory.AgreeOn
      (Set.compl (⟨((A.doAllocate m bytes alignment).resume p).1, bytes⟩ : Region).bytes)
      ((A.doAllocate m bytes alignment).resume p).2 m' →
    A.doDeallocate m' ((A.doAllocate m bytes alignment).resume p).1 bytes alignment
      = (p, (A.doAllocate m bytes alignment).count)

/-! ## Rounding up inside the block -/

variable {A : ResourceAdaptor} {m : ByteMemory} {bytes alignment p k : ℕ}

/-- The slack of an alignment is a word. -/
theorem privExtraBytes_eq (hk : 2 ^ k < 2 ^ A.bits) :
    A.privExtraBytesForOveralignment (2 ^ k) = 2 ^ k - 1 + A.sizeofVoidPtr := by
  have hkb : k < A.bits := (Nat.pow_lt_pow_iff_right (by omega)).mp hk
  have hhalf : 2 ^ k ≤ 2 ^ (A.bits - 1) := Nat.pow_le_pow_right (by omega) (by omega)
  have hdouble : 2 ^ A.bits = 2 ^ (A.bits - 1) * 2 := by
    rw [← pow_succ, Nat.sub_add_cancel (by omega)]
  have hsize : A.sizeofVoidPtr < 2 ^ (A.bits - 1) := by
    have hpos := A.sizeofVoidPtr_pos
    exact Nat.lt_two_pow_self.trans_le
      (Nat.pow_le_pow_right (by omega) (by unfold bits; omega))
  have hpow := Nat.two_pow_pos k
  rw [privExtraBytesForOveralignment, Word.sub_of_le hk hpow, Word.add_of_lt (by omega)]

/-- The greatest multiple of the alignment that the slack reaches leaves room
for the word in front of it. -/
theorem alignedPtr_bounds {x : ℕ} (a s : ℕ) (ha : 0 < a) (hx : x = p + (a - 1 + s)) :
    p + s ≤ x - x % a ∧ x - x % a ≤ x := by
  have := Nat.mod_lt x ha
  omega

/-- What the allocation returns, where neither sum wraps. -/
theorem privAlignedAlloc_resume (hk : 2 ^ k < 2 ^ A.bits) (hp : 0 < p)
    (hsum : p + (2 ^ k - 1 + A.sizeofVoidPtr) < 2 ^ A.bits) :
    (A.privAlignedAlloc m bytes (2 ^ k)).resume p
      = (p + (2 ^ k - 1 + A.sizeofVoidPtr) - (p + (2 ^ k - 1 + A.sizeofVoidPtr)) % 2 ^ k,
        m.store A.sizeofVoidPtr (A.privBookeepingAddrFromAlignedPtr
          (p + (2 ^ k - 1 + A.sizeofVoidPtr) - (p + (2 ^ k - 1 + A.sizeofVoidPtr)) % 2 ^ k))
          p) := by
  simp only [privAlignedAlloc]
  rw [if_pos (Nat.ne_of_gt hp), privExtraBytes_eq hk, Word.add_of_lt hsum,
    Word.sub_of_le hk (Nat.two_pow_pos k), Word.land_compl_eq hsum]

/-- The count of a request that does not wrap. -/
theorem privAlignedAlloc_count (hk : 2 ^ k < 2 ^ A.bits)
    (hfits : bytes + (2 ^ k - 1 + A.sizeofVoidPtr) < 2 ^ A.bits) :
    (A.privAlignedAlloc m bytes (2 ^ k)).count = bytes + (2 ^ k - 1 + A.sizeofVoidPtr) := by
  simp only [privAlignedAlloc]
  rw [privExtraBytes_eq hk, Word.add_of_lt hfits]

/-- **A request that does not wrap is served.** -/
theorem served_of_lt (hk : 2 ^ k < 2 ^ A.bits) (hover : A.guaranteedAllocatorAlignment < 2 ^ k)
    (hfits : bytes + (2 ^ k - 1 + A.sizeofVoidPtr) < 2 ^ A.bits)
    (hp : A.MayReturn (A.doAllocate m bytes (2 ^ k)).count p) :
    A.Served m bytes (2 ^ k) p := by
  have hcall : A.doAllocate m bytes (2 ^ k) = A.privAlignedAlloc m bytes (2 ^ k) :=
    if_neg (Nat.not_le.mpr hover)
  have hcount : (A.doAllocate m bytes (2 ^ k)).count
      = bytes + (2 ^ k - 1 + A.sizeofVoidPtr) := by
    rw [hcall, privAlignedAlloc_count hk hfits]
  have hstop := hp.stop_lt
  rw [hcount] at hstop
  have hresume : (A.privAlignedAlloc m bytes (2 ^ k)).resume p = _ :=
    privAlignedAlloc_resume hk hp.pos (by omega)
  rw [← hcall] at hresume
  obtain ⟨hlow, hhigh⟩ := alignedPtr_bounds (2 ^ k) A.sizeofVoidPtr (Nat.two_pow_pos k)
    (rfl : p + (2 ^ k - 1 + A.sizeofVoidPtr) = p + (2 ^ k - 1 + A.sizeofVoidPtr))
  have hdvd : 2 ^ k ∣ p + (2 ^ k - 1 + A.sizeofVoidPtr)
      - (p + (2 ^ k - 1 + A.sizeofVoidPtr)) % 2 ^ k := Nat.dvd_sub_mod _
  generalize p + (2 ^ k - 1 + A.sizeofVoidPtr)
      - (p + (2 ^ k - 1 + A.sizeofVoidPtr)) % 2 ^ k = q at hresume hlow hhigh hdvd
  have haddr : A.privBookeepingAddrFromAlignedPtr q = q - A.sizeofVoidPtr :=
    Word.sub_of_le (by omega) (by omega)
  have hfst : ((A.doAllocate m bytes (2 ^ k)).resume p).1 = q := by rw [hresume]
  have hsnd : ((A.doAllocate m bytes (2 ^ k)).resume p).2
      = m.store A.sizeofVoidPtr (q - A.sizeofVoidPtr) p := by rw [hresume, haddr]
  refine ⟨?_, ?_, ?_, ?_, ?_, ?_, ?_⟩
  · rw [hfst]
    exact hdvd
  · rw [hfst]
    omega
  · rw [hfst, Region.apart_iff]
    exact Or.inr (Or.inr (Or.inl (by simp only [bookeeping, Region.stop_mk]; omega)))
  · rw [hfst, hcount]
    exact ⟨by simp only [bookeeping]; omega, by simp only [bookeeping, Region.stop_mk]; omega⟩
  · rw [hfst, hcount]
    exact ⟨by simp only []; omega, by simp only [Region.stop_mk]; omega⟩
  · rw [hcount, hsnd]
    intro x hx
    refine (ByteMemory.store_of_notMem (fun hin => hx ?_)).symm
    exact ⟨by have := hin.1; simp only [] at this ⊢; omega,
      by have := hin.2; simp only [Region.stop_mk] at this ⊢; omega⟩
  · rw [hfst, hsnd, hcount]
    intro m' hm'
    have hload : m'.load A.sizeofVoidPtr (q - A.sizeofVoidPtr) = p := by
      rw [← ByteMemory.load_congr (fun x hx => hm' x (fun hin => ?_)), ByteMemory.load_store]
      · rw [show 256 = 2 ^ 8 from rfl, ← pow_mul]
        exact lt_of_le_of_lt (Nat.le_add_right _ _) hp.stop_lt
      · have hlt := hx.2
        have hle := hin.1
        simp only [Region.stop_mk] at hlt
        simp only [] at hle
        omega
    rw [doDeallocate, if_neg (Nat.not_le.mpr hover), privAlignedDealloc, haddr, hload,
      privExtraBytes_eq hk, Word.add_of_lt hfits]

/-! ## A request that wraps -/

/-- The count of a request that wraps is less than the bytes. -/
theorem privAlignedAlloc_count_of_wrap (hk : 2 ^ k < 2 ^ A.bits) (hbytes : bytes < 2 ^ A.bits)
    (hwrap : 2 ^ A.bits ≤ bytes + (2 ^ k - 1 + A.sizeofVoidPtr)) :
    (A.privAlignedAlloc m bytes (2 ^ k)).count
      = bytes + (2 ^ k - 1 + A.sizeofVoidPtr) - 2 ^ A.bits
    ∧ 2 ^ k - 1 + A.sizeofVoidPtr < 2 ^ A.bits := by
  have hextra : 2 ^ k - 1 + A.sizeofVoidPtr < 2 ^ A.bits := by
    rw [← privExtraBytes_eq hk]
    exact Word.add_lt _ _
  refine ⟨?_, hextra⟩
  simp only [privAlignedAlloc]
  rw [privExtraBytes_eq hk, Word.add, Nat.mod_eq_sub_mod hwrap, Nat.mod_eq_of_lt (by omega)]

/-- The allocator may answer a request that wraps: the count is then so small
that a block at its first aligned address is in the address space. -/
theorem mayReturn_of_wrap {g : ℕ} (hg : A.guaranteedAllocatorAlignment = 2 ^ g) (hgk : g < k)
    (hk : 2 ^ k < 2 ^ A.bits) (hbytes : bytes < 2 ^ A.bits) :
    A.MayReturn (bytes + (2 ^ k - 1 + A.sizeofVoidPtr) - 2 ^ A.bits) (2 ^ g) := by
  have hkb : k < A.bits := (Nat.pow_lt_pow_iff_right (by omega)).mp hk
  have hquarter : 2 ^ g ≤ 2 ^ (A.bits - 2) := Nat.pow_le_pow_right (by omega) (by omega)
  have hhalf : 2 ^ k ≤ 2 ^ (A.bits - 1) := Nat.pow_le_pow_right (by omega) (by omega)
  have hdouble : 2 ^ A.bits = 2 ^ (A.bits - 1) * 2 := by
    rw [← pow_succ, Nat.sub_add_cancel (by omega)]
  have hfourth : 2 ^ (A.bits - 1) = 2 ^ (A.bits - 2) * 2 := by
    rw [← pow_succ, show A.bits - 2 + 1 = A.bits - 1 by omega]
  have hsize : A.sizeofVoidPtr < 2 ^ (A.bits - 2) := by
    have hpos := A.sizeofVoidPtr_pos
    exact Nat.lt_two_pow_self.trans_le
      (Nat.pow_le_pow_right (by omega) (by unfold bits; omega))
  exact ⟨Nat.two_pow_pos g, ⟨1, by rw [hg, Nat.mul_one]⟩, by omega⟩

/-- **A request that wraps is not served**, by any block. -/
theorem not_served_of_wrap (hk : 2 ^ k < 2 ^ A.bits)
    (hover : A.guaranteedAllocatorAlignment < 2 ^ k) (hbytes : bytes < 2 ^ A.bits)
    (hwrap : 2 ^ A.bits ≤ bytes + (2 ^ k - 1 + A.sizeofVoidPtr)) :
    ¬ A.Served m bytes (2 ^ k) p := by
  intro h
  obtain ⟨hcount, hextra⟩ := privAlignedAlloc_count_of_wrap (m := m) hk hbytes hwrap
  have hcall : A.doAllocate m bytes (2 ^ k) = A.privAlignedAlloc m bytes (2 ^ k) :=
    if_neg (Nat.not_le.mpr hover)
  obtain ⟨hlow, hhigh⟩ := h.bytes_within
  rw [hcall, hcount] at hlow hhigh
  simp only [Region.stop_mk] at hlow hhigh
  omega

/-- **An over-aligned request is served by every block that the allocator may
return** exactly when the bytes, the slack and the word together are a
`size_t`. -/
theorem doAllocate_served_iff (hbytes : bytes < 2 ^ A.bits) (hpow : alignment.isPowerOfTwo)
    (halign : alignment < 2 ^ A.bits) (hover : A.guaranteedAllocatorAlignment < alignment) :
    (∀ m p, A.MayReturn (A.doAllocate m bytes alignment).count p →
        A.Served m bytes alignment p)
      ↔ bytes + (alignment - 1 + A.sizeofVoidPtr) < 2 ^ A.bits := by
  obtain ⟨k, rfl⟩ := hpow
  constructor
  · intro h
    by_contra hwrap
    obtain ⟨g, hg⟩ := A.guaranteed_pow
    have hgk : g < k := (Nat.pow_lt_pow_iff_right (by omega)).mp (hg ▸ hover)
    have hmay := mayReturn_of_wrap hg hgk halign hbytes
    rw [← (privAlignedAlloc_count_of_wrap (m := fun _ => 0) halign hbytes
      (not_lt.mp hwrap)).1] at hmay
    have hcall : A.doAllocate (fun _ => 0) bytes (2 ^ k)
        = A.privAlignedAlloc (fun _ => 0) bytes (2 ^ k) := if_neg (Nat.not_le.mpr hover)
    rw [← hcall] at hmay
    exact not_served_of_wrap halign hover hbytes (not_lt.mp hwrap) (h _ _ hmay)
  · exact fun hfits m p hp => served_of_lt halign hover hfits hp

theorem standard_sizeofVoidPtr_pos : 0 < 8 := by decide

theorem standard_guaranteed_pow : Nat.isPowerOfTwo 16 := ⟨4, rfl⟩

/-- `std::allocator` on a platform of 64 bits. -/
def standard : ResourceAdaptor :=
  ⟨8, 16, standard_sizeofVoidPtr_pos, standard_guaranteed_pow⟩

theorem doAllocate_served_iff_standard :
    (∀ m p, standard.MayReturn (standard.doAllocate m 100 64).count p →
        standard.Served m 100 64 p)
      ↔ 100 + (64 - 1 + standard.sizeofVoidPtr) < 2 ^ standard.bits :=
  doAllocate_served_iff (by decide) ⟨6, rfl⟩ (by decide) (by decide)

/-- The greatest `size_t` of bytes, aligned to 64: the allocator is asked for 70
bytes, and may have them at the address 1024. -/
theorem greatest_not_served :
    ¬ ∀ (A : ResourceAdaptor) (m : ByteMemory) (bytes alignment p : ℕ), bytes < 2 ^ A.bits →
      alignment.isPowerOfTwo → alignment < 2 ^ A.bits →
      A.guaranteedAllocatorAlignment < alignment →
      A.MayReturn (A.doAllocate m bytes alignment).count p → A.Served m bytes alignment p := by
  intro h
  have hserved := h standard (fun _ => 0) (2 ^ 64 - 1) 64 1024 (by decide) ⟨6, rfl⟩ (by decide)
    (by decide) ⟨by decide, by decide, by decide⟩
  have hwithin := hserved.bytes_within.2
  revert hwithin
  decide

end ResourceAdaptor

end Pmr
