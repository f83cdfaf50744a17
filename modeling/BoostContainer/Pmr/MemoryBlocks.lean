import BoostContainer.Lib.Word
import BoostContainer.Lib.Region

/-!
# Blocks obtained from an upstream resource

The two memory resources keep every block they obtain from upstream on an
intrusive list threaded through a header at the block's start, and hand out
the bytes after the header. `block_slist` and `block_list` differ in how the
list is linked and agree on everything else: a request is refused when
adding the header would overflow, the header records the size that was
requested upstream, and a release returns every block with that size.

What upstream does is not in this code. A call is given upstream's answer to
each size it may be asked for, and an answer is *fresh* when it is what
`memory_resource::allocate` documents: storage of the size asked for, aligned
to `max_align`, apart from all storage in use.
-/

/-- **The target**: the width of `std::size_t` and of an address, the
strictest fundamental alignment, and the sizes of the objects the resources
place in memory. -/
structure Platform where
  /-- The bits of `std::size_t`, and of an address. -/
  bits : ℕ
  /-- The binary logarithm of `memory_resource::max_align`. -/
  maxAlignLog2 : ℕ
  /-- The binary logarithm of `sizeof(void*)`. -/
  sizeofPtrLog2 : ℕ
  /-- `sizeof(block_slist_header)`. -/
  sizeofBlockSlistHeader : ℕ
  /-- `sizeof(block_list_header)`. -/
  sizeofBlockListHeader : ℕ
  /-- `sizeof(pool_data_t)`. -/
  sizeofPoolData : ℕ
  blockListHeader_pos : 0 < sizeofBlockListHeader
  /-- A header and the rounding of its size fit in a word. -/
  blockSlistHeader_fits : sizeofBlockSlistHeader + 2 ^ maxAlignLog2 ≤ 2 ^ bits
  blockListHeader_fits : sizeofBlockListHeader + 2 ^ maxAlignLog2 ≤ 2 ^ bits
  /-- The smallest and the default largest pooled sizes fit in a word, with
  room to double. -/
  maxAlign_fits : maxAlignLog2 < bits
  sizeofPtr_fits : sizeofPtrLog2 + 1 < bits
  bits_ge : 13 ≤ bits

namespace Platform

/-- A 64-bit target with 16-byte fundamental alignment. -/
def lp64 : Platform where
  bits := 64
  maxAlignLog2 := 4
  sizeofPtrLog2 := 3
  sizeofBlockSlistHeader := 16
  sizeofBlockListHeader := 24
  sizeofPoolData := 24
  blockListHeader_pos := by decide
  blockSlistHeader_fits := by decide
  blockListHeader_fits := by decide
  maxAlign_fits := by decide
  sizeofPtr_fits := by decide
  bits_ge := by decide

variable (pf : Platform)

/-- `memory_resource::max_align`. -/
def maxAlign : ℕ := 2 ^ pf.maxAlignLog2

/-- `sizeof(void*)`. -/
def sizeofPtr : ℕ := 2 ^ pf.sizeofPtrLog2

/-- `std::size_t(-1)`. -/
def sizeMax : ℕ := Word.max pf.bits

theorem maxAlign_pos : 0 < pf.maxAlign := Nat.two_pow_pos _

/-- The size of a header, rounded up to a multiple of `max_align`. -/
def headerSize (sizeofHeader : ℕ) : ℕ :=
  (sizeofHeader + (pf.maxAlign - 1)) &&& Word.compl pf.bits (pf.maxAlign - 1)

variable {pf}

theorem headerSize_eq {h : ℕ} (hfit : h + pf.maxAlign ≤ 2 ^ pf.bits) :
    pf.headerSize h
      = (h + (pf.maxAlign - 1)) - (h + (pf.maxAlign - 1)) % pf.maxAlign := by
  have hpos := pf.maxAlign_pos
  exact Word.land_compl_eq (by omega)

/-- A rounded header size is a multiple of `max_align`, so what follows the
header of an aligned block is aligned. -/
theorem headerSize_mod {h : ℕ} (hfit : h + pf.maxAlign ≤ 2 ^ pf.bits) :
    pf.headerSize h % pf.maxAlign = 0 := by
  rw [headerSize_eq hfit]
  exact Nat.sub_mod_eq_zero_of_mod_eq (Nat.mod_mod _ _).symm

theorem le_headerSize {h : ℕ} (hfit : h + pf.maxAlign ≤ 2 ^ pf.bits) :
    h ≤ pf.headerSize h := by
  have hpos := pf.maxAlign_pos
  have hlt := Nat.mod_lt (h + (pf.maxAlign - 1)) hpos
  rw [headerSize_eq hfit]
  omega

theorem headerSize_le_sizeMax {h : ℕ} (hfit : h + pf.maxAlign ≤ 2 ^ pf.bits) :
    pf.headerSize h ≤ pf.sizeMax := by
  have hpos := pf.maxAlign_pos
  rw [headerSize_eq hfit, sizeMax, Word.max]
  omega

/-- An alignment that is a power of two and not above `max_align` divides
it. -/
theorem dvd_maxAlign {k : ℕ} (h : 2 ^ k ≤ pf.maxAlign) : 2 ^ k ∣ pf.maxAlign :=
  Nat.pow_dvd_pow 2 ((Nat.pow_le_pow_iff_right (by decide)).mp h)

end Platform

/-- **Upstream's answers**: the address it returns for each size it may be
asked for during one call, or `none` where it throws. -/
abbrev Upstream := ℕ → Option ℕ

/-- **Fresh answers**: storage that is aligned to `max_align`, lies in the
address space, and is apart from all storage in use. -/
def Upstream.Fresh (pf : Platform) (mr : Upstream) (inUse : List Region) : Prop :=
  ∀ n q, mr n = some q →
    q % pf.maxAlign = 0 ∧ q + n < 2 ^ pf.bits ∧ ∀ r ∈ inUse, r.Apart ⟨q, n⟩

/-- **The list of blocks**, most recently obtained first: each with the
address upstream returned and the size it was asked for. -/
abbrev BlockList := List Region

namespace BlockList

/-- `block_slist_base::allocate` and `block_list_base::allocate`, for a
header of the given rounded size: the address after the header and the list
with the new block linked in, or `none` where the call throws. -/
def allocate (pf : Platform) (header : ℕ) (l : BlockList) (size : ℕ)
    (mr : Upstream) : Option (ℕ × BlockList) :=
  if pf.sizeMax - header < size then none
  else
    match mr (size + header) with
    | none => none
    | some q => some (Word.add pf.bits q header, ⟨q, size + header⟩ :: l)

/-- **What an allocation that returns has done**: it linked in one fresh
block, and the bytes it hands out are the block's bytes after the header. -/
theorem allocate_eq_some {pf : Platform} {header size a : ℕ} {l l' : BlockList}
    {mr : Upstream} (hheader : header ≤ pf.sizeMax) {inUse : List Region}
    (hmr : mr.Fresh pf inUse)
    (h : allocate pf header l size mr = some (a, l')) :
    ∃ q, mr (size + header) = some q ∧ a = q + header
      ∧ l' = ⟨q, size + header⟩ :: l ∧ size + header ≤ pf.sizeMax
      ∧ q % pf.maxAlign = 0 ∧ q + (size + header) < 2 ^ pf.bits
      ∧ ∀ r ∈ inUse, r.Apart ⟨q, size + header⟩ := by
  unfold allocate at h
  split at h
  · cases h
  · rename_i hroom
    split at h
    · cases h
    · rename_i q hq
      obtain ⟨rfl, rfl⟩ : Word.add pf.bits q header = a
          ∧ (⟨q, size + header⟩ : Region) :: l = l' := by
        simpa using h
      obtain ⟨halign, hspace, hapart⟩ := hmr _ _ hq
      exact ⟨q, hq, Word.add_of_lt (by omega), rfl, by omega, halign, hspace, hapart⟩

/-- `block_slist_base::release` and `block_list_base::release`: the blocks
handed back to upstream, in the order of the list, and the list left
behind. -/
def release (l : BlockList) : List Region × BlockList := (l, [])

end BlockList

/-- **The bit arithmetic the resources take from Boost.Intrusive**, on words
of `w` bits, with what it documents. -/
structure IntrusiveMath (w : ℕ) where
  /-- `bi::detail::is_pow2`. -/
  isPow2 : ℕ → Bool
  /-- `bi::detail::ceil_pow2`. -/
  ceilPow2 : ℕ → ℕ
  /-- `bi::detail::previous_or_equal_pow2`. -/
  previousOrEqualPow2 : ℕ → ℕ
  /-- `bi::detail::ceil_log2`. -/
  ceilLog2 : ℕ → ℕ
  isPow2_iff : ∀ n, isPow2 n = true ↔ ∃ k, n = 2 ^ k
  /-- The least power of two that is not below the argument. -/
  ceilPow2_spec : ∀ n, 0 < n → n ≤ 2 ^ (w - 1) →
    ∃ k, ceilPow2 n = 2 ^ k ∧ n ≤ 2 ^ k ∧ 2 ^ k < 2 * n
  /-- The greatest power of two that is not above the argument. -/
  previousOrEqualPow2_spec : ∀ n, 0 < n →
    ∃ k, previousOrEqualPow2 n = 2 ^ k ∧ 2 ^ k ≤ n ∧ n < 2 * 2 ^ k
  /-- The least exponent whose power of two is not below the argument. -/
  ceilLog2_spec : ∀ n, 0 < n → ∀ k, ceilLog2 n ≤ k ↔ n ≤ 2 ^ k

namespace IntrusiveMath

/-- The least exponent whose power of two is not below the argument. -/
def refCeilLog2 (n : ℕ) : ℕ := if n ≤ 1 then 0 else Nat.log2 (n - 1) + 1

theorem refCeilLog2_le_iff (n k : ℕ) : refCeilLog2 n ≤ k ↔ n ≤ 2 ^ k := by
  unfold refCeilLog2
  split
  · have := Nat.two_pow_pos k
    omega
  · have hlog : Nat.log2 (n - 1) < k ↔ n - 1 < 2 ^ k :=
      Nat.log2_lt (by omega)
    omega

/-- The arithmetic as Boost.Intrusive computes it. -/
def reference (w : ℕ) : IntrusiveMath w where
  isPow2 n := decide (n ≠ 0 ∧ 2 ^ Nat.log2 n = n)
  ceilPow2 n := 2 ^ refCeilLog2 n
  previousOrEqualPow2 n := 2 ^ Nat.log2 n
  ceilLog2 := refCeilLog2
  isPow2_iff n := by
    rw [decide_eq_true_iff]
    constructor
    · rintro ⟨_, h⟩
      exact ⟨_, h.symm⟩
    · rintro ⟨k, rfl⟩
      exact ⟨(Nat.two_pow_pos k).ne', by rw [Nat.log2_two_pow]⟩
  ceilPow2_spec n hn _ := by
    refine ⟨_, rfl, (refCeilLog2_le_iff n _).mp le_rfl, ?_⟩
    unfold refCeilLog2
    split
    · rw [pow_zero]
      omega
    · have hle := Nat.log2_self_le (n := n - 1) (by omega)
      rw [pow_succ]
      omega
  previousOrEqualPow2_spec n hn := by
    refine ⟨_, rfl, Nat.log2_self_le hn.ne', ?_⟩
    have hlt : n < 2 ^ (Nat.log2 n + 1) := Nat.lt_log2_self
    rw [pow_succ] at hlt
    omega
  ceilLog2_spec n _ k := refCeilLog2_le_iff n k

end IntrusiveMath
