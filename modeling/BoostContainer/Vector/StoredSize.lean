import BoostContainer.Detail.NextCapacity

/-!
# Sizes that are stored in fewer bits

A vector keeps its size and its capacity in integers of `stored_size_type`, which may be
narrower than the `size_type` of the allocator. What is allocated is checked against the
narrow type before anything is stored, and the answer of an allocator that may give more
is cut to it. The capacity of the storage inside a small vector is stored without a
check.

Only sizes are kept here, beside the stored ones the number of elements there are and
the length of the buffer. Every operation answers what it leaves, or how it throws; a
deallocation with another length than that of the allocation is an error of its own.
-/

namespace StoredSize

open NextCapacity (nextCapacity GrowthFactor)

/-! ## Allocators and vectors -/

/-- **What is fixed at compile time**: the widths of `size_type` and `stored_size_type`,
the version of the allocator, its `max_size` and the growth factor. -/
structure Params where
  sizeBits : ℕ
  storedBits : ℕ
  storedBits_le : storedBits ≤ sizeBits
  version2 : Bool
  maxSize : ℕ
  maxSize_lt : maxSize < 2 ^ sizeBits
  growth : GrowthFactor sizeBits

/-- Where the elements are; a buffer has the length it was allocated with. -/
inductive Start where
  | null
  | internal
  | heap (count : ℕ)
  deriving DecidableEq

/-- **A vector, or a small vector** with an inline capacity: `m_start`, `m_size` and
`m_capacity`, and how many elements there are. -/
structure Holder where
  inlineCapacity : Option ℕ
  start : Start
  mSize : ℕ
  mCapacity : ℕ
  size : ℕ

/-- How an operation throws; `undefined` is a deallocation with a wrong length. -/
inductive Err where
  | lengthError
  | badAlloc
  | undefined
  deriving DecidableEq

/-- **What an allocator of version 2 answers**: nothing, or a buffer that may be longer
than was asked for, which is a new one or the old one expanded. -/
inductive Answer where
  | fails
  | buffer (extra : ℕ)
  | expanded (extra : ℕ)

/-- A buffer that was got: whether it is a new one, what of its length is kept, and its
length. -/
structure Got where
  isNew : Bool
  cap : ℕ
  count : ℕ

section Definitions

variable (p : Params)

/-- `stored_size_type(-1)`. -/
def storedMax : ℕ := 2 ^ p.storedBits - 1

/-- A cast to `stored_size_type`. -/
def stored (n : ℕ) : ℕ := n % 2 ^ p.storedBits

/-- The allocator of a small vector is of version 1. -/
def Holder.version2 (h : Holder) : Bool := p.version2 && h.inlineCapacity.isNone

/-- `vec_on_type_overflow<..., size_type>::throw_length` -/
def checkSize (n : ℕ) : Except Err Unit :=
  if 2 ^ p.sizeBits - 1 < n then throw .lengthError else pure ()

/-- `vec_on_type_overflow<size_type, stored_size_type>::throw_length` -/
def checkStored (n : ℕ) : Except Err Unit :=
  if storedMax p < n then throw .lengthError else pure ()

/-- `allocate` of the holder. -/
def allocate (n : ℕ) : Except Err ℕ :=
  if min p.maxSize (storedMax p) < n then throw .lengthError else pure n

/-- **`allocation_command`**, of either version: no more than `max_size` is ever given,
and no less than the limit. -/
def allocationCommand (version2 : Bool) (answer : Answer) (limit prefer : ℕ) : Except Err Got := do
  checkStored p limit
  let prefer := min prefer (storedMax p)
  if version2 then
    if p.maxSize < limit then throw .badAlloc
    else match answer with
      | .fails => throw .badAlloc
      | .buffer extra =>
        let received := min (limit + extra) p.maxSize
        return ⟨true, min received (storedMax p), received⟩
      | .expanded extra =>
        let received := min (limit + extra) p.maxSize
        return ⟨false, min received (storedMax p), received⟩
  else
    let count ← allocate p prefer
    return ⟨true, count, count⟩

/-- **`deallocate`** of the buffer, with the stored capacity. -/
def Holder.deallocate (h : Holder) : Except Err Unit :=
  match h.start with
  | .heap count =>
    if h.version2 p = false ∧ count ≠ h.mCapacity then throw .undefined else pure ()
  | _ => pure ()

/-- **`priv_insert_forward_range_new_allocation`** of `n` new elements. -/
def Holder.newAllocation (newCap count n : ℕ) (h : Holder) : Except Err Holder := do
  h.deallocate p
  return { h with
    start := .heap count
    mSize := stored p (h.mSize + n)
    mCapacity := stored p newCap
    size := h.size + n }

/-- What is done with a buffer that was got. -/
def Holder.adopt (got : Got) (n : ℕ) (h : Holder) : Except Err Holder :=
  if got.isNew then h.newAllocation p got.cap got.count n
  else return { h with
    start := .heap got.count
    mSize := stored p (h.mSize + n)
    mCapacity := stored p got.cap
    size := h.size + n }

/-! ## The operations -/

/-- The constructors without elements. -/
def construct (inlineCapacity : Option ℕ) : Holder :=
  match inlineCapacity with
  | none => ⟨none, .null, 0, 0, 0⟩
  | some cap => ⟨some cap, .internal, 0, stored p cap, 0⟩

/-- **The constructors with `n` elements**: the size is stored, then checked, and the
elements are constructed last. -/
def constructN (inlineCapacity : Option ℕ) (answer : Answer) (n : ℕ) : Except Err Holder :=
  match inlineCapacity with
  | none => do
    let h : Holder := ⟨none, .null, stored p n, 0, 0⟩
    checkSize p n
    if n = 0 then return h
    else
      let got ← allocationCommand p (h.version2 p) answer n n
      return { h with start := .heap got.count, mCapacity := stored p got.cap, size := n }
  | some cap =>
    if n ≤ cap then return ⟨some cap, .internal, stored p n, stored p cap, n⟩
    else do
      let h : Holder := ⟨some cap, .null, 0, stored p n, 0⟩
      checkSize p n
      let got ← allocationCommand p (h.version2 p) answer n n
      return { h with
        start := .heap got.count, mCapacity := stored p got.cap, mSize := stored p n, size := n }

/-- **`priv_move_to_new_buffer`**. -/
def Holder.moveToNewBuffer (answer : Answer) (newCap : ℕ) (h : Holder) : Except Err Holder := do
  if h.version2 p then
    let got ← allocationCommand p true answer newCap newCap
    h.adopt p got 0
  else
    let count ← allocate p newCap
    h.newAllocation p newCap count 0

/-- **`reserve`** -/
def Holder.reserve (answer : Answer) (newCap : ℕ) (h : Holder) : Except Err Holder :=
  if h.mCapacity < newCap then h.moveToNewBuffer p answer newCap else return h

/-- **`priv_insert_forward_range`**, after the check of the length of the range. -/
def Holder.insertN (answer : Answer) (n : ℕ) (h : Holder) : Except Err Holder := do
  checkSize p n
  if n ≤ h.mCapacity - h.mSize then
    return { h with mSize := stored p (h.mSize + n), size := h.size + n }
  else match
      nextCapacity p.sizeBits p.growth.grow p.maxSize (storedMax p) h.mCapacity h.mSize n with
    | none => throw .lengthError
    | some newCap =>
      if h.version2 p then
        let got ← allocationCommand p true answer (Word.add p.sizeBits h.mSize n) newCap
        h.adopt p got n
      else
        let count ← allocate p newCap
        h.newAllocation p newCap count n

/-- **`priv_resize`** -/
def Holder.resize (answer : Answer) (newSize : ℕ) (h : Holder) : Except Err Holder :=
  if newSize < h.mSize then
    return { h with
      mSize := stored p (h.mSize - (h.mSize - newSize)), size := h.size - (h.mSize - newSize) }
  else h.insertN p answer (newSize - h.mSize)

/-- **`assign`** of a range that can be counted. -/
def Holder.assign (answer : Answer) (n : ℕ) (h : Holder) : Except Err Holder := do
  checkSize p n
  if h.mCapacity < n then
    let got ← allocationCommand p (h.version2 p) answer n n
    (if got.isNew then h.deallocate p else pure ())
    return { h with
      start := .heap got.count, mCapacity := stored p got.cap, mSize := stored p n, size := n }
  else return { h with mSize := stored p n, size := n }

/-- **`try_expand_fwd`**, which only an allocator of version 2 has. -/
def Holder.tryExpandFwd (answer : Answer) (atLeast : ℕ) (h : Holder) : Except Err Holder := do
  let newCap := Word.add p.sizeBits h.mCapacity atLeast
  let got ← allocationCommand p true answer newCap newCap
  return { h with start := .heap got.count, mCapacity := stored p got.cap }

/-- `stable_reserve`, where it answers `true`. -/
def Holder.stableReserve (answer : Answer) (newCap : ℕ) (h : Holder) : Except Err Holder :=
  if newCap ≤ h.mCapacity ∨ h.version2 p = false then return h
  else h.tryExpandFwd p answer (newCap - h.mCapacity)

/-- **`stable_emplace_back`** -/
def Holder.stableEmplaceBack (answer : Answer) (h : Holder) : Except Err Holder := do
  let roomEnough (h : Holder) : Holder :=
    { h with mSize := stored p (h.mSize + 1), size := h.size + 1 }
  if h.mSize ≠ h.mCapacity then return roomEnough h
  else if h.version2 p then
    let h ← h.tryExpandFwd p answer 1
    return roomEnough h
  else return h

/-- **`shrink_to_fit`**, of a vector or of a small vector. -/
def Holder.shrinkToFit (answer : Answer) (h : Holder) : Except Err Holder :=
  if h.mCapacity = 0 then return h
  else match h.inlineCapacity with
    | some cap =>
      if h.start = .internal then return h
      else if h.mSize ≤ cap then do
        h.deallocate p
        return { h with start := .internal, mCapacity := stored p cap }
      else if h.mSize < h.mCapacity then h.moveToNewBuffer p answer h.mSize
      else return h
    | none =>
      if h.mSize = 0 then do
        h.deallocate p
        return { h with start := .null, mCapacity := 0 }
      else if h.version2 p then
        match answer with
        | .expanded extra =>
          let received := min (h.mSize + extra) h.mCapacity
          return { h with start := .heap received, mCapacity := stored p received }
        | _ => return h
      else if h.mSize < h.mCapacity then h.moveToNewBuffer p answer h.mSize
      else return h

/-- What is left where the resources were taken. -/
def Holder.emptied (h : Holder) : Holder :=
  { h with start := .null, mSize := 0, mCapacity := 0, size := 0 }

/-- The resources of another, as after `steal_resources` and `swap_resources`. -/
def Holder.withResources (h x : Holder) : Holder :=
  { x with inlineCapacity := h.inlineCapacity }

/-- **The move constructors**; a buffer is taken, and elements in the storage of a small
vector are moved one by one. -/
def moveConstruct (inlineCapacity : Option ℕ) (x : Holder) : Holder × Holder :=
  if x.start = .internal then
    ({ construct p inlineCapacity with mSize := stored p x.mSize, size := x.size },
      { x with mSize := 0, size := 0 })
  else ((construct p inlineCapacity).withResources x, x.emptied)

/-- `prot_swap_small`, where one has a buffer that can be handed over and the other is in
its own storage. -/
def swapMixed (cap : ℕ) (ext int : Holder) : Holder × Holder :=
  ({ ext with
      start := .internal, mCapacity := stored p cap, mSize := stored p int.mSize
      size := int.size },
    { int with
      start := ext.start, mSize := stored p ext.mSize, mCapacity := stored p ext.mCapacity
      size := ext.size })

/-- `prot_swap_small`, element by element. -/
def swapElements (answer : Answer) (small big : Holder) : Except Err (Holder × Holder) := do
  let small' ← small.insertN p answer (big.mSize - small.mSize)
  return (small',
    { big with mSize := stored p small.mSize, size := big.size - (big.mSize - small.mSize) })

/-- **`swap`**, of vectors or of small vectors; `equal` is whether the allocators are, or
propagate, and the base of a small vector swaps with an internal capacity of 0. -/
def swap (base equal : Bool) (answer : Answer) (a b : Holder) : Except Err (Holder × Holder) :=
  let left := equal && decide (a.start ≠ .internal)
  let right := equal && decide (b.start ≠ .internal)
  if a.inlineCapacity.isNone || (left && right) then
    return (a.withResources b, b.withResources a)
  else
    let internalCapacity := if base then 0 else a.inlineCapacity.getD 0
    if internalCapacity ≠ 0 ∧ left then return swapMixed p internalCapacity a b
    else if internalCapacity ≠ 0 ∧ right then
      return ((swapMixed p internalCapacity b a).2, (swapMixed p internalCapacity b a).1)
    else if a.mSize < b.mSize then swapElements p answer a b
    else do
      let r ← swapElements p answer b a
      return (r.2, r.1)

end Definitions

/-! ## What is asked of the stored sizes -/

/-- **What is stored is the size and the capacity**: the capacity is that of the storage,
or what can be stored of the length of a buffer of version 2. -/
structure Sound (p : Params) (h : Holder) : Prop where
  size_eq : h.mSize = h.size
  size_le : h.size ≤ h.mCapacity
  storage : match h.start with
    | .null => h.mCapacity = 0
    | .internal => h.inlineCapacity = some h.mCapacity
    | .heap count => h.mCapacity = min count (storedMax p)
      ∧ (h.version2 p = false → h.mCapacity = count)

/-- The inline capacity can be stored. -/
def Fits (p : Params) (inlineCapacity : Option ℕ) : Prop :=
  ∀ cap, inlineCapacity = some cap → cap ≤ storedMax p

/-- **How an operation ends**: with what holds of what it leaves, or in an exception. -/
def Ends {β : Type} (Q : β → Prop) : Except Err β → Prop
  | .ok b => Q b
  | .error e => e ≠ .undefined

/-- What an operation on a vector leaves. -/
structure Leaves (p : Params) (h : Holder) (n : ℕ) (h' : Holder) : Prop where
  sound : Sound p h'
  inline_eq : h'.inlineCapacity = h.inlineCapacity
  size_eq : h'.size = n

section Operations

variable {p : Params} {h h' x : Holder} {n newCap count limit prefer cap : ℕ} {answer : Answer}
  {v2 : Bool} {inlineCapacity : Option ℕ}

namespace Ends

variable {β γ : Type} {Q Q' : β → Prop} {R : γ → Prop} {r : Except Err β} {k : β → Except Err γ}

theorem bind (hr : Ends Q r) (hk : ∀ b, Q b → Ends R (k b)) : Ends R (r >>= k) := by
  cases r with
  | error e => exact hr
  | ok b => exact hk b hr

theorem imp (hr : Ends Q r) (hQ : ∀ b, Q b → Q' b) : Ends Q' r := by
  cases r with
  | error e => exact hr
  | ok b => exact hQ b hr

end Ends

theorem stored_of_le (h : n ≤ storedMax p) : stored p n = n := by
  have hpos : 0 < 2 ^ p.storedBits := Nat.two_pow_pos _
  rw [storedMax] at h
  exact Nat.mod_eq_of_lt (by omega)

theorem storedMax_lt : storedMax p < 2 ^ p.sizeBits := by
  have hpos : 0 < 2 ^ p.storedBits := Nat.two_pow_pos _
  have hle : 2 ^ p.storedBits ≤ 2 ^ p.sizeBits := Nat.pow_le_pow_right two_pos p.storedBits_le
  rw [storedMax]
  omega

/-- What is stored as a capacity can be stored. -/
theorem Sound.mCapacity_le (hs : Sound p h) (hf : Fits p h.inlineCapacity) :
    h.mCapacity ≤ storedMax p := by
  have hstorage := hs.storage
  cases hstart : h.start with
  | null =>
    rw [hstart] at hstorage
    simp only at hstorage
    omega
  | internal =>
    rw [hstart] at hstorage
    exact hf _ hstorage
  | heap count =>
    rw [hstart] at hstorage
    rw [hstorage.1]
    exact min_le_right _ _

/-! ## Allocation -/

theorem checkSize_ends : Ends (fun _ => n < 2 ^ p.sizeBits) (checkSize p n) := by
  have hpos : 0 < 2 ^ p.sizeBits := Nat.two_pow_pos _
  rw [checkSize]
  split
  · exact fun he => nomatch he
  · show n < 2 ^ p.sizeBits
    omega

theorem checkStored_ends : Ends (fun _ => n ≤ storedMax p) (checkStored p n) := by
  rw [checkStored]
  split
  · exact fun he => nomatch he
  · next hle => exact not_lt.mp hle

theorem allocate_ends :
    Ends (fun c => c = n ∧ n ≤ min p.maxSize (storedMax p)) (allocate p n) := by
  rw [allocate]
  split
  · exact fun he => nomatch he
  · next hle => exact ⟨rfl, not_lt.mp hle⟩

/-- **What an allocation gives**: the limit, and what is kept of it can be stored. -/
structure Gives (p : Params) (v2 : Bool) (limit : ℕ) (got : Got) : Prop where
  limit_le : limit ≤ got.cap
  cap_eq : got.cap = min got.count (storedMax p)
  exact : v2 = false → got.cap = got.count

theorem allocationCommand_ends (hle : limit ≤ prefer) :
    Ends (Gives p v2 limit) (allocationCommand p v2 answer limit prefer) := by
  unfold allocationCommand
  refine checkStored_ends.bind fun _ hlimit => ?_
  cases v2 with
  | false =>
    refine allocate_ends.bind ?_
    rintro c ⟨rfl, hc⟩
    exact ⟨le_min hle hlimit, (min_eq_left (hc.trans (min_le_right _ _))).symm, fun _ => rfl⟩
  | true =>
    rw [if_pos rfl]
    split
    · exact fun he => nomatch he
    · next hmax =>
      have hkept : ∀ extra, limit ≤ min (min (limit + extra) p.maxSize) (storedMax p) :=
        fun extra => le_min (le_min (Nat.le_add_right _ _) (not_lt.mp hmax)) hlimit
      cases answer with
      | fails => exact fun he => nomatch he
      | buffer extra => exact ⟨hkept extra, rfl, fun he => nomatch he⟩
      | expanded extra => exact ⟨hkept extra, rfl, fun he => nomatch he⟩

theorem checkSize_bind {β : Type} {k : Unit → Except Err β} (hk : k () = .error .lengthError) :
    (checkSize p n >>= k) = .error .lengthError := by
  rw [checkSize]
  split
  · rfl
  · exact hk

theorem allocate_refused (hn : storedMax p < n) : allocate p n = .error .lengthError := by
  rw [allocate, if_pos ((min_le_right _ _).trans_lt hn)]
  rfl

theorem allocationCommand_refused (hlimit : storedMax p < limit) :
    allocationCommand p v2 answer limit prefer = .error .lengthError := by
  unfold allocationCommand
  rw [checkStored, if_pos hlimit]
  rfl

/-- A buffer is freed with the length it was allocated with. -/
theorem Sound.deallocate_ends (hs : Sound p h) : Ends (fun _ => True) (h.deallocate p) := by
  have hstorage := hs.storage
  rw [Holder.deallocate]
  cases hstart : h.start with
  | null => trivial
  | internal => trivial
  | heap count =>
    rw [hstart] at hstorage
    simp only
    split
    · next hwrong => exact absurd (hstorage.2 hwrong.1).symm hwrong.2
    · trivial

/-- **A vector in a new buffer.** -/
theorem sound_heap {c : ℕ} (hsize : n ≤ newCap) (hcap : newCap = min count (storedMax p))
    (hexact : (p.version2 && inlineCapacity.isNone) = false → newCap = count)
    (hc : c = newCap) : Sound p ⟨inlineCapacity, .heap count, stored p n, stored p c, n⟩ := by
  have hle : newCap ≤ storedMax p := hcap.trans_le (min_le_right _ _)
  rw [hc, stored_of_le (hsize.trans hle), stored_of_le hle]
  exact ⟨rfl, hsize, hcap, hexact⟩

theorem Sound.newAllocation_ends (hs : Sound p h) (hsize : h.size + n ≤ newCap)
    (hcap : newCap = min count (storedMax p)) (hexact : h.version2 p = false → newCap = count) :
    Ends (Leaves p h (h.size + n)) (h.newAllocation p newCap count n) := by
  unfold Holder.newAllocation
  refine hs.deallocate_ends.bind fun _ _ => ⟨?_, rfl, rfl⟩
  rw [hs.size_eq]
  exact sound_heap hsize hcap hexact rfl

theorem Sound.adopt_ends (hs : Sound p h) {got : Got} (hg : Gives p (h.version2 p) limit got)
    (hlimit : h.size + n ≤ limit) : Ends (Leaves p h (h.size + n)) (h.adopt p got n) := by
  unfold Holder.adopt
  split
  · exact hs.newAllocation_ends (hlimit.trans hg.limit_le) hg.cap_eq hg.exact
  · refine ⟨?_, rfl, rfl⟩
    rw [hs.size_eq]
    exact sound_heap (hlimit.trans hg.limit_le) hg.cap_eq hg.exact rfl

theorem Sound.moveToNewBuffer_ends (hs : Sound p h) (hle : h.size ≤ newCap) :
    Ends (Leaves p h h.size) (h.moveToNewBuffer p answer newCap) := by
  unfold Holder.moveToNewBuffer
  split
  · next hv2 =>
    refine (allocationCommand_ends le_rfl).bind fun got hg => ?_
    rw [← hv2] at hg
    exact hs.adopt_ends hg hle
  · next hv2 =>
    refine allocate_ends.bind ?_
    rintro c ⟨rfl, hc⟩
    exact hs.newAllocation_ends hle (min_eq_left (hc.trans (min_le_right _ _))).symm fun _ => rfl

/-! ## Growth -/

/-- **`next_capacity` throws** where the sum cannot be stored. -/
theorem nextCapacity_eq_none {w maxSize most capacity size : ℕ} {grow : ℕ → ℕ → ℕ → ℕ}
    (hsize : size ≤ capacity) (hmore : capacity < size + n) (hcap : capacity ≤ min maxSize most)
    (hmax : maxSize < 2 ^ w) (hn : n < 2 ^ w) (hfit : min maxSize most < size + n) :
    nextCapacity w grow maxSize most capacity size n = none := by
  have hword : min maxSize most < 2 ^ w := (Nat.min_le_left _ _).trans_lt hmax
  have hfree : Word.sub w capacity size = capacity - size := Word.sub_of_le (by omega) hsize
  have hmin : Word.sub w n (capacity - size) = n - (capacity - size) :=
    Word.sub_of_le hn (by omega)
  unfold NextCapacity.nextCapacity
  dsimp only
  rw [hfree, hmin, Word.sub_of_le hword hcap, if_pos (by omega)]

/-- **An insertion grows by what is missing**, or throws. -/
theorem Sound.insertN_ends (hs : Sound p h) (hf : Fits p h.inlineCapacity)
    (hroom : h.mCapacity < h.size + n → h.mCapacity ≤ p.maxSize) :
    Ends (Leaves p h (h.size + n)) (h.insertN p answer n) := by
  have hcapLe := hs.mCapacity_le hf
  have hsizeLe := hs.size_le
  unfold Holder.insertN
  refine checkSize_ends.bind fun _ hn => ?_
  rw [hs.size_eq]
  split
  · next hle =>
    refine ⟨⟨?_, ?_, hs.storage⟩, rfl, rfl⟩
    · exact stored_of_le (by omega)
    · show h.size + n ≤ h.mCapacity
      omega
  · next hgt =>
    have hmore : h.mCapacity < h.size + n := by omega
    have hcap : h.mCapacity ≤ min p.maxSize (storedMax p) := le_min (hroom hmore) hcapLe
    by_cases hfit : h.size + n ≤ min p.maxSize (storedMax p)
    · have hsum : h.mCapacity + (h.size + n - h.mCapacity) = h.size + n := by omega
      have hword : min p.maxSize (storedMax p) < 2 ^ p.sizeBits :=
        (min_le_left _ _).trans_lt p.maxSize_lt
      have hgrow := p.growth.le_grow (hsum.le.trans hfit) hword
      have hgrowLe := p.growth.grow_le (hsum.le.trans hfit) hword
      rw [hsum] at hgrow
      rw [NextCapacity.nextCapacity_eq hsizeLe hmore hfit p.maxSize_lt]
      simp only
      split
      · next hv2 =>
        have hadd : Word.add p.sizeBits h.size n = h.size + n :=
          Word.add_of_lt (hfit.trans_lt hword)
        rw [hadd]
        refine (allocationCommand_ends hgrow).bind fun got hg => ?_
        rw [← hv2] at hg
        exact hs.adopt_ends hg le_rfl
      · refine allocate_ends.bind ?_
        rintro c ⟨rfl, hc⟩
        exact hs.newAllocation_ends hgrow (min_eq_left (hc.trans (min_le_right _ _))).symm
          fun _ => rfl
    · rw [nextCapacity_eq_none hsizeLe hmore hcap p.maxSize_lt hn (not_le.mp hfit)]
      exact fun he => nomatch he

/-- **What cannot be stored is not inserted.** -/
theorem Sound.insertN_refused (hs : Sound p h) (hf : Fits p h.inlineCapacity)
    (hroom : h.mCapacity < h.size + n → h.mCapacity ≤ p.maxSize)
    (hn : storedMax p < h.size + n) : h.insertN p answer n = .error .lengthError := by
  have hcapLe := hs.mCapacity_le hf
  have hsizeLe := hs.size_le
  have hmore : h.mCapacity < h.size + n := by omega
  unfold Holder.insertN
  rw [checkSize]
  split
  · rfl
  · next hsize =>
    have hpos : 0 < 2 ^ p.sizeBits := Nat.two_pow_pos _
    show (if _ then _ else _) = _
    rw [hs.size_eq, if_neg (by omega), nextCapacity_eq_none hsizeLe hmore
      (le_min (hroom hmore) hcapLe) p.maxSize_lt (by omega) ((min_le_right _ _).trans_lt hn)]
    rfl

end Operations

end StoredSize
