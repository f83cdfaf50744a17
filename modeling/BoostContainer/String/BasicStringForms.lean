import BoostContainer.String.BasicString

/-!
# Both forms of a string at once

What a function does to a string it mostly does without asking for its form:
it writes the buffer, sets the size, and perhaps moves to another buffer. A
string that is `Shaped` has a buffer as long as its storage, in either form,
and then those three acts say the same for both forms. A string is `Sound`
when it is shaped, its size is below its storage, and a null stands after its
last character.

`Keeps` is what the functions promise: the string they leave is sound, and the
buffers it owned are exchanged for those it owns now.
-/

namespace BasicString

variable {α : Type*} {o : Options}

/-- The heap buffers of a string. -/
def Repr.footprint : Repr α → Set ℕ
  | .short _ _ => ∅
  | .long _ _ start => {start}

namespace Memory

variable {m : Memory α}

/-- **A string whose buffer is as long as its storage.** -/
def Shaped (o : Options) (m : Memory α) : Prop :=
  match m.repr with
  | .short _ data => data.length = o.internalBufferChars
  | .long _ storage start =>
    start ≠ 0 ∧ o.internalBufferChars < storage ∧ storage ≤ o.maxStorage
      ∧ ∃ d, m.heap start = some d ∧ d.length = storage

theorem shaped_short {h : Heap (List α)} {length : ℕ} {data : List α}
    (hd : data.length = o.internalBufferChars) : Shaped o ⟨h, .short length data⟩ := hd

theorem shaped_long {h : Heap (List α)} {length storage start : ℕ} {d : List α}
    (hstart : start ≠ 0) (hint : o.internalBufferChars < storage)
    (hmax : storage ≤ o.maxStorage) (hd : h start = some d) (hlen : d.length = storage) :
    Shaped o ⟨h, .long length storage start⟩ := ⟨hstart, hint, hmax, d, hd, hlen⟩

/-! ## Lengths that fit -/

theorem lt_of_le_maxStorage {n : ℕ} (h : n ≤ o.maxStorage) : n < 2 ^ o.storedBits := by
  have hle : o.maxStorage ≤ Word.max o.storedBits / 2 := min_le_right _ _
  have hpos := Nat.two_pow_pos o.storedBits
  unfold Word.max at hle
  omega

/-- The length of a storage has one bit less. -/
theorem lt_of_lt_maxStorage {n : ℕ} (h : n < o.maxStorage) : n < 2 ^ (o.storedBits - 1) := by
  have hle : o.maxStorage ≤ Word.max o.storedBits / 2 := min_le_right _ _
  unfold Word.max at hle
  cases hb : o.storedBits with
  | zero =>
    rw [hb] at hle
    omega
  | succ b =>
    rw [hb, pow_succ] at hle
    rw [Nat.add_sub_cancel]
    omega

/-! ## The three acts -/

theorem Shaped.length_buffer (h : m.Shaped o) : m.buffer.length = m.privStorage o := by
  obtain ⟨heap, repr⟩ := m
  cases repr with
  | short length data => exact h
  | long length storage start =>
    obtain ⟨_, _, _, d, hd, hlen⟩ := h
    have hd' : heap start = some d := hd
    show ((heap start).getD []).length = storage
    rw [hd']
    exact hlen

theorem Shaped.storage_pos (h : m.Shaped o) : 0 < m.privStorage o := by
  obtain ⟨heap, repr⟩ := m
  cases repr with
  | short length data => exact o.internal_pos
  | long length storage start => exact (Nat.zero_le _).trans_lt h.2.1

theorem Shaped.internal_le (h : m.Shaped o) : o.internalBufferChars ≤ m.privStorage o := by
  obtain ⟨heap, repr⟩ := m
  cases repr with
  | short length data => exact le_rfl
  | long length storage start => exact h.2.1.le

/-- The storage is not above the greatest, where the internal buffer is not. -/
theorem Shaped.storage_le (h : m.Shaped o) (hfit : o.internalBufferChars ≤ o.maxStorage) :
    m.privStorage o ≤ o.maxStorage := by
  obtain ⟨heap, repr⟩ := m
  cases repr with
  | short length data => exact hfit
  | long length storage start => exact h.2.2.1

section setBuffer

variable {d : List α}

@[simp] theorem privSize_setBuffer : (m.setBuffer d).privSize = m.privSize := by
  obtain ⟨heap, repr⟩ := m
  cases repr <;> rfl

@[simp] theorem privStorage_setBuffer : (m.setBuffer d).privStorage o = m.privStorage o := by
  obtain ⟨heap, repr⟩ := m
  cases repr <;> rfl

@[simp] theorem privCapacity_setBuffer :
    (m.setBuffer d).privCapacity o = m.privCapacity o := by
  rw [privCapacity, privStorage_setBuffer, privCapacity]

@[simp] theorem privAddr_setBuffer : (m.setBuffer d).privAddr = m.privAddr := by
  obtain ⟨heap, repr⟩ := m
  cases repr <;> rfl

@[simp] theorem buffer_setBuffer : (m.setBuffer d).buffer = d := by
  obtain ⟨heap, repr⟩ := m
  cases repr with
  | short length data => rfl
  | long length storage start =>
    show (Function.update heap start (some d) start).getD [] = d
    rw [Function.update_self]
    rfl

theorem Shaped.setBuffer (h : m.Shaped o) (hd : d.length = m.privStorage o) :
    (m.setBuffer d).Shaped o := by
  obtain ⟨heap, repr⟩ := m
  cases repr with
  | short length data => exact hd
  | long length storage start =>
    obtain ⟨hstart, hint, hmax, _⟩ := h
    exact shaped_long hstart hint hmax (Function.update_self _ _ _) hd

theorem exchange_setBuffer :
    Heap.Exchange m.heap m.repr.footprint (m.setBuffer d).heap
      (m.setBuffer d).repr.footprint := by
  obtain ⟨heap, repr⟩ := m
  cases repr with
  | short length data => exact Heap.Exchange.refl _ _
  | long length storage start => exact Heap.Exchange.update (Set.mem_singleton _) _

theorem Shaped.setBuffer_buffer (h : m.Shaped o) : m.setBuffer m.buffer = m := by
  obtain ⟨heap, repr⟩ := m
  cases repr with
  | short length data => rfl
  | long length storage start =>
    obtain ⟨-, -, -, d, hd : heap start = some d, -⟩ := h
    have hself : Function.update heap start (some ((heap start).getD [])) = heap := by
      rw [hd]
      exact Function.update_eq_self_iff.mpr hd.symm
    exact congrArg (fun heap => Memory.mk heap _) hself

end setBuffer

section setSize

variable {n : ℕ}

@[simp] theorem privStorage_setSize : (m.setSize o n).privStorage o = m.privStorage o := by
  obtain ⟨heap, repr⟩ := m
  cases repr <;> rfl

@[simp] theorem privCapacity_setSize : (m.setSize o n).privCapacity o = m.privCapacity o := by
  rw [privCapacity, privStorage_setSize, privCapacity]

@[simp] theorem privAddr_setSize : (m.setSize o n).privAddr = m.privAddr := by
  obtain ⟨heap, repr⟩ := m
  cases repr <;> rfl

@[simp] theorem buffer_setSize : (m.setSize o n).buffer = m.buffer := by
  obtain ⟨heap, repr⟩ := m
  cases repr <;> rfl

/-- **A size below the storage is stored as it is.** -/
theorem Shaped.privSize_setSize (h : m.Shaped o) (hsz : n < m.privStorage o) :
    (m.setSize o n).privSize = n := by
  obtain ⟨heap, repr⟩ := m
  cases repr with
  | short length data => exact Nat.mod_eq_of_lt (hsz.trans_le o.internal_le)
  | long length storage start =>
    exact Nat.mod_eq_of_lt (lt_of_lt_maxStorage (hsz.trans_le h.2.2.1))

theorem Shaped.setSize (h : m.Shaped o) : (m.setSize o n).Shaped o := by
  obtain ⟨heap, repr⟩ := m
  cases repr <;> exact h

theorem exchange_setSize :
    Heap.Exchange m.heap m.repr.footprint (m.setSize o n).heap
      (m.setSize o n).repr.footprint := by
  obtain ⟨heap, repr⟩ := m
  cases repr <;> exact Heap.Exchange.refl _ _

end setSize

/-! ## Other buffers -/

/-- **A string has a buffer with these contents**, of a size that is held: what
moving to a buffer leaves, or writing the one it has. -/
structure Moved (o : Options) (m m' : Memory α) (d : List α) (n : ℕ) : Prop where
  shaped : m'.Shaped o
  size_eq : m'.privSize = n
  storage_eq : m'.privStorage o = d.length
  buffer_eq : m'.buffer = d
  exchange : Heap.Exchange m.heap m.repr.footprint m'.heap m'.repr.footprint

/-- Moving to a buffer that is on the heap, whatever else happened to it. -/
theorem Moved.of_setLong {h : Heap (List α)} {r : Repr α} {start n storage : ℕ}
    {d : List α} (hd : h start = some d) (hstart : start ≠ 0)
    (hint : o.internalBufferChars < storage) (hmax : storage ≤ o.maxStorage)
    (hlen : d.length = storage) (hsz : n < storage)
    (hex : Heap.Exchange m.heap m.repr.footprint h {start}) :
    Moved o m ((⟨h, r⟩ : Memory α).setLong o start n storage) d n := by
  have hstorage : storage % 2 ^ o.storedBits = storage :=
    Nat.mod_eq_of_lt (lt_of_le_maxStorage hmax)
  have hsize : n % 2 ^ (o.storedBits - 1) = n :=
    Nat.mod_eq_of_lt (lt_of_lt_maxStorage (hsz.trans_le hmax))
  refine ⟨?_, hsize, hstorage.trans hlen.symm, ?_, hex⟩
  · show (⟨h, .long _ (storage % 2 ^ o.storedBits) start⟩ : Memory α).Shaped o
    rw [hstorage]
    exact shaped_long hstart hint hmax hd hlen
  · show (h start).getD [] = d
    rw [hd]
    rfl

/-- Writing the buffer where it is, and setting the size. -/
theorem Shaped.written (h : m.Shaped o) {d : List α} {n : ℕ} (hd : d.length = m.privStorage o)
    (hsz : n < m.privStorage o) : Moved o m ((m.setBuffer d).setSize o n) d n where
  shaped := (h.setBuffer hd).setSize
  size_eq := (h.setBuffer hd).privSize_setSize (by rwa [privStorage_setBuffer])
  storage_eq := by rw [privStorage_setSize, privStorage_setBuffer, hd]
  buffer_eq := by rw [buffer_setSize, buffer_setBuffer]
  exchange := exchange_setBuffer.trans exchange_setSize

/-- Setting the size of a string that moved. -/
theorem Moved.setSize {m' : Memory α} {d : List α} {n k : ℕ} (h : Moved o m m' d n)
    (hsz : k < d.length) : Moved o m (m'.setSize o k) d k where
  shaped := h.shaped.setSize
  size_eq := h.shaped.privSize_setSize (by rwa [h.storage_eq])
  storage_eq := by rw [privStorage_setSize, h.storage_eq]
  buffer_eq := by rw [buffer_setSize, h.buffer_eq]
  exchange := h.exchange.trans exchange_setSize

/-- **The buffer of a string is freed.** -/
theorem Shaped.exchange_deallocateBlock (h : m.Shaped o) :
    Heap.Exchange m.heap m.repr.footprint (m.deallocateBlock o).heap ∅ := by
  obtain ⟨heap, repr⟩ := m
  cases repr with
  | short length data => exact Heap.Exchange.refl _ _
  | long length storage start =>
    have hheap : (deallocateBlock o ⟨heap, .long length storage start⟩).heap
        = Function.update heap start none := by
      unfold deallocateBlock
      dsimp only
      rw [if_pos ⟨h.1, h.2.1⟩]
    rw [hheap]
    exact Heap.Exchange.free heap start

/-- The block that a shaped string has is on the heap. -/
theorem Shaped.heap_ne_none (h : m.Shaped o) {p : ℕ} (hp : p ∈ m.repr.footprint) :
    m.heap p ≠ none := by
  obtain ⟨heap, repr⟩ := m
  cases repr with
  | short length data => exact absurd hp (Set.notMem_empty p)
  | long length storage start =>
    obtain ⟨_, _, _, d, hd, _⟩ := h
    rw [Set.mem_singleton_iff.mp hp, hd]
    exact Option.some_ne_none d

/-- **Adopting a buffer** that was nobody's. -/
theorem Shaped.adoptBuffer (h : m.Shaped o) {start n : ℕ} {d : List α}
    (hfresh : m.heap start = none) (hstart : start ≠ 0)
    (hint : o.internalBufferChars < d.length) (hmax : d.length ≤ o.maxStorage)
    (hsz : n < d.length) :
    Moved o m (m.adoptBuffer o start d n d.length) d n := by
  obtain ⟨heap, repr⟩ := m
  cases repr with
  | short length data =>
    exact Moved.of_setLong (Function.update_self _ _ _) hstart hint hmax rfl hsz
      (Heap.Exchange.alloc hfresh d)
  | long length storage old =>
    have hne : start ≠ old := by
      rintro rfl
      obtain ⟨_, _, _, d', hd', _⟩ := h
      rw [hfresh] at hd'
      exact absurd hd' (by simp)
    unfold Memory.adoptBuffer deallocateBlock
    dsimp only
    rw [if_pos ⟨h.1, h.2.1⟩]
    refine Moved.of_setLong ?_ hstart hint hmax rfl hsz ?_
    · rw [Function.update_of_ne hne, Function.update_self]
    · rw [Function.update_comm hne]
      refine (Heap.Exchange.free heap old).trans (Heap.Exchange.alloc ?_ d)
      rwa [Function.update_of_ne hne]

/-- **Following a buffer** that grew at its front. -/
theorem Shaped.followBuffer (h : m.Shaped o) {start old n length storage : ℕ} {d : List α}
    (hlong : m.repr = .long length storage old)
    (hfresh : m.heap start = none) (hstart : start ≠ 0)
    (hint : o.internalBufferChars < d.length) (hmax : d.length ≤ o.maxStorage)
    (hsz : n < d.length) :
    Moved o m (m.followBuffer o start d n d.length) d n := by
  obtain ⟨heap, repr⟩ := m
  subst hlong
  have hne : start ≠ old := by
    rintro rfl
    obtain ⟨_, _, _, d', hd', _⟩ := h
    rw [hfresh] at hd'
    exact absurd hd' (by simp)
  refine Moved.of_setLong (Function.update_self _ _ _) hstart hint hmax rfl hsz ?_
  refine (Heap.Exchange.free heap old).trans (Heap.Exchange.alloc ?_ d)
  rwa [Function.update_of_ne hne]

/-- **Staying in a buffer** that grew at its end. -/
theorem Shaped.growBuffer (h : m.Shaped o) {old length storage : ℕ} {d : List α}
    (hlong : m.repr = .long length storage old) (hint : o.internalBufferChars < d.length)
    (hmax : d.length ≤ o.maxStorage) :
    Moved o m ((m.setLongStorage o d.length).setBuffer d) d m.privSize := by
  obtain ⟨heap, repr⟩ := m
  subst hlong
  have hstorage : d.length % 2 ^ o.storedBits = d.length :=
    Nat.mod_eq_of_lt (lt_of_le_maxStorage hmax)
  refine ⟨?_, rfl, hstorage, buffer_setBuffer, ?_⟩
  · show (⟨Function.update heap old (some d),
      .long length (d.length % 2 ^ o.storedBits) old⟩ : Memory α).Shaped o
    rw [hstorage]
    exact shaped_long h.1 hint hmax (Function.update_self _ _ _) rfl
  · exact Heap.Exchange.update (Set.mem_singleton old) _

/-! ## Sound strings -/

variable [Zero α]

/-- **The representation invariant of a string.** -/
structure Sound (o : Options) (m : Memory α) : Prop where
  shaped : m.Shaped o
  size_lt : m.privSize < m.privStorage o
  null : m.buffer[m.privSize]? = some 0

/-- **What a function promises** of the string it leaves. -/
structure Keeps (o : Options) (m m' : Memory α) : Prop where
  sound : m'.Sound o
  exchange : Heap.Exchange m.heap m.repr.footprint m'.heap m'.repr.footprint

theorem Sound.keeps_refl (h : m.Sound o) : Keeps o m m := ⟨h, Heap.Exchange.refl _ _⟩

theorem Keeps.trans {m₁ m₂ : Memory α} (h : Keeps o m m₁) (h' : Keeps o m₁ m₂) :
    Keeps o m m₂ := ⟨h'.sound, h.exchange.trans h'.exchange⟩

/-- A moved string is sound when a null ends its characters. -/
theorem Moved.keeps {m' : Memory α} {d : List α} {n : ℕ} (h : Moved o m m' d n)
    (hsz : n < d.length) (hnull : d[n]? = some 0) : Keeps o m m' := by
  refine ⟨⟨h.shaped, ?_, ?_⟩, h.exchange⟩
  · rw [h.size_eq, h.storage_eq]
    exact hsz
  · rw [h.size_eq, h.buffer_eq]
    exact hnull

omit [Zero α] in
theorem Shaped.privSize_write (h : m.Shaped o) {d : List α} {n : ℕ}
    (hd : d.length = m.privStorage o) (hsz : n < m.privStorage o) :
    ((m.setBuffer d).setSize o n).privSize = n :=
  (h.setBuffer hd).privSize_setSize (by rwa [privStorage_setBuffer])

/-- **Writing the buffer and setting the size**, with a null in its place. -/
theorem Shaped.keeps_write (h : m.Shaped o) {d : List α} {n : ℕ}
    (hd : d.length = m.privStorage o) (hsz : n < m.privStorage o) (hnull : d[n]? = some 0) :
    Keeps o m ((m.setBuffer d).setSize o n) := by
  have hshape := h.setBuffer hd
  have hsize := h.privSize_write hd hsz
  refine ⟨⟨hshape.setSize, ?_, ?_⟩, exchange_setBuffer.trans exchange_setSize⟩
  · rwa [hsize, privStorage_setSize, privStorage_setBuffer]
  · rwa [hsize, buffer_setSize, buffer_setBuffer]

/-- **Writing the null** makes a shaped string sound. -/
theorem Shaped.keeps_privTerminateString (h : m.Shaped o)
    (hsz : m.privSize < m.privStorage o) : Keeps o m m.privTerminateString := by
  have hlen := h.length_buffer
  have hwrite : (m.buffer.writeAt m.privSize [0]).length = m.privStorage o := by
    rw [List.length_writeAt]
    · exact hlen
    · show m.privSize + 1 ≤ _
      omega
  refine ⟨⟨h.setBuffer hwrite, ?_, ?_⟩, exchange_setBuffer⟩
  · rwa [privTerminateString, privSize_setBuffer, privStorage_setBuffer]
  · rw [privTerminateString, privSize_setBuffer, buffer_setBuffer]
    exact List.getElem?_writeAt_singleton (by omega) 0

/-- Writing characters that stay before the null. -/
theorem Sound.keeps_setBuffer (h : m.Sound o) {p : ℕ} {v : List α}
    (hpos : p + v.length ≤ m.privSize) :
    Keeps o m (m.setBuffer (m.buffer.writeAt p v)) := by
  have hlen := h.shaped.length_buffer
  have hlt := h.size_lt
  have hwrite : (m.buffer.writeAt p v).length = m.privStorage o := by
    rw [List.length_writeAt (by omega)]
    exact hlen
  refine ⟨⟨h.shaped.setBuffer hwrite, ?_, ?_⟩, exchange_setBuffer⟩
  · rwa [privSize_setBuffer, privStorage_setBuffer]
  · rw [privSize_setBuffer, buffer_setBuffer, List.getElem?_writeAt_of_ge (by omega) hpos]
    exact h.null

end Memory

end BasicString
