import BoostContainer.String.BasicStringRuns

/-!
# Which sizes a string can hold

The length of a long string has one bit less than the stored size type, and
its storage has all of them. A function that would make a string longer than that
should refuse with the length error; `next_storage` is where that is looked at, with
the lesser of what the allocator has and half of what the stored size type has.

The block that a constructor starts with does not go through there. It is
compared with what the allocator has only, after one was added to it, and so
may be longer than the length and the storage can tell; `operator+` starts with
such a block. `reserve` does go through there, but it passes the whole size
where the increment is meant, and so it refuses some sizes that a string can
have.
-/

namespace BasicString

open Memory

variable {α : Type*}

namespace Memory

variable (o : Options) (m : Memory α)

/-- Whether `insert` throws the length error, for a range of `n`. -/
def InsertThrows (n : ℕ) : Prop :=
  m.privCapacity o - m.privSize < n ∧ m.nextStorage o n (m.privCapacity o + 1) = none

/-- Whether `priv_reserve_no_null_end` throws the length error. -/
def ReserveThrows (resArg : ℕ) : Prop :=
  o.maxSize < resArg
    ∨ (m.privCapacity o < resArg ∧ m.nextStorage o (resArg + 1) (m.privStorage o) = none)

variable [Zero α]

/-- `operator+`: a string that is constructed for both lengths, and then two
appends. What each of the three calls leaves. -/
def plus (a : Allocator α) (h : Heap (List α)) (raw x y : List α) :
    (Bool × Memory α) × (Bool × Memory α) × (Bool × Memory α) :=
  let r₀ := constructReserve o a h raw (Word.add o.bits x.length y.length)
  let r₁ := r₀.2.append o a x
  (r₀, r₁, r₁.2.append o a y)

end Memory

/-- **The functions that set a size.** Those that construct take what the internal
buffer holds. -/
inductive Sizing (α : Type*)
  | defaultInit (raw : List α) (n : ℕ)
  | reserveInit (raw : List α) (n : ℕ)
  | plus (raw x y : List α)
  | reserve (n : ℕ)
  | resize (n : ℕ) (c : α)
  | resizeDefaultInit (n : ℕ)
  | append (v : List α)
  | insert (p : ℕ) (v : List α)

/-- **A string that a call stores**, the length it should have, and the length it should
have room for. -/
structure Stage (α : Type*) where
  string : Memory α
  length : ℕ
  room : ℕ

/-- The string that is stored if a call returns. -/
def Stage.of (r : Bool × Memory α) (length room : ℕ) : List (Stage α) :=
  if r.1 then [⟨r.2, length, room⟩] else []

namespace Sizing

variable [Zero α] (o : Options) (a : Allocator α) (m : Memory α)

/-- The size that is asked for. -/
def requested : Sizing α → ℕ
  | defaultInit _ n | reserveInit _ n | reserve n | resize n _ | resizeDefaultInit n => n
  | plus _ x y => x.length + y.length
  | append v | insert _ v => m.privSize + v.length

/-- **The strings that a call stores**, one after the other. -/
def stages : Sizing α → List (Stage α)
  | defaultInit raw n => Stage.of (constructDefaultInit o a m.heap raw n) n n
  | reserveInit raw n => Stage.of (constructReserve o a m.heap raw n) 0 n
  | plus raw x y =>
    let (r₀, r₁, r₂) := Memory.plus o a m.heap raw x y
    Stage.of r₀ 0 (x.length + y.length)
      ++ (if r₀.1 then Stage.of r₁ x.length (x.length + y.length) else [])
      ++ (if r₀.1 && r₁.1 then Stage.of r₂ (x.length + y.length) (x.length + y.length) else [])
  | reserve n => Stage.of (m.reserve o a n) m.privSize n
  | resize n c => Stage.of (m.resize o a n c) n n
  | resizeDefaultInit n => Stage.of (m.resizeDefaultInit o a n) n n
  | append v => Stage.of (m.append o a v) (m.privSize + v.length) (m.privSize + v.length)
  | insert p v => Stage.of (m.insertRange o a p v) (m.privSize + v.length) (m.privSize + v.length)

/-- **Whether a call throws the length error.** -/
def ThrowsLength : Sizing α → Prop
  | defaultInit _ n | reserveInit _ n => o.maxSize < Word.add o.bits n 1
  | plus raw x y =>
    let (r₀, r₁, _) := Memory.plus o a m.heap raw x y
    o.maxSize < Word.add o.bits (Word.add o.bits x.length y.length) 1
      ∨ (r₀.1 = true ∧ r₀.2.InsertThrows o x.length)
      ∨ (r₀.1 = true ∧ r₁.1 = true ∧ r₁.2.InsertThrows o y.length)
  | reserve n => m.ReserveThrows o n
  | resize n _ => m.privSize < n ∧ m.InsertThrows o (n - m.privSize)
  | resizeDefaultInit n => m.privSize < n ∧ m.ReserveThrows o n
  | append v | insert _ v => m.InsertThrows o v.length

/-- The size that `reserve` or `resize` is called with. -/
def argument : Sizing α → Option ℕ
  | reserve n | resize n _ | resizeDefaultInit n => some n
  | _ => none

/-- **What callers owe**: machine words, iterators into the string, and two strings whose
lengths have a sum. -/
def Valid : Sizing α → Prop
  | defaultInit raw n | reserveInit raw n =>
    raw.length = o.internalBufferChars ∧ n < 2 ^ o.bits
  | plus raw x y =>
    raw.length = o.internalBufferChars ∧ x.length + y.length + 1 < 2 ^ o.bits
  | insert p _ => p ≤ m.privSize
  | _ => True

end Sizing

/-- **The size and the storage are those of the string**, and it has room. -/
structure Memory.Holds (o : Options) (m : Memory α) (length room : ℕ) : Prop where
  size : m.privSize = length
  room : room < m.privStorage o
  storage : m.privStorage o = m.buffer.length

/-- **What a call should do**: it stores sizes as they are, refuses a size that has more
bits than there are, outside of the internal buffer, and refuses no other where it is
asked for a size. -/
structure Sizing.Exact [Zero α] (o : Options) (a : Allocator α) (m : Memory α) (s : Sizing α) :
    Prop where
  holds : ∀ t ∈ s.stages o a m, t.string.Holds o t.length t.room
  refused : 2 ^ (o.storedBits - 1) ≤ s.requested m → o.internalBufferChars ≤ s.requested m →
    s.ThrowsLength o a m
  kept : ∀ n ∈ s.argument, n ≤ o.maxStorage - 1 → ¬ s.ThrowsLength o a m

/-! ## The conditions -/

/-- The initial block: the characters and the null fit the internal buffer, or are more than
the allocator has, or the length and the storage have the bits for them. -/
def InitHeld (o : Options) (a : Allocator α) (h : Heap (List α)) (n : ℕ) : Prop :=
  n < o.internalBufferChars ∨ o.maxSize < n + 1
    ∨ (n < 2 ^ (o.storedBits - 1)
      ∧ ∀ start new, a h none (n + 1) (n + 2) = .newBuffer start new →
        new.length < 2 ^ o.storedBits)

/-- Growing to a size: the internal buffer is not larger than the greatest storage, or the
size fits where the string is, or the length and the storage have the bits for it. -/
def GrowHeld (o : Options) (a : Allocator α) (m : Memory α) (n : ℕ) : Prop :=
  o.internalBufferChars ≤ o.maxStorage ∨ n ≤ m.privCapacity o
    ∨ ∀ ns, m.nextStorage o (n - m.privSize) (m.privCapacity o + 1) = some ns →
      n < 2 ^ (o.storedBits - 1)
        ∧ ∀ start new, a m.heap none (n + 1) ns = .newBuffer start new →
          new.length < 2 ^ o.storedBits

/-- Reserving a size: there is room already, or it is more than a string can have, or it
leaves the room twice that the string takes. -/
def ReserveHeld (o : Options) (a : Allocator α) (m : Memory α) (n : ℕ) : Prop :=
  n ≤ m.privCapacity o ∨ o.maxSize < n
    ∨ if o.internalBufferChars ≤ o.maxStorage then
        o.maxStorage ≤ n ∨ n + m.privSize + 2 ≤ o.maxStorage
      else ∀ ns, m.nextStorage o (n + 1) (m.privStorage o) = some ns →
        n < 2 ^ (o.storedBits - 1)
          ∧ ∀ start new, a m.heap none (n + 1) ns = .newBuffer start new →
            new.length < 2 ^ o.storedBits

/-- **The condition on a call.** -/
def Sizing.Fits (o : Options) (a : Allocator α) (m : Memory α) : Sizing α → Prop
  | .defaultInit _ n | .reserveInit _ n => n + 1 < 2 ^ o.bits ∧ InitHeld o a m.heap n
  | .plus _ x y => InitHeld o a m.heap (x.length + y.length)
  | .reserve n => ReserveHeld o a m n
  | .resize n _ => n ≤ m.privSize ∨ GrowHeld o a m n
  | .resizeDefaultInit n => n ≤ m.privSize ∨ ReserveHeld o a m n
  | .append v | .insert _ v => GrowHeld o a m (m.privSize + v.length)

/-! ## What is held -/

theorem Stage.forall_mem_of {r : Bool × Memory α} {length room : ℕ} {P : Stage α → Prop} :
    (∀ t ∈ Stage.of r length room, P t) ↔ (r.1 = true → P ⟨r.2, length, room⟩) := by
  rw [Stage.of]
  by_cases hr : r.1 = true
  · rw [if_pos hr, List.forall_mem_singleton]
    exact ⟨fun h _ => h, fun h => h hr⟩
  · rw [if_neg hr]
    exact iff_of_true (fun t ht => absurd ht List.not_mem_nil) (fun h => absurd h hr)

namespace Memory

variable [Zero α] {o : Options} {a : Allocator α} {m m' : Memory α} {n p : ℕ} {v : List α}

omit [Zero α] in
/-- **A string that moved to a buffer** stores what the bits hold of its size and its
storage. -/
theorem Shaped.adoptBuffer_fields (h : m.Shaped o) {start size storage : ℕ} {d : List α}
    (hfresh : m.heap start = none) :
    (m.adoptBuffer o start d size storage).privSize = size % 2 ^ (o.storedBits - 1)
      ∧ (m.adoptBuffer o start d size storage).privStorage o = storage % 2 ^ o.storedBits
      ∧ (m.adoptBuffer o start d size storage).buffer = d := by
  refine ⟨rfl, rfl, ?_⟩
  obtain ⟨heap, repr⟩ := m
  have hread : ∀ h : Heap (List α), h start = some d → (h start).getD [] = d := by
    intro h hd
    rw [hd]
    rfl
  cases repr with
  | short length data => exact hread _ (Function.update_self _ _ _)
  | long length storage old =>
    have hne : start ≠ old := by
      rintro rfl
      obtain ⟨-, -, -, d', hd', -⟩ := h
      exact absurd (hfresh.symm.trans hd') (Option.some_ne_none d').symm
    unfold Memory.adoptBuffer deallocateBlock
    dsimp only
    rw [if_pos ⟨h.1, h.2.1⟩]
    exact hread _ ((Function.update_of_ne hne _ _).trans (Function.update_self _ _ _))

omit [Zero α] in
/-- A string that moved holds its sizes if the storage has the bits. -/
theorem Shaped.adoptBuffer_holds_iff (h : m.Shaped o) {start size storage room : ℕ} {d : List α}
    (hfresh : m.heap start = none) (hd : d.length = storage)
    (hsize : size < 2 ^ (o.storedBits - 1)) (hroom : room < storage) :
    (m.adoptBuffer o start d size storage).Holds o size room ↔ storage < 2 ^ o.storedBits := by
  obtain ⟨hs, hst, hb⟩ := h.adoptBuffer_fields (o := o) (d := d) hfresh
  constructor
  · rintro ⟨-, -, heq⟩
    rw [hst, hb, hd] at heq
    exact heq ▸ Nat.mod_lt _ (Nat.two_pow_pos _)
  · intro hlt
    have hmod := Nat.mod_eq_of_lt hlt
    refine ⟨hs.trans (Nat.mod_eq_of_lt hsize), ?_, ?_⟩
    · rw [hst, hmod]
      exact hroom
    · rw [hst, hmod, hb, hd]

/-- Writing the null changes neither the size nor the storage. -/
theorem holds_privTerminateString_iff {k room : ℕ} (hlt : m.privSize < m.buffer.length) :
    m.privTerminateString.Holds o k room ↔ m.Holds o k room := by
  have hbuffer : m.privTerminateString.buffer.length = m.buffer.length := by
    rw [privTerminateString, buffer_setBuffer]
    exact List.length_writeAt hlt
  have hsize : m.privTerminateString.privSize = m.privSize := privSize_setBuffer
  have hstorage : m.privTerminateString.privStorage o = m.privStorage o := privStorage_setBuffer
  constructor
  · rintro ⟨h₁, h₂, h₃⟩
    exact ⟨hsize ▸ h₁, hstorage ▸ h₂, by rw [← hstorage, h₃, hbuffer]⟩
  · rintro ⟨h₁, h₂, h₃⟩
    exact ⟨hsize ▸ h₁, hstorage ▸ h₂, by rw [hstorage, h₃, hbuffer]⟩

theorem Sound.holds (h : m.Sound o) {room : ℕ} (hroom : room < m.privStorage o) :
    m.Holds o m.privSize room := ⟨rfl, hroom, h.shaped.length_buffer.symm⟩

theorem Inserted.holds (hi : Inserted o m m' p v) :
    m'.Holds o (m.privSize + v.length) (m.privSize + v.length) := by
  refine ⟨hi.moved.size_eq, ?_, hi.moved.storage_eq⟩
  rw [hi.moved.storage_eq]
  exact (List.getElem?_eq_some_iff.mp hi.null).1

omit [Zero α] in
/-- A size below the storage has the bits, or fits the internal buffer. -/
theorem Shaped.bits_of_lt (h : m.Shaped o) (hn : n < m.privStorage o) :
    ¬ (2 ^ (o.storedBits - 1) ≤ n ∧ o.internalBufferChars ≤ n) := by
  rintro ⟨hbits, hint⟩
  obtain ⟨heap, repr⟩ := m
  cases repr with
  | short length data => exact absurd hint hn.not_ge
  | long length storage start =>
    exact absurd hbits (lt_of_lt_maxStorage (hn.trans_le h.2.2.1)).not_ge

omit [Zero α] in
/-- **When `next_storage` throws**, with an internal buffer that is not too large. -/
theorem Shaped.nextStorage_eq_none_iff (h : m.Shaped o) {storage : ℕ}
    (hfit : o.internalBufferChars ≤ o.maxStorage) :
    m.nextStorage o n storage = none
      ↔ o.maxStorage - 1 - m.privCapacity o < n - (m.privCapacity o - m.privSize) := by
  have hle := h.storage_le hfit
  have hmax : o.maxStorage < 2 ^ o.bits := (min_le_left _ _).trans_lt o.alloc_lt
  have hcap : m.privCapacity o = m.privStorage o - 1 := rfl
  unfold Memory.nextStorage
  dsimp only
  rw [Word.sub_of_le (by omega) (by omega)]
  split <;> simp_all

/-! ## Growing -/

/-- Who throws the length error does not return, and leaves the string as it is. -/
theorem InsertThrows.insertRange_eq (h : m.InsertThrows o v.length) :
    m.insertRange o a p v = (false, m) := by
  obtain ⟨hroom, hns⟩ := h
  have hne : v ≠ [] := by
    rintro rfl
    exact absurd hroom (Nat.not_lt_zero _)
  unfold Memory.insertRange
  rw [if_neg hne]
  dsimp only
  rw [if_neg hroom.not_ge, hns]

/-- **A short string that has no room** moves to a buffer, or throws. -/
theorem Shaped.insertRange_short (h : m.Shaped o) (ha : Conforms o a)
    (hlt : m.privSize < m.privStorage o) (hshort : ∃ length data, m.repr = .short length data)
    (hroom : m.privCapacity o < m.privSize + v.length) :
    (m.nextStorage o v.length (m.privCapacity o + 1) = none
        ∧ m.insertRange o a p v = (false, m))
      ∨ ∃ ns, m.nextStorage o v.length (m.privCapacity o + 1) = some ns
        ∧ ((∃ start new, a m.heap none (m.privSize + v.length + 1) ns = .newBuffer start new
            ∧ m.insertRange o a p v = (true, m.adoptBuffer o start
              (insertInNewBuffer new m.buffer m.privSize p v) (m.privSize + v.length) new.length))
          ∨ ((∀ start new, a m.heap none (m.privSize + v.length + 1) ns ≠ .newBuffer start new)
            ∧ m.insertRange o a p v = (false, m))) := by
  have hcap : m.privCapacity o + 1 = m.privStorage o := Nat.sub_add_cancel h.storage_pos
  have hne : v ≠ [] := by
    rintro rfl
    rw [List.length_nil] at hroom
    omega
  have hcommand : ∀ limit preferred,
      m.allocationCommand a limit preferred = a m.heap none limit preferred := by
    obtain ⟨length, data, hrepr⟩ := hshort
    intro limit preferred
    rw [allocationCommand, hrepr]
  unfold Memory.insertRange
  rw [if_neg hne]
  dsimp only
  rw [if_neg (by omega)]
  rcases hns : m.nextStorage o v.length (m.privCapacity o + 1) with _ | ns
  · exact Or.inl ⟨rfl, rfl⟩
  dsimp only
  rw [hcommand]
  refine Or.inr ⟨ns, rfl, ?_⟩
  have hanswer := ha m.heap none (m.privSize + v.length + 1) ns
  rcases hr : a m.heap none (m.privSize + v.length + 1) ns with _ | ⟨start, new⟩ | tail | _
  · exact Or.inr ⟨(fun _ _ h => by cases h), rfl⟩
  · exact Or.inl ⟨start, new, rfl, rfl⟩
  · rw [hr] at hanswer
    obtain ⟨q, old, hq, -⟩ := hanswer
    exact absurd hq (Option.some_ne_none q).symm
  · rw [hr] at hanswer
    obtain ⟨q, old, hq, -⟩ := hanswer
    exact absurd hq (Option.some_ne_none q).symm

/-- **`insert`** stores its sizes and refuses those that it cannot store, exactly if the
condition is met. -/
theorem Sound.insertRange_exact_iff (h : m.Sound o) (ha : Conforms o a) (hp : p ≤ m.privSize) :
    (((m.insertRange o a p v).1 = true →
        (m.insertRange o a p v).2.Holds o (m.privSize + v.length) (m.privSize + v.length))
      ∧ (2 ^ (o.storedBits - 1) ≤ m.privSize + v.length →
        o.internalBufferChars ≤ m.privSize + v.length → m.InsertThrows o v.length))
      ↔ GrowHeld o a m (m.privSize + v.length) := by
  have hlt := h.size_lt
  have hlen := h.shaped.length_buffer
  have hcap : m.privCapacity o + 1 = m.privStorage o :=
    Nat.sub_add_cancel h.shaped.storage_pos
  by_cases hroom : m.privSize + v.length ≤ m.privCapacity o
  · refine iff_of_true ⟨fun _ => ?_, fun hbits hint => ?_⟩ (Or.inr (Or.inl hroom))
    · obtain ⟨m', hf, hins⟩ := h.insertRange_inPlace (a := a) (v := v) hp hroom
      rw [hf]
      exact hins.holds
    · exact absurd ⟨hbits, hint⟩ (h.shaped.bits_of_lt (by omega))
  by_cases hfit : o.internalBufferChars ≤ o.maxStorage
  · refine iff_of_true ⟨fun hr => ?_, fun hbits _ => ⟨by omega, ?_⟩⟩ (Or.inl hfit)
    · rcases h.insertRange_inserted (v := v) ha hfit hp with hf | ⟨m', hf, hins⟩
      · rw [hf] at hr
        exact absurd hr Bool.false_ne_true
      · rw [hf]
        exact hins.holds
    · have hpos := o.internal_pos
      have hmax : o.maxStorage - 1 < 2 ^ (o.storedBits - 1) := lt_of_lt_maxStorage (by omega)
      rw [h.shaped.nextStorage_eq_none_iff hfit]
      omega
  have hint : o.internalBufferChars ≤ m.privSize + v.length := by
    have := h.shaped.internal_le
    omega
  rw [GrowHeld, or_iff_right hfit, or_iff_right hroom, Nat.add_sub_cancel_left]
  rcases h.shaped.insertRange_short (p := p) (v := v) ha hlt (h.shaped.short_of_lt hfit)
    (by omega) with ⟨hns, hf⟩ | ⟨ns, hns, hanswer⟩
  · rw [hf]
    exact iff_of_true ⟨fun hr => absurd hr Bool.false_ne_true, fun _ _ => ⟨by omega, hns⟩⟩
      (fun ns heq => absurd (hns.symm.trans heq) (Option.some_ne_none ns).symm)
  have hthrows : ¬ m.InsertThrows o v.length := fun ht =>
    absurd (hns.symm.trans ht.2) (Option.some_ne_none ns)
  rw [hns]
  rcases hanswer with ⟨start, new, hr, hf⟩ | ⟨hr, hf⟩
  · have hallowed := ha m.heap none (m.privSize + v.length + 1) ns
    rw [hr] at hallowed
    obtain ⟨-, hfresh, hlimit, -⟩ := hallowed
    obtain ⟨hl, -⟩ := insertInNewBuffer_spec (v := v) (rfl : new.length = _) hp
      (by omega : m.privSize ≤ m.buffer.length) (by omega)
    have hiff := fun hsize => @Shaped.adoptBuffer_holds_iff _ _ _ h.shaped start
      (m.privSize + v.length) _ (m.privSize + v.length) _ hfresh hl hsize hlimit
    rw [hf]
    constructor
    · rintro ⟨hholds, hrefused⟩ ns' heq
      obtain rfl := Option.some.inj heq
      have hbits : m.privSize + v.length < 2 ^ (o.storedBits - 1) :=
        not_le.mp fun hbits => hthrows (hrefused hbits hint)
      refine ⟨hbits, fun start' new' heq' => ?_⟩
      obtain ⟨rfl, rfl⟩ := Answer.newBuffer.inj (hr.symm.trans heq')
      exact (hiff hbits).mp (hholds rfl)
    · intro hcond
      obtain ⟨hbits, hnew⟩ := hcond ns rfl
      exact ⟨fun _ => (hiff hbits).mpr (hnew start new hr), fun hle => absurd hbits hle.not_gt⟩
  · rw [hf]
    constructor
    · rintro ⟨-, hrefused⟩ ns' heq
      obtain rfl := Option.some.inj heq
      exact ⟨not_le.mp fun hbits => hthrows (hrefused hbits hint),
        fun start new heq' => absurd heq' (hr start new)⟩
    · intro hcond
      exact ⟨fun hb => absurd hb Bool.false_ne_true,
        fun hle => absurd (hcond ns rfl).1 hle.not_gt⟩

/-- A string that is cut off. -/
theorem Sound.eraseRange_holds (h : m.Sound o) (hn : n ≤ m.privSize) :
    (m.eraseRange o n m.privSize).Holds o n n := by
  have hlt := h.size_lt
  have hcap : m.privCapacity o = m.privStorage o - 1 := rfl
  have hedited := h.eraseRange_edited hn le_rfl
  have hsize := hedited.size
  have hroom : n + ([] : List α).length + (m.privSize - m.privSize) ≤ m.privCapacity o := by
    rw [List.length_nil]
    omega
  rw [List.length_nil, Nat.sub_self] at hsize
  refine ⟨hsize, ?_, hedited.storage.symm⟩
  rw [(hedited.inPlace hroom).1]
  omega

/-- `resize` is never refused a size that a string can have. -/
theorem Sound.not_insertThrows (h : m.Sound o) (hn : n ≤ o.maxStorage - 1) :
    ¬ (m.privSize < n ∧ m.InsertThrows o (n - m.privSize)) := by
  have hlt := h.size_lt
  have hcap : m.privCapacity o + 1 = m.privStorage o :=
    Nat.sub_add_cancel h.shaped.storage_pos
  rintro ⟨hsize, hroom, hns⟩
  by_cases hfit : o.internalBufferChars ≤ o.maxStorage
  · rw [h.shaped.nextStorage_eq_none_iff hfit] at hns
    omega
  · have hint := h.shaped.internal_le
    omega

/-! ## Reserving -/

/-- **`priv_reserve_no_null_end`**, case by case. -/
theorem privReserveNoNullEnd_cases :
    (m.ReserveThrows o n ∧ m.privReserveNoNullEnd o a n = (false, m))
      ∨ (n ≤ m.privCapacity o ∧ ¬ m.ReserveThrows o n
        ∧ m.privReserveNoNullEnd o a n = (true, m))
      ∨ (m.privCapacity o < n ∧ n ≤ o.maxSize
        ∧ ∃ ns, m.nextStorage o (n + 1) (m.privStorage o) = some ns
          ∧ ((∃ start new, a m.heap none (n + 1) ns = .newBuffer start new
              ∧ m.privReserveNoNullEnd o a n = (true, m.adoptBuffer o start
                (new.writeAt 0 (m.buffer.slice 0 m.privSize)) m.privSize new.length))
            ∨ ((∀ start new, a m.heap none (n + 1) ns ≠ .newBuffer start new)
              ∧ m.privReserveNoNullEnd o a n = (false, m)))) := by
  unfold Memory.privReserveNoNullEnd ReserveThrows
  by_cases hmax : o.maxSize < n
  · rw [if_pos hmax]
    exact Or.inl ⟨Or.inl hmax, rfl⟩
  rw [if_neg hmax]
  by_cases hroom : m.privCapacity o < n
  · rw [if_pos hroom]
    dsimp only
    rcases hns : m.nextStorage o (n + 1) (m.privStorage o) with _ | ns
    · exact Or.inl ⟨Or.inr ⟨hroom, rfl⟩, rfl⟩
    · refine Or.inr (Or.inr ⟨hroom, not_lt.mp hmax, ns, rfl, ?_⟩)
      dsimp only
      rcases hr : a m.heap none (n + 1) ns with _ | ⟨start, new⟩ | tail | _
      · exact Or.inr ⟨(fun _ _ h => by cases h), rfl⟩
      · exact Or.inl ⟨start, new, rfl, rfl⟩
      · exact Or.inr ⟨(fun _ _ h => by cases h), rfl⟩
      · exact Or.inr ⟨(fun _ _ h => by cases h), rfl⟩
  · rw [if_neg hroom]
    refine Or.inr (Or.inl ⟨not_lt.mp hroom, ?_, rfl⟩)
    rintro (ht | ⟨ht, -⟩)
    · exact hmax ht
    · exact hroom ht

theorem ReserveThrows.reserve_eq (h : m.ReserveThrows o n) : m.reserve o a n = (false, m) := by
  unfold Memory.reserve
  rcases privReserveNoNullEnd_cases (o := o) (a := a) (m := m) (n := n) with
    ⟨-, hf⟩ | ⟨-, hthrows, -⟩ | ⟨-, hmax, ns, hns, -⟩
  · rw [hf]
  · exact absurd h hthrows
  · rcases h with ht | ⟨-, ht⟩
    · exact absurd hmax ht.not_ge
    · exact absurd (hns.symm.trans ht) (Option.some_ne_none ns)

omit [Zero α] in
/-- The greatest capacity is not more than `max_size`. -/
theorem lt_of_maxSize_lt (hn : o.maxSize < n) : o.maxStorage - 1 < n := by
  have hle : o.maxStorage ≤ o.allocMaxSize := min_le_left _ _
  have hsub : o.maxSize = o.allocMaxSize - 1 := Word.sub_of_le o.alloc_lt o.alloc_pos
  omega

/-- **Reserving** leaves what it should and refuses what it should, exactly if the
condition is met, for whatever is to hold of the string that stayed where it was or
moved. -/
theorem Sound.reserveHeld_iff (h : m.Sound o) (ha : Conforms o a) {Q : Memory α → Prop}
    (hstay : n ≤ m.privCapacity o → Q m)
    (hmoved : ∀ (start : ℕ) (new : List α), m.heap start = none → m.privCapacity o < n →
      n < new.length →
      n < 2 ^ (o.storedBits - 1) →
        (Q (m.adoptBuffer o start (new.writeAt 0 (m.buffer.slice 0 m.privSize)) m.privSize
          new.length) ↔ new.length < 2 ^ o.storedBits)) :
    ((∀ m', m.privReserveNoNullEnd o a n = (true, m') → Q m')
      ∧ (2 ^ (o.storedBits - 1) ≤ n → o.internalBufferChars ≤ n → m.ReserveThrows o n)
      ∧ (n ≤ o.maxStorage - 1 → ¬ m.ReserveThrows o n))
      ↔ ReserveHeld o a m n := by
  have hlt := h.size_lt
  have hcap : m.privCapacity o + 1 = m.privStorage o :=
    Nat.sub_add_cancel h.shaped.storage_pos
  have hint := h.shaped.internal_le
  have hpos := o.internal_pos
  unfold ReserveHeld
  rcases privReserveNoNullEnd_cases (o := o) (a := a) (m := m) (n := n) with
    ⟨hthrows, hf⟩ | ⟨hroom, hthrows, hf⟩ | ⟨hroom, hmax, ns, hns, hanswer⟩
  · rw [hf]
    constructor
    · rintro ⟨-, -, hkept⟩
      have hn : ¬ n ≤ o.maxStorage - 1 := fun hn => hkept hn hthrows
      by_cases hfit : o.internalBufferChars ≤ o.maxStorage
      · rw [if_pos hfit]
        exact Or.inr (Or.inr (Or.inl (by omega)))
      · rw [if_neg hfit]
        rcases hthrows with hmax | ⟨-, hns⟩
        · exact Or.inr (Or.inl hmax)
        · exact Or.inr (Or.inr fun ns heq =>
            absurd (hns.symm.trans heq) (Option.some_ne_none ns).symm)
    · refine fun hheld => ⟨fun m' heq => absurd (congrArg Prod.fst heq) Bool.false_ne_true,
        fun _ _ => hthrows, fun hn _ => ?_⟩
      have hmax : ¬ o.maxSize < n := fun hmax => absurd hn (lt_of_maxSize_lt hmax).not_ge
      obtain ⟨hroom, hns⟩ := hthrows.resolve_left hmax
      rcases hheld with hheld | hheld | hheld
      · omega
      · exact hmax hheld
      · by_cases hfit : o.internalBufferChars ≤ o.maxStorage
        · rw [if_pos hfit] at hheld
          rw [h.shaped.nextStorage_eq_none_iff hfit] at hns
          omega
        · omega
  · rw [hf]
    refine iff_of_true ⟨fun m' heq => ?_, fun hbits hle => ?_, fun _ => hthrows⟩ (Or.inl hroom)
    · obtain ⟨-, rfl⟩ := heq
      exact hstay hroom
    · exact absurd ⟨hbits, hle⟩ (h.shaped.bits_of_lt (by omega))
  · have hthrows : ¬ m.ReserveThrows o n := by
      rintro (ht | ⟨-, ht⟩)
      · exact absurd hmax ht.not_ge
      · exact Option.some_ne_none ns (hns.symm.trans ht)
    -- with an internal buffer that is not too large, what passes is held
    have hheld : o.internalBufferChars ≤ o.maxStorage →
        n + m.privSize + 2 ≤ o.maxStorage ∧ ns ≤ o.maxStorage := by
      intro hfit
      have hnone := (h.shaped.nextStorage_eq_none_iff (n := n + 1)
        hfit).not.mp (hns ▸ Option.some_ne_none ns)
      have hle := h.shaped.storage_le hfit
      exact ⟨by omega, (h.shaped.nextStorage hlt hfit (by omega) hns).2⟩
    have hcond : (n ≤ m.privCapacity o ∨ o.maxSize < n
        ∨ if o.internalBufferChars ≤ o.maxStorage then
            o.maxStorage ≤ n ∨ n + m.privSize + 2 ≤ o.maxStorage
          else ∀ ns, m.nextStorage o (n + 1) (m.privStorage o) = some ns →
            n < 2 ^ (o.storedBits - 1)
              ∧ ∀ start new, a m.heap none (n + 1) ns = .newBuffer start new →
                new.length < 2 ^ o.storedBits)
        ↔ n < 2 ^ (o.storedBits - 1)
          ∧ ∀ start new, a m.heap none (n + 1) ns = .newBuffer start new →
            new.length < 2 ^ o.storedBits := by
      rw [or_iff_right hroom.not_ge, or_iff_right hmax.not_gt]
      split
      · rename_i hfit
        obtain ⟨hn, hle⟩ := hheld hfit
        refine iff_of_true (Or.inr hn) ⟨lt_of_lt_maxStorage (by omega), fun start new heq => ?_⟩
        have hallowed := ha m.heap none (n + 1) ns
        rw [heq] at hallowed
        exact lt_of_le_maxStorage (hallowed.2.2.2 hle)
      · exact ⟨fun hall => hall ns hns, fun hall ns' heq => by
          obtain rfl := Option.some.inj (hns.symm.trans heq)
          exact hall⟩
    rw [hcond]
    rcases hanswer with ⟨start, new, hr, hf⟩ | ⟨hr, hf⟩
    · have hallowed := ha m.heap none (n + 1) ns
      rw [hr] at hallowed
      obtain ⟨-, hfresh, hlimit, -⟩ := hallowed
      rw [hf]
      constructor
      · rintro ⟨hQ, hrefused, -⟩
        have hbits : n < 2 ^ (o.storedBits - 1) :=
          not_le.mp fun hbits => hthrows (hrefused hbits (by omega))
        refine ⟨hbits, fun start' new' heq => ?_⟩
        obtain ⟨rfl, rfl⟩ := Answer.newBuffer.inj (hr.symm.trans heq)
        exact (hmoved start new hfresh hroom hlimit hbits).mp (hQ _ rfl)
      · rintro ⟨hbits, hnew⟩
        refine ⟨fun m' heq => ?_, fun hle => absurd hbits hle.not_gt, fun _ => hthrows⟩
        obtain ⟨-, rfl⟩ := heq
        exact (hmoved start new hfresh hroom hlimit hbits).mpr (hnew start new hr)
    · rw [hf]
      constructor
      · rintro ⟨-, hrefused, -⟩
        exact ⟨not_le.mp fun hbits => hthrows (hrefused hbits (by omega)),
          fun start new heq => absurd heq (hr start new)⟩
      · rintro ⟨hbits, -⟩
        exact ⟨fun m' heq => absurd (congrArg Prod.fst heq) Bool.false_ne_true,
          fun hle => absurd hbits hle.not_gt, fun _ => hthrows⟩

theorem Sound.reserve_exact_iff (h : m.Sound o) (ha : Conforms o a) :
    (((m.reserve o a n).1 = true → (m.reserve o a n).2.Holds o m.privSize n)
      ∧ (2 ^ (o.storedBits - 1) ≤ n → o.internalBufferChars ≤ n → m.ReserveThrows o n)
      ∧ (n ≤ o.maxStorage - 1 → ¬ m.ReserveThrows o n))
      ↔ ReserveHeld o a m n := by
  have hlt := h.size_lt
  have hlen := h.shaped.length_buffer
  have hcap : m.privCapacity o + 1 = m.privStorage o :=
    Nat.sub_add_cancel h.shaped.storage_pos
  have hreserve : ((m.reserve o a n).1 = true → (m.reserve o a n).2.Holds o m.privSize n)
      ↔ ∀ m', m.privReserveNoNullEnd o a n = (true, m') →
        (if m.privCapacity o < n then m'.privTerminateString else m').Holds o m.privSize n := by
    unfold Memory.reserve
    rcases m.privReserveNoNullEnd o a n with ⟨_ | _, m'⟩
    · exact iff_of_true (fun hf => absurd hf Bool.false_ne_true)
        (fun m' heq => absurd (congrArg Prod.fst heq) Bool.false_ne_true)
    · exact ⟨fun hh m'' heq => by
        obtain ⟨-, rfl⟩ := heq
        exact hh rfl, fun hh _ => hh m' rfl⟩
  rw [hreserve]
  refine h.reserveHeld_iff ha (fun hroom => ?_) (fun start new hfresh hroom hnew hbits => ?_)
  · rw [if_neg hroom.not_gt]
    exact h.holds (by omega)
  · have hd : (new.writeAt 0 (m.buffer.slice 0 m.privSize)).length = new.length := by
      refine List.length_writeAt_of_eq rfl ?_
      rw [List.length_slice (by omega)]
      omega
    rw [if_pos hroom, holds_privTerminateString_iff]
    · exact h.shaped.adoptBuffer_holds_iff hfresh hd (by omega) hnew
    · obtain ⟨hs, -, hb⟩ := h.shaped.adoptBuffer_fields (o := o)
        (d := new.writeAt 0 (m.buffer.slice 0 m.privSize)) hfresh
      rw [hs, hb, hd]
      exact (Nat.mod_le _ _).trans_lt (by omega)

/-- **`resize` without initialisation** reserves, and then sets the size. -/
theorem Sound.resizeDefaultInit_exact_iff (h : m.Sound o) (ha : Conforms o a)
    (hn : m.privSize < n) :
    (((m.resizeDefaultInit o a n).1 = true → (m.resizeDefaultInit o a n).2.Holds o n n)
      ∧ (2 ^ (o.storedBits - 1) ≤ n → o.internalBufferChars ≤ n → m.ReserveThrows o n)
      ∧ (n ≤ o.maxStorage - 1 → ¬ m.ReserveThrows o n))
      ↔ ReserveHeld o a m n := by
  have hlt := h.size_lt
  have hlen := h.shaped.length_buffer
  have hcap : m.privCapacity o + 1 = m.privStorage o :=
    Nat.sub_add_cancel h.shaped.storage_pos
  have hresize : ((m.resizeDefaultInit o a n).1 = true →
      (m.resizeDefaultInit o a n).2.Holds o n n)
      ↔ ∀ m', m.privReserveNoNullEnd o a n = (true, m') →
        (m'.setSize o n).privTerminateString.Holds o n n := by
    unfold Memory.resizeDefaultInit
    rw [if_neg hn.not_ge]
    rcases m.privReserveNoNullEnd o a n with ⟨_ | _, m'⟩
    · exact iff_of_true (fun hf => absurd hf Bool.false_ne_true)
        (fun m' heq => absurd (congrArg Prod.fst heq) Bool.false_ne_true)
    · exact ⟨fun hh m'' heq => by
        obtain ⟨-, rfl⟩ := heq
        exact hh rfl, fun hh _ => hh m' rfl⟩
  rw [hresize]
  refine h.reserveHeld_iff ha (fun hroom => ?_) (fun start new hfresh hroom hnew hbits => ?_)
  · have hsize : (m.setSize o n).privSize = n := h.shaped.privSize_setSize (by omega)
    rw [holds_privTerminateString_iff (by rw [hsize, buffer_setSize]; omega)]
    refine ⟨hsize, ?_, ?_⟩
    · rw [privStorage_setSize]
      omega
    · rw [privStorage_setSize, buffer_setSize, hlen]
  · have hd : (new.writeAt 0 (m.buffer.slice 0 m.privSize)).length = new.length := by
      refine List.length_writeAt_of_eq rfl ?_
      rw [List.length_slice (by omega)]
      omega
    -- setting the size of a long string is storing it from the start
    show (m.adoptBuffer o start (new.writeAt 0 (m.buffer.slice 0 m.privSize)) n
      new.length).privTerminateString.Holds o n n ↔ _
    rw [holds_privTerminateString_iff]
    · exact h.shaped.adoptBuffer_holds_iff hfresh hd hbits hnew
    · obtain ⟨hs, -, hb⟩ := h.shaped.adoptBuffer_fields (o := o)
        (d := new.writeAt 0 (m.buffer.slice 0 m.privSize)) hfresh
      rw [hs, hb, hd]
      exact (Nat.mod_le _ _).trans_lt hnew

/-! ## Initial blocks -/

section Construction

variable {heap : Heap (List α)} {raw : List α}

omit [Zero α] in
/-- **`allocate_initial_block`**, case by case. -/
theorem allocateInitialBlock_cases {k : ℕ} :
    (o.maxSize < k ∧ (base heap raw).allocateInitialBlock o a k = (false, base heap raw))
      ∨ (k ≤ o.maxSize ∧ k ≤ o.internalBufferChars
        ∧ (base heap raw).allocateInitialBlock o a k = (true, base heap raw))
      ∨ (k ≤ o.maxSize ∧ o.internalBufferChars < k
        ∧ ((∃ start new, a heap none k (k + 1) = .newBuffer start new
            ∧ (base heap raw).allocateInitialBlock o a k
              = (true, (base heap raw).adoptBuffer o start new 0 new.length))
          ∨ ((∀ start new, a heap none k (k + 1) ≠ .newBuffer start new)
            ∧ (base heap raw).allocateInitialBlock o a k = (false, base heap raw)))) := by
  have hheap : (base heap raw).heap = heap := rfl
  unfold Memory.allocateInitialBlock
  by_cases hmax : k ≤ o.maxSize
  · rw [if_pos hmax]
    by_cases hint : o.internalBufferChars < k
    · rw [if_pos hint, hheap]
      refine Or.inr (Or.inr ⟨hmax, hint, ?_⟩)
      rcases hr : a heap none k (k + 1) with _ | ⟨start, new⟩ | tail | _
      · exact Or.inr ⟨(fun _ _ h => by cases h), rfl⟩
      · exact Or.inl ⟨start, new, rfl, rfl⟩
      · exact Or.inr ⟨(fun _ _ h => by cases h), rfl⟩
      · exact Or.inr ⟨(fun _ _ h => by cases h), rfl⟩
    · rw [if_neg hint]
      exact Or.inr (Or.inl ⟨hmax, not_lt.mp hint, rfl⟩)
  · rw [if_neg hmax]
    exact Or.inl ⟨not_le.mp hmax, rfl⟩

/-- **The initial block** holds what it should and is refused when it should, exactly if the
condition is met, for whatever is to hold of the string. -/
theorem initHeld_iff (ha : Conforms o a) (hn : n < 2 ^ o.bits) {Q : Memory α → Prop}
    (hstay : Q (base heap raw) ↔ n < o.internalBufferChars)
    (hmoved : ∀ (start : ℕ) (new : List α), heap start = none → n < new.length →
      n < 2 ^ (o.storedBits - 1) →
        (Q ((base heap raw).adoptBuffer o start new 0 new.length)
          ↔ new.length < 2 ^ o.storedBits)) :
    ((∀ m', (base heap raw).allocateInitialBlock o a (Word.add o.bits n 1) = (true, m') → Q m')
      ∧ (2 ^ (o.storedBits - 1) ≤ n → o.internalBufferChars ≤ n →
        o.maxSize < Word.add o.bits n 1))
      ↔ n + 1 < 2 ^ o.bits ∧ InitHeld o a heap n := by
  have hinternal := o.internal_lt
  by_cases hwrap : n + 1 < 2 ^ o.bits
  · rw [Word.add_of_lt hwrap, and_iff_right hwrap]
    unfold InitHeld
    rcases allocateInitialBlock_cases (o := o) (a := a) (k := n + 1)
      with ⟨hmax, hf⟩ | ⟨hmax, hint, hf⟩ | ⟨hmax, hint, hanswer⟩
    · rw [hf]
      exact iff_of_true ⟨fun m' heq => absurd (congrArg Prod.fst heq) Bool.false_ne_true,
        fun _ _ => hmax⟩ (Or.inr (Or.inl hmax))
    · rw [hf]
      refine iff_of_true ⟨fun m' heq => ?_, fun _ hle => absurd hint hle.not_gt⟩ (Or.inl hint)
      obtain ⟨-, rfl⟩ := heq
      exact hstay.mpr hint
    · rw [or_iff_right (by omega : ¬ n < o.internalBufferChars), or_iff_right hmax.not_gt]
      rcases hanswer with ⟨start, new, hr, hf⟩ | ⟨hr, hf⟩
      · have hallowed := ha heap none (n + 1) (n + 1 + 1)
        rw [hr] at hallowed
        obtain ⟨-, hfresh, hlimit, -⟩ := hallowed
        rw [hf]
        constructor
        · rintro ⟨hQ, hrefused⟩
          have hbits : n < 2 ^ (o.storedBits - 1) :=
            not_le.mp fun hbits => absurd (hrefused hbits (by omega)) hmax.not_gt
          refine ⟨hbits, fun start' new' heq => ?_⟩
          obtain ⟨rfl, rfl⟩ := Answer.newBuffer.inj (hr.symm.trans heq)
          exact (hmoved start new hfresh hlimit hbits).mp (hQ _ rfl)
        · rintro ⟨hbits, hnew⟩
          refine ⟨fun m' heq => ?_, fun hle => absurd hbits hle.not_gt⟩
          obtain ⟨-, rfl⟩ := heq
          exact (hmoved start new hfresh hlimit hbits).mpr (hnew start new hr)
      · rw [hf]
        constructor
        · rintro ⟨-, hrefused⟩
          exact ⟨not_le.mp fun hbits => absurd (hrefused hbits (by omega)) hmax.not_gt,
            fun start new heq => absurd heq (hr start new)⟩
        · rintro ⟨hbits, -⟩
          exact ⟨fun m' heq => absurd (congrArg Prod.fst heq) Bool.false_ne_true,
            fun hle => absurd hbits hle.not_gt⟩
  · -- one more than the greatest word is none, and the string stays short
    refine iff_of_false (fun hall => ?_) (fun hall => hwrap hall.1)
    have hzero : Word.add o.bits n 1 = 0 := by
      rw [Word.add, show n + 1 = 2 ^ o.bits by omega, Nat.mod_self]
    have hstays : (base heap raw).allocateInitialBlock o a (Word.add o.bits n 1)
        = (true, base heap raw) := by
      rw [hzero]
      unfold Memory.allocateInitialBlock
      rw [if_pos (Nat.zero_le _), if_neg (Nat.not_lt_zero _)]
    have hlt := hstay.mp (hall.1 _ hstays)
    omega

omit [Zero α] in
theorem holds_base (hraw : raw.length = o.internalBufferChars) (hn : n < o.internalBufferChars) :
    (base heap raw).Holds o 0 n := ⟨rfl, hn, hraw.symm⟩

/-- The constructor for `reserve_t` leaves an empty string with room. -/
theorem constructReserve_exact_iff (ha : Conforms o a)
    (hraw : raw.length = o.internalBufferChars) (hn : n < 2 ^ o.bits) :
    (((constructReserve o a heap raw n).1 = true → (constructReserve o a heap raw n).2.Holds o 0 n)
      ∧ (2 ^ (o.storedBits - 1) ≤ n → o.internalBufferChars ≤ n →
        o.maxSize < Word.add o.bits n 1))
      ↔ n + 1 < 2 ^ o.bits ∧ InitHeld o a heap n := by
  have hconstruct : ((constructReserve o a heap raw n).1 = true →
      (constructReserve o a heap raw n).2.Holds o 0 n)
      ↔ ∀ m', (base heap raw).allocateInitialBlock o a (Word.add o.bits n 1) = (true, m') →
        m'.privTerminateString.Holds o 0 n := by
    unfold constructReserve
    rcases (base heap raw).allocateInitialBlock o a (Word.add o.bits n 1) with ⟨_ | _, m'⟩
    · exact iff_of_true (fun hf => absurd hf Bool.false_ne_true)
        (fun m' heq => absurd (congrArg Prod.fst heq) Bool.false_ne_true)
    · exact ⟨fun hh m'' heq => by
        obtain ⟨-, rfl⟩ := heq
        exact hh rfl, fun hh _ => hh m' rfl⟩
  have hpos := o.internal_pos
  rw [hconstruct]
  refine initHeld_iff ha hn ?_ (fun start new hfresh hnew hbits => ?_)
  · rw [holds_privTerminateString_iff (lt_of_lt_of_eq hpos hraw.symm)]
    exact ⟨fun hh => hh.room, fun hlt => holds_base hraw hlt⟩
  · obtain ⟨hs, -, hb⟩ := (shaped_base (h := heap) hraw).adoptBuffer_fields (d := new) hfresh
    rw [holds_privTerminateString_iff]
    · exact (shaped_base hraw).adoptBuffer_holds_iff hfresh rfl (Nat.two_pow_pos _) hnew
    · rw [hs, hb]
      exact (Nat.mod_le _ _).trans_lt (by omega)

/-- The constructor without initialisation sets the size, too. -/
theorem constructDefaultInit_exact_iff (ha : Conforms o a)
    (hraw : raw.length = o.internalBufferChars) (hn : n < 2 ^ o.bits) :
    (((constructDefaultInit o a heap raw n).1 = true →
        (constructDefaultInit o a heap raw n).2.Holds o n n)
      ∧ (2 ^ (o.storedBits - 1) ≤ n → o.internalBufferChars ≤ n →
        o.maxSize < Word.add o.bits n 1))
      ↔ n + 1 < 2 ^ o.bits ∧ InitHeld o a heap n := by
  have hconstruct : ((constructDefaultInit o a heap raw n).1 = true →
      (constructDefaultInit o a heap raw n).2.Holds o n n)
      ↔ ∀ m', (base heap raw).allocateInitialBlock o a (Word.add o.bits n 1) = (true, m') →
        (m'.setSize o n).privTerminateString.Holds o n n := by
    unfold constructDefaultInit
    rcases (base heap raw).allocateInitialBlock o a (Word.add o.bits n 1) with ⟨_ | _, m'⟩
    · exact iff_of_true (fun hf => absurd hf Bool.false_ne_true)
        (fun m' heq => absurd (congrArg Prod.fst heq) Bool.false_ne_true)
    · exact ⟨fun hh m'' heq => by
        obtain ⟨-, rfl⟩ := heq
        exact hh rfl, fun hh _ => hh m' rfl⟩
  rw [hconstruct]
  refine initHeld_iff ha hn ⟨fun hh => ?_, fun hlt => ?_⟩ (fun start new hfresh hnew hbits => ?_)
  · exact lt_of_lt_of_eq hh.room privStorage_setBuffer
  · have hsize : ((base heap raw).setSize o n).privSize = n :=
      Nat.mod_eq_of_lt (hlt.trans_le o.internal_le)
    rw [holds_privTerminateString_iff (by rw [hsize]; exact lt_of_lt_of_eq hlt hraw.symm)]
    exact ⟨hsize, hlt, hraw.symm⟩
  · show ((base heap raw).adoptBuffer o start new n
      new.length).privTerminateString.Holds o n n ↔ _
    obtain ⟨hs, -, hb⟩ := (shaped_base (h := heap) hraw).adoptBuffer_fields (d := new) hfresh
    rw [holds_privTerminateString_iff]
    · exact (shaped_base hraw).adoptBuffer_holds_iff hfresh rfl hbits hnew
    · rw [hs, hb]
      exact (Nat.mod_le _ _).trans_lt hnew

end Construction

/-! ## Two appends -/

/-- **The bits of the length** are enough for a size. -/
def HasBits (o : Options) (m : Memory α) (n : ℕ) : Prop :=
  match m.repr with
  | .short _ _ => n < 2 ^ 7
  | .long _ _ _ => n < 2 ^ (o.storedBits - 1)

omit [Zero α] in
theorem HasBits.privSize_setSize {k : ℕ} (h : m.HasBits o n) (hk : k ≤ n) :
    (m.setSize o k).privSize = k := by
  obtain ⟨heap, repr⟩ := m
  cases repr with
  | short length data => exact Nat.mod_eq_of_lt (hk.trans_lt h)
  | long length storage start => exact Nat.mod_eq_of_lt (hk.trans_lt h)

omit [Zero α] in
theorem HasBits.written (h : m.HasBits o n) (d : List α) (k : ℕ) :
    ((m.setBuffer d).setSize o k).HasBits o n := by
  obtain ⟨heap, repr⟩ := m
  cases repr <;> exact h

omit [Zero α] in
theorem HasBits.setBuffer (h : m.HasBits o n) (d : List α) : (m.setBuffer d).HasBits o n := by
  obtain ⟨heap, repr⟩ := m
  cases repr <;> exact h

omit [Zero α] in
theorem Holds.not_insertThrows {j k : ℕ} (h : m.Holds o k n) (hroom : k + j ≤ n) :
    ¬ m.InsertThrows o j := by
  rintro ⟨hfull, -⟩
  have hcap : m.privCapacity o = m.privStorage o - 1 := rfl
  have hsize := h.size
  have hlt := h.room
  omega

/-- **`append` where there is room** holds its sizes. -/
theorem Holds.append {k : ℕ} (h : m.Holds o k n) (hbits : m.HasBits o n)
    (hroom : k + v.length ≤ n) :
    ∃ m', m.append o a v = (true, m') ∧ m'.Holds o (k + v.length) n ∧ m'.HasBits o n := by
  obtain ⟨rfl, hlt, hst⟩ := h
  have hcap : m.privCapacity o = m.privStorage o - 1 := rfl
  unfold Memory.append Memory.insertRange
  split
  · rename_i hnil
    subst hnil
    exact ⟨m, rfl, ⟨rfl, hlt, hst⟩, hbits⟩
  · dsimp only
    rw [if_pos (by omega)]
    obtain ⟨hl, -⟩ := insertInPlace_spec (d := m.buffer) (v := v) rfl le_rfl
      (by omega : m.privSize + v.length < m.buffer.length)
    refine ⟨_, rfl, ⟨?_, ?_, ?_⟩, hbits.written _ _⟩
    · exact (hbits.setBuffer _).privSize_setSize hroom
    · rw [privStorage_setSize, privStorage_setBuffer]
      exact hlt
    · rw [privStorage_setSize, privStorage_setBuffer, buffer_setSize, buffer_setBuffer, hl]
      exact hst

end Memory

/-! ## Every function -/

variable [Zero α] {o : Options} {a : Allocator α} {m : Memory α}

/-- The length that a string with an initial block may have. -/
theorem Memory.constructReserve_hasBits {heap : Heap (List α)} {raw : List α} {n : ℕ}
    (hwrap : n + 1 < 2 ^ o.bits) (hheld : InitHeld o a heap n)
    (hr : (constructReserve o a heap raw n).1 = true) :
    (constructReserve o a heap raw n).2.HasBits o n := by
  have hle := o.internal_le
  unfold constructReserve at hr ⊢
  rw [Word.add_of_lt hwrap] at hr ⊢
  rcases allocateInitialBlock_cases (o := o) (a := a) (k := n + 1)
    with ⟨-, hf⟩ | ⟨-, hint, hf⟩ | ⟨hmax, hint, ⟨start, new, -, hf⟩ | ⟨-, hf⟩⟩
  · rw [hf] at hr
    exact absurd hr Bool.false_ne_true
  · rw [hf]
    show n < 2 ^ 7
    omega
  · rw [hf]
    have hbits := (hheld.resolve_left (by omega)).resolve_left hmax.not_gt
    exact HasBits.setBuffer (m := (base heap raw).adoptBuffer o start new 0 new.length) hbits.1 _
  · rw [hf] at hr
    exact absurd hr Bool.false_ne_true

/-- **`operator+`** stores three strings. -/
theorem Sizing.plus_exact_iff {raw x y : List α} (ha : Conforms o a)
    (hraw : raw.length = o.internalBufferChars) (hsum : x.length + y.length + 1 < 2 ^ o.bits) :
    (Sizing.plus raw x y).Exact o a m ↔ InitHeld o a m.heap (x.length + y.length) := by
  have hadd : Word.add o.bits x.length y.length = x.length + y.length :=
    Word.add_of_lt (by omega)
  have hinit := @constructReserve_exact_iff _ _ _ _ _ m.heap _ ha hraw
    (by omega : x.length + y.length < 2 ^ o.bits)
  rw [and_iff_right hsum] at hinit
  have hstages : (Sizing.plus raw x y).stages o a m
      = Stage.of (constructReserve o a m.heap raw (Word.add o.bits x.length y.length)) 0
          (x.length + y.length)
        ++ (if (constructReserve o a m.heap raw (Word.add o.bits x.length y.length)).1 then
            Stage.of ((constructReserve o a m.heap raw
              (Word.add o.bits x.length y.length)).2.append o a x) x.length (x.length + y.length)
          else [])
        ++ (if (constructReserve o a m.heap raw (Word.add o.bits x.length y.length)).1
            && ((constructReserve o a m.heap raw
              (Word.add o.bits x.length y.length)).2.append o a x).1 then
            Stage.of (((constructReserve o a m.heap raw
              (Word.add o.bits x.length y.length)).2.append o a x).2.append o a y)
              (x.length + y.length) (x.length + y.length)
          else []) := rfl
  have hthrows : (Sizing.plus raw x y).ThrowsLength o a m
      ↔ o.maxSize < Word.add o.bits (Word.add o.bits x.length y.length) 1
        ∨ ((constructReserve o a m.heap raw (Word.add o.bits x.length y.length)).1 = true
          ∧ (constructReserve o a m.heap raw
            (Word.add o.bits x.length y.length)).2.InsertThrows o x.length)
        ∨ ((constructReserve o a m.heap raw (Word.add o.bits x.length y.length)).1 = true
          ∧ ((constructReserve o a m.heap raw
            (Word.add o.bits x.length y.length)).2.append o a x).1 = true
          ∧ ((constructReserve o a m.heap raw
            (Word.add o.bits x.length y.length)).2.append o a x).2.InsertThrows o y.length) :=
    Iff.rfl
  rw [hadd] at hstages hthrows
  generalize hr₀ : constructReserve o a m.heap raw (x.length + y.length) = r₀
    at hstages hthrows hinit
  constructor
  · rintro ⟨hholds, hrefused, -⟩
    rw [hstages] at hholds
    have hfirst : r₀.1 = true → r₀.2.Holds o 0 (x.length + y.length) := fun h₀ =>
      hholds ⟨r₀.2, 0, x.length + y.length⟩ (List.mem_append_left _ (List.mem_append_left _ (by
        rw [Stage.of, if_pos h₀]
        exact List.mem_singleton_self _)))
    refine hinit.mp ⟨hfirst, fun hbits hint => ?_⟩
    rcases hthrows.mp (hrefused hbits hint) with hmax | ⟨h₀, ht⟩ | ⟨h₀, h₁, ht⟩
    · exact hmax
    · exact absurd ht ((hfirst h₀).not_insertThrows (by omega))
    · have hsecond := hholds ⟨(r₀.2.append o a x).2, x.length, x.length + y.length⟩
        (List.mem_append_left _ (List.mem_append_right _ (by
          rw [if_pos h₀, Stage.of, if_pos h₁]
          exact List.mem_singleton_self _)))
      exact absurd ht (hsecond.not_insertThrows le_rfl)
  · intro hheld
    obtain ⟨hfirst, hrefused⟩ := hinit.mpr hheld
    refine ⟨fun t ht => ?_, fun hbits hint => hthrows.mpr (Or.inl (hrefused hbits hint)),
      fun n hn => absurd hn (Option.not_mem_none n)⟩
    rw [hstages] at ht
    by_cases h₀ : r₀.1 = true
    · have hbits := constructReserve_hasBits hsum hheld (hr₀ ▸ h₀)
      rw [hr₀] at hbits
      obtain ⟨m₁, h₁, hholds₁, hbits₁⟩ :=
        (hfirst h₀).append (a := a) (v := x) hbits (by omega)
      obtain ⟨m₂, h₂, hholds₂, -⟩ := hholds₁.append (a := a) (v := y) hbits₁ (by omega)
      rw [Nat.zero_add] at hholds₁ hholds₂
      rw [h₁, if_pos h₀, h₀, h₂, Stage.of, Stage.of, Stage.of, if_pos h₀] at ht
      rcases List.mem_append.mp ht with ht | ht
      · rcases List.mem_append.mp ht with ht | ht
        · rw [List.mem_singleton.mp ht]
          exact hfirst h₀
        · rw [List.mem_singleton.mp ht]
          exact hholds₁
      · rw [List.mem_singleton.mp ht]
        exact hholds₂
    · rw [Stage.of, if_neg h₀, if_neg h₀, if_neg (by simp [h₀])] at ht
      exact absurd ht List.not_mem_nil

/-- **A function that stores one string.** -/
theorem Sizing.exact_iff_of_stages {s : Sizing α} {r : Bool × Memory α} {length room : ℕ}
    (hs : s.stages o a m = Stage.of r length room) :
    s.Exact o a m ↔ (r.1 = true → r.2.Holds o length room)
      ∧ (2 ^ (o.storedBits - 1) ≤ s.requested m → o.internalBufferChars ≤ s.requested m →
        s.ThrowsLength o a m)
      ∧ ∀ n ∈ s.argument, n ≤ o.maxStorage - 1 → ¬ s.ThrowsLength o a m := by
  constructor
  · rintro ⟨hholds, hrefused, hkept⟩
    rw [hs] at hholds
    exact ⟨Stage.forall_mem_of.mp hholds, hrefused, hkept⟩
  · rintro ⟨hholds, hrefused, hkept⟩
    exact ⟨hs ▸ Stage.forall_mem_of.mpr hholds, hrefused, hkept⟩

/-- **Sizes are held or refused**: for every function, every width of the stored size, every
internal buffer and every growth factor, exactly if the condition is met. -/
theorem Sizing.exact_iff_fits (s : Sizing α) (h : m.Sound o) (ha : Conforms o a)
    (hv : s.Valid o m) : s.Exact o a m ↔ s.Fits o a m := by
  have hnone : ∀ {P : ℕ → Prop} {Q : Prop}, (Q ∧ ∀ n ∈ (none : Option ℕ), P n) ↔ Q := fun {P Q} =>
    ⟨fun hq => hq.1, fun hq => ⟨hq, fun n hn => absurd hn (Option.not_mem_none n)⟩⟩
  have hsome : ∀ {P : ℕ → Prop} {n : ℕ}, (∀ k ∈ some n, P k) ↔ P n := fun {P n} =>
    ⟨fun hall => hall n rfl, fun hn k hk => Option.some.inj hk ▸ hn⟩
  cases s with
  | defaultInit raw n =>
    rw [exact_iff_of_stages rfl, ← and_assoc]
    exact hnone.trans (constructDefaultInit_exact_iff ha hv.1 hv.2)
  | reserveInit raw n =>
    rw [exact_iff_of_stages rfl, ← and_assoc]
    exact hnone.trans (constructReserve_exact_iff ha hv.1 hv.2)
  | plus raw x y => exact plus_exact_iff ha hv.1 hv.2
  | reserve n =>
    rw [exact_iff_of_stages rfl]
    exact (and_congr_right fun _ => and_congr_right fun _ => hsome).trans (h.reserve_exact_iff ha)
  | resize n c =>
    rw [exact_iff_of_stages rfl]
    have hkept : ∀ k ∈ (resize n c).argument, k ≤ o.maxStorage - 1 →
        ¬ (resize n c).ThrowsLength o a m := hsome.mpr fun hn => h.not_insertThrows hn
    rw [and_iff_left hkept]
    by_cases hn : n ≤ m.privSize
    · have hlt := h.size_lt
      refine iff_of_true ⟨fun _ => ?_, fun hbits hint => ?_⟩ (Or.inl hn)
      · have hresize : m.resize o a n c = (true, m.eraseRange o n m.privSize) := if_pos hn
        rw [hresize]
        exact h.eraseRange_holds hn
      · exact absurd ⟨hbits, hint⟩ (h.shaped.bits_of_lt (hn.trans_lt hlt))
    · have hresize : m.resize o a n c = m.append o a (List.replicate (n - m.privSize) c) :=
        if_neg hn
      have hlength : m.privSize + (List.replicate (n - m.privSize) c).length = n := by
        rw [List.length_replicate]
        omega
      have hiff := h.insertRange_exact_iff (v := List.replicate (n - m.privSize) c) ha le_rfl
      rw [hlength, List.length_replicate] at hiff
      have hthrows : (resize n c).ThrowsLength o a m ↔ m.InsertThrows o (n - m.privSize) :=
        and_iff_right (not_le.mp hn)
      have hfits : (resize n c).Fits o a m ↔ GrowHeld o a m n := or_iff_right hn
      rw [hresize, hthrows, hfits]
      exact hiff
  | resizeDefaultInit n =>
    rw [exact_iff_of_stages rfl]
    by_cases hn : n ≤ m.privSize
    · have hlt := h.size_lt
      have hthrows : ¬ (resizeDefaultInit n).ThrowsLength o a m := fun ht => absurd hn ht.1.not_ge
      refine iff_of_true ⟨fun _ => ?_, fun hbits hint => ?_, fun _ _ _ => hthrows⟩ (Or.inl hn)
      · have hresize : m.resizeDefaultInit o a n = (true, m.eraseRange o n m.privSize) :=
          if_pos hn
        rw [hresize]
        exact h.eraseRange_holds hn
      · exact absurd ⟨hbits, hint⟩ (h.shaped.bits_of_lt (hn.trans_lt hlt))
    · have hthrows : (resizeDefaultInit n).ThrowsLength o a m ↔ m.ReserveThrows o n :=
        and_iff_right (not_le.mp hn)
      have hfits : (resizeDefaultInit n).Fits o a m ↔ ReserveHeld o a m n := or_iff_right hn
      rw [hthrows, hfits]
      exact (and_congr_right fun _ => and_congr_right fun _ => hsome).trans
        (h.resizeDefaultInit_exact_iff ha (not_le.mp hn))
  | append v =>
    rw [exact_iff_of_stages rfl, ← and_assoc]
    exact hnone.trans (h.insertRange_exact_iff ha le_rfl)
  | insert p v =>
    rw [exact_iff_of_stages rfl, ← and_assoc]
    exact hnone.trans (h.insertRange_exact_iff ha hv)

/-! ## Sizes that are lost, and sizes that are refused -/

/-- Strings of bytes with a stored size of one byte, and sixteen characters inside. -/
def shortOptions : Options :=
  { narrowOptions with
    internalBufferChars := 16
    internal_pos := Nat.succ_pos 15
    internal_le := by decide
    internal_lt := by decide }

/-- An allocator that has one block of 201 bytes, and nothing for who wants less than 202. -/
def wideBlock : Allocator UInt8 := fun h _ limit preferred =>
  if h 4096 = none ∧ limit ≤ 201 ∧ 201 < preferred then .newBuffer 4096 (List.replicate 201 0)
  else .throws

theorem conforms_wideBlock : Conforms shortOptions wideBlock := by
  intro h reuse limit preferred
  unfold wideBlock
  split
  · rename_i hfree
    refine ⟨by decide, hfree.1, ?_, fun hle => ?_⟩
    · rw [List.length_replicate]
      exact hfree.2.1
    · have hmax : shortOptions.maxStorage = 127 := rfl
      omega
  · trivial

/-- An empty string. -/
def emptyString : Memory UInt8 := base (fun _ => none) (List.replicate 16 0)

theorem sound_emptyString : emptyString.Sound shortOptions := ⟨rfl, by decide, rfl⟩

/-- Reserving half of what a string can have. -/
theorem emptyString_reserve_exact :
    (Sizing.reserve 60).Exact shortOptions wideBlock emptyString :=
  (Sizing.exact_iff_fits (.reserve 60) sound_emptyString conforms_wideBlock trivial).mpr
    (Or.inr (Or.inr ((if_pos (by decide)).mpr (Or.inr (by decide)))))

/-- **The greatest size is refused, and a greater one lost**: an empty string throws the length
error when 126 characters are reserved, and a string that is constructed with 200
characters has 72. -/
theorem emptyString_not_exact : emptyString.Sound shortOptions
    ∧ Conforms shortOptions wideBlock
    ∧ ¬ (Sizing.reserve 126).Exact shortOptions wideBlock emptyString
    ∧ (Sizing.defaultInit (List.replicate 16 0) 200).Valid shortOptions emptyString
    ∧ ¬ (Sizing.defaultInit (List.replicate 16 0) 200).Exact shortOptions wideBlock
      emptyString := by
  refine ⟨sound_emptyString, conforms_wideBlock, fun he => ?_, ⟨rfl, by decide⟩, fun he => ?_⟩
  · exact he.kept 126 rfl (by decide) (Or.inr ⟨by decide, rfl⟩)
  · have hthrows : shortOptions.maxSize < Word.add 64 200 1 := he.refused (by decide) (by decide)
    exact absurd hthrows (by decide)

end BasicString
