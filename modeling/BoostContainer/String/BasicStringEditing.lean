import BoostContainer.String.BasicStringOperations

/-!
# Strings are edited as lists are

Whatever way `insert` takes to make room, `append`, `erase` and `replace` leave
the characters that an edit of a list leaves (`List.splice`), when the input
does not lie in the string itself. The null follows them, the storage is that
of the buffer, and the iterator that is returned is at the first new character.

`replace` with forward iterators overwrites as long as both ranges last, and
then erases or inserts. Input iterators get the overload that was meant for
forward ones: it counts them first, and a stream that was counted is at its end.

What is stored has a width. Where the internal buffer is larger than the
greatest storage, a string may go to a buffer whose size, or a length, is not
held; the last section says exactly when.
-/

namespace BasicString

open Memory

variable {α : Type*}

/-- **An iterator of a string**: the buffer it points to, and where. -/
structure Iterator where
  /-- `none` is the internal buffer. -/
  block : Option ℕ
  index : ℕ

namespace Memory

/-- `begin` -/
def begin (m : Memory α) : Iterator := ⟨m.privAddr, 0⟩

/-- What an iterator refers to, if it is an iterator of this buffer. -/
def deref (m : Memory α) (it : Iterator) : Option α :=
  if it.block = m.privAddr then m.buffer[it.index]? else none

end Memory

/-- An iterator moved on. -/
def Iterator.advance (it : Iterator) (n : ℕ) : Iterator := ⟨it.block, it.index + n⟩

/-- **The functions that edit a string**, at positions that iterators give. -/
inductive Edit (α : Type*)
  | insert (p : ℕ) (v : List α)
  | append (v : List α)
  | erase (first last : ℕ)
  | replace (i₁ i₂ : ℕ) (v : List α)

namespace Edit

/-- Whether the call returns, and the string it leaves. -/
def run [Zero α] (o : Options) (a : Allocator α) (m : Memory α) : Edit α → Bool × Memory α
  | insert p v => m.insertRange o a p v
  | append v => m.append o a v
  | erase first last => (true, m.eraseRange o first last)
  | replace i₁ i₂ v => m.replaceRange o a i₁ i₂ v

/-- The iterator that is returned, where it is not the string itself that is. -/
def returned (m m' : Memory α) : Edit α → Option Iterator
  | insert p _ => some (m'.begin.advance p)
  | erase first _ => some (m.begin.advance first)
  | append _ | replace _ _ _ => none

/-- Where the characters start that are replaced. -/
def first (m : Memory α) : Edit α → ℕ
  | insert p _ => p
  | append _ => m.privSize
  | erase first _ => first
  | replace i₁ _ _ => i₁

/-- Where they end. -/
def last (m : Memory α) : Edit α → ℕ
  | insert p _ => p
  | append _ => m.privSize
  | erase _ last => last
  | replace _ i₂ _ => i₂

/-- What replaces them. -/
def input : Edit α → List α
  | insert _ v | append v | replace _ _ v => v
  | erase _ _ => []

/-- **Valid iterators**, in order. -/
def Valid (m : Memory α) (e : Edit α) : Prop := e.first m ≤ e.last m ∧ e.last m ≤ m.privSize

/-- The size of the result. -/
def newSize (m : Memory α) (e : Edit α) : ℕ :=
  e.first m + e.input.length + (m.privSize - e.last m)

end Edit

namespace Memory

variable [Zero α] {o : Options} {a : Allocator α} {m m' : Memory α} {p q n : ℕ} {v w d : List α}

/-- **The string is the edited list.** Its size is that of the list, a null follows
it, the storage is the size of the buffer, and the buffer is the one it was
where that has room. -/
structure Edited (o : Options) (m m' : Memory α) (p q : ℕ) (v : List α) : Prop where
  contents : m'.contents = m.contents.splice p q v
  size : m'.privSize = p + v.length + (m.privSize - q)
  null : m'.buffer[m'.privSize]? = some 0
  storage : m'.buffer.length = m'.privStorage o
  inPlace : p + v.length + (m.privSize - q) ≤ m.privCapacity o →
    m'.privStorage o = m.privStorage o ∧ m'.privAddr = m.privAddr

/-- **What an edit should do**, iterator included: it is at the first new character,
or where there is none at what follows. -/
structure Refines (o : Options) (m m' : Memory α) (e : Edit α) : Prop where
  edited : Edited o m m' (e.first m) (e.last m) e.input
  returned : ∀ it ∈ e.returned m m',
    m'.deref it = (e.input ++ m.contents.drop (e.last m) ++ [0])[0]?

/-! ## The contents of a buffer -/

theorem getElem?_contents (i : ℕ) :
    m.contents[i]? = if i < m.privSize then m.buffer[i]? else none := by
  rw [contents, List.getElem?_slice_eq, Nat.zero_add]

theorem length_contents (h : m.privSize ≤ m.buffer.length) : m.contents.length = m.privSize :=
  List.length_slice (by omega)

/-- Writing before the end of the characters writes the characters. -/
theorem contents_writeAt (hp : p + v.length ≤ m.privSize) (h : m.privSize ≤ m.buffer.length) :
    (m.setBuffer (m.buffer.writeAt p v)).contents = m.contents.writeAt p v := by
  refine List.ext_getElem? fun i => ?_
  have hlen := length_contents h
  rw [getElem?_contents, privSize_setBuffer, buffer_setBuffer, List.getElem?_writeAt_eq (by omega),
    List.getElem?_writeAt_eq (by omega), getElem?_contents]
  split_ifs <;> first | rfl | omega

/-- **An edited string**, from what its buffer holds. -/
theorem Edited.of_chars (hpq : p ≤ q) (hq : q ≤ m.privSize) (hm : m.privSize ≤ m.buffer.length)
    (hsize : m'.privSize = p + v.length + (m.privSize - q))
    (hchars : ∀ i < p + v.length + (m.privSize - q), m'.buffer[i]?
      = if i < p then m.buffer[i]? else if i < p + v.length then v[i - p]?
        else m.buffer[q + (i - (p + v.length))]?)
    (hnull : m'.buffer[m'.privSize]? = some 0) (hstorage : m'.buffer.length = m'.privStorage o)
    (hroom : p + v.length + (m.privSize - q) ≤ m.privCapacity o →
      m'.privStorage o = m.privStorage o ∧ m'.privAddr = m.privAddr) : Edited o m m' p q v := by
  refine ⟨List.ext_getElem? fun i => ?_, hsize, hnull, hstorage, hroom⟩
  rw [getElem?_contents, hsize, List.getElem?_splice (by rw [length_contents hm]; omega),
    getElem?_contents, getElem?_contents]
  by_cases hi : i < p + v.length + (m.privSize - q)
  · rw [if_pos hi, hchars i hi]
    split_ifs <;> first | rfl | omega
  · rw [if_neg hi, if_neg (by omega), if_neg (by omega), if_neg (by omega)]

theorem Inserted.edited (h : m.Sound o) (hpos : p ≤ m.privSize) (hi : Inserted o m m' p v) :
    Edited o m m' p p v := by
  have hsize : m.privSize + v.length = p + v.length + (m.privSize - p) := by omega
  refine Edited.of_chars le_rfl hpos h.size_lt_length.le (hi.moved.size_eq.trans hsize)
    (fun i hlt => ?_) (hi.moved.size_eq ▸ hi.null) hi.moved.storage_eq.symm
    (fun hroom => hi.inPlace (by omega))
  rw [hi.chars i (by omega)]
  split_ifs <;> first | rfl | (congr 1; omega)

/-- **`erase`** closes the gap. -/
theorem Sound.eraseRange_edited (h : m.Sound o) (hpq : p ≤ q) (hq : q ≤ m.privSize) :
    Edited o m (m.eraseRange o p q) p q [] := by
  have hlen := h.shaped.length_buffer
  have hlt := h.size_lt
  unfold Memory.eraseRange
  split
  · rename_i heq
    subst heq
    refine Edited.of_chars le_rfl hq (by omega) ?_ (fun i hi => ?_) h.null hlen
      (fun _ => ⟨rfl, rfl⟩)
    · rw [List.length_nil]
      omega
    · rw [List.length_nil]
      split_ifs <;> first | rfl | omega | (congr 1; omega)
  · dsimp only
    have hslice : (m.buffer.slice q (m.privSize + 1 - q)).length = m.privSize + 1 - q :=
      List.length_slice (by omega)
    have hwrite := List.length_writeAt_of_eq (p := p) (v := m.buffer.slice q (m.privSize + 1 - q))
      hlen (by omega)
    have hmoved := h.shaped.written (n := m.privSize - (q - p)) hwrite (by omega)
    have hread : ∀ i, i ≤ m.privSize - (q - p) → (m.buffer.writeAt p
        (m.buffer.slice q (m.privSize + 1 - q)))[i]?
        = if i < p then m.buffer[i]? else m.buffer[q + (i - p)]? := by
      intro i hi
      rw [List.getElem?_writeAt_slice (by omega) (by omega)]
      split_ifs <;> first | rfl | omega
    refine Edited.of_chars hpq hq (by omega) ?_ (fun i hi => ?_) ?_ ?_ (fun _ => ⟨?_, ?_⟩)
    · rw [hmoved.size_eq, List.length_nil]
      omega
    · rw [List.length_nil] at hi ⊢
      rw [hmoved.buffer_eq, hread i (by omega)]
      split_ifs <;> first | rfl | omega
    · rw [hmoved.size_eq, hmoved.buffer_eq, hread _ le_rfl, if_neg (by omega),
        show q + (m.privSize - (q - p) - p) = m.privSize by omega]
      exact h.null
    · rw [hmoved.buffer_eq, hmoved.storage_eq]
    · rw [privStorage_setSize, privStorage_setBuffer]
    · rw [privAddr_setSize, privAddr_setBuffer]

/-- **Overwriting, and then editing behind it**, is one edit. -/
theorem edited_after_write_iff (h : m.privSize ≤ m.buffer.length) (hp : p + v.length ≤ q)
    (hq : q ≤ m.privSize) :
    Edited o (m.setBuffer (m.buffer.writeAt p v)) m' (p + v.length) q w
      ↔ Edited o m m' p q (v ++ w) := by
  have hcontents : (m.setBuffer (m.buffer.writeAt p v)).contents.splice (p + v.length) q w
      = m.contents.splice p q (v ++ w) := by
    rw [contents_writeAt (by omega) h, List.splice_writeAt (by rw [length_contents h]; omega) hp]
  have hsize : p + v.length + w.length = p + (v ++ w).length := by
    rw [List.length_append, Nat.add_assoc]
  constructor
  · rintro ⟨hc, hs, hn, hst, hr⟩
    rw [privSize_setBuffer, hsize] at hs hr
    rw [privCapacity_setBuffer, privStorage_setBuffer, privAddr_setBuffer] at hr
    exact ⟨hc.trans hcontents, hs, hn, hst, hr⟩
  · rintro ⟨hc, hs, hn, hst, hr⟩
    refine ⟨hc.trans hcontents.symm, ?_, hn, hst, ?_⟩
    · rw [privSize_setBuffer, hsize]
      exact hs
    · rw [privSize_setBuffer, hsize, privCapacity_setBuffer, privStorage_setBuffer,
        privAddr_setBuffer]
      exact hr

/-! ## The iterator -/

/-- The characters and the null, as the buffer holds them. -/
theorem getElem?_buffer (hm : m.privSize ≤ m.buffer.length) (hnull : m.buffer[m.privSize]? = some 0)
    {i : ℕ} (hi : i ≤ m.privSize) : m.buffer[i]? = (m.contents ++ [0])[i]? := by
  have hlen := length_contents hm
  rw [List.getElem?_append, hlen, getElem?_contents]
  rcases Nat.lt_or_eq_of_le hi with hlt | rfl
  · rw [if_pos hlt, if_pos hlt]
  · rw [if_neg (Nat.lt_irrefl _), hnull, Nat.sub_self]
    rfl

/-- What stands where the input was put. -/
theorem Edited.getElem?_first (he : Edited o m m' p q v) (hp : p ≤ m.privSize)
    (hm : m.privSize ≤ m.buffer.length) :
    m'.buffer[p]? = (v ++ m.contents.drop q ++ [0])[0]? := by
  have hlen' : m'.privSize ≤ m'.buffer.length :=
    (List.getElem?_eq_some_iff.mp he.null).1.le
  have htake : (m.contents.take p).length = p :=
    List.length_take_of_le (by rw [length_contents hm]; exact hp)
  rw [getElem?_buffer hlen' he.null (by rw [he.size]; omega), he.contents, List.splice,
    List.append_assoc, List.append_assoc, List.getElem?_append_right (by omega), htake,
    Nat.sub_self, ← List.append_assoc]

/-- **An edited string** returns the right iterator. -/
theorem refines_iff_edited {e : Edit α} (h : m.Sound o) (hv : e.Valid m) :
    Refines o m m' e ↔ Edited o m m' (e.first m) (e.last m) e.input := by
  have hm := h.size_lt_length.le
  have hcap : m.privCapacity o + 1 = m.privStorage o :=
    Nat.sub_add_cancel h.shaped.storage_pos
  have hlt := h.size_lt
  refine ⟨fun hr => hr.edited, fun he => ⟨he, fun it hit => ?_⟩⟩
  have hread := he.getElem?_first (hv.1.trans hv.2) hm
  cases e with
  | insert p v =>
    obtain rfl := Option.some.inj hit
    rw [← hread, deref]
    exact (if_pos rfl).trans (congrArg (fun i => m'.buffer[i]?) (Nat.zero_add p))
  | erase first last =>
    obtain rfl := Option.some.inj hit
    have hroom : first + 0 + (m.privSize - last) ≤ m.privCapacity o := by
      have h₁ : first ≤ last := hv.1
      have h₂ : last ≤ m.privSize := hv.2
      omega
    have haddr : m.privAddr = m'.privAddr := (he.inPlace hroom).2.symm
    rw [← hread, deref]
    exact (if_pos haddr).trans (congrArg (fun i => m'.buffer[i]?) (Nat.zero_add first))
  | append v => exact absurd hit (Option.not_mem_none it)
  | replace i₁ i₂ v => exact absurd hit (Option.not_mem_none it)

/-! ## Which sizes are held -/

/-- **The size and the storage are held**: the internal buffer is not larger than the
greatest storage, or the result fits where the string is, or the buffer that the
allocator hands out, and the length of the result, do not exceed their widths. -/
def Stored (o : Options) (a : Allocator α) (m : Memory α) (n : ℕ) : Prop :=
  o.internalBufferChars ≤ o.maxStorage ∨ n ≤ m.privCapacity o
    ∨ ∀ ns start new, m.nextStorage o (n - m.privSize) (m.privCapacity o + 1) = some ns →
      a m.heap none (n + 1) ns = .newBuffer start new →
        n < 2 ^ (o.storedBits - 1) ∧ new.length < 2 ^ o.storedBits

omit [Zero α] in
/-- With an internal buffer that is larger than the greatest storage, only short
strings are sound. -/
theorem Shaped.short_of_lt (h : m.Shaped o) (hfit : ¬ o.internalBufferChars ≤ o.maxStorage) :
    ∃ length data, m.repr = .short length data := by
  obtain ⟨heap, repr⟩ := m
  cases repr with
  | short length data => exact ⟨length, data, rfl⟩
  | long length storage start =>
    obtain ⟨-, hint, hmax, -⟩ := h
    exact absurd (hint.le.trans hmax) hfit

omit [Zero α] in
theorem stored_setBuffer_iff (h : m.Shaped o) :
    Stored o a (m.setBuffer d) n ↔ Stored o a m n := by
  by_cases hfit : o.internalBufferChars ≤ o.maxStorage
  · exact iff_of_true (Or.inl hfit) (Or.inl hfit)
  · obtain ⟨length, data, hshort⟩ := h.short_of_lt hfit
    obtain ⟨heap, repr⟩ := m
    subst hshort
    exact Iff.rfl

/-- **A short string that goes to a new buffer** is edited exactly if the size and the
storage are held. -/
theorem edited_adoptBuffer_iff {heap : Heap (List α)} {length start : ℕ} {data new : List α}
    (hlen : length < data.length) (hpos : p ≤ length)
    (hlimit : length + v.length + 1 ≤ new.length)
    (hfull : o.internalBufferChars ≤ length + v.length) :
    Edited o ⟨heap, .short length data⟩
        ((⟨heap, .short length data⟩ : Memory α).adoptBuffer o start
          (insertInNewBuffer new data length p v) (length + v.length) new.length) p p v
      ↔ length + v.length < 2 ^ (o.storedBits - 1) ∧ new.length < 2 ^ o.storedBits := by
  obtain ⟨hl, hn⟩ := insertInNewBuffer_spec (v := v) (rfl : new.length = _) hpos hlen.le
    (by omega)
  have hbuffer : ((⟨heap, .short length data⟩ : Memory α).adoptBuffer o start
      (insertInNewBuffer new data length p v) (length + v.length) new.length).buffer
      = insertInNewBuffer new data length p v := by
    show (Function.update heap start (some _) start).getD [] = _
    rw [Function.update_self]
    rfl
  constructor
  · intro he
    have hsize : (length + v.length) % 2 ^ (o.storedBits - 1) = p + v.length + (length - p) :=
      he.size
    have hstorage : _ = new.length % 2 ^ o.storedBits := he.storage
    rw [hbuffer, hl] at hstorage
    have h₁ := Nat.mod_lt (length + v.length) (Nat.two_pow_pos (o.storedBits - 1))
    have h₂ := Nat.mod_lt new.length (Nat.two_pow_pos o.storedBits)
    exact ⟨by omega, by omega⟩
  · rintro ⟨hsz, hst⟩
    have hsize : ((⟨heap, .short length data⟩ : Memory α).adoptBuffer o start
        (insertInNewBuffer new data length p v) (length + v.length) new.length).privSize
        = length + v.length := Nat.mod_eq_of_lt hsz
    refine Edited.of_chars le_rfl hpos hlen.le ?_ (fun i hi => ?_) ?_ ?_ (fun hroom => ?_)
    · rw [hsize]
      show length + v.length = p + v.length + (length - p)
      omega
    · have hi' : i < length + v.length := by
        have hlt : i < p + v.length + (length - p) := hi
        omega
      rw [hbuffer, getElem?_insertInNewBuffer rfl hpos hlen.le (by omega) hi']
      split_ifs <;> first | rfl | (show data[_]? = data[_]?; congr 1; omega)
    · rw [hsize, hbuffer]
      exact hn
    · rw [hbuffer, hl]
      exact (Nat.mod_eq_of_lt hst).symm
    · have hroom' : p + v.length + (length - p) ≤ o.internalBufferChars - 1 := hroom
      have hpos' := o.internal_pos
      omega

/-- **`insert`** edits the string exactly if the size and the storage are held. -/
theorem Sound.insertRange_edited_iff (h : m.Sound o) (ha : Conforms o a) (hpos : p ≤ m.privSize) :
    ((m.insertRange o a p v).1 = true → Edited o m (m.insertRange o a p v).2 p p v)
      ↔ Stored o a m (m.privSize + v.length) := by
  by_cases hfit : o.internalBufferChars ≤ o.maxStorage
  · refine iff_of_true (fun hr => ?_) (Or.inl hfit)
    rcases h.insertRange_inserted (v := v) ha hfit hpos with hf | ⟨m', hf, hins⟩
    · rw [hf] at hr
      exact absurd hr Bool.false_ne_true
    · rw [hf]
      exact hins.edited h hpos
  by_cases hroom : m.privSize + v.length ≤ m.privCapacity o
  · refine iff_of_true (fun _ => ?_) (Or.inr (Or.inl hroom))
    obtain ⟨m', hf, hins⟩ := h.insertRange_inPlace (v := v) hpos hroom
    rw [hf]
    exact hins.edited h hpos
  have hlen := h.shaped.length_buffer
  have hlt := h.size_lt
  have hcap : m.privCapacity o + 1 = m.privStorage o :=
    Nat.sub_add_cancel h.shaped.storage_pos
  have hne : v ≠ [] := by
    rintro rfl
    rw [List.length_nil] at hroom
    omega
  obtain ⟨length, data, hshort⟩ := h.shaped.short_of_lt hfit
  have hcommand : ∀ limit preferred,
      m.allocationCommand a limit preferred = a m.heap none limit preferred := by
    intro limit preferred
    rw [allocationCommand, hshort]
  unfold Memory.insertRange
  rw [if_neg hne, Stored, or_iff_right hfit, or_iff_right hroom, Nat.add_sub_cancel_left]
  dsimp only
  rw [if_neg (by omega)]
  rcases hns : m.nextStorage o v.length (m.privCapacity o + 1) with _ | ns
  · exact iff_of_true (fun hr => absurd hr Bool.false_ne_true)
      (fun ns start new heq => absurd heq (Option.some_ne_none ns).symm)
  dsimp only
  rw [hcommand]
  have hanswer := ha m.heap none (m.privSize + v.length + 1) ns
  rcases hr : a m.heap none (m.privSize + v.length + 1) ns
    with _ | ⟨start, new⟩ | tail | ⟨start, front, tail⟩
  · refine iff_of_true (fun hr => absurd hr Bool.false_ne_true) (fun ns' start new heq heq' => ?_)
    rw [← Option.some.inj heq, hr] at heq'
    exact nomatch heq'
  · rw [hr] at hanswer
    obtain ⟨-, -, hlimit, -⟩ := hanswer
    have hfinal : Edited o m (m.adoptBuffer o start (insertInNewBuffer new m.buffer m.privSize p v)
        (m.privSize + v.length) new.length) p p v
        ↔ m.privSize + v.length < 2 ^ (o.storedBits - 1) ∧ new.length < 2 ^ o.storedBits := by
      obtain ⟨heap, repr⟩ := m
      subst hshort
      have hfull : ¬ length + v.length ≤ o.internalBufferChars - 1 := hroom
      exact edited_adoptBuffer_iff (lt_of_lt_of_eq hlt hlen.symm) hpos hlimit (by omega)
    constructor
    · intro he ns' start' new' heq heq'
      rw [← Option.some.inj heq, hr] at heq'
      obtain ⟨rfl, rfl⟩ := Answer.newBuffer.inj heq'
      exact hfinal.mp (he rfl)
    · exact fun hs _ => hfinal.mpr (hs ns start new rfl hr)
  · rw [hr] at hanswer
    obtain ⟨q, old, hq, -⟩ := hanswer
    exact absurd hq (Option.some_ne_none q).symm
  · rw [hr] at hanswer
    obtain ⟨q, old, hq, -⟩ := hanswer
    exact absurd hq (Option.some_ne_none q).symm

end Memory

/-! ## Every edit -/

variable [Zero α] {o : Options} {a : Allocator α} {m : Memory α}

/-- **Strings refine list editing**, by whichever path, exactly if the size and the
storage of the result are held. -/
theorem Edit.run_refines_iff (e : Edit α) (h : m.Sound o) (ha : Conforms o a) (hv : e.Valid m) :
    ((e.run o a m).1 = true → Refines o m (e.run o a m).2 e) ↔ Stored o a m (e.newSize m) := by
  have hm := h.size_lt_length.le
  have hlt := h.size_lt
  have hcap : m.privCapacity o + 1 = m.privStorage o :=
    Nat.sub_add_cancel h.shaped.storage_pos
  rw [refines_iff_edited h hv]
  obtain ⟨hpq, hq⟩ := hv
  cases e with
  | insert p v =>
    have hp : p ≤ m.privSize := hq
    have hsize : m.privSize + v.length = newSize m (insert p v) := by
      show m.privSize + v.length = p + v.length + (m.privSize - p)
      omega
    rw [← hsize]
    exact h.insertRange_edited_iff ha hp
  | append v =>
    have hsize : m.privSize + v.length = newSize m (append v) := by
      show m.privSize + v.length = m.privSize + v.length + (m.privSize - m.privSize)
      omega
    rw [← hsize]
    exact h.insertRange_edited_iff ha le_rfl
  | erase first last =>
    have hle : first ≤ last := hpq
    have hl : last ≤ m.privSize := hq
    refine iff_of_true (fun _ => h.eraseRange_edited hle hl) (Or.inr (Or.inl ?_))
    show first + 0 + (m.privSize - last) ≤ m.privCapacity o
    omega
  | replace i₁ i₂ v =>
    have hle : i₁ ≤ i₂ := hpq
    have hi₂ : i₂ ≤ m.privSize := hq
    show ((m.replaceRange o a i₁ i₂ v).1 = true → Edited o m (m.replaceRange o a i₁ i₂ v).2 i₁ i₂ v)
      ↔ Stored o a m (i₁ + v.length + (m.privSize - i₂))
    unfold replaceRange
    dsimp only
    split
    · rename_i hshort
      have hwrite := h.keeps_setBuffer (p := i₁) (v := v) (by omega)
      refine iff_of_true (fun _ => ?_) (Or.inr (Or.inl (by omega)))
      have he := hwrite.sound.eraseRange_edited (p := i₁ + v.length) (q := i₂) (by omega)
        (by rwa [privSize_setBuffer])
      rw [edited_after_write_iff hm (by omega) hi₂, List.append_nil] at he
      exact he
    · have htake : (v.take (i₂ - i₁)).length = i₂ - i₁ := List.length_take_of_le (by omega)
      have hwrite := h.keeps_setBuffer (p := i₁) (v := v.take (i₂ - i₁)) (by omega)
      have hins := hwrite.sound.insertRange_edited_iff (p := i₂) (v := v.drop (i₂ - i₁)) ha
        (by rwa [privSize_setBuffer])
      have hmid : i₂ = i₁ + (v.take (i₂ - i₁)).length := by omega
      have hsize : m.privSize + (v.drop (i₂ - i₁)).length
          = i₁ + v.length + (m.privSize - i₂) := by
        rw [List.length_drop]
        omega
      rw [stored_setBuffer_iff h.shaped, privSize_setBuffer, hsize] at hins
      rw [← hins]
      have hafter : ∀ m' : Memory α, Edited o (m.setBuffer (m.buffer.writeAt i₁
          (v.take (i₂ - i₁)))) m' i₂ i₂ (v.drop (i₂ - i₁)) ↔ Edited o m m' i₁ i₂ v := by
        intro m'
        have hiff := @edited_after_write_iff _ _ o _ m' i₁ i₂ (v.take (i₂ - i₁))
          (v.drop (i₂ - i₁)) hm (by omega) hi₂
        rwa [List.take_append_drop, ← hmid] at hiff
      rw [hafter]

/-! ## Streams that are read once -/

/-- **`replace` with input iterators replaces the characters** exactly if these were
the ones to come: it reads the stream to its end only to count it, and then closes
the gap that the count leaves. -/
theorem replaceInput_replaces_iff {i₁ i₂ : ℕ} (stream : List α) (h : m.Sound o) (hle : i₁ ≤ i₂)
    (hi₂ : i₂ ≤ m.privSize) :
    (∃ m', m.replaceInput o a i₁ i₂ stream = some (true, m', [])
      ∧ m'.contents = m.contents.splice i₁ i₂ stream)
      ↔ stream.length ≤ i₂ - i₁ ∧ m.contents.slice i₁ stream.length = stream := by
  have hlen := length_contents h.size_lt_length.le
  have hsplice : (m.contents.splice i₁ i₂ stream).length
      = i₁ + stream.length + (m.privSize - i₂) := by
    rw [List.splice, List.length_append, List.length_append, List.length_take, List.length_drop]
    omega
  rw [h.shaped.replaceInput_eq]
  by_cases hroom : stream.length ≤ i₂ - i₁
  · have herased := (h.eraseRange_edited (p := i₁ + stream.length) (by omega) hi₂).contents
    have htake : m.contents.splice (i₁ + stream.length) i₂ []
        = m.contents.splice i₁ i₂ (m.contents.slice i₁ stream.length) := by
      rw [List.splice, List.splice, List.append_nil, List.take_add, List.slice]
    rw [if_pos hroom, and_iff_right hroom]
    constructor
    · rintro ⟨m', heq, hm'⟩
      obtain ⟨-, rfl, -⟩ := heq
      rw [herased, htake, List.splice, List.splice] at hm'
      exact List.append_cancel_left (List.append_cancel_right hm')
    · intro hsame
      refine ⟨_, rfl, ?_⟩
      rw [herased, htake, hsame]
  · rw [if_neg hroom]
    refine iff_of_false ?_ (fun hs => hroom hs.1)
    rintro ⟨m', heq, hm'⟩
    split at heq
    · obtain ⟨-, rfl, -⟩ := heq
      have hlength := congrArg List.length hm'
      omega
    · exact absurd heq (Option.some_ne_none _).symm

/-! ## A length that is lost -/

/-- Strings of bytes with a stored size of one byte and the greatest internal buffer that
the short length can count. -/
def narrowOptions : Options where
  bits := 64
  storedBits := 8
  internalBufferChars := 128
  allocMaxSize := 2 ^ 63 - 1
  growthFactor := NextCapacity.growthFactor60 64
  lengthBits n := n % 2 ^ 7
  rawPointers := true
  propagateOnCopy := false
  propagateOnMove := false
  propagateOnSwap := false
  isAlwaysEqual := true
  internal_pos := by decide
  internal_le := by decide
  internal_lt := by decide
  alloc_pos := by decide
  alloc_lt := by decide

/-- An allocator with memory for one buffer, at address 4096, and no more than is
needed of it. -/
def scantBlock : Allocator UInt8 := fun h _ limit preferred =>
  if h 4096 = none ∧ narrowOptions.maxStorage < preferred then
    .newBuffer 4096 (List.replicate limit 0)
  else .throws

theorem conforms_scantBlock : Conforms narrowOptions scantBlock := by
  intro h reuse limit preferred
  unfold scantBlock
  split
  · rename_i hfree
    refine ⟨by decide, hfree.1, (List.length_replicate (n := limit)).ge, fun hle => ?_⟩
    exact absurd hle hfree.2.not_ge
  · trivial

/-- A short string of `n` equal characters. -/
def filled (n : ℕ) : Memory UInt8 :=
  ⟨fun _ => none, .short n (List.replicate n 97 ++ List.replicate (128 - n) 0)⟩

theorem sound_filled {n : ℕ} (h : n < 128) : (filled n).Sound narrowOptions where
  shaped := by
    show (List.replicate n (97 : UInt8) ++ List.replicate (128 - n) 0).length = 128
    rw [List.length_append, List.length_replicate, List.length_replicate]
    omega
  size_lt := h
  null := by
    show (List.replicate n (97 : UInt8) ++ List.replicate (128 - n) 0)[n]? = some 0
    rw [List.getElem?_append_right (by rw [List.length_replicate]), List.length_replicate,
      Nat.sub_self, List.getElem?_replicate, if_pos (by omega)]

/-- The last character that the internal buffer has room for. -/
theorem filled_append_refines : Refines narrowOptions (filled 126)
    ((Edit.append [97]).run narrowOptions scantBlock (filled 126)).2 (Edit.append [97]) :=
  (Edit.run_refines_iff (.append [97]) (sound_filled (by decide)) conforms_scantBlock
    ⟨le_rfl, le_rfl⟩).mpr (Or.inr (Or.inl (by decide))) rfl

/-- **The next one is lost**, and the string with it: a length of 128 has no place in seven
bits, so the call returns and the string is empty. -/
theorem filled_append_not_refines : (filled 127).Sound narrowOptions
    ∧ Conforms narrowOptions scantBlock ∧ (Edit.append [97]).Valid (filled 127)
    ∧ ((Edit.append [97]).run narrowOptions scantBlock (filled 127)).1 = true
    ∧ ((Edit.append [97]).run narrowOptions scantBlock (filled 127)).2.contents = []
    ∧ ¬ Refines narrowOptions (filled 127)
      ((Edit.append [97]).run narrowOptions scantBlock (filled 127)).2 (Edit.append [97]) := by
  refine ⟨sound_filled (by decide), conforms_scantBlock, ⟨le_rfl, le_rfl⟩, rfl, rfl, fun h => ?_⟩
  have hsize : 0 = 128 := h.edited.size
  exact absurd hsize (by decide)

/-- Two characters replaced by one that is the same as the first. -/
theorem filled_replaceInput_replaces :
    ∃ m', (filled 3).replaceInput narrowOptions scantBlock 0 2 [97] = some (true, m', [])
      ∧ m'.contents = (filled 3).contents.splice 0 2 [97] :=
  (replaceInput_replaces_iff [97] (sound_filled (by decide)) (by decide) (by decide)).mpr
    ⟨by decide, rfl⟩

/-- **A character that is another one is counted only**: the string keeps its own. -/
theorem filled_replaceInput_not_replaces : (filled 3).Sound narrowOptions
    ∧ (∃ m', (filled 3).replaceInput narrowOptions scantBlock 0 2 [98] = some (true, m', [])
      ∧ m'.contents = [97, 97])
    ∧ ¬ ∃ m', (filled 3).replaceInput narrowOptions scantBlock 0 2 [98] = some (true, m', [])
      ∧ m'.contents = (filled 3).contents.splice 0 2 [98] := by
  refine ⟨sound_filled (by decide), ⟨_, rfl, rfl⟩, ?_⟩
  rintro ⟨m', heq, hm'⟩
  obtain ⟨-, rfl, -⟩ := heq
  exact absurd hm' (by decide)

end BasicString
