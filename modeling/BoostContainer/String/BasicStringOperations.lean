import BoostContainer.String.BasicStringForms

/-!
# Every function of a string keeps it sound

Each function is taken apart into the acts on both forms: what it writes
stays inside the buffer and leaves a null after the last character, and a
buffer it moves to is large enough. Where a function throws, it has not
touched the string, or has only overwritten characters.

What the functions need is that the internal buffer is not larger than the
greatest storage; with a larger one, `next_storage` would subtract the
capacity from less.
-/

namespace BasicString

namespace Memory

variable {α : Type*} [Zero α] {o : Options} {a : Allocator α} {m : Memory α}
  {p : ℕ} {v : List α}

/-! ## What the buffers hold after an insertion -/

section Buffers

variable {d new : List α} {N oldSize i k n : ℕ}

/-- A last write of the null: the buffer keeps its length and the null is
there. -/
theorem terminate_spec {n : ℕ} (hd : d.length = N) (hn : n < N) :
    (d.writeAt n [0]).length = N ∧ (d.writeAt n [0])[n]? = some 0 :=
  ⟨List.length_writeAt_of_eq hd hn, List.getElem?_writeAt_singleton (by omega) 0⟩

/-- **An insertion in place** stays inside the buffer and ends it with the
null. -/
theorem insertInPlace_spec (hd : d.length = N) (hpos : p ≤ oldSize)
    (hroom : oldSize + v.length < N) :
    (insertInPlace d oldSize p v).length = N
      ∧ (insertInPlace d oldSize p v)[oldSize + v.length]? = some 0 := by
  unfold insertInPlace
  dsimp only
  by_cases htail : v.length ≤ oldSize - p
  · rw [if_pos htail]
    refine terminate_spec (List.length_writeAt_of_eq ?_ (by omega)) hroom
    have h₁ : (d.writeAt (oldSize + 1)
        (d.slice (oldSize - v.length + 1) v.length)).length = N := by
      refine List.length_writeAt_of_eq hd ?_
      rw [List.length_slice (by omega)]
      omega
    refine List.length_writeAt_of_eq h₁ ?_
    rw [List.length_slice (by omega)]
    omega
  · rw [if_neg htail]
    have h₁ : (d.writeAt (oldSize + 1) (v.drop (oldSize - p + 1))).length = N := by
      refine List.length_writeAt_of_eq hd ?_
      rw [List.length_drop]
      omega
    refine terminate_spec (List.length_writeAt_of_eq (List.length_writeAt_of_eq h₁ ?_) ?_) hroom
    · rw [List.length_slice (by omega)]
      omega
    · rw [List.length_take]
      omega

omit [Zero α] in
/-- **The tail is moved up in two parts.** -/
theorem moveTail_spec (hd : d.length = N) (hpos : p + n ≤ oldSize)
    (hroom : oldSize + n < N) :
    ((d.writeAt (oldSize + 1) (d.slice (oldSize - n + 1) n)).writeAt (p + n)
      ((d.writeAt (oldSize + 1) (d.slice (oldSize - n + 1) n)).slice p
        (oldSize - p - n + 1))).length = N
    ∧ ∀ i, ((d.writeAt (oldSize + 1) (d.slice (oldSize - n + 1) n)).writeAt (p + n)
      ((d.writeAt (oldSize + 1) (d.slice (oldSize - n + 1) n)).slice p
        (oldSize - p - n + 1)))[i]? = if p + n ≤ i ∧ i ≤ oldSize + n then d[i - n]? else d[i]? := by
  have hslice : (d.slice (oldSize - n + 1) n).length = n := List.length_slice (by omega)
  have h₁ : (d.writeAt (oldSize + 1) (d.slice (oldSize - n + 1) n)).length = N :=
    List.length_writeAt_of_eq hd (by omega)
  refine ⟨List.length_writeAt_of_eq h₁ ?_, fun i => ?_⟩
  · rw [List.length_slice (by omega)]
    omega
  · rw [List.getElem?_writeAt_slice (by omega) (by omega),
      List.getElem?_writeAt_slice (by omega) (by omega),
      List.getElem?_writeAt_slice (by omega) (by omega)]
    split_ifs <;> first | rfl | omega | (congr 1; omega)

/-- **The characters after an insertion in place.** -/
theorem getElem?_insertInPlace (hd : d.length = N) (hpos : p ≤ oldSize)
    (hroom : oldSize + v.length < N) (hi : i < oldSize + v.length) :
    (insertInPlace d oldSize p v)[i]?
      = if i < p then d[i]? else if i < p + v.length then v[i - p]? else d[i - v.length]? := by
  unfold insertInPlace
  dsimp only
  by_cases htail : v.length ≤ oldSize - p
  · rw [if_pos htail]
    obtain ⟨hlen, hget⟩ := moveTail_spec (n := v.length) (p := p) hd (by omega) hroom
    rw [List.getElem?_writeAt_of_lt _ hi]
    · rw [List.getElem?_writeAt_eq (by omega), hget]
      split_ifs <;> first | rfl | omega
    · rw [List.length_writeAt_of_eq hlen (by omega)]
      omega
  · rw [if_neg htail]
    have htake : (v.take (oldSize - p + 1)).length = oldSize - p + 1 :=
      List.length_take_of_le (by omega)
    have hdrop : (v.drop (oldSize - p + 1)).length = v.length - (oldSize - p + 1) :=
      List.length_drop
    have h₁ : (d.writeAt (oldSize + 1) (v.drop (oldSize - p + 1))).length = N :=
      List.length_writeAt_of_eq hd (by omega)
    have hmoved : ((d.writeAt (oldSize + 1) (v.drop (oldSize - p + 1))).slice p
        (oldSize - p + 1)).length = oldSize - p + 1 := List.length_slice (by omega)
    have h₂ := List.length_writeAt_of_eq (p := oldSize + (v.length - (oldSize - p)))
      (v := (d.writeAt (oldSize + 1) (v.drop (oldSize - p + 1))).slice p (oldSize - p + 1)) h₁
      (by omega)
    have h₃ := List.length_writeAt_of_eq (p := p) (v := v.take (oldSize - p + 1)) h₂
      (by omega)
    rw [List.getElem?_writeAt_of_lt (by rw [h₃]; omega) hi, List.getElem?_writeAt_eq (by omega),
      List.getElem?_writeAt_slice (by omega) (by omega), List.getElem?_writeAt_eq (by omega),
      List.getElem?_writeAt_eq (by omega), htake, hdrop, List.getElem?_take, List.getElem?_drop,
      List.getElem?_drop]
    split_ifs <;> first | rfl | omega | (congr 1; omega)

/-- **An insertion in a new buffer** of enough room. -/
theorem insertInNewBuffer_spec (hnew : new.length = N) (hpos : p ≤ oldSize)
    (hd : oldSize ≤ d.length) (hroom : oldSize + v.length < N) :
    (insertInNewBuffer new d oldSize p v).length = N
      ∧ (insertInNewBuffer new d oldSize p v)[oldSize + v.length]? = some 0 := by
  unfold insertInNewBuffer
  dsimp only
  have h₁ : (new.writeAt 0 (d.slice 0 p)).length = N := by
    refine List.length_writeAt_of_eq hnew ?_
    rw [List.length_slice (by omega)]
    omega
  refine terminate_spec
    (List.length_writeAt_of_eq (List.length_writeAt_of_eq h₁ (by omega)) ?_) hroom
  rw [List.length_slice (by omega)]
  omega

/-- **The characters after an insertion in a new buffer.** -/
theorem getElem?_insertInNewBuffer (hnew : new.length = N) (hpos : p ≤ oldSize)
    (hd : oldSize ≤ d.length) (hroom : oldSize + v.length < N) (hi : i < oldSize + v.length) :
    (insertInNewBuffer new d oldSize p v)[i]?
      = if i < p then d[i]? else if i < p + v.length then v[i - p]? else d[i - v.length]? := by
  unfold insertInNewBuffer
  dsimp only
  have hbefore : (d.slice 0 p).length = p := List.length_slice (by omega)
  have hafter : (d.slice p (oldSize - p)).length = oldSize - p := List.length_slice (by omega)
  have h₁ := List.length_writeAt_of_eq (v := d.slice 0 p) (p := 0) hnew (by omega)
  have h₂ := List.length_writeAt_of_eq (v := v) (p := p) h₁ (by omega)
  have h₃ := List.length_writeAt_of_eq (v := d.slice p (oldSize - p)) (p := p + v.length) h₂
    (by omega)
  rw [List.getElem?_writeAt_of_lt (by omega) hi, List.getElem?_writeAt_eq (by omega),
    List.getElem?_writeAt_eq (by omega), List.getElem?_writeAt_eq (by omega), hbefore, hafter,
    List.getElem?_slice_eq, List.getElem?_slice_eq]
  split_ifs <;> first | rfl | omega | (congr 1; omega)

/-- **An insertion in a buffer that grew at its front.** -/
theorem insertBackwards_spec {k : ℕ} (hd : d.length = N) (hpos : p ≤ oldSize)
    (hold : k + oldSize ≤ N) (hroom : oldSize + v.length < N) :
    (insertBackwards d k oldSize p v).length = N
      ∧ (insertBackwards d k oldSize p v)[oldSize + v.length]? = some 0 := by
  unfold insertBackwards
  dsimp only
  have h₁ : (d.writeAt 0 (d.slice k p)).length = N := by
    refine List.length_writeAt_of_eq hd ?_
    rw [List.length_slice (by omega)]
    omega
  refine terminate_spec
    (List.length_writeAt_of_eq (List.length_writeAt_of_eq h₁ ?_) (by omega)) hroom
  rw [List.length_slice (by omega)]
  omega

/-- **The characters after an insertion in a buffer that grew at its front.** -/
theorem getElem?_insertBackwards (hd : d.length = N) (hpos : p ≤ oldSize)
    (hold : k + oldSize ≤ N) (hroom : oldSize + v.length < N) (hi : i < oldSize + v.length) :
    (insertBackwards d k oldSize p v)[i]?
      = if i < p then d[k + i]? else if i < p + v.length then v[i - p]?
        else d[k + (i - v.length)]? := by
  unfold insertBackwards
  dsimp only
  have hbefore : (d.slice k p).length = p := List.length_slice (by omega)
  have h₁ := List.length_writeAt_of_eq (v := d.slice k p) (p := 0) hd (by omega)
  have hafter : ((d.writeAt 0 (d.slice k p)).slice (k + p) (oldSize - p)).length = oldSize - p :=
    List.length_slice (by omega)
  have h₂ := List.length_writeAt_of_eq (p := p + v.length) h₁ (by rw [hafter]; omega)
  have h₃ := List.length_writeAt_of_eq (v := v) (p := p) h₂ (by omega)
  rw [List.getElem?_writeAt_of_lt (by omega) hi, List.getElem?_writeAt_eq (by omega),
    List.getElem?_writeAt_slice (by omega) (by omega),
    List.getElem?_writeAt_slice (by omega) (by omega),
    List.getElem?_writeAt_slice (by omega) (by omega)]
  split_ifs <;> first | rfl | omega | (congr 1; omega)

end Buffers

/-! ## Insertion -/

omit [Zero α] in
/-- **The next storage** holds what is to be added, and is not above the
greatest. -/
theorem Shaped.nextStorage (h : m.Shaped o) (hlt : m.privSize < m.privStorage o)
    (hfit : o.internalBufferChars ≤ o.maxStorage) {additional ns : ℕ}
    (hadd : m.privCapacity o - m.privSize < additional)
    (heq : m.nextStorage o additional (m.privStorage o) = some ns) :
    m.privSize + additional + 1 ≤ ns ∧ ns ≤ o.maxStorage := by
  have hle := h.storage_le hfit
  have hmax : o.maxStorage < 2 ^ o.bits := (min_le_left _ _).trans_lt o.alloc_lt
  have hcap : m.privCapacity o = m.privStorage o - 1 := rfl
  unfold Memory.nextStorage at heq
  dsimp only at heq
  rw [Word.sub_of_le (by omega) (by omega)] at heq
  split at heq
  · exact absurd heq (by simp)
  · rename_i hroom
    have hsum : m.privStorage o + (additional - (m.privCapacity o - m.privSize))
        ≤ o.maxStorage := by omega
    obtain rfl := Option.some.inj heq
    have hge := o.growthFactor.le_grow hsum hmax
    exact ⟨by omega, o.growthFactor.grow_le hsum hmax⟩

omit [Zero α] in
/-- A new buffer that answers the command. -/
theorem Shaped.newBuffer (ha : Conforms o a) {limit preferred start : ℕ} {new : List α}
    (hpref : preferred ≤ o.maxStorage)
    (heq : m.allocationCommand a limit preferred = .newBuffer start new) :
    start ≠ 0 ∧ m.heap start = none ∧ limit ≤ new.length ∧ new.length ≤ o.maxStorage := by
  obtain ⟨heap, repr⟩ := m
  have hall : ∃ reuse, a heap reuse limit preferred = .newBuffer start new := by
    cases repr with
    | short length data => exact ⟨none, heq⟩
    | long length storage old => exact ⟨some old, heq⟩
  obtain ⟨reuse, hreuse⟩ := hall
  have hanswer := ha heap reuse limit preferred
  rw [hreuse] at hanswer
  obtain ⟨hstart, hfresh, hlimit, hmax⟩ := hanswer
  exact ⟨hstart, hfresh, hlimit, hmax hpref⟩

omit [Zero α] in
/-- Only a long string's buffer grows, and it is that one. -/
theorem Shaped.grown (h : m.Shaped o) (ha : Conforms o a) {limit preferred : ℕ}
    {answer : Answer α} (heq : m.allocationCommand a limit preferred = answer)
    (hgrown : ∀ start new, answer ≠ .newBuffer start new) (hthrows : answer ≠ .throws) :
    ∃ length storage old, m.repr = .long length storage old
      ∧ answer.Allowed o m.heap (some old) limit preferred
      ∧ m.heap old = some m.buffer := by
  obtain ⟨heap, repr⟩ := m
  cases repr with
  | short length data =>
    have hanswer := ha heap none limit preferred
    have heq' : a heap none limit preferred = answer := heq
    rw [heq'] at hanswer
    cases answer with
    | throws => exact absurd rfl hthrows
    | newBuffer start new => exact absurd rfl (hgrown start new)
    | expandedFwd tail =>
      obtain ⟨q, old, hq, _⟩ := hanswer
      exact absurd hq (by simp)
    | expandedBwd start front tail =>
      obtain ⟨q, old, hq, _⟩ := hanswer
      exact absurd hq (by simp)
  | long length storage old =>
    have hanswer := ha heap (some old) limit preferred
    have heq' : a heap (some old) limit preferred = answer := heq
    rw [heq'] at hanswer
    refine ⟨length, storage, old, rfl, hanswer, ?_⟩
    obtain ⟨_, _, _, d, hd, _⟩ := h
    have hd' : heap old = some d := hd
    show heap old = some ((heap old).getD [])
    rw [hd']
    rfl

/-- **Where an insertion ends**, whatever its path: the buffer holds what was before
the position, the input, what was after it, and the null; and the buffer is the
one it was where that has room. -/
structure Inserted (o : Options) (m m' : Memory α) (p : ℕ) (v : List α) : Prop where
  moved : Moved o m m' m'.buffer (m.privSize + v.length)
  chars : ∀ i < m.privSize + v.length, m'.buffer[i]?
    = if i < p then m.buffer[i]? else if i < p + v.length then v[i - p]?
      else m.buffer[i - v.length]?
  null : m'.buffer[m.privSize + v.length]? = some 0
  inPlace : m.privSize + v.length ≤ m.privCapacity o →
    m'.privStorage o = m.privStorage o ∧ m'.privAddr = m.privAddr

/-- The last characters of a string, where they stand in a grown buffer. -/
theorem Inserted.of_moved {m' : Memory α} {d : List α}
    (hmoved : Moved o m m' d (m.privSize + v.length))
    (hchars : ∀ i < m.privSize + v.length, d[i]?
      = if i < p then m.buffer[i]? else if i < p + v.length then v[i - p]?
        else m.buffer[i - v.length]?)
    (hnull : d[m.privSize + v.length]? = some 0)
    (hroom : m.privSize + v.length ≤ m.privCapacity o →
      m'.privStorage o = m.privStorage o ∧ m'.privAddr = m.privAddr) : Inserted o m m' p v := by
  have hd := hmoved.buffer_eq
  subst hd
  exact ⟨hmoved, hchars, hnull, hroom⟩

/-- **`insert` where there is room** stays in the buffer. -/
theorem Sound.insertRange_inPlace (h : m.Sound o) (hpos : p ≤ m.privSize)
    (hroom : m.privSize + v.length ≤ m.privCapacity o) :
    ∃ m', m.insertRange o a p v = (true, m') ∧ Inserted o m m' p v := by
  have hlen := h.shaped.length_buffer
  have hcap : m.privCapacity o + 1 = m.privStorage o :=
    Nat.sub_add_cancel h.shaped.storage_pos
  unfold Memory.insertRange
  split
  · rename_i hnil
    subst hnil
    refine ⟨m, rfl, ⟨h.shaped, rfl, hlen.symm, rfl, Heap.Exchange.refl _ _⟩,
      fun i _ => ?_, h.null, fun _ => ⟨rfl, rfl⟩⟩
    rw [List.length_nil, Nat.add_zero, Nat.sub_zero]
    split_ifs <;> rfl
  dsimp only
  rw [if_pos (by omega)]
  obtain ⟨hl, hn⟩ := insertInPlace_spec (v := v) hlen hpos (by omega)
  refine ⟨_, rfl, Inserted.of_moved (h.shaped.written hl (by omega))
    (fun i hi => getElem?_insertInPlace hlen hpos (by omega) hi) hn (fun _ => ⟨?_, ?_⟩)⟩
  · rw [privStorage_setSize, privStorage_setBuffer]
  · rw [privAddr_setSize, privAddr_setBuffer]

/-- **`insert`** throws and changes nothing, or ends as it should, by whichever
path. -/
theorem Sound.insertRange_inserted (h : m.Sound o) (ha : Conforms o a)
    (hfit : o.internalBufferChars ≤ o.maxStorage) (hpos : p ≤ m.privSize) :
    m.insertRange o a p v = (false, m)
      ∨ ∃ m', m.insertRange o a p v = (true, m') ∧ Inserted o m m' p v := by
  have hlen := h.shaped.length_buffer
  have hlt := h.size_lt
  have hint := h.shaped.internal_le
  have hcap : m.privCapacity o + 1 = m.privStorage o :=
    Nat.sub_add_cancel h.shaped.storage_pos
  by_cases hroom : m.privSize + v.length ≤ m.privCapacity o
  · exact Or.inr (h.insertRange_inPlace hpos hroom)
  have hfull : ∀ {c : Prop}, m.privSize + v.length ≤ m.privCapacity o → c :=
    fun hle => absurd hle hroom
  have hne : v ≠ [] := by
    rintro rfl
    rw [List.length_nil] at hroom
    omega
  unfold Memory.insertRange
  rw [if_neg hne]
  dsimp only
  rw [if_neg (by omega)]
  rw [hcap]
  rcases hns : m.nextStorage o v.length (m.privStorage o) with _ | ns
  · exact Or.inl rfl
  obtain ⟨hneed, hmax⟩ := h.shaped.nextStorage hlt hfit (by omega) hns
  dsimp only
  rcases hanswer : m.allocationCommand a (m.privSize + v.length + 1) ns
    with _ | ⟨start, new⟩ | tail | ⟨start, front, tail⟩
  · exact Or.inl rfl
  · obtain ⟨hstart, hfresh, hlimit, hnew⟩ := Shaped.newBuffer ha hmax hanswer
    obtain ⟨hl, hn⟩ := insertInNewBuffer_spec (v := v) (rfl : new.length = _) hpos
      (d := m.buffer) (by omega) (by omega)
    have hmoved := h.shaped.adoptBuffer (n := m.privSize + v.length) hfresh hstart
      (d := insertInNewBuffer new m.buffer m.privSize p v) (by omega) (by omega)
      (by omega)
    rw [hl] at hmoved
    exact Or.inr ⟨_, rfl, Inserted.of_moved hmoved (fun i hi =>
      getElem?_insertInNewBuffer rfl hpos (by omega) (by omega) hi) hn hfull⟩
  · obtain ⟨length, storage, old, hlong, ⟨q, d, hq, hd, hlimit, hnew⟩, hbuffer⟩ :=
      h.shaped.grown ha hanswer (by simp) (by simp)
    obtain rfl := Option.some.inj hq
    obtain rfl := Option.some.inj (hd.symm.trans hbuffer)
    have hmax' := hnew hmax
    obtain ⟨hl, hn⟩ := insertInPlace_spec (v := v)
      (rfl : (m.buffer ++ tail).length = _) hpos (by omega)
    have hmoved := h.shaped.growBuffer
      (d := insertInPlace (m.buffer ++ tail) m.privSize p v) hlong (by omega) (by omega)
    rw [hl] at hmoved
    refine Or.inr ⟨_, rfl, Inserted.of_moved (hmoved.setSize (by omega)) (fun i hi => ?_) hn hfull⟩
    have hold : ∀ j < m.privSize, (m.buffer ++ tail)[j]? = m.buffer[j]? :=
      fun j hj => List.getElem?_append_left (by omega)
    rw [getElem?_insertInPlace rfl hpos (by omega) hi]
    split_ifs
    · exact hold i (by omega)
    · rfl
    · exact hold _ (by omega)
  · obtain ⟨length, storage, old, hlong, ⟨q, d, hq, hd, hstart, hfresh, hlimit, hnew⟩,
      hbuffer⟩ := h.shaped.grown ha hanswer (by simp) (by simp)
    obtain rfl := Option.some.inj hq
    obtain rfl := Option.some.inj (hd.symm.trans hbuffer)
    have hmax' := hnew hmax
    have hparts : (front ++ m.buffer ++ tail).length
        = front.length + m.buffer.length + tail.length := by
      rw [List.length_append, List.length_append]
    obtain ⟨hl, hn⟩ := insertBackwards_spec (v := v) (k := front.length)
      (rfl : (front ++ m.buffer ++ tail).length = _) hpos (by omega) (by omega)
    have hmoved := h.shaped.followBuffer (n := m.privSize + v.length) hlong hfresh hstart
      (d := insertBackwards (front ++ m.buffer ++ tail) front.length m.privSize p v)
      (by omega) (by omega) (by omega)
    rw [hl] at hmoved
    refine Or.inr ⟨_, rfl, Inserted.of_moved hmoved (fun i hi => ?_) hn hfull⟩
    have hold : ∀ j < m.privSize, (front ++ m.buffer ++ tail)[front.length + j]?
        = m.buffer[j]? := by
      intro j hj
      rw [List.getElem?_append_left (by rw [List.length_append]; omega),
        List.getElem?_append_right (by omega), Nat.add_sub_cancel_left]
    rw [getElem?_insertBackwards rfl hpos (by omega) (by omega) hi]
    split_ifs
    · exact hold i (by omega)
    · rfl
    · exact hold _ (by omega)

/-- **`insert` keeps a string sound**, by whichever path, and when it returns
the string is that much longer. -/
theorem Sound.insertRange (h : m.Sound o) (ha : Conforms o a)
    (hfit : o.internalBufferChars ≤ o.maxStorage) (hpos : p ≤ m.privSize) :
    Keeps o m (m.insertRange o a p v).2
      ∧ ((m.insertRange o a p v).1 = true →
        (m.insertRange o a p v).2.privSize = m.privSize + v.length) := by
  rcases h.insertRange_inserted (v := v) ha hfit hpos with hr | ⟨m', hr, hins⟩
  · rw [hr]
    exact ⟨h.keeps_refl, fun hf => absurd hf Bool.false_ne_true⟩
  · rw [hr]
    exact ⟨hins.moved.keeps (List.getElem?_eq_some_iff.mp hins.null).1 hins.null,
      fun _ => hins.moved.size_eq⟩

/-- **Inserting one character after the other** keeps a string sound. -/
theorem Sound.insertInput (ha : Conforms o a) (hfit : o.internalBufferChars ≤ o.maxStorage)
    (h : m.Sound o) (hpos : p ≤ m.privSize) :
    Keeps o m (Memory.insertInput o a p v m).2 := by
  induction v generalizing p m with
  | nil => exact h.keeps_refl
  | cons c cs ih =>
    obtain ⟨hkeep, hsize⟩ := h.insertRange (v := [c]) ha hfit hpos
    unfold Memory.insertInput
    rcases hr : m.insertRange o a p [c] with ⟨_ | _, m'⟩
    · rw [hr] at hkeep
      exact hkeep
    · rw [hr] at hkeep hsize
      refine hkeep.trans (ih hkeep.sound ?_)
      rw [hsize rfl]
      exact Nat.add_le_add_right hpos 1

/-- **`insert` at a position** checks the position itself. -/
theorem Sound.insert (h : m.Sound o) (ha : Conforms o a)
    (hfit : o.internalBufferChars ≤ o.maxStorage) :
    Keeps o m (m.insert o a p v).2 := by
  unfold Memory.insert
  split
  · exact h.keeps_refl
  · rename_i hpos
    split
    · exact h.keeps_refl
    · exact (h.insertRange ha hfit (Nat.le_of_not_lt hpos)).1

theorem Sound.append (h : m.Sound o) (ha : Conforms o a)
    (hfit : o.internalBufferChars ≤ o.maxStorage) : Keeps o m (m.append o a v).2 :=
  (h.insertRange ha hfit le_rfl).1

theorem Sound.appendInput (h : m.Sound o) (ha : Conforms o a)
    (hfit : o.internalBufferChars ≤ o.maxStorage) : Keeps o m (m.appendInput o a v).2 :=
  h.insertInput ha hfit le_rfl

/-- **`push_back`** writes the null before the character. -/
theorem Sound.pushBack (h : m.Sound o) (ha : Conforms o a)
    (hfit : o.internalBufferChars ≤ o.maxStorage) (c : α) :
    Keeps o m (m.pushBack o a c).2 := by
  have hlen := h.shaped.length_buffer
  have hcap : m.privCapacity o = m.privStorage o - 1 := rfl
  unfold Memory.pushBack
  dsimp only
  split
  · rename_i hroom
    have h₁ : (m.buffer.writeAt (m.privSize + 1) [0]).length = m.privStorage o := by
      refine List.length_writeAt_of_eq hlen ?_
      show m.privSize + 1 + 1 ≤ _
      omega
    refine h.shaped.keeps_write (List.length_writeAt_of_eq h₁ h.size_lt) (by omega) ?_
    have hkept := List.getElem?_writeAt_of_ge (d := m.buffer.writeAt (m.privSize + 1) [0])
      (p := m.privSize) (v := [c]) (i := m.privSize + 1) (by omega) le_rfl
    rw [hkept]
    exact List.getElem?_writeAt_singleton (by omega) 0
  · exact h.append ha hfit

/-! ## Erasing and replacing -/

/-- **`erase`** moves the null with the tail. -/
theorem Sound.eraseRange (h : m.Sound o) {first last : ℕ} (hle : first ≤ last)
    (hlast : last ≤ m.privSize) : Keeps o m (m.eraseRange o first last) := by
  have hlen := h.shaped.length_buffer
  have hlt := h.size_lt
  unfold Memory.eraseRange
  split
  · exact h.keeps_refl
  · dsimp only
    have hslice : (m.buffer.slice last (m.privSize + 1 - last)).length
        = m.privSize + 1 - last := List.length_slice (by omega)
    refine h.shaped.keeps_write (List.length_writeAt_of_eq hlen (by omega)) (by omega) ?_
    rw [show m.privSize - (last - first) = first + (m.privSize - last) by omega,
      List.getElem?_writeAt (by omega) (by omega), List.getElem?_slice (by omega),
      show last + (m.privSize - last) = m.privSize by omega]
    exact h.null

theorem Sound.erase (h : m.Sound o) {n : ℕ} : Keeps o m (m.erase o p n).2 := by
  unfold Memory.erase
  split
  · exact h.keeps_refl
  · exact h.eraseRange (Nat.le_add_right _ _) (by omega)

/-- **`clear`** -/
theorem Sound.clear (h : m.Sound o) : Keeps o m (m.clear o) := by
  have hlen := h.shaped.length_buffer
  have hpos := h.shaped.storage_pos
  refine h.shaped.keeps_write (List.length_writeAt_of_eq hlen ?_) hpos ?_
  · exact hpos
  · exact List.getElem?_writeAt_singleton (by omega) 0

/-- **`replace`** overwrites, and then erases or inserts. -/
theorem Sound.replaceRange (h : m.Sound o) (ha : Conforms o a)
    (hfit : o.internalBufferChars ≤ o.maxStorage) {i₁ i₂ : ℕ} (hle : i₁ ≤ i₂)
    (hi₂ : i₂ ≤ m.privSize) : Keeps o m (m.replaceRange o a i₁ i₂ v).2 := by
  unfold Memory.replaceRange
  dsimp only
  split
  · rename_i hshort
    have hwrite := h.keeps_setBuffer (p := i₁) (v := v) (by omega)
    refine hwrite.trans (hwrite.sound.eraseRange (by omega) ?_)
    rwa [privSize_setBuffer]
  · have htake : (v.take (i₂ - i₁)).length ≤ i₂ - i₁ := List.length_take_le _ _
    have hwrite := h.keeps_setBuffer (p := i₁) (v := v.take (i₂ - i₁)) (by omega)
    refine hwrite.trans (hwrite.sound.insertRange ha hfit ?_).1
    rwa [privSize_setBuffer]

omit [Zero α] in
/-- Nothing is left to go past. -/
theorem iteratorAdvance_nil :
    iteratorAdvance n ([] : List α) = if n = 0 then some [] else none := by
  cases n <;> rfl

/-- **`replace` with input iterators** erases, or does nothing, or is undefined. -/
theorem Shaped.replaceInput_eq (h : m.Shaped o) {i₁ i₂ : ℕ} : m.replaceInput o a i₁ i₂ v
    = if v.length ≤ i₂ - i₁ then some (true, m.eraseRange o (i₁ + v.length) i₂, [])
      else if i₂ - i₁ = 0 then some (true, m, []) else none := by
  unfold Memory.replaceInput iteratorDistance
  dsimp only
  rw [List.writeAt_nil, h.setBuffer_buffer, iteratorAdvance_nil]
  by_cases hroom : i₂ - i₁ = 0
  · rw [if_pos hroom, if_pos hroom]
    rfl
  · rw [if_neg hroom, if_neg hroom]

/-- What it leaves, where it is defined. -/
theorem Sound.replaceInput (h : m.Sound o) {i₁ i₂ : ℕ} (hle : i₁ ≤ i₂) (hi₂ : i₂ ≤ m.privSize)
    {b : Bool} {m' : Memory α} {left : List α}
    (hr : m.replaceInput o a i₁ i₂ v = some (b, m', left)) : Keeps o m m' := by
  rw [h.shaped.replaceInput_eq] at hr
  split at hr
  · obtain ⟨-, rfl, -⟩ := hr
    exact h.eraseRange (by omega) hi₂
  · split at hr
    · obtain ⟨-, rfl, -⟩ := hr
      exact h.keeps_refl
    · exact absurd hr (Option.some_ne_none _).symm

theorem Sound.replace (h : m.Sound o) (ha : Conforms o a)
    (hfit : o.internalBufferChars ≤ o.maxStorage) {n₁ : ℕ} :
    Keeps o m (m.replace o a p n₁ v).2 := by
  unfold Memory.replace
  split
  · exact h.keeps_refl
  · dsimp only
    split
    · exact h.keeps_refl
    · exact h.replaceRange ha hfit (Nat.le_add_right _ _) (by omega)

/-! ## Capacity -/

/-- **What `priv_reserve_no_null_end` leaves**: the size it had, and room for
what was asked; but perhaps no null. -/
theorem Sound.privReserveNoNullEnd (h : m.Sound o) (ha : Conforms o a)
    (hfit : o.internalBufferChars ≤ o.maxStorage) (resArg : ℕ) :
    m.privReserveNoNullEnd o a resArg = (false, m)
      ∨ ∃ m', m.privReserveNoNullEnd o a resArg = (true, m') ∧ m'.Shaped o
        ∧ m'.privSize = m.privSize ∧ m'.privSize < m'.privStorage o
        ∧ resArg < m'.privStorage o ∧ (m.privCapacity o < resArg ∨ m' = m)
        ∧ Heap.Exchange m.heap m.repr.footprint m'.heap m'.repr.footprint := by
  have hlen := h.shaped.length_buffer
  have hlt := h.size_lt
  have hint := h.shaped.internal_le
  have hcap : m.privCapacity o = m.privStorage o - 1 := rfl
  unfold Memory.privReserveNoNullEnd
  split
  · exact Or.inl rfl
  split
  · rename_i hroom
    dsimp only
    rcases hns : m.nextStorage o (resArg + 1) (m.privStorage o) with _ | ns
    · exact Or.inl rfl
    dsimp only
    obtain ⟨-, hmax⟩ := h.shaped.nextStorage hlt hfit (by omega) hns
    have hanswer := ha m.heap none (resArg + 1) ns
    rcases hr : a m.heap none (resArg + 1) ns with _ | ⟨start, new⟩ | tail | ⟨_, _, _⟩
    · exact Or.inl rfl
    · rw [hr] at hanswer
      obtain ⟨hstart, hfresh, hlimit, hnew⟩ := hanswer
      have hl : (new.writeAt 0 (m.buffer.slice 0 m.privSize)).length = new.length := by
        refine List.length_writeAt_of_eq rfl ?_
        rw [List.length_slice (by omega)]
        omega
      have hmoved := h.shaped.adoptBuffer (n := m.privSize) hfresh hstart
        (d := new.writeAt 0 (m.buffer.slice 0 m.privSize)) (by omega)
        (hl ▸ hnew hmax) (by omega)
      rw [hl] at hmoved
      refine Or.inr ⟨_, rfl, hmoved.shaped, hmoved.size_eq, ?_, ?_, Or.inl hroom,
        hmoved.exchange⟩
      · rw [hmoved.size_eq, hmoved.storage_eq]
        omega
      · rw [hmoved.storage_eq]
        omega
    · exact Or.inl rfl
    · exact Or.inl rfl
  · exact Or.inr ⟨m, rfl, h.shaped, rfl, hlt, by omega, Or.inr rfl,
      Heap.Exchange.refl _ _⟩

/-- **`reserve`** writes the null that the new buffer lacks. -/
theorem Sound.reserve (h : m.Sound o) (ha : Conforms o a)
    (hfit : o.internalBufferChars ≤ o.maxStorage) (resArg : ℕ) :
    Keeps o m (m.reserve o a resArg).2
      ∧ ((m.reserve o a resArg).1 = true →
        resArg < (m.reserve o a resArg).2.privStorage o) := by
  unfold Memory.reserve
  rcases h.privReserveNoNullEnd ha hfit resArg with
    hr | ⟨m', hr, hshape, hsize, hlt, hroom, hsame, hex⟩
  · rw [hr]
    exact ⟨h.keeps_refl, fun hf => absurd hf Bool.false_ne_true⟩
  · rw [hr]
    dsimp only
    split
    · have hkeep := hshape.keeps_privTerminateString hlt
      refine ⟨⟨hkeep.sound, hex.trans hkeep.exchange⟩, fun _ => ?_⟩
      rwa [privTerminateString, privStorage_setBuffer]
    · rename_i hnot
      obtain rfl := hsame.resolve_left hnot
      exact ⟨h.keeps_refl, fun _ => hroom⟩

theorem Sound.resize (h : m.Sound o) (ha : Conforms o a)
    (hfit : o.internalBufferChars ≤ o.maxStorage) (n : ℕ) (c : α) :
    Keeps o m (m.resize o a n c).2 := by
  unfold Memory.resize
  split
  · rename_i hle
    exact h.eraseRange hle le_rfl
  · exact h.append ha hfit

/-- **`resize` without initialisation** sets the size before the null. -/
theorem Sound.resizeDefaultInit (h : m.Sound o) (ha : Conforms o a)
    (hfit : o.internalBufferChars ≤ o.maxStorage) (n : ℕ) :
    Keeps o m (m.resizeDefaultInit o a n).2 := by
  unfold Memory.resizeDefaultInit
  split
  · rename_i hle
    exact h.eraseRange hle le_rfl
  · rcases h.privReserveNoNullEnd ha hfit n with
      hr | ⟨m', hr, hshape, hsize, hlt, hroom, hsame, hex⟩
    · rw [hr]
      exact h.keeps_refl
    · rw [hr]
      have hkeep := hshape.setSize.keeps_privTerminateString (m := m'.setSize o n) (by
        rw [hshape.privSize_setSize hroom, privStorage_setSize]
        exact hroom)
      exact ⟨hkeep.sound, (hex.trans exchange_setSize).trans hkeep.exchange⟩

/-- **The condition on `shrink_to_fit`**: where it goes back to the internal
buffer, the bytes it reconstructs the short form over happen to hold the
length. -/
def ShrinksSafely (o : Options) (m : Memory α) : Prop :=
  ∀ length storage start, m.repr = .long length storage start →
    length < o.internalBufferChars → o.lengthBits length = length

/-- The characters of a sound string lie in its buffer. -/
theorem Sound.size_lt_length (h : m.Sound o) : m.privSize < m.buffer.length := by
  rw [h.shaped.length_buffer]
  exact h.size_lt

omit [Zero α] in
/-- The bytes hold the length wherever the short length overlays the low bits of
the long one, as on little-endian machines. -/
theorem shrinksSafely_of_lengthBits (hbits : ∀ n, o.lengthBits n = n % 2 ^ 7) :
    m.ShrinksSafely o := by
  intro length storage start _ hlt
  rw [hbits]
  exact Nat.mod_eq_of_lt (hlt.trans_le o.internal_le)

/-- A copy of the characters and the null ends with the null. -/
theorem Sound.null_copied (h : m.Sound o) (d : List α) :
    (d.writeAt 0 (m.buffer.slice 0 (m.privSize + 1)))[m.privSize]? = some 0 := by
  have hlt := h.size_lt_length
  have hslice : (m.buffer.slice 0 (m.privSize + 1)).length = m.privSize + 1 :=
    List.length_slice (by omega)
  have hread := List.getElem?_writeAt (d := d) (p := 0) (i := m.privSize)
    (v := m.buffer.slice 0 (m.privSize + 1)) (Nat.zero_le _) (by omega)
  rw [Nat.zero_add] at hread
  rw [hread, List.getElem?_slice (Nat.lt_succ_self _), Nat.zero_add]
  exact h.null

/-- The copy of the characters and the null stays inside the buffer. -/
theorem Sound.length_copied (h : m.Sound o) {d : List α} (hd : m.privSize < d.length) :
    (d.writeAt 0 (m.buffer.slice 0 (m.privSize + 1))).length = d.length := by
  have hlt := h.size_lt_length
  refine List.length_writeAt_of_eq rfl ?_
  rw [List.length_slice (by omega)]
  omega

/-- **`shrink_to_fit`** copies the null with the characters, to the internal
buffer or to a new one. -/
theorem Sound.shrinkToFit (h : m.Sound o) (ha : Conforms o a) {raw : List α}
    (hraw : raw.length = o.internalBufferChars) (hsafe : m.ShrinksSafely o) :
    Keeps o m (m.shrinkToFit o a raw) := by
  have hrefl := h.keeps_refl
  obtain ⟨heap, repr⟩ := m
  cases repr with
  | short length data => exact hrefl
  | long length storage start =>
    obtain ⟨hstart, hint, hmax, d, hd, hlen⟩ := h.shaped
    have hlt : length < storage := h.size_lt
    unfold Memory.shrinkToFit
    dsimp only
    rw [if_pos hint]
    split
    · rename_i hshort
      have hbits : o.lengthBits length % 2 ^ 7 = length := by
        rw [hsafe length storage start rfl hshort]
        exact Nat.mod_eq_of_lt (hshort.trans_le o.internal_le)
      rw [hbits]
      exact ⟨⟨shaped_short ((h.length_copied (hraw ▸ hshort)).trans hraw), hshort,
        h.null_copied raw⟩, Heap.Exchange.free heap start⟩
    · have hanswer := ha heap none (length + 1) (length + 1)
      rcases hr : a heap none (length + 1) (length + 1) with _ | ⟨start', new⟩ | tail | _
      · exact hrefl
      · rw [hr] at hanswer
        obtain ⟨hstart', hfresh, hlimit, hnew⟩ := hanswer
        have hne : start' ≠ start := by
          rintro rfl
          exact absurd (hfresh.symm.trans hd) (by simp)
        have hcopy := h.length_copied (d := new) (Nat.lt_of_succ_le hlimit)
        -- the length is stored again as it was
        have hbits : length % 2 ^ (o.storedBits - 1) = length :=
          Nat.mod_eq_of_lt (lt_of_lt_maxStorage (hlt.trans_le hmax))
        have hmoved := Moved.of_setLong (m := ⟨heap, .long length storage start⟩)
          (r := .long length storage start) (n := length)
          (h := Function.update (Function.update heap start' (some _)) start none)
          (by rw [Function.update_of_ne hne, Function.update_self]) hstart'
          (by omega) (hnew (by omega)) hcopy (by omega) (by
            rw [Function.update_comm hne]
            refine (Heap.Exchange.free heap start).trans (Heap.Exchange.alloc ?_ _)
            rwa [Function.update_of_ne hne])
        unfold setLong at hmoved
        rw [hbits] at hmoved
        exact hmoved.keeps (hcopy ▸ Nat.lt_of_succ_le hlimit) (h.null_copied new)
      · exact hrefl
      · exact hrefl

/-! ## Assignment -/

/-- **`assign` with pointers** reserves first. -/
theorem Sound.assignPtr (h : m.Sound o) (ha : Conforms o a)
    (hfit : o.internalBufferChars ≤ o.maxStorage) : Keeps o m (m.assignPtr o a v).2 := by
  obtain ⟨hkeep, hroom⟩ := h.reserve ha hfit v.length
  unfold Memory.assignPtr
  rcases hr : m.reserve o a v.length with ⟨_ | _, m'⟩
  · rw [hr] at hkeep
    exact hkeep
  · rw [hr] at hkeep hroom
    have hlt : v.length < m'.privStorage o := hroom rfl
    have hlen : m'.buffer.length = m'.privStorage o := hkeep.sound.shaped.length_buffer
    have hl := List.length_writeAt_of_eq (v := v) (p := 0) hlen (by omega)
    obtain ⟨hd, hn⟩ := terminate_spec hl hlt
    exact hkeep.trans (hkeep.sound.shaped.keeps_write hd hlt hn)

/-- **`assign` with other iterators** overwrites, and then erases or appends. -/
theorem Sound.assignIter (h : m.Sound o) (ha : Conforms o a)
    (hfit : o.internalBufferChars ≤ o.maxStorage) {forward : Bool} :
    Keeps o m (m.assignIter o a forward v).2 := by
  have htake : (v.take (min v.length m.privSize)).length ≤ m.privSize :=
    (List.length_take_le _ _).trans (min_le_right _ _)
  have hwrite := h.keeps_setBuffer (p := 0) (v := v.take (min v.length m.privSize))
    (by omega)
  unfold Memory.assignIter
  dsimp only
  split
  · refine hwrite.trans (hwrite.sound.eraseRange (min_le_right _ _) ?_)
    rw [privSize_setBuffer]
  · split
    · exact hwrite.trans (hwrite.sound.append ha hfit)
    · exact hwrite.trans (hwrite.sound.appendInput ha hfit)

theorem Sound.assignString (h : m.Sound o) (ha : Conforms o a)
    (hfit : o.internalBufferChars ≤ o.maxStorage) : Keeps o m (m.assignString o a v).2 := by
  unfold Memory.assignString
  split
  · exact h.assignPtr ha hfit
  · exact h.assignIter ha hfit

/-- **A long string gives its buffer up** and is empty. -/
theorem Sound.releaseBuffer (h : m.Sound o) {raw : List α}
    (hraw : raw.length = o.internalBufferChars) : Keeps o m (m.releaseBuffer o raw) := by
  have hfree := h.shaped.exchange_deallocateBlock
  have hrefl := h.keeps_refl
  obtain ⟨heap, repr⟩ := m
  cases repr with
  | short length data => exact hrefl
  | long length storage start =>
    have hpos := o.internal_pos
    refine ⟨⟨shaped_short (List.length_writeAt_of_eq hraw ?_), o.internal_pos, ?_⟩, hfree⟩
    · exact hpos
    · exact List.getElem?_writeAt_singleton (Nat.zero_le _) 0

/-! ## Construction -/

section Construction

variable {h : Heap (List α)} {raw : List α}

omit [Zero α] in
theorem shaped_base (hraw : raw.length = o.internalBufferChars) :
    (base h raw).Shaped o := shaped_short hraw

/-- **A new string is empty**, once its null is written. -/
theorem keeps_empty (hraw : raw.length = o.internalBufferChars) :
    Keeps o (base h raw) (base h raw).privTerminateString :=
  (shaped_base hraw).keeps_privTerminateString o.internal_pos

/-- **The constructors that assign** leave a sound string, or no buffer. -/
theorem constructAssign_spec (hraw : raw.length = o.internalBufferChars)
    {assign : Memory α → Bool × Memory α}
    (hassign : ∀ m : Memory α, m.Sound o → Keeps o m (assign m).2) :
    ∃ b m', constructAssign o assign h raw = (b, m')
      ∧ (b = true → Keeps o (base h raw) m')
      ∧ (b = false → Heap.Exchange h ∅ m'.heap ∅) := by
  have hempty := keeps_empty (h := h) hraw
  have hkeep := hempty.trans (hassign _ hempty.sound)
  unfold constructAssign
  rcases hr : assign (base h raw).privTerminateString with ⟨_ | _, m'⟩
  · rw [hr] at hkeep
    refine ⟨false, _, rfl, fun hf => absurd hf Bool.false_ne_true, fun _ => ?_⟩
    exact hkeep.exchange.trans hkeep.sound.shaped.exchange_deallocateBlock
  · rw [hr] at hkeep
    exact ⟨true, m', rfl, fun _ => hkeep, fun hf => absurd hf.symm Bool.false_ne_true⟩

/-- **The condition on the constructors that leave the characters as they
are**: one more than their number does not wrap, and where it is more than the
internal buffer has, it is less than the greatest storage. -/
def InitFits (o : Options) (n : ℕ) : Prop :=
  n + 1 < 2 ^ o.bits ∧ (n + 1 ≤ o.internalBufferChars ∨ n + 2 ≤ o.maxStorage)

omit [Zero α] in
/-- **The initial block** has room for the characters and the null. -/
theorem allocateInitialBlock_spec (ha : Conforms o a)
    (hraw : raw.length = o.internalBufferChars) {n : ℕ} (hfits : InitFits o n) :
    (base h raw).allocateInitialBlock o a (Word.add o.bits n 1) = (false, base h raw)
      ∨ ∃ m', (base h raw).allocateInitialBlock o a (Word.add o.bits n 1) = (true, m')
        ∧ m'.Shaped o ∧ m'.privSize = 0 ∧ n < m'.privStorage o
        ∧ Heap.Exchange h ∅ m'.heap m'.repr.footprint := by
  rw [Word.add_of_lt hfits.1]
  unfold Memory.allocateInitialBlock
  split
  · split
    · rename_i hlong
      have hanswer := ha h none (n + 1) (n + 1 + 1)
      have hheap : (base h raw).heap = h := rfl
      rw [hheap]
      rcases hr : a h none (n + 1) (n + 1 + 1) with _ | ⟨start, new⟩ | tail | _
      · exact Or.inl rfl
      · rw [hr] at hanswer
        obtain ⟨hstart, hfresh, hlimit, hnew⟩ := hanswer
        have hmoved := (shaped_base (h := h) hraw).adoptBuffer (n := 0) (d := new) hfresh
          hstart (by omega) (hnew (hfits.2.resolve_left (by omega))) (by omega)
        refine Or.inr ⟨_, rfl, hmoved.shaped, hmoved.size_eq, ?_, hmoved.exchange⟩
        rw [hmoved.storage_eq]
        omega
      · exact Or.inl rfl
      · exact Or.inl rfl
    · rename_i hshort
      exact Or.inr ⟨_, rfl, shaped_base hraw, rfl, Nat.lt_of_succ_le (Nat.le_of_not_lt hshort),
        Heap.Exchange.refl _ _⟩
  · exact Or.inl rfl

theorem constructDefaultInit_spec (ha : Conforms o a)
    (hraw : raw.length = o.internalBufferChars) {n : ℕ} (hfits : InitFits o n) :
    ∃ b m', constructDefaultInit o a h raw n = (b, m')
      ∧ (b = true → Keeps o (base h raw) m')
      ∧ (b = false → Heap.Exchange h ∅ m'.heap ∅) := by
  unfold constructDefaultInit
  rcases allocateInitialBlock_spec (h := h) ha hraw hfits with
    hr | ⟨m', hr, hshape, hsize, hroom, hex⟩
  · rw [hr]
    exact ⟨false, _, rfl, fun hf => absurd hf Bool.false_ne_true,
      fun _ => Heap.Exchange.refl _ _⟩
  · rw [hr]
    have hkeep := hshape.setSize.keeps_privTerminateString (m := m'.setSize o n) (by
      rw [hshape.privSize_setSize hroom, privStorage_setSize]
      exact hroom)
    exact ⟨true, _, rfl,
      fun _ => ⟨hkeep.sound, (hex.trans exchange_setSize).trans hkeep.exchange⟩,
      fun hf => absurd hf.symm Bool.false_ne_true⟩

theorem constructReserve_spec (ha : Conforms o a)
    (hraw : raw.length = o.internalBufferChars) {n : ℕ} (hfits : InitFits o n) :
    ∃ b m', constructReserve o a h raw n = (b, m')
      ∧ (b = true → Keeps o (base h raw) m')
      ∧ (b = false → Heap.Exchange h ∅ m'.heap ∅) := by
  unfold constructReserve
  rcases allocateInitialBlock_spec (h := h) ha hraw hfits with
    hr | ⟨m', hr, hshape, hsize, hroom, hex⟩
  · rw [hr]
    exact ⟨false, _, rfl, fun hf => absurd hf Bool.false_ne_true,
      fun _ => Heap.Exchange.refl _ _⟩
  · rw [hr]
    have hkeep := hshape.keeps_privTerminateString (by omega)
    exact ⟨true, _, rfl, fun _ => ⟨hkeep.sound, hex.trans hkeep.exchange⟩,
      fun hf => absurd hf.symm Bool.false_ne_true⟩

end Construction

end Memory

end BasicString
