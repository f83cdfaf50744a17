import BoostContainer.Lib.Run

/-!
# Vectors of a fixed capacity

A `static_vector` runs the algorithms of `vector` on storage of its own, of a capacity
that is part of its type, and throws where it would need more. What fits is checked on
each way to insert, to assign and to swap. The size is kept in an integer of
`stored_size_type`, and nothing relates its width to the capacity.

The elements are in numbered cells, of which the first `m_size` are looked at; `high`
is beyond all cells in which one was ever constructed. An operation that throws also
leaves something, and so answers both.
-/

namespace StaticVector

/-- **`static_storage_allocator`**: what tells one type of static vectors from another. -/
structure StorageAllocator where
  internalCapacity : ℕ
  inplaceAlignment : ℕ
  deriving DecidableEq

/-- **A static vector**: its storage, `m_size`, and its cells. -/
structure Static (α : Type) where
  storage : StorageAllocator
  mSize : ℕ
  cells : ℕ → Option α
  high : ℕ

/-- Whether iterators are only input iterators. -/
inductive Category where
  | input
  | forward
  deriving DecidableEq

section Definitions

variable {α : Type} (bits : ℕ)

/-- No elements. -/
def empty (storage : StorageAllocator) : Static α := ⟨storage, 0, fun _ => none, 0⟩

/-- `capacity`. -/
def Static.capacity (s : Static α) : ℕ := s.storage.internalCapacity

/-- The elements that are looked at. -/
def Static.view (s : Static α) : List α := (List.range s.mSize).filterMap s.cells

/-- **The elements are to be these**: new ones are constructed, those beyond destroyed, and
the size is stored. -/
def Static.become (l : List α) (s : Static α) : Static α where
  storage := s.storage
  mSize := l.length % 2 ^ bits
  cells i := if i < l.length then l[i]? else if i < s.mSize then none else s.cells i
  high := max s.high l.length

/-- `clear`. -/
def Static.clear (s : Static α) : Static α := s.become bits []

/-- `erase` of a range, and `pop_back`. -/
def Static.erase (first last : ℕ) (s : Static α) : Static α :=
  s.become bits (s.view.take first ++ s.view.drop (max first last))

/-! ## The operations -/

/-- **`emplace_back`**: `room_enough`, or `on_capacity_overflow`. -/
def Static.emplaceBack (v : α) (s : Static α) : Bool × Static α :=
  if s.mSize ≠ s.capacity then (false, s.become bits (s.view ++ [v])) else (true, s)

/-- **`priv_insert_forward_range`**, of one value, of copies or of a range. -/
def Static.insertForward (pos : ℕ) (values : List α) (s : Static α) : Bool × Static α :=
  if values.length ≤ s.capacity - s.mSize then
    (false, s.become bits (s.view.take pos ++ values ++ s.view.drop pos))
  else (true, s)

/-- **`insert`** of an input range: one value after the other. -/
def Static.insertInput : ℕ → List α → Static α → Bool × Static α
  | _, [], s => (false, s)
  | pos, v :: vs, s =>
    let r := s.insertForward bits pos [v]
    if r.1 then r else Static.insertInput (pos + 1) vs r.2

/-- `insert` of a range. -/
def Static.insert (category : Category) (pos : ℕ) (values : List α) (s : Static α) :
    Bool × Static α :=
  match category with
  | .input => s.insertInput bits pos values
  | .forward => s.insertForward bits pos values

/-- **`priv_resize(version_0)`** -/
def Static.resize (newSize : ℕ) (v : α) (s : Static α) : Bool × Static α :=
  if s.capacity < newSize then (true, s)
  else if newSize < s.mSize then (false, s.become bits (s.view.take newSize))
  else (false, s.become bits (s.view ++ List.replicate (newSize - s.mSize) v))

/-- `reserve`, and `priv_move_to_new_buffer(version_0)`. -/
def Static.reserve (newCap : ℕ) (s : Static α) : Bool × Static α :=
  (decide (s.capacity < newCap), s)

/-- **`assign`** of a range: what is there is written over, then the rest is inserted. -/
def Static.assign (category : Category) (values : List α) (s : Static α) : Bool × Static α :=
  if values.length ≤ s.mSize then (false, s.become bits values)
  else (s.become bits (values.take s.mSize)).insert bits category s.mSize (values.drop s.mSize)

/-- `adaptive_merge`, with the cells that are free as a buffer. -/
def Static.adaptiveMerge (le : α → α → Bool) (left right : List α) (s : Static α) : Static α :=
  { s.become bits (List.merge left right le) with high := max s.high s.capacity }

/-- **`merge`** of a range. -/
def Static.merge (le : α → α → Bool) (category : Category) (values : List α) (s : Static α) :
    Bool × Static α :=
  if category = .forward ∧ s.capacity - s.mSize < values.length then (true, s)
  else
    let r := s.insert bits category s.mSize values
    if r.1 then r else (false, r.2.adaptiveMerge bits le s.view values)

/-- **`priv_copy_assign`**: the capacity is checked where the types are not the same. -/
def copyAssign (s x : Static α) : Bool × Static α × Static α :=
  if s.storage ≠ x.storage ∧ s.capacity < x.mSize then (true, s, x)
  else (false, s.become bits x.view, x)

/-- **`priv_move_assign`**, which clears the source. -/
def moveAssign (s x : Static α) : Bool × Static α × Static α :=
  if s.storage ≠ x.storage ∧ s.capacity < x.mSize then (true, s, x)
  else (false, s.become bits x.view, x.clear bits)

/-- **`deep_swap`** -/
def deepSwap (s x : Static α) : Bool × Static α × Static α :=
  if s.storage ≠ x.storage ∧ (x.capacity < s.mSize ∨ s.capacity < x.mSize) then (true, s, x)
  else (false, s.become bits x.view, x.become bits s.view)

/-- **The constructors of a number of elements**, with `priv_first_allocation`. -/
def constructN (storage : StorageAllocator) (values : List α) : Option (Static α) :=
  if storage.internalCapacity < values.length then none
  else some ((empty storage).become bits values)

/-- The constructors of a range. -/
def constructRange (storage : StorageAllocator) (category : Category) (values : List α) :
    Option (Static α) :=
  let r := (empty storage).assign bits category values
  if r.1 then none else some r.2

/-- **The move constructors**: a source of the same type is cleared, and one of another
keeps what the moves left. -/
def constructMove (moved : α → α) (storage : StorageAllocator) (x : Static α) :
    Option (Static α × Static α) :=
  (constructN bits storage x.view).map fun s =>
    (s, if storage = x.storage then x.clear bits
        else { x with cells := fun i => (x.cells i).map moved })

end Definitions

/-! ## What is asked of a static vector -/

/-- **A static vector is safe**: the stored size is the number of the elements, which come
first; they are no more than the capacity, and none was ever constructed beyond it. -/
structure Static.Safe {α : Type} (s : Static α) : Prop where
  live : ∀ i, (s.cells i).isSome ↔ i < s.mSize
  size_le : s.mSize ≤ s.capacity
  high_le : s.high ≤ s.capacity

section Operations

variable {α : Type} {bits n : ℕ} {s x : Static α} {l : List α} {storage : StorageAllocator}

namespace Static.Safe

/-- As many elements are looked at as there are. -/
theorem length_view (h : s.Safe) : s.view.length = s.mSize := by
  have hall : ∀ is : List ℕ, (∀ i ∈ is, (s.cells i).isSome = true) →
      (is.filterMap s.cells).length = is.length := by
    intro is his
    induction is with
    | nil => rfl
    | cons i is ih =>
      obtain ⟨v, hv⟩ := Option.isSome_iff_exists.mp (his i List.mem_cons_self)
      rw [List.filterMap_cons_some hv, List.length_cons, List.length_cons,
        ih fun j hj => his j (List.mem_cons_of_mem i hj)]
  rw [view, hall _ fun i hi => (h.live i).mpr (List.mem_range.mp hi), List.length_range]

theorem empty : (StaticVector.empty storage : Static α).Safe :=
  ⟨fun i => iff_of_false (by simp [StaticVector.empty]) (Nat.not_lt_zero i), Nat.zero_le _,
    Nat.zero_le _⟩

/-- **What fits is stored right.** -/
theorem mSize_become (hbits : s.capacity < 2 ^ bits) (hl : l.length ≤ s.capacity) :
    (s.become bits l).mSize = l.length :=
  Nat.mod_eq_of_lt (by omega)

theorem become (h : s.Safe) (hbits : s.capacity < 2 ^ bits) (hl : l.length ≤ s.capacity) :
    (s.become bits l).Safe := by
  refine ⟨fun i => ?_, ?_, max_le h.high_le hl⟩
  · rw [mSize_become hbits hl]
    simp only [Static.become]
    split
    · next hi =>
      rw [List.getElem?_eq_getElem hi]
      exact iff_of_true rfl hi
    · next hi =>
      refine iff_of_false ?_ hi
      split
      · exact Bool.false_ne_true
      · next hm => exact fun hs => hm ((h.live i).mp hs)
  · rw [mSize_become hbits hl]
    exact hl

end Static.Safe

/-- **How an operation ends**: what it leaves is safe and of the same type, and it throws
exactly if too much is needed. -/
structure EndsSafe (s : Static α) (needs : ℕ) (r : Bool × Static α) : Prop where
  safe : r.2.Safe
  storage_eq : r.2.storage = s.storage
  threw_iff : r.1 = true ↔ s.capacity < needs

theorem EndsSafe.capacity_eq {r : Bool × Static α} (h : EndsSafe s n r) :
    r.2.capacity = s.capacity :=
  congrArg StorageAllocator.internalCapacity h.storage_eq

/-- The elements are as many as are needed, and they fit. -/
theorem endsSafe_become (h : s.Safe) (hbits : s.capacity < 2 ^ bits) (hl : l.length ≤ s.capacity)
    (hn : n ≤ s.capacity) : EndsSafe s n (false, s.become bits l) :=
  ⟨h.become hbits hl, rfl, iff_of_false Bool.false_ne_true (not_lt.mpr hn)⟩

/-- Too much is needed, and nothing is done. -/
theorem endsSafe_threw (h : s.Safe) (hn : s.capacity < n) : EndsSafe s n (true, s) :=
  ⟨h, rfl, iff_of_true rfl hn⟩

theorem emplaceBack_ends (h : s.Safe) (hbits : s.capacity < 2 ^ bits) (v : α) :
    EndsSafe s (s.mSize + 1) (s.emplaceBack bits v) := by
  have hsize := h.size_le
  rw [Static.emplaceBack]
  split
  · next hne =>
    have hlt : s.mSize < s.capacity := Nat.lt_of_le_of_ne hsize hne
    refine endsSafe_become h hbits ?_ hlt
    rw [List.length_append, h.length_view, List.length_singleton]
    exact hlt
  · next hfull => exact endsSafe_threw h (by omega)

/-- What an insertion leaves if it fits. -/
theorem length_insert (h : s.Safe) (pos : ℕ) (values : List α) :
    (s.view.take pos ++ values ++ s.view.drop pos).length = s.mSize + values.length := by
  have hview := h.length_view
  simp only [List.length_append, List.length_take, List.length_drop]
  omega

theorem insertForward_ends (h : s.Safe) (hbits : s.capacity < 2 ^ bits) (pos : ℕ)
    (values : List α) :
    EndsSafe s (s.mSize + values.length) (s.insertForward bits pos values) := by
  have hsize := h.size_le
  rw [Static.insertForward]
  split
  · next hle =>
    refine endsSafe_become h hbits ?_ (by omega)
    rw [length_insert h]
    omega
  · next hgt => exact endsSafe_threw h (by omega)

/-- **An input range is inserted as far as it fits.** -/
theorem insertInput_ends (h : s.Safe) (hbits : s.capacity < 2 ^ bits) (pos : ℕ)
    (values : List α) :
    EndsSafe s (s.mSize + values.length) (s.insertInput bits pos values) := by
  induction values generalizing pos s with
  | nil => exact ⟨h, rfl, iff_of_false Bool.false_ne_true (not_lt.mpr h.size_le)⟩
  | cons v vs ih =>
    have hone := insertForward_ends h hbits pos [v]
    rw [Static.insertInput]
    split
    · next hthrew =>
      refine ⟨hone.safe, hone.storage_eq, iff_of_true hthrew ?_⟩
      have hlt := hone.threw_iff.mp hthrew
      simp only [List.length_cons, List.length_nil] at hlt ⊢
      omega
    · next hok =>
      have hfit : s.mSize + 1 ≤ s.capacity := not_lt.mp fun hlt => hok (hone.threw_iff.mpr hlt)
      have hgrown : (s.insertForward bits pos [v]).2.mSize = s.mSize + 1 := by
        have hsize := h.size_le
        rw [Static.insertForward, if_pos (by rw [List.length_singleton]; omega)]
        rw [Static.Safe.mSize_become hbits (by rw [length_insert h]; exact hfit), length_insert h]
        rfl
      have hrest := ih hone.safe (by rw [hone.capacity_eq]; exact hbits) (pos + 1)
      refine ⟨hrest.safe, hrest.storage_eq.trans hone.storage_eq, ?_⟩
      rw [hrest.threw_iff, hone.capacity_eq, hgrown, List.length_cons]
      omega

theorem insert_ends (h : s.Safe) (hbits : s.capacity < 2 ^ bits) (category : Category) (pos : ℕ)
    (values : List α) :
    EndsSafe s (s.mSize + values.length) (s.insert bits category pos values) := by
  cases category with
  | input => exact insertInput_ends h hbits pos values
  | forward => exact insertForward_ends h hbits pos values

theorem resize_ends (h : s.Safe) (hbits : s.capacity < 2 ^ bits) (n : ℕ) (v : α) :
    EndsSafe s n (s.resize bits n v) := by
  have hview := h.length_view
  rw [Static.resize]
  split
  · next hlt => exact endsSafe_threw h hlt
  · next hle =>
    split
    · refine endsSafe_become h hbits ?_ (not_lt.mp hle)
      rw [List.length_take]
      omega
    · refine endsSafe_become h hbits ?_ (not_lt.mp hle)
      rw [List.length_append, List.length_replicate]
      omega

theorem assign_ends (h : s.Safe) (hbits : s.capacity < 2 ^ bits) (category : Category)
    (values : List α) : EndsSafe s values.length (s.assign bits category values) := by
  have hsize := h.size_le
  rw [Static.assign]
  split
  · next hle => exact endsSafe_become h hbits (hle.trans hsize) (hle.trans hsize)
  · next hlt =>
    have htake : (values.take s.mSize).length = s.mSize := by
      rw [List.length_take]
      omega
    have hover := h.become hbits (htake.trans_le hsize)
    have hsame : (s.become bits (values.take s.mSize)).mSize = s.mSize :=
      (Static.Safe.mSize_become hbits (htake.trans_le hsize)).trans htake
    have hrest := insert_ends hover hbits category s.mSize (values.drop s.mSize)
    have hsum : s.mSize + (values.drop s.mSize).length = values.length := by
      rw [List.length_drop]
      omega
    rw [hsame, hsum] at hrest
    exact ⟨hrest.safe, hrest.storage_eq, hrest.threw_iff⟩

theorem merge_ends (h : s.Safe) (hbits : s.capacity < 2 ^ bits) (le : α → α → Bool)
    (category : Category) (values : List α) :
    EndsSafe s (s.mSize + values.length) (s.merge bits le category values) := by
  have hsize := h.size_le
  have hview := h.length_view
  have hinsert := insert_ends h hbits category s.mSize values
  rw [Static.merge]
  split
  · next hlt => exact endsSafe_threw h (by omega)
  · simp only
    split
    · next hthrew => exact ⟨hinsert.safe, hinsert.storage_eq, hinsert.threw_iff⟩
    · next hok =>
      have hfit : s.mSize + values.length ≤ s.capacity :=
        not_lt.mp fun hlt => hok (hinsert.threw_iff.mpr hlt)
      have hlen : (List.merge s.view values le).length ≤ s.capacity := by
        rw [List.length_merge, hview]
        exact hfit
      have hcap := hinsert.capacity_eq
      have hsafe : (Static.become bits (List.merge s.view values le)
          (s.insert bits category s.mSize values).2).Safe :=
        hinsert.safe.become (by rw [hcap]; exact hbits) (by rw [hcap]; exact hlen)
      exact ⟨⟨hsafe.live, hsafe.size_le, max_le hinsert.safe.high_le le_rfl⟩, hinsert.storage_eq,
        iff_of_false Bool.false_ne_true (not_lt.mpr hfit)⟩

/-- What is erased leaves room. -/
theorem erase_makes_room (h : s.Safe) (hbits : s.capacity < 2 ^ bits) (first last : ℕ) :
    EndsSafe s 0 (false, s.erase bits first last) := by
  refine endsSafe_become h hbits ?_ (Nat.zero_le _)
  have hview := h.length_view
  have hsize := h.size_le
  have hmax := le_max_left first last
  simp only [List.length_append, List.length_take, List.length_drop]
  omega

/-! ## Two static vectors -/

/-- **How an operation on two static vectors ends**: both are safe and of the types they
had, and it throws exactly if something does not fit, and then nothing has changed. -/
structure BothEndSafe (s x : Static α) (fits : Prop) (r : Bool × Static α × Static α) : Prop where
  first : r.2.1.Safe
  second : r.2.2.Safe
  first_storage : r.2.1.storage = s.storage
  second_storage : r.2.2.storage = x.storage
  threw_iff : r.1 = true ↔ ¬ fits
  unchanged : r.1 = true → r.2 = (s, x)

/-- Vectors of one type have one capacity. -/
theorem size_le_of_same (hx : x.Safe) (hsame : s.storage = x.storage) : x.mSize ≤ s.capacity :=
  hx.size_le.trans_eq (congrArg StorageAllocator.internalCapacity hsame.symm)

/-- Something does not fit, and nothing is done. -/
theorem bothEndSafe_threw {fits : Prop} (hs : s.Safe) (hx : x.Safe) (hno : ¬ fits) :
    BothEndSafe s x fits (true, s, x) :=
  ⟨hs, hx, rfl, rfl, iff_of_true rfl hno, fun _ => rfl⟩

/-- The elements of the other fit. -/
theorem become_view (hs : s.Safe) (hx : x.Safe) (hbits : s.capacity < 2 ^ bits)
    (hle : x.mSize ≤ s.capacity) : (s.become bits x.view).Safe :=
  hs.become hbits (hx.length_view.trans_le hle)

theorem copyAssign_ends (hs : s.Safe) (hx : x.Safe) (hbits : s.capacity < 2 ^ bits) :
    BothEndSafe s x (x.mSize ≤ s.capacity) (copyAssign bits s x) := by
  rw [copyAssign]
  split
  · next hlt => exact bothEndSafe_threw hs hx (not_le.mpr hlt.2)
  · next hno =>
    have hle : x.mSize ≤ s.capacity := by
      by_cases hsame : s.storage = x.storage
      · exact size_le_of_same hx hsame
      · exact not_lt.mp fun hlt => hno ⟨hsame, hlt⟩
    exact ⟨become_view hs hx hbits hle, hx, rfl, rfl,
      iff_of_false Bool.false_ne_true (not_not.mpr hle), fun h => absurd h Bool.false_ne_true⟩

/-- Nothing is left. -/
theorem Static.Safe.clear (hx : x.Safe) (hbits : x.capacity < 2 ^ bits) : (x.clear bits).Safe :=
  hx.become hbits (Nat.zero_le _)

theorem moveAssign_ends (hs : s.Safe) (hx : x.Safe) (hbits : s.capacity < 2 ^ bits)
    (hxbits : x.capacity < 2 ^ bits) :
    BothEndSafe s x (x.mSize ≤ s.capacity) (moveAssign bits s x) := by
  have hcopy := copyAssign_ends hs hx hbits
  rw [copyAssign] at hcopy
  rw [moveAssign]
  split
  · next hlt =>
    rw [if_pos hlt] at hcopy
    exact hcopy
  · next hno =>
    rw [if_neg hno] at hcopy
    exact ⟨hcopy.first, hx.clear hxbits, hcopy.first_storage, rfl, hcopy.threw_iff,
      fun h => absurd h Bool.false_ne_true⟩

theorem deepSwap_ends (hs : s.Safe) (hx : x.Safe) (hbits : s.capacity < 2 ^ bits)
    (hxbits : x.capacity < 2 ^ bits) :
    BothEndSafe s x (x.mSize ≤ s.capacity ∧ s.mSize ≤ x.capacity) (deepSwap bits s x) := by
  rw [deepSwap]
  split
  · next hlt => exact bothEndSafe_threw hs hx (by omega)
  · next hno =>
    have hle : x.mSize ≤ s.capacity ∧ s.mSize ≤ x.capacity := by
      by_cases hsame : s.storage = x.storage
      · exact ⟨size_le_of_same hx hsame, size_le_of_same hs hsame.symm⟩
      · exact ⟨not_lt.mp fun hlt => hno ⟨hsame, .inr hlt⟩,
          not_lt.mp fun hlt => hno ⟨hsame, .inl hlt⟩⟩
    exact ⟨become_view hs hx hbits hle.1, become_view hx hs hxbits hle.2, rfl, rfl,
      iff_of_false Bool.false_ne_true (not_not.mpr hle), fun h => absurd h Bool.false_ne_true⟩

/-! ## The constructors -/

/-- **How a constructor ends**: what is made is safe, and it throws exactly if too much is
needed. -/
structure MadeSafe (storage : StorageAllocator) (needs : ℕ) (r : Option (Static α)) : Prop where
  safe : ∀ s, r = some s → s.Safe ∧ s.storage = storage
  threw_iff : r = none ↔ storage.internalCapacity < needs

theorem constructN_makes (hbits : storage.internalCapacity < 2 ^ bits) (values : List α) :
    MadeSafe storage values.length (constructN bits storage values) := by
  rw [constructN]
  split
  · next hlt => exact ⟨fun s h => (nomatch h), iff_of_true rfl hlt⟩
  · next hle =>
    refine ⟨fun s h => ?_, iff_of_false (Option.some_ne_none _) hle⟩
    obtain rfl := Option.some.inj h
    exact ⟨Static.Safe.empty.become hbits (not_lt.mp hle), rfl⟩

theorem constructRange_makes (hbits : storage.internalCapacity < 2 ^ bits) (category : Category)
    (values : List α) :
    MadeSafe storage values.length (constructRange bits storage category values) := by
  have hends : EndsSafe (empty storage) values.length
      ((empty storage).assign bits category values) :=
    assign_ends Static.Safe.empty hbits category values
  rw [constructRange]
  split
  · next hthrew => exact ⟨fun s h => (nomatch h), iff_of_true rfl (hends.threw_iff.mp hthrew)⟩
  · next hok =>
    refine ⟨fun s h => ?_, iff_of_false (Option.some_ne_none _) fun hlt =>
      hok (hends.threw_iff.mpr hlt)⟩
    obtain rfl := Option.some.inj h
    exact ⟨hends.safe, hends.storage_eq⟩

/-- **What moves leave is safe.** -/
theorem Static.Safe.moved (hx : x.Safe) (moved : α → α) :
    ({ x with cells := fun i => (x.cells i).map moved } : Static α).Safe :=
  ⟨fun i => by rw [Option.isSome_map]; exact hx.live i, hx.size_le, hx.high_le⟩

theorem constructMove_makes (hx : x.Safe) (hbits : storage.internalCapacity < 2 ^ bits)
    (hxbits : x.capacity < 2 ^ bits) (moved : α → α) :
    MadeSafe storage x.mSize ((constructMove bits moved storage x).map Prod.fst) ∧
      ∀ r, constructMove bits moved storage x = some r → r.2.Safe ∧ r.2.storage = x.storage := by
  have hmade := constructN_makes hbits x.view
  rw [hx.length_view] at hmade
  rw [constructMove, Option.map_map]
  refine ⟨?_, fun r hr => ?_⟩
  · have hfst : ∀ o : Option (Static α), o.map (Prod.fst ∘ fun s => (s,
        if storage = x.storage then x.clear bits
        else { x with cells := fun i => (x.cells i).map moved })) = o := fun o => by
      cases o <;> rfl
    rw [hfst]
    exact hmade
  · obtain ⟨s, -, rfl⟩ := Option.map_eq_some_iff.mp hr
    show Static.Safe (ite _ _ _) ∧ Static.storage (ite _ _ _) = _
    split
    · exact ⟨hx.clear hxbits, rfl⟩
    · exact ⟨hx.moved moved, rfl⟩

/-! ## What throws has changed nothing -/

theorem emplaceBack_unchanged (v : α) (h : (s.emplaceBack bits v).1 = true) :
    (s.emplaceBack bits v).2 = s := by
  rw [Static.emplaceBack] at h ⊢
  split at h
  · exact absurd h Bool.false_ne_true
  · next hfull => rw [if_neg hfull]

theorem insertForward_unchanged (pos : ℕ) (values : List α)
    (h : (s.insertForward bits pos values).1 = true) :
    (s.insertForward bits pos values).2 = s := by
  rw [Static.insertForward] at h ⊢
  split at h
  · exact absurd h Bool.false_ne_true
  · next hgt => rw [if_neg hgt]

theorem resize_unchanged (n : ℕ) (v : α) (h : (s.resize bits n v).1 = true) :
    (s.resize bits n v).2 = s := by
  rw [Static.resize] at h ⊢
  split at h
  · next hlt => rw [if_pos hlt]
  · split at h <;> exact absurd h Bool.false_ne_true

theorem merge_unchanged (hs : s.Safe) (hbits : s.capacity < 2 ^ bits) (le : α → α → Bool)
    (values : List α) (h : (s.merge bits le .forward values).1 = true) :
    (s.merge bits le .forward values).2 = s := by
  have hneeds := (merge_ends hs hbits le .forward values).threw_iff.mp h
  have hsize := hs.size_le
  rw [Static.merge, if_pos ⟨rfl, by omega⟩]

end Operations

end StaticVector
