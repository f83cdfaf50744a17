import BoostContainer.Lib.SlotStores
import BoostContainer.Detail.CopyMoveAlgo
import BoostContainer.Detail.Uninitialized

/-!
# Assigning ranges

A range is assigned to elements that are there and slots that are raw: what both
ranges have is assigned, and then the tail of the longer one is constructed, or
destroyed. Where the bytes of an element are all there is to it, bytes are
copied instead; which overload of an algorithm is meant is decided by the
types, and is a parameter here (`Traits`).
-/

namespace Slots

variable {κ : Type} {α : Type*}

/-- **The bytes of an element**, which are all there is to it. -/
structure Representation (α : Type*) where
  /-- `sizeof(value_type)` -/
  size : ℕ
  pos : 0 < size
  /-- `alignment_of<value_type>` -/
  alignment : ℕ
  alignment_pos : 0 < alignment
  bytes : α ≃ (Fin size → UInt8)

/-- **What the overloads depend on.** -/
structure Traits (α : Type*) where
  /-- `is_trivially_copy_assignable`, and what elements are then -/
  copyAssignable : Option (Representation α)
  /-- `is_trivially_copy_constructible` -/
  copyConstructible : Bool

/-- **An iterator that is read**: a pointer to elements, or one of another kind, which
gives a source at each position. -/
inductive Iterator (α : Type*)
  | pointer
  | input (it : ℕ → Source α)

namespace Iterator

/-- `*f` -/
def deref : Iterator α → ℕ → Source α
  | pointer => .copyOf
  | input it => it

/-- `are_elements_contiguous` -/
def isPointer : Iterator α → Bool
  | pointer => true
  | input _ => false

/-- `boost::move(*f)` -/
def derefMove (I : Iterator α) (f : ℕ) : Source α := (I.deref f).moveOf

end Iterator

/-! ## Copying and moving ranges -/

/-- `memmove_n_source_dest` -/
def memmoveNSourceDest (f n r : ℕ) : Prog (State κ α) (ℕ × ℕ) :=
  if n ≠ 0 then do
    memmoveNonNull r f n
    return (f + n, r + n)
  else pure (f, r)

/-- `destroy_alloc_n`. To end the life of an element that needs no destructor takes
no code. -/
def destroyAllocN (e : Env α) (p n : ℕ) : Prog (State κ α) Unit :=
  if e.trivialDestructor then abandonN e p n else destroyN e p n

namespace Traits

variable (T : Traits α) (e : Env α)

/-- `is_memtransfer_copy_assignable` -/
def memAssign (I : Iterator α) : Bool := I.isPointer && T.copyAssignable.isSome

/-- `is_memtransfer_copy_constructible` -/
def memConstruct (I : Iterator α) : Bool := I.isPointer && T.copyConstructible

/-- `copy_n` -/
def copyN (I : Iterator α) (f n r : ℕ) : Prog (State κ α) ℕ :=
  if T.memAssign I then memmoveN f n r
  else do
    let p ← assignEach e I.deref f r n
    return p.2

/-- `copy_n_source_dest`, which returns where both iterators are. -/
def copyNSourceDest (I : Iterator α) (f n r : ℕ) : Prog (State κ α) (ℕ × ℕ) :=
  if T.memAssign I then memmoveNSourceDest f n r else assignEach e I.deref f r n

/-- `move_n` -/
def moveN (I : Iterator α) (f n r : ℕ) : Prog (State κ α) ℕ :=
  if T.memAssign I then memmoveN f n r
  else do
    let p ← assignEach e I.derefMove f r n
    return p.2

/-- `move_n_source_dest` -/
def moveNSourceDest (I : Iterator α) (f n r : ℕ) : Prog (State κ α) (ℕ × ℕ) :=
  if T.memAssign I then memmoveNSourceDest f n r else assignEach e I.derefMove f r n

/-- `uninitialized_copy_alloc_n`, in the overload the types choose. -/
def uninitializedCopyAllocN (I : Iterator α) (f n r : ℕ) : Prog (State κ α) ℕ :=
  if T.memConstruct I then memmoveN f n r else Slots.uninitializedCopyAllocN e I.deref f n r

/-- `uninitialized_move_alloc_n`, in the overload the types choose. -/
def uninitializedMoveAllocN (I : Iterator α) (f n r : ℕ) : Prog (State κ α) ℕ :=
  if T.memConstruct I then memmoveN f n r else Slots.uninitializedMoveAllocN e I.deref f n r

/-- **`copy_assign_range_alloc_n`** -/
def copyAssignRangeAllocN (I : Iterator α) (inpStart nI outStart nO : ℕ) :
    Prog (State κ α) Unit :=
  if nO < nI then do
    let p ← T.copyNSourceDest e I inpStart nO outStart
    let _ ← T.uninitializedCopyAllocN e I p.1 (nI - nO) p.2
    return ()
  else do
    let r ← T.copyN e I inpStart nI outStart
    destroyAllocN e r (nO - nI)

/-- **`move_assign_range_alloc_n`** -/
def moveAssignRangeAllocN (I : Iterator α) (inpStart nI outStart nO : ℕ) :
    Prog (State κ α) Unit :=
  if nO < nI then do
    let p ← T.moveNSourceDest e I inpStart nO outStart
    let _ ← T.uninitializedMoveAllocN e I p.1 (nI - nO) p.2
    return ()
  else do
    let r ← T.moveN e I inpStart nI outStart
    destroyAllocN e r (nO - nI)

end Traits

/-! ## What the loops store -/

/-- **What a range algorithm reads**: elements that live, in an order in which it can
read them. -/
structure Sources (srcs : ℕ → Source α) (f r n : ℕ) (s : State κ α) : Prop where
  readable : ∀ j < n, (srcs (f + j)).Readable {p | shape s.heap p = some true}
  untangled : Untangled srcs f r n

/-- No slot is at null. -/
def NothingAtNull (s : State κ α) : Prop := s.heap 0 = none

variable {T : Traits α} {e : Env α} {I : Iterator α} {s t u : State κ α} {f r n m q : ℕ}
  {srcs : ℕ → Source α} {b : Bool}

theorem NothingAtNull.ne_zero (h : NothingAtNull s) {x : Bool} (hp : shape s.heap r = some x) :
    r ≠ 0 := by
  rintro rfl
  rw [shape, h] at hp
  exact absurd hp.symm (Option.some_ne_none x)

theorem Sources.mono (h : Sources srcs f r n s) (hm : m ≤ n) : Sources srcs f r m s :=
  ⟨fun j hj => h.readable j (by omega), h.untangled.mono hm⟩

/-- What was not read yet can still be read. -/
theorem Sources.tail (h : Sources srcs f r (n + m) s) (ht : Stored b srcs f r n s t) :
    Sources srcs (f + n) (r + n) m t := by
  refine ⟨fun j hj => ?_, h.untangled.drop le_rfl⟩
  rw [Nat.add_assoc]
  exact ht.readable (fun i hi => h.readable i (by omega)) (h.readable (n + j) (by omega))

/-- **Bytes that are copied are stored.** -/
theorem stdMemmove_stored (hdst : ∀ j < n, shape s.heap (r + j) = some (!b))
    (hsrc : ∀ j < n, shape s.heap (f + j) = some true) :
    ∃ t, stdMemmove r f n s = .done () t ∧ Stored b .copyOf f r n s t := by
  have hall : ∀ i < n, (cells s.heap (f + i)).isSome ∧ (s.heap (r + i)).isSome := by
    intro i hi
    obtain ⟨v, hv⟩ := shape_eq_some_true.mp (hsrc i hi)
    obtain ⟨slot, hslot, -⟩ := exists_of_shape_eq (hdst i hi)
    exact ⟨by rw [hv]; rfl, by rw [hslot]; rfl⟩
  have hin : ∀ q, r ≤ q ∧ q < r + n → shape s.heap q = some (!b) := by
    intro q hq
    obtain ⟨j, rfl⟩ := Nat.exists_eq_add_of_le hq.1
    exact hdst j (by omega)
  refine ⟨_, if_pos hall, fun j hj => ?_, fun q hq _ => ?_, fun q hq => ?_, fun q => ?_,
    fun q => ?_, rfl, rfl, rfl⟩
  · obtain ⟨slot, hslot, -⟩ := exists_of_shape_eq (hdst j hj)
    show Option.bind (if r ≤ r + j ∧ r + j < r + n then _ else _) _ = cells s.heap (f + j)
    rw [if_pos (by omega), hslot, Option.map_some, Option.bind_some, Nat.add_sub_cancel_left]
  · show Option.bind (if r ≤ q ∧ q < r + n then _ else _) _ = cells s.heap q
    rw [if_neg (by omega), cells]
  · show Option.map _ (if r ≤ q ∧ q < r + n then _ else _) = shape s.heap q
    rw [if_neg (by omega), shape]
  · show Option.map _ (if r ≤ q ∧ q < r + n then _ else _) = _
    split
    · rw [Option.map_map]
      rfl
    · rfl
  · show (if (r ≤ q ∧ q < r + n) ∧ shape s.heap q = some false then _ else _) = _
    unfold within
    by_cases hq : r ≤ q ∧ q < r + n
    · cases b with
      | true => rw [if_pos ⟨hq, hin q hq⟩, if_pos rfl, if_pos hq]
      | false =>
        rw [if_neg (fun h => absurd (h.2.symm.trans (hin q hq)) (by simp)), if_neg Bool.false_ne_true,
          Nat.add_zero]
    · rw [if_neg (fun h => hq h.1), if_neg hq, ite_self, Nat.add_zero]

theorem memmoveNonNull_stored (hnull : NothingAtNull s) (hn : n ≠ 0)
    (hdst : ∀ j < n, shape s.heap (r + j) = some (!b))
    (hsrc : ∀ j < n, shape s.heap (f + j) = some true) :
    ∃ t, memmoveNonNull r f n s = .done () t ∧ Stored b .copyOf f r n s t := by
  have hr : r ≠ 0 := hnull.ne_zero (hdst 0 (Nat.pos_of_ne_zero hn))
  have hf : f ≠ 0 := hnull.ne_zero (hsrc 0 (Nat.pos_of_ne_zero hn))
  rw [memmoveNonNull, if_pos ⟨hr, hf⟩]
  exact stdMemmove_stored hdst hsrc

theorem memmoveN_stored (hnull : NothingAtNull s)
    (hdst : ∀ j < n, shape s.heap (r + j) = some (!b))
    (hsrc : ∀ j < n, shape s.heap (f + j) = some true) :
    ∃ t, memmoveN f n r s = .done (r + n) t ∧ Stored b .copyOf f r n s t := by
  unfold memmoveN
  by_cases hn : n = 0
  · subst hn
    rw [if_neg (not_not_intro rfl)]
    exact ⟨s, rfl, Stored.zero b .copyOf f r s⟩
  · obtain ⟨t, hdone, ht⟩ := memmoveNonNull_stored hnull hn hdst hsrc
    rw [if_pos hn, Prog.bind_of_done hdone]
    exact ⟨t, rfl, ht⟩

theorem memmoveNSourceDest_stored (hnull : NothingAtNull s)
    (hdst : ∀ j < n, shape s.heap (r + j) = some (!b))
    (hsrc : ∀ j < n, shape s.heap (f + j) = some true) :
    ∃ t, memmoveNSourceDest f n r s = .done (f + n, r + n) t ∧ Stored b .copyOf f r n s t := by
  unfold memmoveNSourceDest
  by_cases hn : n = 0
  · subst hn
    rw [if_neg (not_not_intro rfl)]
    exact ⟨s, rfl, Stored.zero b .copyOf f r s⟩
  · obtain ⟨t, hdone, ht⟩ := memmoveNonNull_stored hnull hn hdst hsrc
    rw [if_pos hn, Prog.bind_of_done hdone]
    exact ⟨t, rfl, ht⟩

/-- Iterators that are moved by bytes are pointers. -/
theorem Iterator.eq_pointer (h : I.isPointer = true) : I = .pointer := by
  cases I with
  | pointer => rfl
  | input it => exact Bool.noConfusion h

namespace Traits

theorem memAssign_eq (h : T.memAssign I = true) : I = .pointer :=
  Iterator.eq_pointer (Bool.and_eq_true _ _ ▸ h).1

theorem memConstruct_eq (h : T.memConstruct I = true) : I = .pointer :=
  Iterator.eq_pointer (Bool.and_eq_true _ _ ▸ h).1

section Stores

variable (hnull : NothingAtNull s) (he : e.fuse = none)
include hnull he

theorem copyN_stored (hlive : ∀ j < n, shape s.heap (r + j) = some true)
    (hs : Sources I.deref f r n s) :
    ∃ t, T.copyN e I f n r s = .done (r + n) t ∧ Stored false I.deref f r n s t := by
  unfold copyN
  split
  · rename_i h
    obtain rfl := memAssign_eq h
    exact memmoveN_stored hnull hlive hs.readable
  · obtain ⟨t, hdone, ht⟩ := assignEach_stored hlive hs.readable hs.untangled he
    exact ⟨t, Prog.bind_of_done hdone, ht⟩

theorem copyNSourceDest_stored (hlive : ∀ j < n, shape s.heap (r + j) = some true)
    (hs : Sources I.deref f r n s) :
    ∃ t, T.copyNSourceDest e I f n r s = .done (f + n, r + n) t
      ∧ Stored false I.deref f r n s t := by
  unfold copyNSourceDest
  split
  · rename_i h
    obtain rfl := memAssign_eq h
    exact memmoveNSourceDest_stored hnull hlive hs.readable
  · exact assignEach_stored hlive hs.readable hs.untangled he

theorem moveN_stored (hlive : ∀ j < n, shape s.heap (r + j) = some true)
    (hs : Sources I.derefMove f r n s) :
    ∃ t, T.moveN e I f n r s = .done (r + n) t ∧ Stored false I.derefMove f r n s t := by
  unfold moveN
  split
  · rename_i h
    obtain rfl := memAssign_eq h
    obtain ⟨t, hdone, ht⟩ := memmoveN_stored (b := false) hnull hlive hs.readable
    exact ⟨t, hdone, ht.of_copies⟩
  · obtain ⟨t, hdone, ht⟩ := assignEach_stored hlive hs.readable hs.untangled he
    exact ⟨t, Prog.bind_of_done hdone, ht⟩

theorem moveNSourceDest_stored (hlive : ∀ j < n, shape s.heap (r + j) = some true)
    (hs : Sources I.derefMove f r n s) :
    ∃ t, T.moveNSourceDest e I f n r s = .done (f + n, r + n) t
      ∧ Stored false I.derefMove f r n s t := by
  unfold moveNSourceDest
  split
  · rename_i h
    obtain rfl := memAssign_eq h
    obtain ⟨t, hdone, ht⟩ := memmoveNSourceDest_stored (b := false) hnull hlive hs.readable
    exact ⟨t, hdone, ht.of_copies⟩
  · exact assignEach_stored hlive hs.readable hs.untangled he

theorem uninitializedCopyAllocN_stored (hraw : ∀ j < n, shape s.heap (r + j) = some false)
    (hs : Sources I.deref f r n s) :
    ∃ t, T.uninitializedCopyAllocN e I f n r s = .done (r + n) t
      ∧ Stored true I.deref f r n s t := by
  unfold uninitializedCopyAllocN
  split
  · rename_i h
    obtain rfl := memConstruct_eq h
    exact memmoveN_stored hnull hraw hs.readable
  · obtain ⟨t, hdone, ht⟩ := constructEach_stored (destroyBack e r)
      ⟨hraw, hs.readable⟩ hs.untangled he
    exact ⟨t, Prog.bind_of_done hdone, ht⟩

theorem uninitializedMoveAllocN_stored (hraw : ∀ j < n, shape s.heap (r + j) = some false)
    (hs : Sources I.derefMove f r n s) :
    ∃ t, T.uninitializedMoveAllocN e I f n r s = .done (r + n) t
      ∧ Stored true I.derefMove f r n s t := by
  unfold uninitializedMoveAllocN
  split
  · rename_i h
    obtain rfl := memConstruct_eq h
    obtain ⟨t, hdone, ht⟩ := memmoveN_stored (b := true) hnull hraw hs.readable
    exact ⟨t, hdone, ht.of_copies⟩
  · obtain ⟨t, hdone, ht⟩ := constructEach_stored (destroyBack e r)
      ⟨hraw, hs.readable⟩ hs.untangled he
    exact ⟨t, Prog.bind_of_done hdone, ht⟩

end Stores

end Traits

/-- **A range is destroyed**, whether that takes code or not. -/
theorem destroyAllocN_eq (h : ∀ j < n, shape s.heap (r + j) = some true) :
    destroyAllocN e r n s = .done () { s with
      heap := rawRange s.heap r n
      destroyed := fun q => s.destroyed q + within r n q } := by
  rw [destroyAllocN, abandonN, ite_self]
  exact destroyN_eq (fun j hj => Or.inl (h j hj))

/-! ## What an assignment of a range does -/

/-- **A range was assigned**: `n` elements to slots from `r` on, of which the first `m`
held elements. The slots hold the elements that were there to read, each one
that was missing was constructed once, each one too many was destroyed once, and
no other slot is touched, unless its element was moved from. -/
structure RangeAssigned (srcs : ℕ → Source α) (f n r m : ℕ) (s t : State κ α) : Prop where
  value_eq : ∀ j < n, cells t.heap (r + j) = (srcs (f + j)).read s.heap
  live : ∀ j < n, shape t.heap (r + j) = some true
  surplus : ∀ j, n ≤ j → j < m → shape t.heap (r + j) = some false
  constructed_eq : ∀ q, t.constructed q = s.constructed q + within (r + m) (n - m) q
  destroyed_eq : ∀ q, t.destroyed q = s.destroyed q + within (r + n) (m - n) q
  kept : ∀ q, q < r ∨ r + max n m ≤ q → (∀ j < n, srcs (f + j) ≠ .slot q) →
    t.heap q = s.heap q
  shape_eq : ∀ q, q < r ∨ r + max n m ≤ q → shape t.heap q = shape s.heap q
  requests_eq : t.requests = s.requests
  object_eq : t.object = s.object

/-- **Slots a range can be assigned to**: `m` elements, and after them room for more. -/
structure Assignable (srcs : ℕ → Source α) (f n r m : ℕ) (s : State κ α) : Prop where
  null : NothingAtNull s
  live : ∀ j < m, shape s.heap (r + j) = some true
  raw : ∀ j, m ≤ j → j < n → shape s.heap (r + j) = some false
  sources : Sources srcs f r n s

/-- The slots that are missing are constructed. -/
theorem RangeAssigned.of_fewer (hs : Assignable srcs f n r m s) (hmn : m ≤ n)
    (ht : Stored false srcs f r m s t) (hu : Stored true srcs (f + m) (r + m) (n - m) t u) :
    RangeAssigned srcs f n r m s u := by
  have hsum : m + (n - m) = n := by omega
  have hlive : ∀ j < n - m, (srcs (f + m + j)).Readable {p | shape t.heap p = some true} :=
    (Sources.tail (hsum.symm ▸ hs.sources) ht).readable
  have hvalue : ∀ j < n, cells u.heap (r + j) = (srcs (f + j)).read s.heap := by
    intro j hj
    by_cases hjm : j < m
    · rw [hu.kept (r + j) (Or.inl (by omega)) (fun i hi hslot => ?_), ht.value_eq j hjm]
      rw [Nat.add_assoc] at hslot
      have := hs.sources.untangled.apart (m + i) (by omega) _ (Source.place_of_eq_slot hslot)
      omega
    · obtain ⟨i, rfl⟩ := Nat.exists_eq_add_of_le (Nat.le_of_not_lt hjm)
      rw [← Nat.add_assoc, hu.value_eq i (by omega), Nat.add_assoc,
        ht.read_eq hs.sources.untangled (Nat.le_add_right m i) hj]
  refine ⟨hvalue, fun j hj => ?_, fun j hnj hjm => ?_, fun q => ?_, fun q => ?_, fun q hq hsl => ?_,
    fun q hq => ?_, hu.requests_eq.trans ht.requests_eq, hu.object_eq.trans ht.object_eq⟩
  · obtain ⟨v, hv⟩ := exists_read (hs.sources.readable j hj)
    exact shape_eq_some_true.mpr ⟨v, (hvalue j hj).trans hv⟩
  · omega
  · rw [hu.constructed_eq, ht.constructed_eq, if_neg Bool.false_ne_true, if_pos rfl, Nat.add_zero]
  · rw [hu.destroyed_eq, ht.destroyed_eq, Nat.sub_eq_zero_of_le hmn, within_zero, Nat.add_zero]
  · refine heap_eq_of_cells ?_ ((hu.allocator_eq q).trans (ht.allocator_eq q))
    rw [hu.kept q (by omega) (fun j hj => ?_), ht.kept q (by omega) (fun j hj => hsl j (by omega))]
    rw [Nat.add_assoc]
    exact hsl (m + j) (by omega)
  · rw [hu.shape_eq q (by omega), ht.shape_eq q (by omega)]

/-- The elements that are too many are destroyed. -/
theorem RangeAssigned.of_more (hs : Assignable srcs f n r m s) (hnm : n ≤ m)
    (ht : Stored false srcs f r n s t) :
    RangeAssigned srcs f n r m s { t with
      heap := rawRange t.heap (r + n) (m - n)
      destroyed := fun q => t.destroyed q + within (r + n) (m - n) q } := by
  have hout : ∀ q, q < r + n ∨ r + n + (m - n) ≤ q →
      rawRange t.heap (r + n) (m - n) q = t.heap q := fun q hq => rawRange_of_notMem hq
  have hcells : ∀ q, q < r + n ∨ r + n + (m - n) ≤ q →
      cells (rawRange t.heap (r + n) (m - n)) q = cells t.heap q := fun q hq => by
    rw [cells, hout q hq, cells]
  have hshape : ∀ q, q < r + n ∨ r + n + (m - n) ≤ q →
      shape (rawRange t.heap (r + n) (m - n)) q = shape t.heap q := fun q hq => by
    rw [shape, hout q hq, shape]
  refine ⟨fun j hj => ?_, fun j hj => ?_, fun j hnj hjm => ?_, fun q => ?_, fun q => ?_,
    fun q hq hsl => ?_, fun q hq => ?_, ht.requests_eq, ht.object_eq⟩
  · exact (hcells _ (by omega)).trans (ht.value_eq j hj)
  · exact (hshape _ (by omega)).trans (ht.filled hs.sources.readable j hj)
  · have hsome : shape t.heap (r + j) = some true :=
      (ht.shape_eq _ (Or.inr (by omega))).trans (hs.live j hjm)
    obtain ⟨slot, hslot, -⟩ := exists_of_shape_eq hsome
    show shape (rawRange t.heap (r + n) (m - n)) (r + j) = _
    rw [shape, rawRange, if_pos (by omega), hslot]
    rfl
  · show t.constructed q = _
    rw [ht.constructed_eq, if_neg Bool.false_ne_true, Nat.sub_eq_zero_of_le hnm, within_zero]
  · show t.destroyed q + _ = _
    rw [ht.destroyed_eq]
  · refine (hout q (by omega)).trans (heap_eq_of_cells (ht.kept q (by omega) hsl)
      (ht.allocator_eq q))
  · exact (hshape q (by omega)).trans (ht.shape_eq q (by omega))

/-- Storing leaves null alone. -/
theorem Stored.nothingAtNull (h : Stored b srcs f r n s t) (hs : NothingAtNull s) :
    NothingAtNull t := by
  have hnull := h.allocator_eq 0
  rw [hs] at hnull
  exact Option.map_eq_none_iff.mp hnull

/-- **The two ways to assign a range**, given what their parts store. -/
theorem assigned_of_parts {front : Prog (State κ α) (ℕ × ℕ)}
    (tail : ℕ → ℕ → Prog (State κ α) ℕ) {whole : Prog (State κ α) ℕ}
    (hs : Assignable srcs f n r m s)
    (hfront : m ≤ n → ∃ t, front s = .done (f + m, r + m) t ∧ Stored false srcs f r m s t)
    (htail : ∀ t, NothingAtNull t → (∀ j < n - m, shape t.heap (r + m + j) = some false) →
      Sources srcs (f + m) (r + m) (n - m) t →
      ∃ u, tail (f + m) (r + m) t = .done (r + m + (n - m)) u
        ∧ Stored true srcs (f + m) (r + m) (n - m) t u)
    (hwhole : n ≤ m → ∃ t, whole s = .done (r + n) t ∧ Stored false srcs f r n s t) :
    ∃ t, (if m < n then front >>= fun p => tail p.1 p.2 >>= fun _ => pure ()
        else whole >>= fun r => destroyAllocN e r (m - n)) s = .done () t
      ∧ RangeAssigned srcs f n r m s t := by
  split
  · rename_i hmn
    have hsum : m + (n - m) = n := by omega
    obtain ⟨t, hdone, ht⟩ := hfront hmn.le
    have hraw : ∀ j < n - m, shape t.heap (r + m + j) = some false := by
      intro j hj
      rw [ht.shape_eq _ (Or.inr (by omega)), Nat.add_assoc]
      exact hs.raw (m + j) (by omega) (by omega)
    obtain ⟨u, hdone', hu⟩ := htail t (ht.nothingAtNull hs.null) hraw
      (Sources.tail (hsum.symm ▸ hs.sources) ht)
    refine ⟨u, ?_, RangeAssigned.of_fewer hs hmn.le ht hu⟩
    rw [Prog.bind_of_done hdone]
    exact Prog.bind_of_done hdone'
  · rename_i hnm
    obtain ⟨t, hdone, ht⟩ := hwhole (Nat.le_of_not_lt hnm)
    refine ⟨_, ?_, RangeAssigned.of_more hs (Nat.le_of_not_lt hnm) ht⟩
    rw [Prog.bind_of_done hdone]
    refine destroyAllocN_eq (fun j hj => ?_)
    rw [ht.shape_eq _ (Or.inr (by omega)), Nat.add_assoc]
    exact hs.live (n + j) (by omega)

namespace Traits

/-- **A range is copied over another.** -/
theorem copyAssignRangeAllocN_assigned (hs : Assignable I.deref f n r m s)
    (he : e.fuse = none) :
    ∃ t, T.copyAssignRangeAllocN e I f n r m s = .done () t
      ∧ RangeAssigned I.deref f n r m s t :=
  assigned_of_parts (fun f r => T.uninitializedCopyAllocN e I f (n - m) r) hs
    (fun hmn => T.copyNSourceDest_stored hs.null he hs.live (hs.sources.mono hmn))
    (fun _ hnull hraw hsrc => T.uninitializedCopyAllocN_stored hnull he hraw hsrc)
    (fun hnm => T.copyN_stored hs.null he (fun j hj => hs.live j (by omega)) hs.sources)

/-- **A range is moved over another.** -/
theorem moveAssignRangeAllocN_assigned (hs : Assignable I.derefMove f n r m s)
    (he : e.fuse = none) :
    ∃ t, T.moveAssignRangeAllocN e I f n r m s = .done () t
      ∧ RangeAssigned I.derefMove f n r m s t :=
  assigned_of_parts (fun f r => T.uninitializedMoveAllocN e I f (n - m) r) hs
    (fun hmn => T.moveNSourceDest_stored hs.null he hs.live (hs.sources.mono hmn))
    (fun _ hnull hraw hsrc => T.uninitializedMoveAllocN_stored hnull he hraw hsrc)
    (fun hnm => T.moveN_stored hs.null he (fun j hj => hs.live j (by omega)) hs.sources)

end Traits

end Slots
