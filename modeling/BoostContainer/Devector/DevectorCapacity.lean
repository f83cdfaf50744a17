import BoostContainer.Detail.CopyMoveKeeps
import BoostContainer.Devector.DevectorConstruct

/-!
# The capacity of a devector

A devector has room at both ends of its buffer, and it would sooner allocate a
new buffer than shift its elements over and over in one that is nearly full.
Its capacity leaves out the part of the buffer that has to stay free for that:
as long as the elements are no more than the capacity, an insertion finds room
at the end it prefers or shifts the elements, wherever they stand.
-/

open Slots

namespace Devector

variable {α : Type*} (e : Env α) (T : Traits)

/-- `capacity` -/
def capacity (m : Impl) : ℕ :=
  let capReserve := m.capacity / T.minFreeFraction
  if capReserve < m.capacity then m.capacity - capReserve else 0

/-- `front_capacity` -/
def Impl.frontCapacity (m : Impl) : ℕ := m.backIdx

/-- `back_capacity` -/
def Impl.backCapacity (m : Impl) : ℕ := m.capacity - m.frontIdx

/-- `to_internal_capacity`, which `reserve` computes as well. -/
def toInternalCapacity (desiredCapacity : ℕ) : ℕ :=
  let rounder := Word.sub T.width T.minFreeFraction 2
  let divisor := Word.sub T.width T.minFreeFraction 1
  Word.mul T.width (Word.add T.width desiredCapacity rounder / divisor) T.minFreeFraction

/-- `reallocate_at` -/
def reallocateAt (newCapacity bufferOffset : ℕ) : Prog (State Impl α) Unit := do
  let m ← object
  let newBuffer ← allocateBuffer e T newCapacity
  (uninitializedMove e m.rawBegin m.size (newBuffer + bufferOffset)).onThrow
    (deallocateBuffer newBuffer newCapacity)
  destroyElements e m.rawBegin m.rawEnd
  deallocateBuffer m.buffer m.capacity
  setObject fun m => { m with
    buffer := newBuffer
    capacity := newCapacity
    backIdx := m.size + bufferOffset
    frontIdx := bufferOffset }

/-- **`reserve`** -/
def reserve (newCapacity : ℕ) : Prog (State Impl α) Unit := do
  let m ← object
  if capacity T m < newCapacity then
    let nc := toInternalCapacity T newCapacity
    reallocateAt e T nc (Word.sub T.width nc m.size / 2)
  else pure ()

/-- **`reserve_front`** -/
def reserveFront (newCapacity : ℕ) : Prog (State Impl α) Unit := do
  let m ← object
  if newCapacity ≤ m.frontCapacity then pure ()
  else do
    let offset := Word.sub T.width newCapacity m.size
    reallocateAt e T (Word.add T.width newCapacity m.backFreeCapacity) offset

/-- **`reserve_back`** -/
def reserveBack (newCapacity : ℕ) : Prog (State Impl α) Unit := do
  let m ← object
  if newCapacity ≤ m.backCapacity then pure ()
  else reallocateAt e T (Word.add T.width newCapacity m.frontFreeCapacity) m.frontIdx

/-- `emplace_front` -/
def emplaceFront (src : Source α) : Prog (State Impl α) Unit := do
  let m ← object
  if m.frontFreeCapacity ≠ 0 then do
    construct e (m.rawBegin - 1) src
    setObject fun m => { m with frontIdx := m.frontIdx - 1 }
  else do
    let _ ← insertRangeSlowPath e T m.rawBegin [src]
    pure ()

/-- `insert`, of an input range: the elements are put at the end and rotated to the
position. -/
def insertInput (rotate : ℕ → ℕ → ℕ → Prog (State Impl α) Unit) (position : ℕ)
    (input : InputRange α) : Prog (State Impl α) ℕ := do
  let m ← object
  let insertIndex := position - m.rawBegin
  emplaceRange e T input
  let m' ← object
  (if position = m.rawEnd then pure ()
    else rotate (m'.rawBegin + insertIndex) (m'.rawBegin + m.size) m'.rawEnd)
  pure (m'.rawBegin + insertIndex)

/-! ## Room -/

variable {e T} {s₀ s t : State Impl α} {S₀ : Set ℕ} {m : Impl} {xs : List α} {c : Cells α}
  {srcs : List (Source α)} {src : Source α} {input : InputRange α} {n p : ℕ}

theorem capacity_eq (m : Impl) : capacity T m = m.capacity - m.capacity / T.minFreeFraction := by
  have hle := Nat.div_le_self m.capacity T.minFreeFraction
  unfold capacity
  dsimp only
  split_ifs with h
  · rfl
  · omega

/-- A quotient grows no faster than the number. -/
theorem sub_div_mono {a b k : ℕ} (h : a ≤ b) : a - a / k ≤ b - b / k := by
  obtain rfl | hk := Nat.eq_zero_or_pos k
  · simpa using h
  have hmul : b - a ≤ k * (b - a) := Nat.le_mul_of_pos_left _ hk
  have hdiv : b / k ≤ a / k + (b - a) := by
    calc b / k ≤ (a + k * (b - a)) / k := Nat.div_le_div_right (by omega)
      _ = a / k + (b - a) := Nat.add_mul_div_left _ _ hk
  have ha := Nat.div_le_self a k
  have hb := Nat.div_le_self b k
  omega

/-- **What capacity promises**: elements up to it leave as much of the buffer free as has to
stay free when they are shifted. -/
theorem Impl.Sound.room (hm : m.Sound) (hfit : m.size + n ≤ Devector.capacity T m) :
    n ≤ m.frontFreeCapacity + m.backFreeCapacity
      ∧ m.capacity / T.minFreeFraction ≤ m.frontFreeCapacity + m.backFreeCapacity - n := by
  have hfront := hm.front_le
  have hback := hm.back_le
  have hle := Nat.div_le_self m.capacity T.minFreeFraction
  rw [capacity_eq] at hfit
  unfold Impl.size at hfit
  unfold Impl.frontFreeCapacity Impl.backFreeCapacity
  generalize m.capacity / T.minFreeFraction = k at hfit hle
  omega

/-- Which buffer there is, and how often memory was asked for. -/
def storage (s : State Impl α) : ℕ × ℕ × ℕ := (s.requests, s.object.buffer, s.object.capacity)

/-- **A call does not reallocate.** -/
def StaysPut {β : Type} (s : State Impl α) (a : Prog (State Impl α) β) : Prop :=
  (a s).Permits (fun _ t => storage t = storage s) (fun t => storage t = storage s)

theorem aside_storage : Aside (storage : State Impl α → ℕ × ℕ × ℕ) := fun _ _ _ _ _ => rfl

theorem keeps_setObject {f : Impl → Impl} (hb : ∀ m, (f m).buffer = m.buffer)
    (hc : ∀ m, (f m).capacity = m.capacity) :
    Prog.Keeps (storage : State Impl α → ℕ × ℕ × ℕ) (setObject f) := by
  intro s
  show (s.requests, (f s.object).buffer, (f s.object).capacity) = storage s
  rw [hb, hc]
  rfl

theorem object_bind {β : Type} (k : Impl → Prog (State Impl α) β) (s : State Impl α) :
    (object >>= k) s = k s.object s := rfl

theorem keeps_object : Prog.Keeps (storage : State Impl α → ℕ × ℕ × ℕ) object := fun _ => rfl

/-- Of the fields of a state that are not about its slots nothing is changed. -/
theorem aside_fields : Aside fun s : State Impl α => (s.requests, s.object) := fun _ _ _ _ _ => rfl

/-- Elements are worked on, and then the indices are set. -/
theorem setAfter_leaves {a : Prog (State Impl α) Unit} {f : Impl → Impl}
    (ha : Prog.Keeps (fun s : State Impl α => (s.requests, s.object)) a) (s : State Impl α) :
    ((a >>= fun _ => setObject f) s).Permits
      (fun _ t => t.requests = s.requests ∧ t.object = f s.object)
      (fun t => t.requests = s.requests ∧ t.object = s.object) := by
  refine Prog.bind_permits ((ha s).imp (fun _ _ h => Prod.mk.inj h) fun _ h => Prod.mk.inj h) ?_
  rintro - t ⟨hreq, hobj⟩
  exact ⟨hreq, congrArg f hobj⟩

/-- **Where there is room the slow path shifts the elements** to the middle of the buffer. -/
theorem insertRangeSlowPath_leaves
    (hroom : srcs.length ≤ s.object.frontFreeCapacity + s.object.backFreeCapacity
      ∧ s.object.capacity / T.minFreeFraction
        ≤ s.object.frontFreeCapacity + s.object.backFreeCapacity - srcs.length) :
    (insertRangeSlowPath e T p srcs s).Permits
      (fun _ t => t.requests = s.requests ∧ t.object = { s.object with
        frontIdx := (s.object.capacity - (s.object.size + srcs.length)) / 2
        backIdx := (s.object.capacity - (s.object.size + srcs.length)) / 2
          + (s.object.size + srcs.length) })
      (fun t => storage t = storage s) := by
  unfold insertRangeSlowPath
  rw [object_bind]
  dsimp only
  rw [if_pos hroom]
  refine Prog.bind_permits (E := fun t => storage t = storage s) ?_ fun _ t ht => ht
  refine (setAfter_leaves aside_fields.expandBackwardForwardAndInsertAlloc
    { s with object := { s.object with frontIdx := 0, backIdx := 0 } }).imp (fun _ _ h => h) ?_
  rintro t ⟨hreq, hobj⟩
  unfold storage
  rw [hreq, hobj]

theorem insertRangeSlowPath_staysPut
    (hroom : srcs.length ≤ s.object.frontFreeCapacity + s.object.backFreeCapacity
      ∧ s.object.capacity / T.minFreeFraction
        ≤ s.object.frontFreeCapacity + s.object.backFreeCapacity - srcs.length) :
    StaysPut s (insertRangeSlowPath e T p srcs) := by
  refine (insertRangeSlowPath_leaves hroom).imp ?_ fun _ => id
  rintro - t ⟨hreq, hobj⟩
  unfold storage
  rw [hreq, hobj]

/-- A fast path changes an index. -/
theorem fastPath_staysPut {β : Type} {a : Prog (State Impl α) Unit} {f : Impl → Impl}
    {k : Unit → Prog (State Impl α) β} (ha : Prog.Keeps storage a)
    (hb : ∀ m, (f m).buffer = m.buffer) (hc : ∀ m, (f m).capacity = m.capacity)
    (hk : Prog.Keeps storage (k ())) : StaysPut s (a >>= fun _ => setObject f >>= k) :=
  ha.bind (fun _ => (keeps_setObject hb hc).bind fun _ => hk) s

theorem insertRange_staysPut (hm : s.object.Sound)
    (hfit : s.object.size + srcs.length ≤ capacity T s.object) :
    StaysPut s (insertRange e T p srcs) := by
  have hslow : StaysPut s (insertRangeSlowPath e T p srcs) :=
    insertRangeSlowPath_staysPut (hm.room hfit)
  unfold StaysPut insertRange
  rw [object_bind]
  split_ifs
  · rfl
  · exact fastPath_staysPut aside_storage.uninitializedCopy (fun _ => rfl) (fun _ => rfl)
      (Prog.keeps_pure _)
  · exact hslow
  · exact fastPath_staysPut aside_storage.uninitializedCopy (fun _ => rfl) (fun _ => rfl)
      (keeps_object.bind fun _ => Prog.keeps_pure _)
  · exact hslow
  · exact fastPath_staysPut aside_storage.expandForwardAndInsertRange (fun _ => rfl)
      (fun _ => rfl) (Prog.keeps_pure _)
  · exact hslow
  · exact fastPath_staysPut aside_storage.expandBackwardAndInsertRange (fun _ => rfl)
      (fun _ => rfl) (Prog.keeps_pure _)
  · exact hslow

theorem emplace_staysPut (hm : s.object.Sound) (hfit : s.object.size + 1 ≤ capacity T s.object) :
    StaysPut s (emplace e T p src) := by
  have hslow : StaysPut s (insertRangeSlowPath e T p [src]) :=
    insertRangeSlowPath_staysPut (hm.room hfit)
  unfold StaysPut emplace
  rw [object_bind]
  split_ifs
  · exact fastPath_staysPut aside_storage.construct (fun _ => rfl) (fun _ => rfl)
      (Prog.keeps_pure _)
  · exact hslow
  · exact fastPath_staysPut aside_storage.construct (fun _ => rfl) (fun _ => rfl)
      (Prog.keeps_pure _)
  · exact hslow
  · exact fastPath_staysPut aside_storage.expandForwardAndInsertSingle (fun _ => rfl)
      (fun _ => rfl) (Prog.keeps_pure _)
  · exact hslow
  · exact fastPath_staysPut aside_storage.expandBackwardAndInsertSingle (fun _ => rfl)
      (fun _ => rfl) (Prog.keeps_pure _)
  · exact hslow

theorem emplaceFront_staysPut (hm : s.object.Sound)
    (hfit : s.object.size + 1 ≤ capacity T s.object) : StaysPut s (emplaceFront e T src) := by
  unfold StaysPut emplaceFront
  rw [object_bind]
  split_ifs
  · refine Prog.Keeps.bind aside_storage.construct (fun _ => keeps_setObject ?_ ?_) s
    · exact fun _ => rfl
    · exact fun _ => rfl
  · have hslow : StaysPut s (insertRangeSlowPath e T s.object.rawBegin [src]) :=
      insertRangeSlowPath_staysPut (hm.room hfit)
    exact Prog.bind_permits hslow fun _ _ ht => ht

/-- **`emplace_back` finds room** for one more element, as long as there are no more than the
capacity. -/
theorem emplaceBack_leaves (hm : s.object.Sound)
    (hfit : s.object.size + 1 ≤ capacity T s.object) :
    (emplaceBack e T src s).Permits
      (fun _ t => storage t = storage s ∧ t.object.Sound ∧ t.object.size = s.object.size + 1)
      (fun t => storage t = storage s) := by
  have hfront := hm.front_le
  have hback := hm.back_le
  have hsize : s.object.size = s.object.backIdx - s.object.frontIdx := rfl
  have hroom := hm.room hfit
  unfold emplaceBack
  rw [object_bind]
  split_ifs with hfree
  · have hfree' : s.object.capacity - s.object.backIdx ≠ 0 := hfree
    refine (setAfter_leaves aside_fields.construct s).imp ?_ ?_
    · rintro - t ⟨hreq, hobj⟩
      unfold storage
      rw [hreq, hobj]
      refine ⟨rfl, ⟨?_, ?_, hm.null_iff⟩, ?_⟩
      · show s.object.frontIdx ≤ s.object.backIdx + 1
        omega
      · show s.object.backIdx + 1 ≤ s.object.capacity
        omega
      · show s.object.backIdx + 1 - s.object.frontIdx = s.object.size + 1
        omega
    · rintro t ⟨hreq, hobj⟩
      unfold storage
      rw [hreq, hobj]
  · have hslow := @insertRangeSlowPath_leaves α e T s [src] s.object.rawEnd hroom
    refine Prog.bind_permits hslow ?_
    rintro - t ⟨hreq, hobj⟩
    have hfree : 1 ≤ s.object.frontIdx + (s.object.capacity - s.object.backIdx) := hroom.1
    show storage t = storage s ∧ t.object.Sound ∧ t.object.size = s.object.size + 1
    unfold storage
    rw [hreq, hobj]
    refine ⟨rfl, ⟨Nat.le_add_right _ _, ?_, hm.null_iff⟩, Nat.add_sub_cancel_left _ _⟩
    show (s.object.capacity - (s.object.size + 1)) / 2 + (s.object.size + 1) ≤ s.object.capacity
    omega

/-- What an input range leaves, as long as its elements fit. -/
theorem emplaceRange_leaves (hm : s.object.Sound)
    (hfit : s.object.size + input.length ≤ capacity T s.object) :
    StaysPut s (emplaceRange e T input) := by
  induction input generalizing s with
  | nil => exact rfl
  | cons x input ih =>
    rw [List.length_cons] at hfit
    cases x with
    | none => exact rfl
    | some src =>
      refine Prog.bind_permits (Q := fun _ t => storage t = storage s ∧ t.object.Sound
        ∧ t.object.size = s.object.size + 1) (emplaceBack_leaves hm (by omega)) ?_
      rintro - t ⟨hst, ht, hsize⟩
      have hcap : capacity T t.object = capacity T s.object := by
        unfold capacity
        rw [(Prod.mk.inj (Prod.mk.inj hst).2).2]
      exact (ih ht (by rw [hsize, hcap]; omega)).imp (fun _ _ h => h.trans hst) fun _ h =>
        h.trans hst

theorem insertInput_staysPut {rotate : ℕ → ℕ → ℕ → Prog (State Impl α) Unit}
    (hrotate : ∀ f m l, Prog.Keeps storage (rotate f m l)) (hm : s.object.Sound)
    (hfit : s.object.size + input.length ≤ capacity T s.object) :
    StaysPut s (insertInput e T rotate p input) := by
  unfold StaysPut insertInput
  rw [object_bind]
  refine Prog.bind_permits (emplaceRange_leaves hm hfit) ?_
  intro _ t ht
  have hrest : Prog.Keeps (storage : State Impl α → ℕ × ℕ × ℕ) (do
      let m' ← object
      (if p = s.object.rawEnd then pure ()
        else rotate (m'.rawBegin + (p - s.object.rawBegin)) (m'.rawBegin + s.object.size)
          m'.rawEnd)
      pure (m'.rawBegin + (p - s.object.rawBegin))) :=
    keeps_object.bind fun _ => (Prog.Keeps.ite (Prog.keeps_pure ()) (hrotate _ _ _)).bind
      fun _ => Prog.keeps_pure _
  exact (hrest t).imp (fun _ _ h => h.trans ht) fun _ h => h.trans ht

/-! ## A new buffer -/

/-- **`reallocate_at` moves the elements** to a buffer of their own. -/
theorem reallocateAt_contains {newCap offset : ℕ} (hm : m.Sound) (hlen : xs.length = m.size)
    (hc : At c m.rawBegin xs) (hn : newCap ≠ 0) (hfit : offset + m.size ≤ newCap) :
    Ensures e (Holds e.trivialDestructor s₀ S₀ m m.slots m.elements c)
      (reallocateAt e T newCap offset)
      (fun _ s => ∃ b, Contains e s₀ S₀ ⟨b, offset, m.size + offset, newCap⟩ xs s)
      (Contains e s₀ S₀ m xs) := by
  have helems : m.elements = Set.Ico m.rawBegin (m.rawBegin + m.size) := by
    rw [← hm.rawEnd_eq]
    rfl
  have hold : Set.Ico m.rawBegin (m.rawBegin + m.size) ⊆ m.slots := helems ▸ hm.elements_sub
  have hkept : ∀ s, Holds e.trivialDestructor s₀ S₀ m m.slots m.elements c s →
      Contains e s₀ S₀ m xs s := fun s h => ⟨hm, hlen, h.owns, h.cells_eq ▸ hc⟩
  unfold reallocateAt
  refine holds_object_bind ?_
  by_cases hmax : T.storedMax < newCap
  · -- A capacity that cannot be stored is refused.
    refine Ensures.bind (R := fun _ _ => False) ?_ fun _ s hs => hs.elim
    unfold allocateBuffer
    rw [if_pos hn, if_pos hmax]
    exact ensures_of_meets (Prog.meets_throw hkept)
  refine Ensures.bind ((allocateBuffer_holds hn (not_lt.mp hmax)).conseq (fun _ => id)
    (fun _ _ => id) hkept) fun b => Ensures.of_pre fun hb => ?_
  rw [hm.rawEnd_eq, helems]
  have hin : Set.Ico (b + offset) (b + offset + m.size) ⊆ Set.Ico b (b + newCap) :=
    Set.Ico_subset_Ico (by omega) (by omega)
  have hapart := hb.2.mono hold hin
  refine Ensures.bind (Ensures.onThrow (holds_uninitializedMove
    (hin.trans Set.subset_union_right) hapart subset_rfl)) fun _ => ?_
  unfold destroyElements
  rw [Nat.add_sub_cancel_left]
  refine Ensures.bind (holds_destroyN Set.subset_union_left) fun _ => ?_
  refine Ensures.bind (deallocateBuffer_holds hm.null_iff.mp Set.subset_union_left ?_)
    fun _ => holds_setObject.post fun _ s h => ⟨b, ?_⟩
  · rw [Set.union_sdiff_left]
    exact (hb.2.mono_right (Set.sdiff_subset.trans hin)).symm
  · have howned : (m.slots ∪ Set.Ico b (b + newCap)) \ Set.Ico m.buffer (m.buffer + m.capacity)
        = Set.Ico b (b + newCap) := by
      show (m.slots ∪ Set.Ico b (b + newCap)) \ m.slots = _
      rw [Set.union_sdiff_left, hb.2.sdiff_eq_right]
    rw [howned, Set.union_sdiff_left, hapart.sdiff_eq_right] at h
    have hnew : b + offset + m.size = b + (m.size + offset) := by omega
    refine contains_of_holdsOn rfl hnew ⟨Nat.le_add_left _ _, ?_, iff_of_false hb.1 hn⟩ ?_ h.on ?_
    · show m.size + offset ≤ newCap
      omega
    · exact hlen.trans (Nat.add_sub_cancel_right _ _).symm
    · have hmoved : At (moveCells e m.rawBegin (b + offset) m.size c) (b + offset) xs :=
        hc.moved hlen.symm
      rw [← hlen] at hin
      exact (hmoved.clearCells_of_apart (hb.2.mono hold hin)).clearCells_of_apart
        (hb.2.mono subset_rfl hin)

/-- **What a reservation does to a valid devector**: the elements stay as they are, and there
is the room that was asked for. -/
def Reserves (e : Env α) (s : State Impl α) (xs : List α) (P : Impl → Prop)
    (a : Prog (State Impl α) Unit) : Prop :=
  (a s).Permits (fun _ t => ∃ m, Contains e s s.object.slots m xs t ∧ P m) (fun _ => True)
    ∧ (e.fuse = none →
      (a s).Meets (fun _ t => ∃ m, Contains e s s.object.slots m xs t ∧ P m)
        (Contains e s s.object.slots s.object xs))

variable {P : Impl → Prop}

theorem reserves_pure (hv : Valid e s xs) (hP : P s.object) : Reserves e s xs P (pure ()) :=
  ⟨⟨_, hv, hP⟩, fun _ => ⟨_, hv, hP⟩⟩

theorem reallocateAt_reserves {newCap offset : ℕ} (hv : Valid e s xs) (hn : newCap ≠ 0)
    (hfit : offset + s.object.size ≤ newCap)
    (hP : ∀ b, P ⟨b, offset, s.object.size + offset, newCap⟩) :
    Reserves e s xs P (reallocateAt e T newCap offset) := by
  have hrun : Ensures e (Holds e.trivialDestructor s s.object.slots s.object s.object.slots
      s.object.elements (cells s.heap)) (reallocateAt e T newCap offset)
      (fun _ t => ∃ m, Contains e s s.object.slots m xs t ∧ P m)
      (Contains e s s.object.slots s.object xs) :=
    (reallocateAt_contains hv.sound hv.length_eq hv.list hn hfit).post fun _ t ⟨b, hb⟩ =>
      ⟨_, hb, hP b⟩
  exact hrun s ⟨hv.owns, rfl⟩

/-- A capacity that is rounded up without wrapping. -/
def Roundable (T : Traits) (n : ℕ) : Prop :=
  n + (T.minFreeFraction - 2) < 2 ^ T.width
    ∧ (n + (T.minFreeFraction - 2)) / (T.minFreeFraction - 1) * T.minFreeFraction < 2 ^ T.width

/-- **Rounded up, a capacity is enough** for as many elements as were asked for. -/
theorem toInternalCapacity_enough (hT : 2 ≤ T.minFreeFraction) (hn : n ≠ 0)
    (hw : Roundable T n) :
    toInternalCapacity T n < 2 ^ T.width
      ∧ n ≤ toInternalCapacity T n - toInternalCapacity T n / T.minFreeFraction := by
  obtain ⟨f, hf⟩ : ∃ f, T.minFreeFraction = f + 2 := ⟨_, (Nat.sub_add_cancel hT).symm⟩
  obtain ⟨hsum, hprod⟩ := hw
  rw [hf, Nat.add_sub_cancel, show f + 2 - 1 = f + 1 from rfl] at hprod
  rw [hf, Nat.add_sub_cancel] at hsum
  obtain ⟨q, hq⟩ : ∃ q, q = (n + f) / (f + 1) := ⟨_, rfl⟩
  rw [← hq] at hprod
  have hpos : 1 ≤ q := by
    rw [hq, Nat.le_div_iff_mul_le (Nat.succ_pos f)]
    omega
  have hlt : f + 2 < 2 ^ T.width := (Nat.le_mul_of_pos_left _ hpos).trans_lt hprod
  have hround : Word.sub T.width (f + 2) 2 = f := by
    rw [Word.sub_of_le hlt (by omega), Nat.add_sub_cancel]
  have hdivisor : Word.sub T.width (f + 2) 1 = f + 1 := by
    rw [Word.sub_of_le hlt (by omega)]
    rfl
  have heq : toInternalCapacity T n = q * (f + 2) := by
    unfold toInternalCapacity
    dsimp only
    rw [hf, hround, hdivisor, Word.add_of_lt hsum, ← hq, Word.mul_of_lt hprod]
  rw [heq, hf, Nat.mul_div_cancel _ (Nat.succ_pos _)]
  refine ⟨hprod, ?_⟩
  have hup : n ≤ q * (f + 1) := by
    have hmod := Nat.div_add_mod (n + f) (f + 1)
    have hlt' : (n + f) % (f + 1) < f + 1 := Nat.mod_lt _ (Nat.succ_pos f)
    rw [← hq, Nat.mul_comm] at hmod
    omega
  have hsucc : q * (f + 2) = q * (f + 1) + q := Nat.mul_succ q (f + 1)
  omega

/-- Where the capacity is not enough, the new one is, and the elements fit. -/
theorem Impl.Sound.reserve_fits (hm : m.Sound) (hT : 2 ≤ T.minFreeFraction)
    (hw : Roundable T n) (hcap : Devector.capacity T m < n) :
    toInternalCapacity T n < 2 ^ T.width
      ∧ n ≤ toInternalCapacity T n - toInternalCapacity T n / T.minFreeFraction
      ∧ m.size ≤ toInternalCapacity T n := by
  obtain ⟨hlt, hen⟩ := toInternalCapacity_enough hT (Nat.ne_zero_of_lt hcap) hw
  have hgrow : m.capacity < toInternalCapacity T n := by
    by_contra hne
    have hmono := sub_div_mono (k := T.minFreeFraction) (not_lt.mp hne)
    rw [capacity_eq] at hcap
    omega
  exact ⟨hlt, hen, (Nat.sub_le _ _).trans (hm.back_le.trans hgrow.le)⟩

/-- **`reserve` gives the capacity** that was asked for. -/
theorem reserve_reserves (hT : 2 ≤ T.minFreeFraction) (hv : Valid e s xs)
    (hw : Roundable T n) : Reserves e s xs (fun m => n ≤ capacity T m) (reserve e T n) := by
  unfold Reserves reserve
  rw [object_bind]
  split_ifs with hcap
  · obtain ⟨hlt, hen, hsize⟩ := hv.sound.reserve_fits hT hw hcap
    show Reserves e s xs (fun m => n ≤ capacity T m) (reallocateAt e T (toInternalCapacity T n)
      (Word.sub T.width (toInternalCapacity T n) s.object.size / 2))
    have hpos : 0 < toInternalCapacity T n :=
      (Nat.zero_lt_of_lt hcap).trans_le (hen.trans (Nat.sub_le _ _))
    rw [Word.sub_of_le hlt hsize]
    refine reallocateAt_reserves hv hpos.ne' (by omega) fun b => ?_
    rw [capacity_eq]
    exact hen
  · exact reserves_pure hv (not_lt.mp hcap)

/-- **`reserve_front` gives room at the front** for as many elements as there are short of
what was asked for. -/
theorem reserveFront_reserves (hv : Valid e s xs)
    (hw : n + s.object.backFreeCapacity < 2 ^ T.width) :
    Reserves e s xs (fun m => n ≤ m.size + m.frontFreeCapacity) (reserveFront e T n) := by
  have hfront := hv.sound.front_le
  have hsize : s.object.size = s.object.backIdx - s.object.frontIdx := rfl
  unfold Reserves reserveFront
  rw [object_bind]
  split_ifs with hcap
  · refine reserves_pure hv ?_
    have hcap' : n ≤ s.object.backIdx := hcap
    show n ≤ s.object.size + s.object.frontIdx
    omega
  · have hcap' : ¬ n ≤ s.object.backIdx := hcap
    rw [Word.add_of_lt hw, Word.sub_of_le (by omega) (by omega)]
    refine reallocateAt_reserves hv (by omega) (by omega) fun b => ?_
    show n ≤ (s.object.size + (n - s.object.size) - (n - s.object.size)) + (n - s.object.size)
    omega

/-- **`reserve_back` gives room at the back**, likewise. -/
theorem reserveBack_reserves (hv : Valid e s xs)
    (hw : n + s.object.frontFreeCapacity < 2 ^ T.width) :
    Reserves e s xs (fun m => n ≤ m.size + m.backFreeCapacity) (reserveBack e T n) := by
  have hfront := hv.sound.front_le
  have hback := hv.sound.back_le
  have hsize : s.object.size = s.object.backIdx - s.object.frontIdx := rfl
  unfold Reserves reserveBack
  rw [object_bind]
  split_ifs with hcap
  · refine reserves_pure hv ?_
    have hcap' : n ≤ s.object.capacity - s.object.frontIdx := hcap
    show n ≤ s.object.size + (s.object.capacity - s.object.backIdx)
    omega
  · have hcap' : ¬ n ≤ s.object.capacity - s.object.frontIdx := hcap
    have hfree : s.object.frontFreeCapacity = s.object.frontIdx := rfl
    rw [Word.add_of_lt hw]
    refine reallocateAt_reserves hv (by omega) (by omega) fun b => ?_
    show n ≤ (s.object.size + s.object.frontIdx - s.object.frontIdx)
      + (n + s.object.frontFreeCapacity - (s.object.size + s.object.frontIdx))
    omega

/-! ## Differences of unsigned numbers -/

/-- **No difference underflows**, of those whose minuends and subtrahends are given. -/
def NoneUnderflows (differences : List (ℕ × ℕ)) : Prop := ∀ d ∈ differences, d.2 ≤ d.1

/-- `size`, `back_free_capacity`, `back_capacity` and `capacity` -/
def sizeDifferences (T : Traits) (m : Impl) : List (ℕ × ℕ) :=
  [(m.backIdx, m.frontIdx), (m.capacity, m.backIdx), (m.capacity, m.frontIdx),
    (m.capacity, m.capacity / T.minFreeFraction)]

/-- `insert_range_slow_path`, with `calculate_new_capacity`, and the paths that find room
before the elements. -/
def insertDifferences (T : Traits) (m : Impl) (n : ℕ) : List (ℕ × ℕ) :=
  let freeCap := m.frontFreeCapacity + m.backFreeCapacity
  let max := min T.maxSize T.storedMax
  (if n ≤ m.frontFreeCapacity then [(m.frontIdx, n)] else [])
  ++ (if n ≤ freeCap then [(freeCap, n)] else [])
  ++ if n ≤ freeCap ∧ m.capacity / T.minFreeFraction ≤ freeCap - n then
      [(m.capacity, m.size + n)]
    else
      [(max, m.capacity), (m.capacity + n, m.capacity)]
      ++ if max - m.capacity < n then []
        else
          let newCapacity := T.growthFactor.grow m.capacity n max
          [(newCapacity, m.size), (newCapacity - m.size, n)]

/-- `reserve`, with its assertion. -/
def reserveDifferences (T : Traits) (m : Impl) (n : ℕ) : List (ℕ × ℕ) :=
  if capacity T m < n then
    let nc := toInternalCapacity T n
    [(T.minFreeFraction, 2), (T.minFreeFraction, 1), (nc, nc / T.minFreeFraction), (nc, m.size)]
  else []

/-- `reserve_front` -/
def reserveFrontDifferences (m : Impl) (n : ℕ) : List (ℕ × ℕ) :=
  if n ≤ m.frontCapacity then [] else [(n, m.size)]

theorem noneUnderflows_nil : NoneUnderflows [] := fun _ hd => (List.not_mem_nil hd).elim

theorem noneUnderflows_cons {d : ℕ × ℕ} {ds : List (ℕ × ℕ)} (h : d.2 ≤ d.1)
    (hs : NoneUnderflows ds) : NoneUnderflows (d :: ds) := by
  intro d' hd
  obtain rfl | hd := List.mem_cons.mp hd
  · exact h
  · exact hs d' hd

theorem NoneUnderflows.append {ds ds' : List (ℕ × ℕ)} (h : NoneUnderflows ds)
    (h' : NoneUnderflows ds') : NoneUnderflows (ds ++ ds') := fun d hd =>
  (List.mem_append.mp hd).elim (h d) (h' d)

theorem Impl.Sound.sizeDifferences (hm : m.Sound) : NoneUnderflows (sizeDifferences T m) :=
  noneUnderflows_cons hm.front_le (noneUnderflows_cons hm.back_le
    (noneUnderflows_cons (hm.front_le.trans hm.back_le)
      (noneUnderflows_cons (Nat.div_le_self _ _) noneUnderflows_nil)))

theorem Impl.Sound.insertDifferences (hm : m.Sound)
    (hmax : m.capacity ≤ min T.maxSize T.storedMax) : NoneUnderflows (insertDifferences T m n) := by
  have hfront := hm.front_le
  have hback := hm.back_le
  have hsize : m.size = m.backIdx - m.frontIdx := rfl
  unfold Devector.insertDifferences
  refine (NoneUnderflows.append ?_ ?_).append ?_
  · split_ifs with h
    · exact noneUnderflows_cons h noneUnderflows_nil
    · exact noneUnderflows_nil
  · split_ifs with h
    · exact noneUnderflows_cons h noneUnderflows_nil
    · exact noneUnderflows_nil
  · split_ifs with hroom hfull
    · refine noneUnderflows_cons ?_ noneUnderflows_nil
      have hfree : n ≤ m.frontIdx + (m.capacity - m.backIdx) := hroom.1
      show m.size + n ≤ m.capacity
      omega
    · exact NoneUnderflows.append (noneUnderflows_cons hmax
        (noneUnderflows_cons (Nat.le_add_right _ _) noneUnderflows_nil)) noneUnderflows_nil
    · have hlt : min T.maxSize T.storedMax < 2 ^ T.width :=
        (Nat.min_le_left _ _).trans_lt T.maxSize_lt
      have hgrow : m.capacity + n ≤ T.growthFactor.grow m.capacity n (min T.maxSize T.storedMax) :=
        T.growthFactor.le_grow (by omega) hlt
      refine NoneUnderflows.append (noneUnderflows_cons hmax
        (noneUnderflows_cons (Nat.le_add_right _ _) noneUnderflows_nil)) ?_
      refine noneUnderflows_cons ?_ (noneUnderflows_cons ?_ noneUnderflows_nil)
      · show m.size ≤ T.growthFactor.grow m.capacity n _
        omega
      · show n ≤ T.growthFactor.grow m.capacity n _ - m.size
        omega

theorem Impl.Sound.reserveDifferences (hm : m.Sound) (hT : 2 ≤ T.minFreeFraction)
    (hw : Roundable T n) : NoneUnderflows (reserveDifferences T m n) := by
  unfold Devector.reserveDifferences
  split_ifs with hcap
  · obtain ⟨-, -, hsize⟩ := hm.reserve_fits hT hw hcap
    exact noneUnderflows_cons hT (noneUnderflows_cons (one_le_two.trans hT)
      (noneUnderflows_cons (Nat.div_le_self _ _) (noneUnderflows_cons hsize noneUnderflows_nil)))
  · exact noneUnderflows_nil

theorem Impl.Sound.reserveFrontDifferences (hm : m.Sound) :
    NoneUnderflows (reserveFrontDifferences m n) := by
  have hfront := hm.front_le
  unfold Devector.reserveFrontDifferences
  split_ifs with hcap
  · exact noneUnderflows_nil
  · have hcap' : ¬ n ≤ m.backIdx := hcap
    refine noneUnderflows_cons ?_ noneUnderflows_nil
    show m.backIdx - m.frontIdx ≤ n
    omega

/-! ## The contract -/

/-- **The capacity of a devector is kept as a promise.** As long as its elements, with the
new ones, are no more than the capacity, no insertion reallocates. A reservation that returns
gives the room that was asked for, with the elements as they were; and no difference of
indices underflows. -/
theorem capacity_contract {rotate : ℕ → ℕ → ℕ → Prog (State Impl α) Unit}
    (hrotate : ∀ f m l, Prog.Keeps storage (rotate f m l)) (hT : 2 ≤ T.minFreeFraction)
    (hv : Valid e s xs) (hmax : s.object.capacity ≤ min T.maxSize T.storedMax) :
    (∀ srcs p, xs.length + srcs.length ≤ capacity T s.object →
      StaysPut s (insertRange e T p srcs))
    ∧ (∀ input p, xs.length + input.length ≤ capacity T s.object →
      StaysPut s (insertInput e T rotate p input))
    ∧ (∀ src p, xs.length + 1 ≤ capacity T s.object → StaysPut s (emplace e T p src)
      ∧ StaysPut s (emplaceFront e T src) ∧ StaysPut s (emplaceBack e T src))
    ∧ (∀ n, Roundable T n → Reserves e s xs (fun m => n ≤ capacity T m) (reserve e T n))
    ∧ (∀ n, n + s.object.backFreeCapacity < 2 ^ T.width →
      Reserves e s xs (fun m => n ≤ m.size + m.frontFreeCapacity) (reserveFront e T n))
    ∧ (∀ n, n + s.object.frontFreeCapacity < 2 ^ T.width →
      Reserves e s xs (fun m => n ≤ m.size + m.backFreeCapacity) (reserveBack e T n))
    ∧ ∀ n, NoneUnderflows (sizeDifferences T s.object)
      ∧ NoneUnderflows (insertDifferences T s.object n)
      ∧ (Roundable T n → NoneUnderflows (reserveDifferences T s.object n))
      ∧ NoneUnderflows (reserveFrontDifferences s.object n) := by
  have hm := hv.sound
  rw [hv.length_eq]
  refine ⟨fun srcs p hfit => insertRange_staysPut hm hfit,
    fun input p hfit => insertInput_staysPut hrotate hm hfit, fun src p hfit => ?_,
    fun n hw => reserve_reserves hT hv hw, fun n hw => reserveFront_reserves hv hw,
    fun n hw => reserveBack_reserves hv hw, fun n => ?_⟩
  · exact ⟨emplace_staysPut hm hfit, emplaceFront_staysPut hm hfit,
      (emplaceBack_leaves hm hfit).imp (fun _ _ h => h.1) fun _ => id⟩
  · exact ⟨hm.sizeDifferences, hm.insertDifferences hmax, hm.reserveDifferences hT,
      hm.reserveFrontDifferences⟩

theorem capacity_contract_ofList :
    StaysPut (ofList 2 [5, 6] 6) (insertRange keeping defaultTraits 3 [.value 1, .value 2])
    ∧ Reserves keeping (ofList 2 [5, 6] 6) [5, 6] (fun m => 20 ≤ capacity defaultTraits m)
      (reserve keeping defaultTraits 20) := by
  have hcontract := @capacity_contract ℕ keeping defaultTraits (ofList 2 [5, 6] 6) [5, 6]
    (fun _ _ _ => pure ()) (fun _ _ _ => Prog.keeps_pure ()) (by decide)
    (valid_ofList keeping 2 [5, 6] 6 (by decide)) (by decide)
  exact ⟨hcontract.1 _ _ (by decide), hcontract.2.2.2.1 20 ⟨by decide, by decide⟩⟩

/-- **A reservation at the front counts the elements**: it returns although there are fewer
free slots there than it was asked for. -/
theorem reserveFront_counts_elements : ¬ ∀ (T : Traits) (s : State Impl ℕ) (xs : List ℕ) (n : ℕ),
    Valid keeping s xs → (reserveFront keeping T n s).Permits
      (fun _ t => n ≤ t.object.frontFreeCapacity) (fun _ => True) := by
  intro hall
  have hrun := hall defaultTraits (ofList 1 [5, 6] 1) [5, 6] 3
    (valid_ofList keeping 1 [5, 6] 1 (by decide))
  exact absurd hrun (show ¬ 3 ≤ 1 by decide)

end Devector
