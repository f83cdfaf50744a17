import BoostContainer.Devector.DevectorCapacity
import BoostContainer.Lib.BlockLedger
import BoostContainer.Lib.Run

/-!
# Devectors and their allocators

Every constructor and assignment of devector decides on its own whether the
buffer of another devector is taken over, or its elements are copied or moved
to a buffer of its own, from what the allocator propagates and whether two
allocators are equal. Of the elements nothing matters here but whether an
operation on them throws.

The constructor that moves to a given allocator takes the buffer over without
comparing the allocators. Runs where that happens between equal allocators
only, and where no construction from an input range is cut short after it got
a buffer, give every buffer back to an allocator that equals the one it is from.
-/

open Function (update)

namespace Devector

variable {A : Type}

/-- **What a program has for allocators**: `allocator_traits`. -/
structure Allocators (A : Type) where
  /-- `operator==` -/
  equal : A → A → Bool
  isAlwaysEqual : Bool
  propagateOnContainerCopyAssignment : Bool
  propagateOnContainerMoveAssignment : Bool
  propagateOnContainerSwap : Bool
  selectOnContainerCopyConstruction : A → A
  equal_refl : ∀ a, equal a a = true
  equal_symm : ∀ a b, equal a b = true → equal b a = true
  equal_trans : ∀ a b c, equal a b = true → equal b c = true → equal a c = true
  equal_of_isAlwaysEqual : isAlwaysEqual = true → ∀ a b, equal a b = true

/-- **A devector**: its allocator and its fields. -/
structure Container (A : Type) where
  allocator : A
  impl : Impl

/-- **The devectors of a program**, by where they are, and the memory they use. -/
structure World (A : Type) where
  containers : ℕ → Option (Container A)
  ledger : BlockLedger A

/-- The devector at `i` is another. -/
def World.put (w : World A) (i : ℕ) (c : Container A) : World A :=
  { w with containers := update w.containers i (some c) }

/-- **What a call meets.** -/
structure Chance (A : Type) where
  /-- Where an allocator finds memory that is nobody's, if it does. -/
  address (blocks : ℕ → Option A) : Option {p : ℕ // p ≠ 0 ∧ blocks p = none}
  /-- Whether an operation on elements, or on what they are made from, throws. -/
  throws : Bool

/-! ## The fields of a devector -/

/-- The devector at `i`. -/
def container (i : ℕ) : Prog (World A) (Container A) := fun w =>
  match w.containers i with
  | some c => .done c w
  | none => .undefined

/-- A devector is made at `i`, where there was none. -/
def emerge (i : ℕ) (c : Container A) : Prog (World A) Unit := fun w =>
  match w.containers i with
  | some _ => .undefined
  | none => .done () (w.put i c)

/-- The devector at `i`, changed. -/
def setContainer (i : ℕ) (f : Container A → Container A) : Prog (World A) Unit :=
  Prog.modify fun w => { w with containers := update w.containers i ((w.containers i).map f) }

/-- The fields of the devector at `i`, changed. -/
def setImpl (i : ℕ) (f : Impl → Impl) : Prog (World A) Unit :=
  setContainer i fun c => { c with impl := f c.impl }

/-- The allocator of the devector at `i`, replaced. -/
def setAllocator (i : ℕ) (a : A) : Prog (World A) Unit :=
  setContainer i fun c => { c with allocator := a }

variable (K : Allocators A) (T : Traits) (h : Chance A)

/-- Operations on elements. -/
def elements : Prog (World A) Unit := if h.throws then Prog.throw else pure ()

/-- `allocator_traits::allocate` -/
def allocateBlock (a : A) : Prog (World A) ℕ := fun w =>
  match h.address w.ledger.blocks with
  | some p => .done p { w with ledger := w.ledger.allocate a p }
  | none => .threw w

/-- `do_allocate` -/
def doAllocate (a : A) (cap : ℕ) : Prog (World A) ℕ :=
  if cap ≠ 0 then
    if T.storedMax < cap then Prog.throw else allocateBlock h a
  else pure 0

/-- A buffer is given back, if there is one: an `allocation_guard`. -/
def deallocateWith (a : A) (buffer : ℕ) : Prog (World A) Unit :=
  if buffer ≠ 0 then Prog.modify fun w => { w with ledger := w.ledger.deallocate a buffer }
  else pure ()

/-- `deallocate_buffer` -/
def deallocateOwn (i : ℕ) : Prog (World A) Unit := do
  let c ← container i
  deallocateWith c.allocator c.impl.buffer

/-- `clear` -/
def clear (i : ℕ) : Prog (World A) Unit := setImpl i fun m => { m with backIdx := m.frontIdx }

/-- `overwrite_buffer`, by `n` elements. -/
def overwriteBuffer (i n : ℕ) : Prog (World A) Unit := do
  elements h
  setImpl i fun m => { m with frontIdx := 0, backIdx := n }

/-- `allocate_and_copy_range`, of `n` elements. -/
def allocateAndCopyRange (i n : ℕ) : Prog (World A) Unit := do
  let c ← container i
  let newBuffer ← (if n ≠ 0 then doAllocate T h c.allocator n else pure 0)
  (elements h).onThrow (deallocateWith c.allocator newBuffer)
  deallocateOwn i
  setImpl i fun _ => ⟨newBuffer, 0, n, n⟩

/-- `assign`, from a forward range of `n` elements. -/
def assign (i n : ℕ) : Prog (World A) Unit := do
  let c ← container i
  if n ≤ c.impl.capacity then overwriteBuffer h i n else allocateAndCopyRange T h i n

/-! ## Constructors -/

/-- `devector(const allocator_type&)` -/
def constructEmpty (i : ℕ) (a : A) : Prog (World A) Unit := emerge i ⟨a, Impl.null⟩

/-- `static_cast<stored_size_type>` -/
def stored (n : ℕ) : ℕ := n % (T.storedMax + 1)

/-- `devector(size_type, size_type, reserve_only_tag_t, const allocator_type&)` -/
def constructReserved (i front back : ℕ) (a : A) : Prog (World A) Unit := do
  let c := Word.add T.width front back
  let buffer ← doAllocate T h a c
  emerge i ⟨a, buffer, stored T front, stored T front, stored T c⟩

/-- `devector(size_type, reserve_only_tag_t, const allocator_type&)` -/
def constructReservedMiddle (i n : ℕ) (a : A) : Prog (World A) Unit := do
  let c := toInternalCapacity T n
  let buffer ← doAllocate T h a c
  emerge i ⟨a, buffer, stored T (c / 2), stored T (c / 2), stored T c⟩

/-- The constructors that know how many elements they make. -/
def constructSized (i n : ℕ) (a : A) : Prog (World A) Unit := do
  let buffer ← doAllocate T h a n
  (elements h).onThrow (deallocateWith a buffer)
  emerge i ⟨a, buffer, 0, n, n⟩

/-- `devector(const devector&, const allocator_type&)` -/
def copyConstructWith (i j : ℕ) (a : A) : Prog (World A) Unit := do
  let x ← container j
  constructSized T h i x.impl.size a

/-- `devector(const devector&)` -/
def copyConstruct (i j : ℕ) : Prog (World A) Unit := do
  let x ← container j
  copyConstructWith T h i j (K.selectOnContainerCopyConstruction x.allocator)

/-- **`devector(devector&&, const allocator_type&)`** -/
def moveConstructWith (i j : ℕ) (a : A) : Prog (World A) Unit := do
  let rhs ← container j
  emerge i ⟨a, rhs.impl⟩
  setImpl j fun _ => Impl.null

/-- `devector(devector&&)`. The allocator that is moved from keeps its value. -/
def moveConstruct (i j : ℕ) : Prog (World A) Unit := do
  let rhs ← container j
  moveConstructWith i j rhs.allocator

/-- `calculate_new_capacity`, where it does not throw. -/
def newCapacity (m : Impl) (requestedCapacity : ℕ) : Option ℕ :=
  let max := min T.maxSize T.storedMax
  let remainingAdditionalCap := max - m.capacity
  let minAdditionalCap := requestedCapacity - m.capacity
  if remainingAdditionalCap < minAdditionalCap then none
  else some (T.growthFactor.grow m.capacity minAdditionalCap max)

/-- `insert_range_slow_path`, of one element at the end. -/
def insertSlowPath (i : ℕ) : Prog (World A) Unit := do
  let c ← container i
  let m := c.impl
  let freeCap := m.frontFreeCapacity + m.backFreeCapacity
  if 1 ≤ freeCap ∧ m.capacity / T.minFreeFraction ≤ freeCap - 1 then do
    let newFrontIdx := (m.capacity - (m.size + 1)) / 2
    setImpl i fun m => { m with frontIdx := 0, backIdx := 0 }
    elements h
    setImpl i fun _ =>
      { m with frontIdx := newFrontIdx, backIdx := newFrontIdx + (m.size + 1) }
  else
    match newCapacity T m (m.capacity + 1) with
    | none => Prog.throw
    | some newCap => do
      let newBuffer ← doAllocate T h c.allocator newCap
      let newFrontIndex := (newCap - m.size - 1) / 2
      (elements h).onThrow (deallocateWith c.allocator newBuffer)
      deallocateOwn i
      setImpl i fun _ => ⟨newBuffer, newFrontIndex, newFrontIndex + m.size + 1, newCap⟩

/-- `emplace_back` -/
def emplaceBackAt (i : ℕ) : Prog (World A) Unit := do
  let c ← container i
  if c.impl.backFreeCapacity ≠ 0 then do
    elements h
    setImpl i fun m => { m with backIdx := m.backIdx + 1 }
  else insertSlowPath T h i

/-- The loop of the constructor from an input range, one element after the other. -/
def emplaceAll (i : ℕ) : List (Chance A) → Prog (World A) Unit
  | [] => pure ()
  | h :: input => do
    emplaceBackAt T h i
    emplaceAll i input

/-- `devector(InputIterator, InputIterator, const allocator_type&)`. The handler does not
rethrow. -/
def constructInput (i : ℕ) (input : List (Chance A)) (a : A) : Prog (World A) Unit := do
  emerge i ⟨a, Impl.null⟩
  (emplaceAll T i input).catchAll (deallocateOwn i)

/-- `~devector` -/
def destruct (i : ℕ) : Prog (World A) Unit := do
  deallocateOwn i
  Prog.modify fun w => { w with containers := update w.containers i none }

/-! ## Assignment and swap -/

/-- **`operator=(const devector&)`** -/
def copyAssign (i j : ℕ) : Prog (World A) Unit := do
  let c ← container i
  let x ← container j
  if i = j then pure () else do
    (if K.propagateOnContainerCopyAssignment then do
      (if K.equal c.allocator x.allocator then pure () else do
        clear i
        deallocateOwn i
        setImpl i fun m => { m with capacity := 0, buffer := 0 })
      setAllocator i x.allocator
    else pure ())
    assign T h i x.impl.size

/-- The resources of the devector at `j` are those of the one at `i`. -/
def takeResources (i j : ℕ) (x : Container A) : Prog (World A) Unit := do
  (if K.propagateOnContainerMoveAssignment then setAllocator i x.allocator else pure ())
  setImpl i fun _ => x.impl
  setImpl j fun _ => Impl.null

/-- `priv_move_assign`, where the resources are taken. -/
def privMoveAssignSteal (i j : ℕ) : Prog (World A) Unit := do
  let x ← container j
  clear i
  deallocateOwn i
  takeResources K i j x

/-- **`operator=(devector&&)`** -/
def moveAssign (i j : ℕ) : Prog (World A) Unit := do
  let c ← container i
  let x ← container j
  if i = j then pure ()
  else if K.propagateOnContainerMoveAssignment || K.isAlwaysEqual then privMoveAssignSteal K i j
  else if K.equal c.allocator x.allocator then privMoveAssignSteal K i j
  else do
    (if K.propagateOnContainerMoveAssignment then setAllocator i x.allocator else pure ())
    assign T h i x.impl.size

/-- **`swap`**, which has no defined behaviour where allocators that do not propagate
differ. -/
def swap (i j : ℕ) : Prog (World A) Unit := do
  let c ← container i
  let b ← container j
  if K.propagateOnContainerSwap || K.equal c.allocator b.allocator then do
    setImpl i fun _ => b.impl
    setImpl j fun _ => c.impl
    if K.propagateOnContainerSwap then do
      setAllocator i b.allocator
      setAllocator j c.allocator
    else pure ()
  else Prog.undefined

/-! ## Runs -/

/-- **A call**, with what it meets. -/
inductive Call (A : Type)
  | constructEmpty (i : ℕ) (a : A)
  | constructReserved (h : Chance A) (i front back : ℕ) (a : A)
  | constructReservedMiddle (h : Chance A) (i n : ℕ) (a : A)
  | constructSized (h : Chance A) (i n : ℕ) (a : A)
  | constructInput (i : ℕ) (input : List (Chance A)) (a : A)
  | copyConstruct (h : Chance A) (i j : ℕ)
  | copyConstructWith (h : Chance A) (i j : ℕ) (a : A)
  | moveConstruct (i j : ℕ)
  | moveConstructWith (i j : ℕ) (a : A)
  | copyAssign (h : Chance A) (i j : ℕ)
  | moveAssign (h : Chance A) (i j : ℕ)
  | swap (i j : ℕ)
  | assign (h : Chance A) (i n : ℕ)
  | emplaceBack (h : Chance A) (i : ℕ)
  | destruct (i : ℕ)

/-- What a call does. -/
def Call.run : Call A → Prog (World A) Unit
  | .constructEmpty i a => Devector.constructEmpty i a
  | .constructReserved h i front back a => Devector.constructReserved T h i front back a
  | .constructReservedMiddle h i n a => Devector.constructReservedMiddle T h i n a
  | .constructSized h i n a => Devector.constructSized T h i n a
  | .constructInput i input a => Devector.constructInput T i input a
  | .copyConstruct h i j => Devector.copyConstruct K T h i j
  | .copyConstructWith h i j a => Devector.copyConstructWith T h i j a
  | .moveConstruct i j => Devector.moveConstruct i j
  | .moveConstructWith i j a => Devector.moveConstructWith i j a
  | .copyAssign h i j => Devector.copyAssign K T h i j
  | .moveAssign h i j => Devector.moveAssign K T h i j
  | .swap i j => Devector.swap K i j
  | .assign h i n => Devector.assign T h i n
  | .emplaceBack h i => emplaceBackAt T h i
  | .destruct i => Devector.destruct i

/-- **The devectors of a program and their calls**, each of which may be the end of a call
before it that threw. -/
def devectors : TransitionSystem (World A) (Call A) where
  Init w := w = ⟨fun _ => none, BlockLedger.empty⟩
  Step w call w' := call.run K T w = .done () w' ∨ call.run K T w = .threw w'

/-- **The calls that keep buffers and allocators together**: what a devector is moved from to
a given allocator has no buffer or an equal allocator, and a construction from an input range
is not cut short after it got a buffer. -/
def Call.Faithful (w : World A) : Call A → Prop
  | .moveConstructWith _ j a =>
    ∀ c, w.containers j = some c → c.impl.buffer ≠ 0 → K.equal a c.allocator = true
  | .constructInput i input a =>
    ∀ t c, emplaceAll T i input (w.put i ⟨a, Impl.null⟩) = .threw t →
      t.containers i = some c → c.impl.buffer = 0
  | _ => True

end Devector
