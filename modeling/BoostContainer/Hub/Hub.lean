import BoostContainer.Lib.Circular
import BoostContainer.Lib.Mask
import BoostContainer.Lib.Program

/-!
# Hubs

A hub keeps its elements in blocks of 64 slots. A mask says which slots of a block hold
an element. Blocks with elements are linked in one circular list, the active
blocks, and blocks with room in another, the available ones; a block that is neither
full nor empty is in both. Available blocks without elements, the reserved ones, come
after all others. The header of both lists is a block without slots, and its
mask has one bit, so that an iterator stands on it as on a block with one element.

Memory is all there is of every hub: the fields of each block, by its address, the
slots that the pointers to data lead to, and the two counters of each hub, by the
address of its header. A slot is raw or holds an element. To construct over
an element, or to assign, move or destroy what is not there, has no defined
behaviour. The log says what was done to which slot.

Allocators are an environment: where they find memory, if they do, and which
operation on elements throws, if one does. Nothing is left of a block when it is
deallocated.
-/

namespace Hub

/-- **What is done to a slot**, the slot by the address of the data and an index. -/
inductive Event
  | construct (slot : ℕ × ℕ)
  | assign (slot : ℕ × ℕ)
  | destroy (slot : ℕ × ℕ)
deriving DecidableEq

/-- **Memory.** -/
structure State (α : Type) where
  /-- `next` and `prev` of every block. -/
  list : Links ℕ
  /-- `next_available` and `prev_available` of every block. -/
  available : Links ℕ
  mask : ℕ → BitVec 64
  data : ℕ → ℕ
  /-- The element in a slot. -/
  slot : ℕ × ℕ → Option α
  /-- Which addresses are those of blocks and headers. -/
  blocks : ℕ → Bool
  /-- Which addresses are those of data. -/
  chunks : ℕ → Bool
  /-- `num_blocks`, by the header of the hub. -/
  numBlocks : ℕ → ℕ
  /-- `size_`, by the header of the hub. -/
  size : ℕ → ℕ
  /-- How many operations on elements were made that may throw. -/
  ops : ℕ
  log : List Event

/-- **What allocators and elements do.** -/
structure Env (α : Type) where
  /-- The operation on elements that throws, if one does. -/
  fuse : Option ℕ
  /-- Where there is memory for a block. -/
  block (used : ℕ → Bool) : Option {b : ℕ // used b = false}
  /-- Where there is memory for the slots of a block. -/
  chunk (used : ℕ → Bool) : Option {c : ℕ // used c = false}
  /-- What a move leaves of an element. -/
  moved : α → α
  /-- `is_trivially_destructible` -/
  trivialDestructor : Bool

/-- `N`, the slots of a block. -/
abbrev N : ℕ := 64

/-- All bits of a mask. -/
abbrev full : BitVec 64 := Mask.full

variable {α : Type}

/-! ## Elements -/

section Elements

variable (e : Env α)

/-- `allocator_traits::construct`, in a raw slot. -/
def construct (p : ℕ × ℕ) (v : α) : Prog (State α) Unit := fun s =>
  if s.chunks p.1 = true ∧ p.2 < N ∧ s.slot p = none then
    if e.fuse = some s.ops then .threw { s with ops := s.ops + 1 }
    else .done () { s with
      slot := Function.update s.slot p (some v)
      ops := s.ops + 1
      log := s.log ++ [.construct p] }
  else .undefined

/-- `*p = v` -/
def assign (p : ℕ × ℕ) (v : α) : Prog (State α) Unit := fun s =>
  if (s.slot p).isSome then
    if e.fuse = some s.ops then .threw { s with ops := s.ops + 1 }
    else .done () { s with
      slot := Function.update s.slot p (some v)
      ops := s.ops + 1
      log := s.log ++ [.assign p] }
  else .undefined

/-- `allocator_traits::destroy` -/
def destroy (p : ℕ × ℕ) : Prog (State α) Unit := fun s =>
  if (s.slot p).isSome then
    .done () { s with slot := Function.update s.slot p none, log := s.log ++ [.destroy p] }
  else .undefined

/-- The element in a slot. -/
def read (p : ℕ × ℕ) : Prog (State α) α := fun s =>
  match s.slot p with
  | some v => .done v s
  | none => .undefined

end Elements

/-! ## Lists of blocks -/

section BlockList

variable (h pb : ℕ)

/-- `link_at_back` -/
def linkAtBack : Prog (State α) Unit :=
  Prog.modify fun s => { s with list := s.list.linkBefore pb h }

/-- `link_before` -/
def linkBefore (pbx pby : ℕ) : Prog (State α) Unit :=
  Prog.modify fun s => { s with list := s.list.linkBefore pbx pby }

/-- `unlink` -/
def unlink : Prog (State α) Unit :=
  Prog.modify fun s => { s with list := s.list.unlink pb }

/-- `link_available_at_back` -/
def linkAvailableAtBack : Prog (State α) Unit :=
  Prog.modify fun s => { s with available := s.available.linkBefore pb h }

/-- `link_available_at_front` -/
def linkAvailableAtFront : Prog (State α) Unit :=
  Prog.modify fun s => { s with available := s.available.linkAfter pb h }

/-- `unlink_available` -/
def unlinkAvailable : Prog (State α) Unit :=
  Prog.modify fun s => { s with available := s.available.unlink pb }

/-- `pb->mask` -/
def maskOf : Prog (State α) (BitVec 64) := Prog.gets fun s => s.mask pb

/-- `pb->mask = mask` -/
def setMask (mask : BitVec 64) : Prog (State α) Unit :=
  Prog.modify fun s => { s with mask := Function.update s.mask pb mask }

/-- `pb->data()` -/
def dataOf : Prog (State α) ℕ := Prog.gets fun s => s.data pb

/-- `pb->next` -/
def nextOf : Prog (State α) ℕ := Prog.gets fun s => s.list.next pb

/-- `size_ += n` -/
def growSize (n : ℕ) : Prog (State α) Unit :=
  Prog.modify fun s => { s with size := Function.update s.size h (s.size h + n) }

/-- `size_ -= n` -/
def dropSize (n : ℕ) : Prog (State α) Unit :=
  Prog.modify fun s => { s with size := Function.update s.size h (s.size h - n) }

end BlockList

/-! ## Iterators -/

/-- **An iterator**: a block, or the header, and the index of a slot. -/
structure Iterator where
  pbb : ℕ
  n : ℕ
deriving DecidableEq

namespace State

variable (s : State α) (it : Iterator)

/-- `operator++` -/
def increment : Iterator :=
  let mask := s.mask it.pbb &&& (full <<< 1 <<< it.n)
  if mask = 0 then
    let pbb := s.list.next it.pbb
    ⟨pbb, Mask.countrZero (s.mask pbb)⟩
  else ⟨it.pbb, Mask.countrZero mask⟩

/-- `operator--` -/
def decrement : Iterator :=
  let mask := s.mask it.pbb &&& (full >>> 1 >>> (N - 1 - it.n))
  if mask = 0 then
    let pbb := s.list.prev it.pbb
    ⟨pbb, N - 1 - Mask.countlZero (s.mask pbb)⟩
  else ⟨it.pbb, N - 1 - Mask.countlZero mask⟩

/-- The slot an iterator stands on. -/
def slotAt : ℕ × ℕ := (s.data it.pbb, it.n)

/-- An iterator to the first element of a block. -/
def atBlock (pbb : ℕ) : Iterator := ⟨pbb, Mask.countrZero (s.mask pbb)⟩

/-- The iterations that a loop over the blocks or the elements of a hub is given. -/
def rounds (h : ℕ) : ℕ := s.numBlocks h * N + N + 1

end State

/-- `end()` -/
def endOf (h : ℕ) : Iterator := ⟨h, 0⟩

/-- `begin()` -/
def begin (h : ℕ) : Prog (State α) Iterator := Prog.gets fun s => s.increment (endOf h)

/-! ## Erasing -/

section Erase

variable (e : Env α) (h : ℕ)

/-- The loop over the elements of a block that is not empty, each of them destroyed. -/
def destroyLoop (pd : ℕ) : ℕ → BitVec 64 → Prog (State α) Unit
  | 0, _ => Prog.undefined
  | rounds + 1, mask => do
    let n := Mask.countrZero mask
    destroy (pd, n)
    let mask := mask &&& (mask - 1)
    if mask = 0 then pure () else destroyLoop pd rounds mask

/-- The end of the elements of a block when their destructor is trivial: nothing is run. -/
def endLifetimes (pd : ℕ) (mask : BitVec 64) : Prog (State α) Unit :=
  Prog.modify fun s => { s with
    slot := fun p => if p ∈ (Mask.bits mask).map (pd, ·) then none else s.slot p
    log := s.log ++ (Mask.bits mask).map fun n => .destroy (pd, n) }

/-- `destroy_all_in_nonempty_block` -/
def destroyAllInNonemptyBlock (pb : ℕ) : Prog (State α) ℕ := do
  let mask ← maskOf pb
  let pd ← dataOf pb
  if e.trivialDestructor = true then endLifetimes pd mask
  else destroyLoop pd N mask
  pure (Mask.popcount mask)

/-- `erase_impl` -/
def eraseImpl (pbb n : ℕ) : Prog (State α) Unit := do
  destroy (← dataOf pbb, n)
  if (← maskOf pbb) = full then linkAvailableAtFront h pbb
  setMask pbb ((← maskOf pbb) &&& ~~~Mask.bit n)
  if (← maskOf pbb) = 0 then
    unlink pbb
    unlinkAvailable pbb
    linkAvailableAtBack h pbb
  dropSize h 1

/-- `erase` -/
def erase (pos : Iterator) : Prog (State α) Iterator := do
  let next ← Prog.gets fun s => s.increment pos
  eraseImpl h pos.pbb pos.n
  pure next

/-- The loop that erases in the first block of a range, as long as it stays there. -/
def eraseFirst (pbb : ℕ) (last : Iterator) : ℕ → Iterator → Prog (State α) Iterator
  | 0, _ => Prog.undefined
  | rounds + 1, first =>
    if first = last then pure first
    else do
      let first ← erase h first
      if first.pbb ≠ pbb then pure first else eraseFirst pbb last rounds first

/-- The loop that erases whole blocks, up to the one where the range ends. -/
def eraseBlocks (lastPbb : ℕ) : ℕ → ℕ → Prog (State α) ℕ
  | 0, _ => Prog.undefined
  | rounds + 1, pb => do
    let pbb ← nextOf pb
    dropSize h (← destroyAllInNonemptyBlock e pb)
    unlink pb
    if (← maskOf pb) ≠ full then unlinkAvailable pb
    linkAvailableAtBack h pb
    setMask pb 0
    if pbb ≠ lastPbb then eraseBlocks lastPbb rounds pbb else pure pbb

/-- The loop that erases in the last block of a range. -/
def eraseLast (last : Iterator) : ℕ → Iterator → Prog (State α) Iterator
  | 0, _ => Prog.undefined
  | rounds + 1, first =>
    if first = last then pure first
    else do
      let first ← erase h first
      eraseLast last rounds first

/-- **`erase`** of a range. -/
def eraseRange (first last : Iterator) : Prog (State α) Iterator := do
  let rounds ← Prog.gets fun s => s.rounds h
  let first ← eraseFirst h first.pbb last rounds first
  let first ← (if first.pbb ≠ last.pbb then do
      let pbb ← eraseBlocks e h last.pbb rounds first.pbb
      Prog.gets fun s => s.atBlock pbb
    else pure first)
  let _ ← eraseLast h last rounds first
  pure last

/-- `clear` -/
def clear : Prog (State α) Unit := do
  let first ← begin h
  let _ ← eraseRange e h first (endOf h)
  pure ()

end Erase

end Hub
