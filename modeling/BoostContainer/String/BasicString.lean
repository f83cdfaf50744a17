import BoostContainer.Detail.NextCapacity
import BoostContainer.Lib.Buffer
import BoostContainer.Lib.Heap

/-!
# Strings

A string is in one of two forms that overlay the same bytes. The short form
keeps its characters in an internal buffer; the long form has a buffer from
the allocator, whose size it stores with one bit less than the stored size
type has for its length. All functions end the characters with a null, which
is not counted in the size.

Here a string is its form (`Repr`), seen together with the heap its buffer
may be in (`Memory`). A buffer is the list of its characters. Memory that was
not written holds anything: the buffers an allocator hands out and the
internal buffer of a new string come with some contents, given by the call.

An allocator answers a command by an exception, by a new buffer, or, where
the caller has a buffer it may grow, by growing it at either end. It may
always hand out more than it was asked for.
-/

namespace BasicString

open NextCapacity

/-- **A kind of strings**: what its allocator, its options and the platform
fix. -/
structure Options where
  /-- The bits of `size_type`. -/
  bits : ℕ
  /-- The bits of `stored_size_type`. -/
  storedBits : ℕ
  /-- `InternalBufferChars` -/
  internalBufferChars : ℕ
  /-- `allocator_traits_type::max_size` -/
  allocMaxSize : ℕ
  /-- `growth_factor_type` -/
  growthFactor : GrowthFactor bits
  /-- What the seven bits of the short length hold in the bytes of a long form
  of the given length. -/
  lengthBits : ℕ → ℕ
  /-- Whether the pointers of the allocator are raw. -/
  rawPointers : Bool
  propagateOnCopy : Bool
  propagateOnMove : Bool
  propagateOnSwap : Bool
  isAlwaysEqual : Bool
  internal_pos : 0 < internalBufferChars
  internal_le : internalBufferChars ≤ 128
  internal_lt : internalBufferChars < 2 ^ bits
  alloc_pos : 0 < allocMaxSize
  alloc_lt : allocMaxSize < 2 ^ bits

/-- The greatest storage: the stored size needs a bit to tell the forms
apart. -/
def Options.maxStorage (o : Options) : ℕ := min o.allocMaxSize (Word.max o.storedBits / 2)

/-- `max_size` -/
def Options.maxSize (o : Options) : ℕ := Word.sub o.bits o.allocMaxSize 1

/-! ## Forms -/

/-- **The two forms of a string.** -/
inductive Repr (α : Type*)
  | short (length : ℕ) (data : List α)
  | long (length storage start : ℕ)

/-- **A string and the heap.** -/
structure Memory (α : Type*) where
  heap : Heap (List α)
  repr : Repr α

variable {α : Type*}

/-- `is_short` -/
def Repr.isShort : Repr α → Bool
  | .short _ _ => true
  | .long _ _ _ => false

namespace Memory

variable (o : Options) (m : Memory α)

/-- `priv_size` -/
def privSize : ℕ :=
  match m.repr with
  | .short length _ => length
  | .long length _ _ => length

/-- `priv_storage` -/
def privStorage : ℕ :=
  match m.repr with
  | .short _ _ => o.internalBufferChars
  | .long _ storage _ => storage

/-- `priv_capacity` -/
def privCapacity : ℕ := m.privStorage o - 1

/-- `priv_addr`: the internal buffer, or a buffer of the heap. -/
def privAddr : Option ℕ :=
  match m.repr with
  | .short _ _ => none
  | .long _ _ start => some start

/-- What the buffer at `priv_addr` holds. -/
def buffer : List α :=
  match m.repr with
  | .short _ data => data
  | .long _ _ start => (m.heap start).getD []

/-- The characters of the string. -/
def contents : List α := m.buffer.slice 0 m.privSize

/-- The buffer at `priv_addr`, written. -/
def setBuffer (d : List α) : Memory α :=
  match m.repr with
  | .short length _ => { m with repr := .short length d }
  | .long _ _ start => { m with heap := Function.update m.heap start (some d) }

/-- `priv_size(sz)`: the length has seven bits in the short form, and all bits
but one of the stored size type in the long form. -/
def setSize (sz : ℕ) : Memory α :=
  match m.repr with
  | .short _ data => { m with repr := .short (sz % 2 ^ 7) data }
  | .long _ storage start =>
    { m with repr := .long (sz % 2 ^ (o.storedBits - 1)) storage start }

/-- `priv_long_storage(storage)` -/
def setLongStorage (storage : ℕ) : Memory α :=
  match m.repr with
  | .short _ _ => m
  | .long length _ start =>
    { m with repr := .long length (storage % 2 ^ o.storedBits) start }

/-- `assure_long`, with address, size and storage. -/
def setLong (start sz storage : ℕ) : Memory α :=
  { m with repr := .long (sz % 2 ^ (o.storedBits - 1)) (storage % 2 ^ o.storedBits) start }

/-- `deallocate_block`; the destructor does the same. -/
def deallocateBlock : Memory α :=
  match m.repr with
  | .short _ _ => m
  | .long _ storage start =>
    if start ≠ 0 ∧ o.internalBufferChars < storage then
      { m with heap := Function.update m.heap start none }
    else m

/-- The string moves to the buffer at `start`, which now holds `d`, and frees the
one it had: `deallocate_block`, then `assure_long`. -/
def adoptBuffer (start : ℕ) (d : List α) (sz storage : ℕ) : Memory α :=
  (({ m with heap := Function.update m.heap start (some d) } : Memory α).deallocateBlock
    o).setLong o start sz storage

/-- The string follows its buffer, which grew at its front and now starts at
`start` and holds `d`. -/
def followBuffer (start : ℕ) (d : List α) (sz storage : ℕ) : Memory α :=
  match m.repr with
  | .short _ _ => m
  | .long _ _ old =>
    ({ m with heap := Function.update (Function.update m.heap old none) start (some d) } :
      Memory α).setLong o start sz storage

/-- `next_storage`: the storage to grow to, or the length error. -/
def nextStorage (additionalObjects currentStorage : ℕ) : Option ℕ :=
  let curCap := m.privCapacity o
  let spareCap := curCap - m.privSize
  let maxCap := o.maxStorage - 1
  let achievable := Word.sub o.bits maxCap curCap
  let minAdditional := additionalObjects - spareCap
  if achievable < minAdditional then none
  else some (o.growthFactor.grow currentStorage minAdditional o.maxStorage)

end Memory

/-! ## Allocators -/

/-- **What an allocator answers to a command.** -/
inductive Answer (α : Type*)
  | throws
  | newBuffer (start : ℕ) (contents : List α)
  | expandedFwd (tail : List α)
  | expandedBwd (start : ℕ) (front tail : List α)

/-- **An allocator**: its answer, given the buffer to reuse, the size that is
the least that will do, and the size that is wanted. -/
abbrev Allocator (α : Type*) := Heap (List α) → Option ℕ → ℕ → ℕ → Answer α

/-- **What an allocator may answer**: memory that is nobody's, of a size that
will do, and growth only of the buffer it was shown. It hands out no more than
the greatest storage where it was asked for no more. -/
def Answer.Allowed (o : Options) (h : Heap (List α)) (reuse : Option ℕ)
    (limit preferred : ℕ) : Answer α → Prop
  | .throws => True
  | .newBuffer start contents =>
    start ≠ 0 ∧ h start = none ∧ limit ≤ contents.length
      ∧ (preferred ≤ o.maxStorage → contents.length ≤ o.maxStorage)
  | .expandedFwd tail =>
    ∃ p old, reuse = some p ∧ h p = some old ∧ limit ≤ (old ++ tail).length
      ∧ (preferred ≤ o.maxStorage → (old ++ tail).length ≤ o.maxStorage)
  | .expandedBwd start front tail =>
    ∃ p old, reuse = some p ∧ h p = some old ∧ start ≠ 0 ∧ h start = none
      ∧ limit ≤ (front ++ old ++ tail).length
      ∧ (preferred ≤ o.maxStorage → (front ++ old ++ tail).length ≤ o.maxStorage)

/-- **An allocator that keeps to what it may answer.** -/
def Conforms (o : Options) (a : Allocator α) : Prop :=
  ∀ h reuse limit preferred, (a h reuse limit preferred).Allowed o h reuse limit preferred

namespace Memory

variable [Zero α] (o : Options) (a : Allocator α) (m : Memory α)

/-- `allocation_command(allocate_new | expand_fwd | expand_bwd, …)`: a short
string has no buffer to reuse. -/
def allocationCommand (limit preferred : ℕ) : Answer α :=
  match m.repr with
  | .short _ _ => a m.heap none limit preferred
  | .long _ _ start => a m.heap (some start) limit preferred

/-- `priv_terminate_string` -/
def privTerminateString : Memory α := m.setBuffer (m.buffer.writeAt m.privSize [0])

/-! ## Insertion -/

/-- The buffer after an insertion in place: the tail is moved up, in two parts
where it is longer than the input, and where it is shorter the input is copied
in two parts around it. -/
def insertInPlace (d : List α) (oldSize pos : ℕ) (vals : List α) : List α :=
  let n := vals.length
  let elemsAfter := oldSize - pos
  if n ≤ elemsAfter then
    let d₁ := d.writeAt (oldSize + 1) (d.slice (oldSize - n + 1) n)
    let d₂ := d₁.writeAt (pos + n) (d₁.slice pos (elemsAfter - n + 1))
    let d₃ := d₂.writeAt pos vals
    d₃.writeAt (oldSize + n) [0]
  else
    let mid := elemsAfter + 1
    let d₁ := d.writeAt (oldSize + 1) (vals.drop mid)
    let newerSize := oldSize + (n - elemsAfter)
    let d₂ := d₁.writeAt newerSize (d₁.slice pos (elemsAfter + 1))
    let d₃ := d₂.writeAt pos (vals.take mid)
    d₃.writeAt (oldSize + n) [0]

/-- A new buffer after an insertion: what lies before, the input, what lies
after, and the null. -/
def insertInNewBuffer (new d : List α) (oldSize pos : ℕ) (vals : List α) : List α :=
  let new₁ := new.writeAt 0 (d.slice 0 pos)
  let new₂ := new₁.writeAt pos vals
  let new₃ := new₂.writeAt (pos + vals.length) (d.slice pos (oldSize - pos))
  new₃.writeAt (oldSize + vals.length) [0]

/-- A buffer that grew at its front, after an insertion: the old characters
start at `offset`. -/
def insertBackwards (d : List α) (offset oldSize pos : ℕ) (vals : List α) : List α :=
  let d₁ := d.writeAt 0 (d.slice offset pos)
  let d₂ := d₁.writeAt (pos + vals.length) (d₁.slice (offset + pos) (oldSize - pos))
  let d₃ := d₂.writeAt pos vals
  d₃.writeAt (oldSize + vals.length) [0]

/-- `insert(p, first, last)` with forward iterators; whether it returned, and
the string it leaves. -/
def insertRange (pos : ℕ) (vals : List α) : Bool × Memory α :=
  if vals = [] then (true, m)
  else
    let n := vals.length
    let oldSize := m.privSize
    let oldCap := m.privCapacity o
    let remaining := oldCap - oldSize
    if n ≤ remaining then
      (true, (m.setBuffer (insertInPlace m.buffer oldSize pos vals)).setSize o (oldSize + n))
    else
      match m.nextStorage o n (oldCap + 1) with
      | none => (false, m)
      | some newStorage =>
        match m.allocationCommand a (oldSize + n + 1) newStorage with
        | .throws => (false, m)
        | .expandedFwd tail =>
          let grown := m.buffer ++ tail
          (true, ((m.setLongStorage o grown.length).setBuffer
            (insertInPlace grown oldSize pos vals)).setSize o (oldSize + n))
        | .newBuffer start contents =>
          (true, m.adoptBuffer o start (insertInNewBuffer contents m.buffer oldSize pos vals)
            (oldSize + n) contents.length)
        | .expandedBwd start front tail =>
          let grown := front ++ m.buffer ++ tail
          (true, m.followBuffer o start (insertBackwards grown front.length oldSize pos vals)
            (oldSize + n) grown.length)

/-- `insert(p, first, last)` with input iterators: one character after the
other. -/
def insertInput (pos : ℕ) : List α → Memory α → Bool × Memory α
  | [], m => (true, m)
  | c :: cs, m =>
    match m.insertRange o a pos [c] with
    | (true, m') => insertInput (pos + 1) cs m'
    | (false, m') => (false, m')

/-- `insert(pos, s, n)`, which checks its arguments first. -/
def insert (pos : ℕ) (vals : List α) : Bool × Memory α :=
  if m.privSize < pos then (false, m)
  else if Word.sub o.bits o.maxSize vals.length < m.privSize then (false, m)
  else m.insertRange o a pos vals

/-- `append(first, last)` with forward iterators. -/
def append (vals : List α) : Bool × Memory α := m.insertRange o a m.privSize vals

/-- `append(first, last)` with input iterators. -/
def appendInput (vals : List α) : Bool × Memory α := insertInput o a m.privSize vals m

/-- `push_back` -/
def pushBack (c : α) : Bool × Memory α :=
  let oldSize := m.privSize
  if oldSize < m.privCapacity o then
    let d := (m.buffer.writeAt (oldSize + 1) [0]).writeAt oldSize [c]
    (true, (m.setBuffer d).setSize o (oldSize + 1))
  else m.append o a [c]

/-! ## Erasing and replacing -/

/-- `erase(first, last)`: the move includes the null. -/
def eraseRange (first last : ℕ) : Memory α :=
  if first = last then m
  else
    let oldSize := m.privSize
    let d := m.buffer.writeAt first (m.buffer.slice last (oldSize + 1 - last))
    (m.setBuffer d).setSize o (oldSize - (last - first))

/-- `erase(pos, n)`, which checks its position first. -/
def erase (pos n : ℕ) : Bool × Memory α :=
  if m.privSize < pos then (false, m)
  else (true, m.eraseRange o pos (pos + min n (m.privSize - pos)))

/-- `clear` -/
def clear : Memory α := (m.setBuffer (m.buffer.writeAt 0 [0])).setSize o 0

/-- `replace(i1, i2, j1, j2)` with forward iterators. -/
def replaceRange (i₁ i₂ : ℕ) (vals : List α) : Bool × Memory α :=
  let len := i₂ - i₁
  if vals.length ≤ len then
    (true, (m.setBuffer (m.buffer.writeAt i₁ vals)).eraseRange o (i₁ + vals.length) i₂)
  else
    (m.setBuffer (m.buffer.writeAt i₁ (vals.take len))).insertRange o a i₂ (vals.drop len)

/-- `replace(i1, i2, n, c)` -/
def replaceFill (i₁ i₂ n : ℕ) (c : α) : Bool × Memory α :=
  m.replaceRange o a i₁ i₂ (List.replicate n c)

/-- `iterator_distance` of a stream that its copies share: the count, and what is left to
read. -/
def iteratorDistance (stream : List α) : ℕ × List α := (stream.length, [])

/-- `iterator_advance` of such a stream; it is undefined to go past its end. -/
def iteratorAdvance (n : ℕ) (stream : List α) : Option (List α) :=
  if n ≤ stream.length then some (stream.drop n) else none

/-- `replace(i1, i2, j1, j2)` with input iterators; undefined, or whether it returned, the
string it leaves, and what is left of the stream where it returned. The overload that
the input iterators get measures the distance first, and so has nothing left to
copy. -/
def replaceInput (i₁ i₂ : ℕ) (stream : List α) : Option (Bool × Memory α × List α) :=
  let (n, left) := iteratorDistance stream
  let len := i₂ - i₁
  if n ≤ len then
    some (true, (m.setBuffer (m.buffer.writeAt i₁ left)).eraseRange o (i₁ + n) i₂, [])
  else
    match iteratorAdvance len left with
    | none => none
    | some rest =>
      -- `j1` and `m` are copies of one stream: `priv_copy` finds them equal
      let (b, m') := insertInput o a i₂ rest m
      some (b, m', [])

/-- `replace(pos1, n1, s, n2)`, which checks its arguments first. -/
def replace (pos₁ n₁ : ℕ) (vals : List α) : Bool × Memory α :=
  if m.privSize < pos₁ then (false, m)
  else
    let len := min n₁ (m.privSize - pos₁)
    if o.maxSize < vals.length ∨ o.maxSize - vals.length ≤ m.privSize - len then (false, m)
    else m.replaceRange o a pos₁ (pos₁ + len) vals

/-! ## Capacity -/

/-- `priv_reserve_no_null_end` -/
def privReserveNoNullEnd (resArg : ℕ) : Bool × Memory α :=
  if o.maxSize < resArg then (false, m)
  else if m.privCapacity o < resArg then
    let n := resArg + 1
    match m.nextStorage o n (m.privStorage o) with
    | none => (false, m)
    | some newStorage =>
      match a m.heap none n newStorage with
      | .newBuffer start contents =>
        (true, m.adoptBuffer o start (contents.writeAt 0 (m.buffer.slice 0 m.privSize))
          m.privSize contents.length)
      | _ => (false, m)
  else (true, m)

/-- `reserve`: the null is written where the buffer is new. -/
def reserve (resArg : ℕ) : Bool × Memory α :=
  match m.privReserveNoNullEnd o a resArg with
  | (true, m') => (true, if m.privCapacity o < resArg then m'.privTerminateString else m')
  | (false, m') => (false, m')

/-- `resize(n, c)` -/
def resize (n : ℕ) (c : α) : Bool × Memory α :=
  if n ≤ m.privSize then (true, m.eraseRange o n m.privSize)
  else m.append o a (List.replicate (n - m.privSize) c)

/-- `resize(n, default_init)`: the new characters are what the buffer
holds. -/
def resizeDefaultInit (n : ℕ) : Bool × Memory α :=
  if n ≤ m.privSize then (true, m.eraseRange o n m.privSize)
  else
    match m.privReserveNoNullEnd o a n with
    | (true, m') => (true, (m'.setSize o n).privTerminateString)
    | (false, m') => (false, m')

/-- `shrink_to_fit`. The internal buffer is written before the short form is
constructed over it, and the short length is what the bytes hold; an exception
of the allocator is swallowed. `raw` is the internal buffer before. -/
def shrinkToFit (raw : List α) : Memory α :=
  match m.repr with
  | .short _ _ => m
  | .long length storage start =>
    if o.internalBufferChars < storage then
      if length < o.internalBufferChars then
        { heap := Function.update m.heap start none
          repr := .short (o.lengthBits length % 2 ^ 7)
            (raw.writeAt 0 (m.buffer.slice 0 (length + 1))) }
      else
        match a m.heap none (length + 1) (length + 1) with
        | .newBuffer start' contents =>
          let d := contents.writeAt 0 (m.buffer.slice 0 (length + 1))
          { heap := Function.update (Function.update m.heap start' (some d)) start none
            repr := .long length (contents.length % 2 ^ o.storedBits) start' }
        | _ => m
    else m

/-! ## Assignment -/

/-- `assign(first, last)` with pointers. -/
def assignPtr (vals : List α) : Bool × Memory α :=
  match m.reserve o a vals.length with
  | (true, m') =>
    let d := (m'.buffer.writeAt 0 vals).writeAt vals.length [0]
    (true, (m'.setBuffer d).setSize o vals.length)
  | (false, m') => (false, m')

/-- `assign(first, last)` with iterators that are not pointers: characters are
overwritten as long as both last, and the rest is erased or appended. -/
def assignIter (forward : Bool) (vals : List α) : Bool × Memory α :=
  let oldSize := m.privSize
  let cur := min vals.length oldSize
  let m' := m.setBuffer (m.buffer.writeAt 0 (vals.take cur))
  if vals.length = cur then (true, m'.eraseRange o cur oldSize)
  else if forward then m'.append o a (vals.drop cur)
  else m'.appendInput o a (vals.drop cur)

/-- `assign(x.begin(), x.end())` with the iterators of a string. -/
def assignString (vals : List α) : Bool × Memory α :=
  if o.rawPointers then m.assignPtr o a vals else m.assignIter o a true vals

/-- A long string gives its buffer up for the internal one, over bytes that
hold anything. -/
def releaseBuffer (raw : List α) : Memory α :=
  match m.repr with
  | .short _ _ => m
  | .long _ _ _ => ⟨(m.deallocateBlock o).heap, .short 0 (raw.writeAt 0 [0])⟩

/-! ## Construction -/

/-- A new string before its constructor writes to it: short, empty, over bytes
that hold anything. -/
def base (h : Heap (List α)) (raw : List α) : Memory α := ⟨h, .short 0 raw⟩

/-- `allocate_initial_block` -/
def allocateInitialBlock (n : ℕ) : Bool × Memory α :=
  if n ≤ o.maxSize then
    if o.internalBufferChars < n then
      match a m.heap none n (n + 1) with
      | .newBuffer start contents =>
        (true, m.adoptBuffer o start contents 0 contents.length)
      | _ => (false, m)
    else (true, m)
  else (false, m)

/-- `basic_string(n, default_init)` -/
def constructDefaultInit (h : Heap (List α)) (raw : List α) (n : ℕ) : Bool × Memory α :=
  match (base h raw).allocateInitialBlock o a (Word.add o.bits n 1) with
  | (true, m') => (true, (m'.setSize o n).privTerminateString)
  | (false, m') => (false, m')

/-- `basic_string(reserve, n)` -/
def constructReserve (h : Heap (List α)) (raw : List α) (n : ℕ) : Bool × Memory α :=
  match (base h raw).allocateInitialBlock o a (Word.add o.bits n 1) with
  | (true, m') => (true, m'.privTerminateString)
  | (false, m') => (false, m')

/-- The constructors that make an empty string and assign to it; when the
assignment throws, the buffer is freed and there is no string. -/
def constructAssign (assign : Memory α → Bool × Memory α) (h : Heap (List α))
    (raw : List α) : Bool × Memory α :=
  match assign (base h raw).privTerminateString with
  | (true, m') => (true, m')
  | (false, m') => (false, m'.deallocateBlock o)

end Memory

end BasicString
