import BoostContainer.Lib.Heap
import BoostContainer.Lib.Program

/-!
# Storage that holds elements

Memory is a heap of slots. A slot that is allocated is raw or holds an
element; elements are constructed in raw slots, moved between slots, and
destroyed. Everything that runs code of the element type, or asks for memory,
may throw. A call throws once at most, so the environment of a call says which
of its operations on elements throws, counted from the start of the call, or
which of its requests for memory.

To construct over an element, to assign to raw memory or to destroy what is
not there has no defined behaviour. Where the destructor of an element does
nothing an element may be forgotten, and its slot used again.

What code promises about the slots of an object is `Owns`: which slots the
object may touch, and in which of them an element lives. It does not depend on
the values of the elements, and leaves all other slots as they are. It keeps a
ledger as well: in every slot, elements were constructed and destroyed by
turns.
-/

namespace Slots

/-- **An allocated slot**: the allocator it is from, and the element in it. -/
structure Slot (α : Type*) where
  allocator : ℕ
  element : Option α

/-- **The state a program works on.** -/
structure State (κ : Type) (α : Type*) where
  heap : Heap (Slot α)
  /-- How many operations on elements were made that may throw. -/
  ops : ℕ
  /-- How many requests for memory were made. -/
  requests : ℕ
  /-- How often an element was constructed in a slot. -/
  constructed : ℕ → ℕ
  /-- How often an element was destroyed in a slot. -/
  destroyed : ℕ → ℕ
  /-- The fields of the object. -/
  object : κ

/-- **The environment of a call.** -/
structure Env (α : Type*) where
  /-- The operation on elements that throws, if one does. -/
  fuse : Option ℕ
  /-- The request for memory that is refused, if one is. -/
  refusal : Option ℕ
  /-- Where the allocator finds a number of slots that are nobody's, if it does:
  never at null. -/
  address (h : Heap (Slot α)) (n : ℕ) :
    Option {p : ℕ // p ≠ 0 ∧ ∀ q ∈ Set.Ico p (p + n), h q = none}
  /-- What a move leaves of an element. -/
  moved : α → α
  /-- `is_trivially_destructible` -/
  trivialDestructor : Bool

/-- **What an element is made from**: a value, an element to move from, an
element to copy, or the arguments of a constructor, from which an assignment
makes a temporary first. -/
inductive Source (α : Type*)
  | value (v : α)
  | slot (p : ℕ)
  | copyOf (p : ℕ)
  | temporary (v : α)

variable {κ : Type} {α : Type*}

/-- A state at the start of a call. -/
def State.start (h : Heap (Slot α)) (k : κ) : State κ α := ⟨h, 0, 0, fun _ => 0, fun _ => 0, k⟩

/-- A heap where the slots of a range are set. -/
def setRange (h : Heap (Slot α)) (p n : ℕ) (x : Option (Slot α)) : Heap (Slot α) := fun q =>
  if p ≤ q ∧ q < p + n then x else h q

/-- The value that is read. -/
def Source.read (h : Heap (Slot α)) : Source α → Option α
  | .value v => some v
  | .slot p => (h p).bind Slot.element
  | .copyOf p => (h p).bind Slot.element
  | .temporary v => some v

/-- What moving leaves behind. -/
def Source.spend (e : Env α) (h : Heap (Slot α)) : Source α → Heap (Slot α)
  | .slot p => Function.update h p ((h p).map fun s => { s with element := s.element.map e.moved })
  | _ => h

/-! ## Operations -/

section Operations

variable (e : Env α)

/-- An operation that may throw and changes nothing. -/
def tick : Prog (State κ α) Unit := fun s =>
  if e.fuse = some s.ops then .threw { s with ops := s.ops + 1 }
  else .done () { s with ops := s.ops + 1 }

/-- `allocator_traits::construct`, in a raw slot. An element that is constructed from
itself, where it stands, is left as a move leaves it. -/
def construct (p : ℕ) (src : Source α) : Prog (State κ α) Unit := fun s =>
  match s.heap p, src.read s.heap with
  | some slot, some v =>
    if slot.element.isSome && !e.trivialDestructor then .undefined
    else if e.fuse = some s.ops then
      .threw { s with
        heap := Function.update s.heap p (some { slot with element := none })
        ops := s.ops + 1 }
    else
      .done () { s with
        heap := src.spend e (Function.update s.heap p (some { slot with element := some v }))
        ops := s.ops + 1
        constructed := Function.update s.constructed p (s.constructed p + 1) }
  | _, _ => .undefined

/-- `*p = v`. An element that is moved onto itself is left as a move leaves it. -/
def assignFrom (p : ℕ) (src : Source α) : Prog (State κ α) Unit := fun s =>
  match s.heap p, src.read s.heap with
  | some slot, some v =>
    if slot.element.isNone then .undefined
    else if e.fuse = some s.ops then .threw { s with ops := s.ops + 1 }
    else
      .done () { s with
        heap := src.spend e (Function.update s.heap p (some { slot with element := some v }))
        ops := s.ops + 1 }
  | _, _ => .undefined

/-- The temporary an assignment needs, which is destroyed after it in any case. -/
def makeTemporary : Source α → Prog (State κ α) Unit
  | .temporary _ => tick e
  | _ => pure ()

/-- An assignment, with the temporary it may need. -/
def assign (p : ℕ) (src : Source α) : Prog (State κ α) Unit := do
  makeTemporary e src
  assignFrom e p src

/-- `allocator_traits::destroy` -/
def destroy (p : ℕ) : Prog (State κ α) Unit := fun s =>
  match s.heap p with
  | some slot =>
    if slot.element.isNone && !e.trivialDestructor then .undefined
    else .done () { s with
      heap := Function.update s.heap p (some { slot with element := none })
      destroyed := Function.update s.destroyed p (s.destroyed p + 1) }
  | none => .undefined

/-- A request for memory that is not for slots. -/
def request : Prog (State κ α) Unit := fun s =>
  if e.refusal = some s.requests then .threw { s with requests := s.requests + 1 }
  else .done () { s with requests := s.requests + 1 }

/-- `allocator_traits::allocate` -/
def allocate (allocator n : ℕ) : Prog (State κ α) ℕ := fun s =>
  if e.refusal = some s.requests then .threw { s with requests := s.requests + 1 }
  else match e.address s.heap n with
    | some p => .done p { s with
        heap := setRange s.heap p n (some ⟨allocator, none⟩)
        requests := s.requests + 1 }
    | none => .threw { s with requests := s.requests + 1 }

/-- `allocator_traits::deallocate` -/
def deallocate (p n : ℕ) : Prog (State κ α) Unit := fun s =>
  if ∀ i < n, (s.heap (p + i)).isSome then
    .done () { s with heap := setRange s.heap p n none }
  else .undefined

/-- The fields of the object. -/
def object : Prog (State κ α) κ := Prog.gets State.object

/-- Fields of the object, set. -/
def setObject (f : κ → κ) : Prog (State κ α) Unit :=
  Prog.modify fun s => { s with object := f s.object }

/-! ## Loops -/

/-- `n` elements from `p` on are destroyed. -/
def destroyN (p : ℕ) : ℕ → Prog (State κ α) Unit
  | 0 => pure ()
  | n + 1 => do
    destroy e p
    destroyN (p + 1) n

/-- The loop that constructs elements from `r` on. What it constructed so far
starts at `back`, and is destroyed when it throws. -/
def uninitializedCopyLoop (back r : ℕ) : List (Source α) → Prog (State κ α) Unit
  | [] => pure ()
  | src :: srcs => do
    (construct e r src).onThrow (destroyN e back (r - back))
    uninitializedCopyLoop back (r + 1) srcs

/-- `uninitialized_copy_alloc` and its variants: elements are constructed from
`r` on, all or none. -/
def uninitializedCopy (r : ℕ) (srcs : List (Source α)) : Prog (State κ α) Unit :=
  uninitializedCopyLoop e r r srcs

/-- `copy` and its variants: elements from `r` on are assigned to. -/
def copy (r : ℕ) : List (Source α) → Prog (State κ α) Unit
  | [] => pure ()
  | src :: srcs => do
    assign e r src
    copy (r + 1) srcs

/-- `n` elements to move from, from `f` on. -/
def slots (f : ℕ) : ℕ → List (Source α)
  | 0 => []
  | n + 1 => .slot f :: slots (f + 1) n

/-- `n` elements to copy, from `f` on. -/
def copies (f : ℕ) : ℕ → List (Source α)
  | 0 => []
  | n + 1 => .copyOf f :: copies (f + 1) n

/-- `move_backward`, of the `n` elements before `l`, to the slots before `rl`. -/
def moveBackward (l rl : ℕ) : ℕ → Prog (State κ α) Unit
  | 0 => pure ()
  | n + 1 => do
    assign e (rl - 1) (.slot (l - 1))
    moveBackward (l - 1) (rl - 1) n

end Operations

@[simp] theorem length_slots (f n : ℕ) : (slots f n : List (Source α)).length = n := by
  induction n generalizing f with
  | zero => rfl
  | succ n ih => rw [slots, List.length_cons, ih]

@[simp] theorem length_copies (f n : ℕ) : (copies f n : List (Source α)).length = n := by
  induction n generalizing f with
  | zero => rfl
  | succ n ih => rw [copies, List.length_cons, ih]

theorem mem_copies {f n : ℕ} {src : Source α} (h : src ∈ copies f n) :
    ∃ q, f ≤ q ∧ q < f + n ∧ src = .copyOf q := by
  induction n generalizing f with
  | zero => exact absurd h List.not_mem_nil
  | succ n ih =>
    rcases List.mem_cons.mp h with rfl | h'
    · exact ⟨f, le_rfl, by omega, rfl⟩
    · obtain ⟨q, hf, hn, rfl⟩ := ih h'
      exact ⟨q, by omega, by omega, rfl⟩

theorem mem_slots {f n : ℕ} {src : Source α} (h : src ∈ slots f n) :
    ∃ q, f ≤ q ∧ q < f + n ∧ src = .slot q := by
  induction n generalizing f with
  | zero => exact absurd h List.not_mem_nil
  | succ n ih =>
    rcases List.mem_cons.mp h with rfl | h'
    · exact ⟨f, le_rfl, by omega, rfl⟩
    · obtain ⟨q, hf, hn, rfl⟩ := ih h'
      exact ⟨q, by omega, by omega, rfl⟩

/-! ## Liveness -/

/-- **The shape of a heap**: which slots are allocated, and which hold an
element. -/
def shape (h : Heap (Slot α)) : Heap Bool := fun p => (h p).map fun s => s.element.isSome

theorem shape_update (h : Heap (Slot α)) (p : ℕ) (s : Slot α) :
    shape (Function.update h p (some s))
      = Function.update (shape h) p (some s.element.isSome) := by
  funext q
  by_cases hq : q = p
  · subst hq
    simp [shape]
  · simp [shape, Function.update_of_ne hq]

theorem shape_setRange {h : Heap (Slot α)} {p n q : ℕ} {x : Option (Slot α)}
    (hq : q ∈ Set.Ico p (p + n)) :
    shape (setRange h p n x) q = x.map fun s => s.element.isSome :=
  congrArg (Option.map _) (if_pos hq)

theorem shape_setRange_of_notMem {h : Heap (Slot α)} {p n q : ℕ} {x : Option (Slot α)}
    (hq : q ∉ Set.Ico p (p + n)) : shape (setRange h p n x) q = shape h q :=
  congrArg (Option.map _) (if_neg hq)

/-- Moving from an element leaves an element. -/
theorem shape_spend (e : Env α) (h : Heap (Slot α)) (src : Source α) :
    shape (src.spend e h) = shape h := by
  cases src with
  | value v => rfl
  | copyOf p => rfl
  | temporary v => rfl
  | slot p =>
    funext q
    by_cases hq : q = p
    · subst hq
      cases hs : h q with
      | none => simp [shape, Source.spend, hs]
      | some s => simp [shape, Source.spend, hs]
    · simp [shape, Source.spend, Function.update_of_ne hq]

theorem exists_of_shape_eq {h : Heap (Slot α)} {p : ℕ} {b : Bool} (hp : shape h p = some b) :
    ∃ s, h p = some s ∧ s.element.isSome = b := by
  simpa only [shape, Option.map_eq_some_iff] using hp

/-- Whether a slot holds an element, as a number. -/
def alive (h : Heap Bool) (p : ℕ) : ℕ := if h p = some true then 1 else 0

/-- **A stretch that keeps the ledger**: what is constructed in it is destroyed
in it, unless it is there at the end, and what was there at the start and is
not at the end was destroyed as well. -/
def Balanced (s s' : State κ α) : Prop :=
  ∀ q, s'.constructed q + s.destroyed q + alive (shape s.heap) q
    = s.constructed q + s'.destroyed q + alive (shape s'.heap) q

/-- **The slots of an object**: since a state `s₀` in which it could touch `S₀`,
the object came to own `own`, with elements in `live`. Where destructors do
nothing, other slots may hold elements that were forgotten. -/
structure Owns (t : Bool) (s₀ : State κ α) (S₀ : Set ℕ) (k : κ) (own live : Set ℕ)
    (s : State κ α) : Prop where
  object_eq : s.object = k
  exchange : Heap.Exchange s₀.heap S₀ s.heap own
  live_sub : live ⊆ own
  present : ∀ p ∈ own, s.heap p ≠ none
  full : ∀ p ∈ live, shape s.heap p = some true
  vacant : t = false → ∀ p ∈ own, p ∉ live → shape s.heap p = some false
  ledger : t = false → Balanced s₀ s

/-- **A source that can be read.** -/
def Source.Readable (live : Set ℕ) : Source α → Prop
  | .slot p => p ∈ live
  | .copyOf p => p ∈ live
  | _ => True

variable {t : Bool} {s₀ s s' : State κ α} {S₀ own own' live live' : Set ℕ} {k : κ}
  {p r n : ℕ} {src : Source α} {srcs : List (Source α)}

theorem Source.Readable.mono (h : src.Readable live) (hl : live ⊆ live') :
    src.Readable live' := by
  cases src with
  | slot p => exact hl h
  | copyOf p => exact hl h
  | value v => trivial
  | temporary v => trivial

/-- Elements that live can be moved from. -/
theorem readable_slots {f : ℕ} (h : Set.Ico f (f + n) ⊆ live) :
    ∀ src ∈ (slots f n : List (Source α)), src.Readable live := by
  intro src hsrc
  obtain ⟨q, hf, hn, rfl⟩ := mem_slots hsrc
  exact h ⟨hf, hn⟩

/-- Elements that live can be copied. -/
theorem readable_copies {f : ℕ} (h : Set.Ico f (f + n) ⊆ live) :
    ∀ src ∈ (copies f n : List (Source α)), src.Readable live := by
  intro src hsrc
  obtain ⟨q, hf, hn, rfl⟩ := mem_copies hsrc
  exact h ⟨hf, hn⟩

theorem readable_values (vs : List α) :
    ∀ src ∈ vs.map Source.value, src.Readable live := by
  intro src hsrc
  obtain ⟨v, _, rfl⟩ := List.mem_map.mp hsrc
  trivial

namespace Owns

/-- The same slots, described another way. -/
theorem congr (h : Owns t s₀ S₀ k own live s) (ho : own = own') (hl : live = live') :
    Owns t s₀ S₀ k own' live' s := ho ▸ hl ▸ h

/-- What is owned is owned since now. -/
theorem restart (h : Owns t s₀ S₀ k own live s) : Owns t s own k own live s :=
  ⟨h.object_eq, Heap.Exchange.refl _ own, h.live_sub, h.present, h.full, h.vacant,
    fun _ _ => rfl⟩

/-- **Less is owned**, and the slots left out are not touched from now on. -/
theorem restrict (h : Owns t s₀ S₀ k own live s) (ho : own' ⊆ own) :
    Owns t s own' k own' (live ∩ own') s :=
  ⟨h.object_eq, Heap.Exchange.refl _ own', Set.inter_subset_right,
    fun p hp => h.present p (ho hp), fun p hp => h.full p hp.1,
    fun ht p hp hl => h.vacant ht p (ho hp) (fun hpl => hl ⟨hpl, hp⟩), fun _ _ => rfl⟩

/-- Stretches follow one another. -/
theorem trans {S₁ live₁ : Set ℕ} {k₁ : κ} {s₁ : State κ α} (h : Owns t s₀ S₀ k₁ S₁ live₁ s₁)
    (h' : Owns t s₁ S₁ k own live s) : Owns t s₀ S₀ k own live s := by
  refine ⟨h'.object_eq, h.exchange.trans h'.exchange, h'.live_sub, h'.present, h'.full, h'.vacant,
    fun ht q => ?_⟩
  have h1 := h.ledger ht q
  have h2 := h'.ledger ht q
  omega

/-- An element that does not have to be destroyed may be forgotten. -/
theorem forget (h : Owns t s₀ S₀ k own live s) (hl : live' ⊆ live)
    (ht : t = false → live' = live) : Owns t s₀ S₀ k own live' s :=
  ⟨h.object_eq, h.exchange, hl.trans h.live_sub, h.present, fun p hp => h.full p (hl hp),
    fun hf => ht hf ▸ h.vacant hf, h.ledger⟩

/-- A slot that is not touched is as it was. -/
theorem heap_eq_of_notMem (h : Owns t s₀ S₀ k own live s) (hS : p ∉ S₀) (hp : s₀.heap p ≠ none) :
    s.heap p = s₀.heap p :=
  h.exchange.frame p hS (fun hown => hp (h.exchange.fresh p hown hS))

/-- A slot that was there and is not owned is owned by nobody new. -/
theorem disjoint_of_present {F : Set ℕ} (h : Owns t s₀ S₀ k own live s) (hd : Disjoint S₀ F)
    (hF : ∀ p ∈ F, s₀.heap p ≠ none) : Disjoint own F :=
  Set.disjoint_left.mpr (fun p hp hpF =>
    hF p hpF (h.exchange.fresh p hp (Set.disjoint_right.mp hd hpF)))

/-- **The frame rule**: slots that a stretch was not given are as they were at
its start, and are owned after it as before. -/
theorem frame {S₁ live₁ : Set ℕ} {k₁ : κ} {s₁ : State κ α} (h : Owns t s₀ S₀ k₁ S₁ live₁ s₁)
    (ho : own' ⊆ S₁) (h' : Owns t s₁ own' k own live s) :
    Owns t s₀ S₀ k (own ∪ (S₁ \ own')) (live ∪ (live₁ \ own')) s
      ∧ Disjoint own (S₁ \ own') ∧ ∀ p ∈ S₁ \ own', s.heap p = s₁.heap p := by
  have hd : Disjoint own (S₁ \ own') :=
    h'.disjoint_of_present Set.disjoint_sdiff_right (fun p hp => h.present p hp.1)
  have heq : ∀ p ∈ S₁ \ own', s.heap p = s₁.heap p :=
    fun p hp => h'.heap_eq_of_notMem hp.2 (h.present p hp.1)
  have hshape : ∀ p ∈ S₁ \ own', shape s.heap p = shape s₁.heap p :=
    fun p hp => congrArg (Option.map _) (heq p hp)
  refine ⟨h.trans ⟨h'.object_eq, ?_, ?_, fun p hp => ?_, fun p hp => ?_, fun ht p hp hl => ?_,
    h'.ledger⟩, hd, heq⟩
  · have hex := h'.exchange.union (S₁ \ own')
    rwa [Set.union_sdiff_cancel ho] at hex
  · exact Set.union_subset_union h'.live_sub (Set.sdiff_subset_sdiff_left h.live_sub)
  · rcases hp with hp | hp
    · exact h'.present p hp
    · rw [heq p hp]
      exact h.present p hp.1
  · rcases hp with hp | hp
    · exact h'.full p hp
    · rw [hshape p ⟨h.live_sub hp.1, hp.2⟩]
      exact h.full p hp.1
  · rw [Set.mem_union, not_or] at hl
    rcases hp with hp | hp
    · exact h'.vacant ht p hp hl.1
    · rw [hshape p hp]
      exact h.vacant ht p hp.1 (fun hpl => hl.2 ⟨hpl, hp.2⟩)

theorem read_ne_none (h : Owns t s₀ S₀ k own live s) (hsrc : src.Readable live) :
    ∃ v, src.read s.heap = some v := by
  cases src with
  | value v => exact ⟨v, rfl⟩
  | temporary v => exact ⟨v, rfl⟩
  | slot q | copyOf q =>
    obtain ⟨slot, hslot, helem⟩ := exists_of_shape_eq (h.full q hsrc)
    obtain ⟨v, hv⟩ := Option.isSome_iff_exists.mp helem
    exact ⟨v, by rw [Source.read, hslot]; exact hv⟩

theorem ledger_trans (h : Owns t s₀ S₀ k own live s) (hb : t = false → Balanced s s')
    (ht : t = false) : Balanced s₀ s' := by
  intro q
  have h1 := h.ledger ht q
  have h2 := hb ht q
  omega

/-- The same slots, after a step that leaves elements where they were. -/
theorem step (h : Owns t s₀ S₀ k own live s) (ho : s'.object = s.object)
    (hex : Heap.Exchange s.heap own s'.heap own) (hs : shape s'.heap = shape s.heap)
    (hb : t = false → Balanced s s') : Owns t s₀ S₀ k own live s' := by
  refine ⟨ho.trans h.object_eq, h.exchange.trans hex, h.live_sub, fun q hq hn => ?_,
    hs ▸ h.full, hs ▸ h.vacant, h.ledger_trans hb⟩
  have hshape := congrFun hs q
  rw [shape, hn, Option.map_none] at hshape
  exact h.present q hq (Option.map_eq_none_iff.mp hshape.symm)

/-- **A slot takes an element.** -/
theorem fill (h : Owns t s₀ S₀ k own live s) (hp : p ∈ own) (ho : s'.object = s.object)
    (hex : Heap.Exchange s.heap own s'.heap own)
    (hs : shape s'.heap = Function.update (shape s.heap) p (some true))
    (hb : t = false → Balanced s s') : Owns t s₀ S₀ k own (insert p live) s' := by
  have hself : shape s'.heap p = some true := by
    rw [hs, Function.update_self]
  have hother : ∀ q, q ≠ p → shape s'.heap q = shape s.heap q := by
    intro q hq
    rw [hs, Function.update_of_ne hq]
  refine ⟨ho.trans h.object_eq, h.exchange.trans hex, Set.insert_subset hp h.live_sub,
    fun q hq hn => ?_, fun q hq => ?_, fun ht q hq hl => ?_, h.ledger_trans hb⟩
  · have hnone : shape s'.heap q = none := by
      rw [shape, hn, Option.map_none]
    by_cases hqp : q = p
    · rw [hqp, hself] at hnone
      exact Option.some_ne_none _ hnone
    · rw [hother q hqp] at hnone
      exact h.present q hq (Option.map_eq_none_iff.mp hnone)
  · by_cases hqp : q = p
    · rw [hqp, hself]
    · rw [hother q hqp]
      exact h.full q (Set.mem_of_mem_insert_of_ne hq hqp)
  · rw [Set.mem_insert_iff, not_or] at hl
    rw [hother q hl.1]
    exact h.vacant ht q hq hl.2

/-- **A slot loses its element.** -/
theorem vacate (h : Owns t s₀ S₀ k own live s) (ho : s'.object = s.object)
    (hex : Heap.Exchange s.heap own s'.heap own)
    (hs : shape s'.heap = Function.update (shape s.heap) p (some false))
    (hb : t = false → Balanced s s') : Owns t s₀ S₀ k own (live \ {p}) s' := by
  have hself : shape s'.heap p = some false := by
    rw [hs, Function.update_self]
  have hother : ∀ q, q ≠ p → shape s'.heap q = shape s.heap q := by
    intro q hq
    rw [hs, Function.update_of_ne hq]
  refine ⟨ho.trans h.object_eq, h.exchange.trans hex, Set.sdiff_subset.trans h.live_sub,
    fun q hq hn => ?_, fun q hq => ?_, fun ht q hq hl => ?_, h.ledger_trans hb⟩
  · have hnone : shape s'.heap q = none := by
      rw [shape, hn, Option.map_none]
    by_cases hqp : q = p
    · rw [hqp, hself] at hnone
      exact Option.some_ne_none _ hnone
    · rw [hother q hqp] at hnone
      exact h.present q hq (Option.map_eq_none_iff.mp hnone)
  · rw [hother q hq.2]
    exact h.full q hq.1
  · by_cases hqp : q = p
    · rw [hqp, hself]
    · rw [hother q hqp]
      exact h.vacant ht q hq (fun hql => hl ⟨hql, hqp⟩)

end Owns

/-- A slot that is written, and one that is moved from. -/
theorem exchange_spend_update {h : Heap (Slot α)} (hp : p ∈ own) (hsrc : src.Readable live)
    (hl : live ⊆ own) (e : Env α) (b : Option (Slot α)) :
    Heap.Exchange h own (src.spend e (Function.update h p b)) own := by
  refine (Heap.Exchange.update hp b).trans ?_
  cases src with
  | value v => exact Heap.Exchange.refl _ own
  | copyOf q => exact Heap.Exchange.refl _ own
  | temporary v => exact Heap.Exchange.refl _ own
  | slot q => exact Heap.Exchange.update (hl hsrc) _

/-! ## What operations do to the slots -/

section Rules

variable {e : Env α}

theorem tick_meets : Prog.Meets (Owns t s₀ S₀ k own live) (tick e : Prog (State κ α) Unit)
    (fun _ => Owns t s₀ S₀ k own live) (Owns t s₀ S₀ k own live) := by
  intro s hs
  unfold tick
  split
  · exact hs.step rfl (Heap.Exchange.refl _ _) rfl (fun _ _ => rfl)
  · exact hs.step rfl (Heap.Exchange.refl _ _) rfl (fun _ _ => rfl)

theorem request_meets : Prog.Meets (Owns t s₀ S₀ k own live) (request e : Prog (State κ α) Unit)
    (fun _ => Owns t s₀ S₀ k own live) (Owns t s₀ S₀ k own live) := by
  intro s hs
  unfold request
  split
  · exact hs.step rfl (Heap.Exchange.refl _ _) rfl (fun _ _ => rfl)
  · exact hs.step rfl (Heap.Exchange.refl _ _) rfl (fun _ _ => rfl)

/-- **An element is constructed** in a slot that is raw, or whose element may be
forgotten; if this throws, the slot is raw. -/
theorem construct_meets (hp : p ∈ own) (hl : e.trivialDestructor = true ∨ p ∉ live)
    (hsrc : src.Readable live) :
    Prog.Meets (Owns e.trivialDestructor s₀ S₀ k own live) (construct e p src)
      (fun _ => Owns e.trivialDestructor s₀ S₀ k own (insert p live))
      (Owns e.trivialDestructor s₀ S₀ k own (live \ {p})) := by
  intro s hs
  obtain ⟨slot, hslot⟩ := Option.ne_none_iff_exists'.mp (hs.present p hp)
  obtain ⟨v, hv⟩ := hs.read_ne_none hsrc
  have hraw : e.trivialDestructor = false → shape s.heap p = some false := by
    intro ht
    refine hs.vacant ht p hp (hl.resolve_left ?_)
    rw [ht]
    exact Bool.false_ne_true
  have hdef : ¬ (slot.element.isSome && !e.trivialDestructor) = true := by
    intro h
    rw [Bool.and_eq_true, Bool.not_eq_true'] at h
    have hs := hraw h.2
    rw [shape, hslot, Option.map_some, Option.some_inj, h.1] at hs
    exact Bool.false_ne_true hs.symm
  unfold construct
  simp only [hslot, hv, if_neg hdef]
  split
  · refine hs.vacate rfl (Heap.Exchange.update hp _) (shape_update _ _ _) (fun ht q => ?_)
    rw [alive, alive, shape_update]
    by_cases hq : q = p
    · rw [hq, Function.update_self, hraw ht]
      rfl
    · rw [Function.update_of_ne hq]
  · refine hs.fill hp rfl (exchange_spend_update hp hsrc hs.live_sub e _)
      ((shape_spend _ _ _).trans (shape_update _ _ _)) (fun ht q => ?_)
    rw [alive, alive, shape_spend, shape_update]
    by_cases hq : q = p
    · subst hq
      simp only [Function.update_self, hraw ht, Option.isSome_some]
      simp
      omega
    · simp only [Function.update_of_ne hq]

theorem assign_meets (hp : p ∈ live) (hsrc : src.Readable live) :
    Prog.Meets (Owns t s₀ S₀ k own live) (assign e p src)
      (fun _ => Owns t s₀ S₀ k own live) (Owns t s₀ S₀ k own live) := by
  unfold assign
  refine Prog.Meets.bind (R := fun _ => Owns t s₀ S₀ k own live) ?_ (fun _ => ?_)
  · cases src with
    | temporary v => exact tick_meets
    | copyOf q => exact Prog.meets_pure (fun _ hs => hs)
    | value v => exact Prog.meets_pure (fun _ hs => hs)
    | slot q => exact Prog.meets_pure (fun _ hs => hs)
  · intro s hs
    obtain ⟨slot, hslot, helem⟩ := exists_of_shape_eq (hs.full p hp)
    obtain ⟨v, hv⟩ := hs.read_ne_none hsrc
    have hdef : ¬ slot.element.isNone = true := by
      rw [Option.isNone_iff_eq_none, ← Option.isSome_iff_ne_none.not_left]
      exact not_not_intro helem
    have hshape : shape (src.spend e (Function.update s.heap p
        (some { slot with element := some v }))) = shape s.heap := by
      rw [shape_spend, shape_update]
      exact Function.update_eq_self_iff.mpr (hs.full p hp).symm
    unfold assignFrom
    simp only [hslot, hv, if_neg hdef]
    split
    · exact hs.step rfl (Heap.Exchange.refl _ _) rfl (fun _ _ => rfl)
    · refine hs.step rfl (exchange_spend_update (hs.live_sub hp) hsrc hs.live_sub e _) hshape
        (fun _ q => ?_)
      rw [hshape]

theorem destroy_meets (hp : p ∈ live) :
    Prog.Meets (Owns t s₀ S₀ k own live) (destroy e p)
      (fun _ => Owns t s₀ S₀ k own (live \ {p})) (fun _ => False) := by
  intro s hs
  obtain ⟨slot, hslot, helem⟩ := exists_of_shape_eq (hs.full p hp)
  have hdef : ¬ (slot.element.isNone && !e.trivialDestructor) = true := by
    simp [Option.isSome_iff_ne_none.mp helem]
  unfold destroy
  simp only [hslot, if_neg hdef]
  refine hs.vacate rfl (Heap.Exchange.update (hs.live_sub hp) _) (shape_update _ _ _)
    (fun ht q => ?_)
  rw [alive, alive, shape_update]
  by_cases hq : q = p
  · subst hq
    simp only [Function.update_self, hs.full q hp, Option.isSome_none]
    simp
    omega
  · simp only [Function.update_of_ne hq]

/-- **Memory is allocated**, apart from what the object has. -/
theorem allocate_meets {a : ℕ} :
    Prog.Meets (Owns t s₀ S₀ k own live) (allocate e a n)
      (fun p s => (p ≠ 0 ∧ Disjoint own (Set.Ico p (p + n)))
        ∧ Owns t s₀ S₀ k (own ∪ Set.Ico p (p + n)) live s)
      (Owns t s₀ S₀ k own live) := by
  intro s hs
  unfold allocate
  split
  · exact hs.step rfl (Heap.Exchange.refl _ _) rfl (fun _ _ => rfl)
  cases e.address s.heap n with
  | none => exact hs.step rfl (Heap.Exchange.refl _ _) rfl (fun _ _ => rfl)
  | some p =>
    obtain ⟨p, hne, hnone⟩ := p
    have hdisj : Disjoint own (Set.Ico p (p + n)) :=
      Set.disjoint_left.mpr (fun q hq hq' => hs.present q hq (hnone q hq'))
    have hin : ∀ q ∈ Set.Ico p (p + n), setRange s.heap p n (some ⟨a, none⟩) q = some ⟨a, none⟩ :=
      fun q hq => if_pos hq
    have hout : ∀ q, q ∉ Set.Ico p (p + n) →
        setRange s.heap p n (some ⟨a, none⟩) q = s.heap q :=
      fun q hq => if_neg hq
    refine ⟨⟨hne, hdisj⟩, hs.object_eq, ⟨fun q hq hn => ?_, fun q hq hn => ?_, fun q hq hn => ?_⟩,
      hs.live_sub.trans Set.subset_union_left, fun q hq => ?_, fun q hq => ?_,
      fun ht q hq hl => ?_, hs.ledger_trans (fun _ q => ?_)⟩
    · rw [Set.mem_union, not_or] at hn
      exact (hout q hn.2).trans (hs.exchange.freed q hq hn.1)
    · rw [Set.mem_union, not_or] at hn
      exact (hout q hn.2).trans (hs.exchange.frame q hq hn.1)
    · rcases hq with hq | hq
      · exact hs.exchange.fresh q hq hn
      · have hqo : q ∉ own := Set.disjoint_right.mp hdisj hq
        rw [← hs.exchange.frame q hn hqo]
        exact hnone q hq
    · rcases hq with hq | hq
      · show setRange _ _ _ _ q ≠ none
        rw [hout q (Set.disjoint_left.mp hdisj hq)]
        exact hs.present q hq
      · show setRange _ _ _ _ q ≠ none
        rw [hin q hq]
        exact Option.some_ne_none _
    · exact (shape_setRange_of_notMem (Set.disjoint_left.mp hdisj (hs.live_sub hq))).trans
        (hs.full q hq)
    · by_cases hqn : q ∈ Set.Ico p (p + n)
      · exact shape_setRange hqn
      · exact (shape_setRange_of_notMem hqn).trans (hs.vacant ht q (hq.resolve_right hqn) hl)
    · by_cases hqn : q ∈ Set.Ico p (p + n)
      · have hraw : shape s.heap q = none := by
          rw [shape, hnone q hqn, Option.map_none]
        simp only [alive, shape_setRange hqn, hraw]
        rfl
      · simp only [alive, shape_setRange_of_notMem hqn]

/-- **Memory without elements is deallocated.** -/
theorem deallocate_meets (hin : Set.Ico p (p + n) ⊆ own)
    (hl : Disjoint live (Set.Ico p (p + n))) :
    Prog.Meets (Owns t s₀ S₀ k own live) (deallocate p n : Prog (State κ α) Unit)
      (fun _ => Owns t s₀ S₀ k (own \ Set.Ico p (p + n)) live) (fun _ => False) := by
  intro s hs
  have hall : ∀ i < n, (s.heap (p + i)).isSome := fun i hi =>
    Option.isSome_iff_ne_none.mpr (hs.present _ (hin ⟨by omega, by omega⟩))
  have hgone : ∀ q ∈ Set.Ico p (p + n), setRange s.heap p n none q = none :=
    fun q hq => if_pos hq
  have hout : ∀ q, q ∉ Set.Ico p (p + n) → setRange s.heap p n none q = s.heap q :=
    fun q hq => if_neg hq
  unfold deallocate
  rw [if_pos hall]
  refine ⟨hs.object_eq, ⟨fun q hq hn => ?_, fun q hq hn => ?_, fun q hq hn => ?_⟩,
    fun q hq => ⟨hs.live_sub hq, Set.disjoint_left.mp hl hq⟩, fun q hq => ?_, fun q hq => ?_,
    fun ht q hq hq' => ?_, hs.ledger_trans (fun ht q => ?_)⟩
  · by_cases hqn : q ∈ Set.Ico p (p + n)
    · exact hgone q hqn
    · exact (hout q hqn).trans (hs.exchange.freed q hq (fun hqo => hn ⟨hqo, hqn⟩))
  · by_cases hqn : q ∈ Set.Ico p (p + n)
    · exact (hgone q hqn).trans (hs.exchange.fresh q (hin hqn) hq).symm
    · exact (hout q hqn).trans (hs.exchange.frame q hq (fun hqo => hn ⟨hqo, hqn⟩))
  · exact hs.exchange.fresh q hq.1 hn
  · show setRange s.heap p n none q ≠ none
    rw [hout q hq.2]
    exact hs.present q hq.1
  · exact (shape_setRange_of_notMem (Set.disjoint_left.mp hl hq)).trans (hs.full q hq)
  · exact (shape_setRange_of_notMem hq.2).trans (hs.vacant ht q hq.1 hq')
  · by_cases hqn : q ∈ Set.Ico p (p + n)
    · have hraw := hs.vacant ht q (hin hqn) (Set.disjoint_right.mp hl hqn)
      simp only [alive, shape_setRange hqn, hraw]
      rfl
    · simp only [alive, shape_setRange_of_notMem hqn]

theorem setObject_meets {f : κ → κ} :
    Prog.Meets (Owns t s₀ S₀ k own live) (setObject f : Prog (State κ α) Unit)
      (fun _ => Owns t s₀ S₀ (f k) own live) (fun _ => False) :=
  Prog.meets_modify (fun _ hs =>
    ⟨congrArg f hs.object_eq, hs.exchange, hs.live_sub, hs.present, hs.full, hs.vacant, hs.ledger⟩)

/-- Reading the fields of the object gives what is known about them. -/
theorem object_bind_meets {β : Type} {c : κ → Prog (State κ α) β} {Q : β → State κ α → Prop}
    {E : State κ α → Prop} (h : Prog.Meets (Owns t s₀ S₀ k own live) (c k) Q E) :
    Prog.Meets (Owns t s₀ S₀ k own live) (object >>= c) Q E := by
  intro s hs
  show (c s.object s).Meets Q E
  rw [hs.object_eq]
  exact h s hs

end Rules

/-! ## How often elements were constructed -/

section Constructed

variable {e : Env α} {q : ℕ}

theorem keeps_constructed_construct (hq : q ≠ p) :
    Prog.Keeps (fun s => s.constructed q) (construct e p src : Prog (State κ α) Unit) := by
  intro s
  unfold construct
  split
  · split
    · trivial
    · split
      · rfl
      · exact Function.update_of_ne hq _ _
  · trivial

theorem keeps_constructed_assign :
    Prog.Keeps State.constructed (assign e p src : Prog (State κ α) Unit) := by
  refine Prog.Keeps.bind ?_ (fun _ s => ?_)
  · cases src with
    | temporary v =>
      intro s
      show (tick e s).Permits _ _
      unfold tick
      split <;> rfl
    | copyOf q => exact Prog.keeps_pure ()
    | value v => exact Prog.keeps_pure ()
    | slot q => exact Prog.keeps_pure ()
  · unfold assignFrom
    split
    · split
      · trivial
      · split <;> rfl
    · trivial

theorem keeps_constructed_destroy :
    Prog.Keeps State.constructed (destroy e p : Prog (State κ α) Unit) := by
  intro s
  unfold destroy
  split
  · split
    · trivial
    · rfl
  · trivial

theorem keeps_constructed_destroyN :
    Prog.Keeps State.constructed (destroyN e p n : Prog (State κ α) Unit) := by
  induction n generalizing p with
  | zero => exact Prog.keeps_pure ()
  | succ n ih => exact keeps_constructed_destroy.bind (fun _ => ih)

theorem keeps_constructed_request :
    Prog.Keeps State.constructed (request e : Prog (State κ α) Unit) := by
  intro s
  unfold request
  split <;> rfl

theorem keeps_constructed_allocate {a : ℕ} :
    Prog.Keeps State.constructed (allocate e a n : Prog (State κ α) ℕ) := by
  intro s
  unfold allocate
  split
  · rfl
  · cases e.address s.heap n <;> rfl

theorem keeps_constructed_deallocate :
    Prog.Keeps State.constructed (deallocate p n : Prog (State κ α) Unit) := by
  intro s
  unfold deallocate
  split
  · rfl
  · trivial

theorem keeps_constructed_setObject {f : κ → κ} :
    Prog.Keeps State.constructed (setObject f : Prog (State κ α) Unit) := fun _ => rfl

end Constructed

end Slots
