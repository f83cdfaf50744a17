import BoostContainer.Lib.Run
import BoostContainer.String.BasicStringFind

/-!
# Strings over whole runs

Any number of strings live over one heap. A call makes a string, by any of
the constructors, destroys it, changes it, or assigns, moves or swaps between
two. The memory a new internal buffer lies in holds anything, and each
allocation is answered by an allocator that keeps to what it may answer.

Four functions leave a form without writing what makes it whole, and then the
strings are only what they should be if the memory happens to be right. The
move constructor constructs an empty short string without its null, and swaps
it with the argument, so the *moved-from* string has the null only if the
memory of the new one had it. `shrink_to_fit` constructs the short form
without its length. The constructors that leave the characters as they are
compute `n + 1` without a check and do not heed the bit that the stored size
loses. And `next_storage` supposes that the internal buffer is not larger than
the greatest storage.
-/

namespace BasicString

open Memory

variable {α : Type*} [Zero α]

/-- **What changes one string.** -/
inductive Modifier (α : Type*)
  | assignPtr (v : List α)
  | assignIter (forward : Bool) (v : List α)
  | insertRange (p : ℕ) (v : List α)
  | insertInput (p : ℕ) (v : List α)
  | insert (p : ℕ) (v : List α)
  | append (v : List α)
  | appendInput (v : List α)
  | pushBack (c : α)
  | eraseRange (first last : ℕ)
  | erase (p n : ℕ)
  | clear
  | replaceRange (i₁ i₂ : ℕ) (v : List α)
  | replaceFill (i₁ i₂ n : ℕ) (c : α)
  | replaceInput (i₁ i₂ : ℕ) (v : List α)
  | replace (p₁ n₁ : ℕ) (v : List α)
  | reserve (n : ℕ)
  | resize (n : ℕ) (c : α)
  | resizeDefaultInit (n : ℕ)
  | shrinkToFit (raw : List α)

/-- The string that a modifier leaves, whether it returns or throws. -/
def Modifier.apply (o : Options) (a : Allocator α) (m : Memory α) : Modifier α → Memory α
  | .assignPtr v => (m.assignPtr o a v).2
  | .assignIter forward v => (m.assignIter o a forward v).2
  | .insertRange p v => (m.insertRange o a p v).2
  | .insertInput p v => (Memory.insertInput o a p v m).2
  | .insert p v => (m.insert o a p v).2
  | .append v => (m.append o a v).2
  | .appendInput v => (m.appendInput o a v).2
  | .pushBack c => (m.pushBack o a c).2
  | .eraseRange first last => m.eraseRange o first last
  | .erase p n => (m.erase o p n).2
  | .clear => m.clear o
  | .replaceRange i₁ i₂ v => (m.replaceRange o a i₁ i₂ v).2
  | .replaceFill i₁ i₂ n c => (m.replaceFill o a i₁ i₂ n c).2
  | .replaceInput i₁ i₂ v => ((m.replaceInput o a i₁ i₂ v).getD (true, m, v)).2.1
  | .replace p₁ n₁ v => (m.replace o a p₁ n₁ v).2
  | .reserve n => (m.reserve o a n).2
  | .resize n c => (m.resize o a n c).2
  | .resizeDefaultInit n => (m.resizeDefaultInit o a n).2
  | .shrinkToFit raw => m.shrinkToFit o a raw

/-- **What a caller owes**: iterators into the string, in order. -/
def Modifier.Valid (o : Options) (m : Memory α) : Modifier α → Prop
  | .insertRange p _ | .insertInput p _ => p ≤ m.privSize
  | .eraseRange first last => first ≤ last ∧ last ≤ m.privSize
  | .replaceRange i₁ i₂ _ | .replaceFill i₁ i₂ _ _ | .replaceInput i₁ i₂ _ =>
    i₁ ≤ i₂ ∧ i₂ ≤ m.privSize
  | .shrinkToFit raw => raw.length = o.internalBufferChars
  | _ => True

/-- The condition on a modifier: `shrink_to_fit` finds the length, and what may
grow the string does so from a storage that is not above the greatest. A `replace` with
input iterators that has more characters than it replaces is undefined. -/
def Modifier.Fits (o : Options) (m : Memory α) : Modifier α → Prop
  | .eraseRange _ _ | .erase _ _ | .clear => True
  | .shrinkToFit _ => m.ShrinksSafely o
  | .replaceInput i₁ i₂ v => v.length ≤ i₂ - i₁ ∨ i₂ - i₁ = 0
  | _ => o.internalBufferChars ≤ o.maxStorage

/-- **Every modifier keeps a string sound.** -/
theorem Modifier.keeps {o : Options} {a : Allocator α} {m : Memory α} (f : Modifier α)
    (h : m.Sound o) (ha : Conforms o a) (hv : f.Valid o m) (hf : f.Fits o m) :
    Keeps o m (f.apply o a m) := by
  cases f with
  | assignPtr v => exact h.assignPtr ha hf
  | assignIter forward v => exact h.assignIter ha hf
  | insertRange p v => exact (h.insertRange ha hf hv).1
  | insertInput p v => exact h.insertInput ha hf hv
  | insert p v => exact h.insert ha hf
  | append v => exact h.append ha hf
  | appendInput v => exact h.appendInput ha hf
  | pushBack c => exact h.pushBack ha hf c
  | eraseRange first last => exact h.eraseRange hv.1 hv.2
  | erase p n => exact h.erase
  | clear => exact h.clear
  | replaceRange i₁ i₂ v => exact h.replaceRange ha hf hv.1 hv.2
  | replaceFill i₁ i₂ n c => exact h.replaceRange ha hf hv.1 hv.2
  | replaceInput i₁ i₂ v =>
    obtain ⟨m', hr⟩ : ∃ m', m.replaceInput o a i₁ i₂ v = some (true, m', []) := by
      rw [h.shaped.replaceInput_eq]
      split
      · exact ⟨_, rfl⟩
      · rw [if_pos (hf.resolve_left ‹_›)]
        exact ⟨m, rfl⟩
    have hkeeps := h.replaceInput hv.1 hv.2 hr
    rwa [Modifier.apply, hr]
  | replace p₁ n₁ v => exact h.replace ha hf
  | reserve n => exact (h.reserve ha hf n).1
  | resize n c => exact h.resize ha hf n c
  | resizeDefaultInit n => exact h.resizeDefaultInit ha hf n
  | shrinkToFit raw => exact h.shrinkToFit ha hv hf

/-- **The constructors that look at no other string.** -/
inductive Constructor (α : Type*)
  | empty
  | ptr (v : List α)
  | iter (forward : Bool) (v : List α)
  | defaultInit (n : ℕ)
  | reserve (n : ℕ)

/-- Whether a constructor returns, and the string or the heap it leaves. -/
def Constructor.apply (o : Options) (a : Allocator α) (h : Heap (List α)) (raw : List α) :
    Constructor α → Bool × Memory α
  | .empty => (true, (base h raw).privTerminateString)
  | .ptr v => constructAssign o (fun m => m.assignPtr o a v) h raw
  | .iter forward v => constructAssign o (fun m => m.assignIter o a forward v) h raw
  | .defaultInit n => constructDefaultInit o a h raw n
  | .reserve n => constructReserve o a h raw n

def Constructor.Fits (o : Options) : Constructor α → Prop
  | .empty => True
  | .ptr _ | .iter _ _ => o.internalBufferChars ≤ o.maxStorage
  | .defaultInit n | .reserve n => InitFits o n

/-- **Every constructor leaves a sound string**, or no buffer. -/
theorem Constructor.spec {o : Options} {a : Allocator α} {h : Heap (List α)} {raw : List α}
    (c : Constructor α) (ha : Conforms o a) (hraw : raw.length = o.internalBufferChars)
    (hf : c.Fits o) :
    ∃ b m', c.apply o a h raw = (b, m')
      ∧ (b = true → Keeps o (base h raw) m')
      ∧ (b = false → Heap.Exchange h ∅ m'.heap ∅) := by
  cases c with
  | empty => exact ⟨true, _, rfl, fun _ => keeps_empty hraw,
      fun hf => absurd hf.symm Bool.false_ne_true⟩
  | ptr v => exact constructAssign_spec hraw (fun m hm => hm.assignPtr ha hf)
  | iter forward v => exact constructAssign_spec hraw (fun m hm => hm.assignIter ha hf)
  | defaultInit n => exact constructDefaultInit_spec ha hraw hf
  | reserve n => exact constructReserve_spec ha hraw hf

/-! ## Many strings -/

/-- A string: its allocator, where equal allocators have one number, and its
form. -/
structure Str (α : Type*) where
  alloc : ℕ
  repr : Repr α

/-- What a string owns, if there is one. -/
def Str.owned : Option (Str α) → Set ℕ
  | none => ∅
  | some s => s.repr.footprint

/-- **Strings over one heap.** -/
structure World (α : Type*) where
  strings : ℕ → Option (Str α)
  heap : Heap (List α)

namespace World

variable (w : World α)

/-- A string of the world, with its heap. -/
def memory (s : Str α) : Memory α := ⟨w.heap, s.repr⟩

/-- What the string in a place owns. -/
def owns (i : ℕ) : Set ℕ := Str.owned (w.strings i)

/-- A string put in a place. -/
def put (i alloc : ℕ) (m : Memory α) : World α :=
  ⟨Function.update w.strings i (some ⟨alloc, m.repr⟩), m.heap⟩

/-- `swap_data` -/
def swapData (i j : ℕ) : World α :=
  match w.strings i, w.strings j with
  | some s, some x =>
    ⟨Function.update (Function.update w.strings i (some ⟨s.alloc, x.repr⟩))
      j (some ⟨x.alloc, s.repr⟩), w.heap⟩
  | _, _ => w

/-- A string is given an allocator. -/
def setAlloc (i alloc : ℕ) : World α :=
  match w.strings i with
  | some s => w.put i alloc (w.memory s)
  | none => w

/-- What a constructor leaves: the string, or the heap only. -/
def construct (i alloc : ℕ) (r : Bool × Memory α) : World α :=
  if r.1 then w.put i alloc r.2 else { w with heap := r.2.heap }

end World

/-- **The calls.** Those that make an internal buffer take what its memory
holds. -/
inductive Call (α : Type*)
  | construct (i alloc : ℕ) (raw : List α) (c : Constructor α)
  | copyConstruct (i j alloc : ℕ) (raw : List α)
  | moveConstruct (i j : ℕ) (raw : List α)
  | moveConstructAlloc (i j alloc : ℕ) (raw : List α)
  | destroy (i : ℕ)
  | modify (i : ℕ) (f : Modifier α)
  | copyAssign (i j : ℕ) (raw : List α)
  | moveAssign (i j : ℕ)
  | swap (i j : ℕ)

variable (o : Options) (a : Allocator α)

namespace World

/-- The copy constructors: of the contents of a string. -/
def copyConstruct (w : World α) (i j alloc : ℕ) (raw : List α) : World α :=
  match w.strings j with
  | none => w
  | some s =>
    w.construct i alloc (constructAssign o
      (fun m => m.assignString o a (w.memory s).contents) w.heap raw)

/-- `basic_string(BOOST_RV_REF(basic_string) s)`: the allocator is moved, so it
compares equal, and the new string is swapped with `s` without having got its
null. -/
def moveConstruct (w : World α) (i j : ℕ) (raw : List α) : World α :=
  match w.strings j with
  | none => w
  | some s => (w.put i s.alloc (base w.heap raw)).swapData i j

/-- `basic_string(BOOST_RV_REF(basic_string) s, const allocator_type &a)` -/
def moveConstructAlloc (w : World α) (i j alloc : ℕ) (raw : List α) : World α :=
  match w.strings j with
  | none => w
  | some s =>
    if s.alloc = alloc then
      (w.put i alloc (base w.heap raw).privTerminateString).swapData i j
    else w.copyConstruct o a i j alloc raw

/-- The destructor. -/
def destroy (w : World α) (i : ℕ) : World α :=
  match w.strings i with
  | none => w
  | some s => ⟨Function.update w.strings i none, ((w.memory s).deallocateBlock o).heap⟩

/-- A modifier of one string. -/
def modify (w : World α) (i : ℕ) (f : Modifier α) : World α :=
  match w.strings i with
  | none => w
  | some s => w.put i s.alloc (f.apply o a (w.memory s))

/-- `operator=(BOOST_COPY_ASSIGN_REF(basic_string) x)` -/
def copyAssign (w : World α) (i j : ℕ) (raw : List α) : World α :=
  match w.strings i, w.strings j with
  | some s, some x =>
    if i = j then w
    else
      let released := if o.propagateOnCopy ∧ s.alloc ≠ x.alloc
        then (w.memory s).releaseBuffer o raw else w.memory s
      w.put i (if o.propagateOnCopy then x.alloc else s.alloc)
        (released.assignString o a (w.memory x).contents).2
  | _, _ => w

/-- `operator=(BOOST_RV_REF(basic_string) x)`, with `priv_move_assign`. -/
def moveAssign (w : World α) (i j : ℕ) : World α :=
  match w.strings i, w.strings j with
  | some s, some x =>
    if i = j then w
    else if o.propagateOnMove ∨ o.isAlwaysEqual ∨ s.alloc = x.alloc then
      (w.put i (if o.propagateOnMove then x.alloc else s.alloc)
        ((w.memory s).clear o)).swapData i j
    else w.put i s.alloc ((w.memory s).assignString o a (w.memory x).contents).2
  | _, _ => w

/-- `swap` -/
def swap (w : World α) (i j : ℕ) : World α :=
  match w.strings i, w.strings j with
  | some s, some x =>
    if o.propagateOnSwap then
      ((w.swapData i j).setAlloc i x.alloc).setAlloc j s.alloc
    else w.swapData i j
  | _, _ => w

/-- **The world after a call.** -/
def exec (w : World α) : Call α → World α
  | .construct i alloc raw c => w.construct i alloc (c.apply o a w.heap raw)
  | .copyConstruct i j alloc raw => w.copyConstruct o a i j alloc raw
  | .moveConstruct i j raw => w.moveConstruct i j raw
  | .moveConstructAlloc i j alloc raw => w.moveConstructAlloc o a i j alloc raw
  | .destroy i => w.destroy o i
  | .modify i f => w.modify o a i f
  | .copyAssign i j raw => w.copyAssign o a i j raw
  | .moveAssign i j => w.moveAssign o a i j
  | .swap i j => w.swap o i j

end World

/-- **What callers owe**: new strings in places that are free, and iterators
into the strings. -/
def Call.Valid (w : World α) : Call α → Prop
  | .construct i _ raw _ | .copyConstruct i _ _ raw | .moveConstruct i _ raw
  | .moveConstructAlloc i _ _ raw =>
    w.strings i = none ∧ raw.length = o.internalBufferChars
  | .modify i f => ∀ s, w.strings i = some s → f.Valid o (w.memory s)
  | .copyAssign _ _ raw => raw.length = o.internalBufferChars
  | .destroy _ | .moveAssign _ _ | .swap _ _ => True

/-- **The condition on a call** under which it leaves every string whole: a move
construction finds the null in the memory of the new string, a `shrink_to_fit`
to the internal buffer finds the length, a construction without initialisation
fits the stored size, and what copies characters has an internal buffer that is
not larger than the greatest storage. -/
def Call.Fits (w : World α) : Call α → Prop
  | .construct _ _ _ c => c.Fits o
  | .moveConstruct _ _ raw => raw[0]? = some 0
  | .modify i f => ∀ s, w.strings i = some s → f.Fits o (w.memory s)
  | .copyConstruct _ _ _ _ | .copyAssign _ _ _ => o.internalBufferChars ≤ o.maxStorage
  | .moveConstructAlloc _ j alloc _ =>
    ∀ s, w.strings j = some s → s.alloc ≠ alloc → o.internalBufferChars ≤ o.maxStorage
  | .moveAssign _ _ =>
    o.propagateOnMove ∨ o.isAlwaysEqual ∨ o.internalBufferChars ≤ o.maxStorage
  | .destroy _ | .swap _ _ => True

/-- **The runs of strings**, each call with the allocator that answers it. -/
def runs : TransitionSystem (World α) (Allocator α × Call α) where
  Init w := w = ⟨fun _ => none, fun _ => none⟩
  Step w e w' := Conforms o e.1 ∧ e.2.Valid o w ∧ w' = w.exec o e.1 e.2

/-! ## The invariant -/

variable {o} {a} {w : World α}

/-- **The invariant**: every string is sound, and every buffer has one
owner. -/
structure World.Sound (o : Options) (w : World α) : Prop where
  each : ∀ i s, w.strings i = some s → (w.memory s).Sound o
  owned : Heap.Owned w.heap w.owns

namespace World

omit [Zero α] in
theorem owns_of_eq {i : ℕ} {new : Option (Str α)} (hs : w.strings i = new) :
    w.owns i = Str.owned new := congrArg Str.owned hs

/-- A string only looks at the heap where its own buffer is. -/
theorem sound_congr {h h' : Heap (List α)} {r : Repr α}
    (hr : Memory.Sound o ⟨h, r⟩) (heq : ∀ p ∈ r.footprint, h' p = h p) :
    Memory.Sound o ⟨h', r⟩ := by
  cases r with
  | short length data => exact ⟨hr.shaped, hr.size_lt, hr.null⟩
  | long length storage start =>
    have hstart := heq start (Set.mem_singleton start)
    obtain ⟨hne, hint, hmax, d, hd, hlen⟩ := hr.shaped
    refine ⟨⟨hne, hint, hmax, d, hstart.trans hd, hlen⟩, hr.size_lt, ?_⟩
    have hnull : ((h start).getD [])[length]? = some 0 := hr.null
    show ((h' start).getD [])[length]? = some 0
    rw [hstart]
    exact hnull

/-- **One string changes**, and exchanges its buffers: the others are sound as
they were. -/
theorem Sound.exchange (h : w.Sound o) {i : ℕ} (new : Option (Str α)) {h' : Heap (List α)}
    (hex : Heap.Exchange w.heap (w.owns i) h' (Str.owned new))
    (hnew : ∀ s, new = some s → Memory.Sound o ⟨h', s.repr⟩) :
    World.Sound o ⟨Function.update w.strings i new, h'⟩ := by
  have howns : World.owns ⟨Function.update w.strings i new, h'⟩
      = Function.update w.owns i (Str.owned new) :=
    Function.comp_update Str.owned w.strings i new
  refine ⟨fun j s hs => ?_, ?_⟩
  · by_cases hj : j = i
    · subst hj
      have hs' : Function.update w.strings j new j = some s := hs
      rw [Function.update_self] at hs'
      exact hnew s hs'
    · have hs' : Function.update w.strings i new j = some s := hs
      rw [Function.update_of_ne hj] at hs'
      refine sound_congr (h.each j s hs') (fun p hp => ?_)
      refine h.owned.frame hj hex ?_
      rw [owns_of_eq hs']
      exact hp
  · rw [howns]
    refine h.owned.exchange hex (fun p hp => ?_)
    cases new with
    | none => exact absurd hp (Set.notMem_empty p)
    | some s => exact (hnew s rfl).shaped.heap_ne_none hp

/-- A string that a function keeps sound. -/
theorem Sound.put (h : w.Sound o) {i alloc : ℕ} {s : Str α} {m : Memory α}
    (hs : w.strings i = some s) (hm : Keeps o (w.memory s) m) :
    (w.put i alloc m).Sound o := by
  refine h.exchange (some ⟨alloc, m.repr⟩) ?_ (fun s' hs' => ?_)
  · rw [owns_of_eq hs]
    exact hm.exchange
  · obtain rfl := Option.some.inj hs'
    exact hm.sound

/-- **A new string.** -/
theorem Sound.put_new (h : w.Sound o) {i alloc : ℕ} {m : Memory α}
    (hs : w.strings i = none) (hm : m.Sound o)
    (hex : Heap.Exchange w.heap ∅ m.heap m.repr.footprint) :
    (w.put i alloc m).Sound o := by
  refine h.exchange (some ⟨alloc, m.repr⟩) ?_ (fun s' hs' => ?_)
  · rw [owns_of_eq hs]
    exact hex
  · obtain rfl := Option.some.inj hs'
    exact hm

/-- **A construction** that keeps to what constructors promise. -/
theorem Sound.construct (h : w.Sound o) {i alloc : ℕ} {raw : List α}
    {r : Bool × Memory α} (hs : w.strings i = none)
    (hr : ∃ b m', r = (b, m') ∧ (b = true → Keeps o (base w.heap raw) m')
      ∧ (b = false → Heap.Exchange w.heap ∅ m'.heap ∅)) :
    (w.construct i alloc r).Sound o := by
  obtain ⟨b, m', rfl, htrue, hfalse⟩ := hr
  cases b with
  | false =>
    have hex : Heap.Exchange w.heap (w.owns i) m'.heap (Str.owned (none : Option (Str α))) := by
      rw [owns_of_eq hs]
      exact hfalse rfl
    have hgone := h.exchange none hex (fun s hs' => absurd hs' (by simp))
    rwa [Function.update_eq_self_iff.mpr hs.symm] at hgone
  | true => exact h.put_new hs (htrue rfl).sound (htrue rfl).exchange

/-- **Two strings swap their forms**, and with them their buffers. -/
theorem Sound.swapData (h : w.Sound o) (i j : ℕ) : (w.swapData i j).Sound o := by
  unfold World.swapData
  split
  · rename_i s x hs hx
    have howns : World.owns ⟨Function.update (Function.update w.strings i
          (some ⟨s.alloc, x.repr⟩)) j (some ⟨x.alloc, s.repr⟩), w.heap⟩
        = w.owns ∘ Equiv.swap i j := by
      funext k
      show Str.owned (Function.update (Function.update w.strings i (some ⟨s.alloc, x.repr⟩)) j
        (some ⟨x.alloc, s.repr⟩) k) = w.owns (Equiv.swap i j k)
      by_cases hkj : k = j
      · rw [hkj, Function.update_self, Equiv.swap_apply_right, owns_of_eq hs]
        rfl
      · rw [Function.update_of_ne hkj]
        by_cases hki : k = i
        · rw [hki, Function.update_self, Equiv.swap_apply_left, owns_of_eq hx]
          rfl
        · rw [Function.update_of_ne hki, Equiv.swap_apply_of_ne_of_ne hki hkj]
          rfl
    refine ⟨fun k t ht => ?_, howns ▸ h.owned.comp_perm _⟩
    have ht' : Function.update (Function.update w.strings i (some ⟨s.alloc, x.repr⟩)) j
      (some ⟨x.alloc, s.repr⟩) k = some t := ht
    by_cases hkj : k = j
    · rw [hkj, Function.update_self] at ht'
      obtain rfl := Option.some.inj ht'
      exact h.each i s hs
    · rw [Function.update_of_ne hkj] at ht'
      by_cases hki : k = i
      · rw [hki, Function.update_self] at ht'
        obtain rfl := Option.some.inj ht'
        exact h.each j x hx
      · rw [Function.update_of_ne hki] at ht'
        exact h.each k t ht'
  · exact h

/-- A string does not look at its allocator. -/
theorem Sound.setAlloc (h : w.Sound o) (i alloc : ℕ) : (w.setAlloc i alloc).Sound o := by
  unfold World.setAlloc
  split
  · rename_i s hs
    exact h.put hs (h.each i s hs).keeps_refl
  · exact h

/-! ## Every call -/

theorem Sound.copyConstruct (h : w.Sound o) (ha : Conforms o a) {i j alloc : ℕ}
    {raw : List α} (hs : w.strings i = none) (hraw : raw.length = o.internalBufferChars)
    (hfit : o.internalBufferChars ≤ o.maxStorage) :
    (w.copyConstruct o a i j alloc raw).Sound o := by
  unfold World.copyConstruct
  split
  · exact h
  · exact h.construct hs (constructAssign_spec hraw (fun m hm => hm.assignString ha hfit))

/-- **A move construction** that finds the null in its own memory. -/
theorem Sound.moveConstruct (h : w.Sound o) {i j : ℕ} {raw : List α}
    (hs : w.strings i = none) (hraw : raw.length = o.internalBufferChars)
    (hnull : raw[0]? = some 0) : (w.moveConstruct i j raw).Sound o := by
  unfold World.moveConstruct
  split
  · exact h
  · exact (h.put_new hs ⟨shaped_base hraw, o.internal_pos, hnull⟩
      (Heap.Exchange.refl _ _)).swapData i j

theorem Sound.moveConstructAlloc (h : w.Sound o) (ha : Conforms o a) {i j alloc : ℕ}
    {raw : List α} (hs : w.strings i = none) (hraw : raw.length = o.internalBufferChars)
    (hfit : ∀ s, w.strings j = some s → s.alloc ≠ alloc →
      o.internalBufferChars ≤ o.maxStorage) :
    (w.moveConstructAlloc o a i j alloc raw).Sound o := by
  unfold World.moveConstructAlloc
  split
  · exact h
  · rename_i s hx
    split
    · have hempty := keeps_empty (h := w.heap) hraw
      exact (h.put_new hs hempty.sound hempty.exchange).swapData i j
    · rename_i hne
      exact h.copyConstruct ha hs hraw (hfit s hx hne)

/-- **A string is destroyed**, and its buffer freed. -/
theorem Sound.destroy (h : w.Sound o) (i : ℕ) : (w.destroy o i).Sound o := by
  unfold World.destroy
  split
  · exact h
  · rename_i s hs
    refine h.exchange none ?_ (fun s' hs' => absurd hs' (by simp))
    rw [owns_of_eq hs]
    exact (h.each i s hs).shaped.exchange_deallocateBlock

theorem Sound.modify (h : w.Sound o) (ha : Conforms o a) {i : ℕ} {f : Modifier α}
    (hv : ∀ s, w.strings i = some s → f.Valid o (w.memory s))
    (hf : ∀ s, w.strings i = some s → f.Fits o (w.memory s)) :
    (w.modify o a i f).Sound o := by
  unfold World.modify
  split
  · exact h
  · rename_i s hs
    exact h.put hs (f.keeps (h.each i s hs) ha (hv s hs) (hf s hs))

theorem Sound.copyAssign (h : w.Sound o) (ha : Conforms o a) {i j : ℕ} {raw : List α}
    (hraw : raw.length = o.internalBufferChars)
    (hfit : o.internalBufferChars ≤ o.maxStorage) :
    (w.copyAssign o a i j raw).Sound o := by
  unfold World.copyAssign
  split
  · rename_i s x hs hx
    have hsound := h.each i s hs
    have hrel : Keeps o (w.memory s) (if o.propagateOnCopy ∧ s.alloc ≠ x.alloc
        then (w.memory s).releaseBuffer o raw else w.memory s) := by
      split
      · exact hsound.releaseBuffer hraw
      · exact hsound.keeps_refl
    split
    · exact h
    · exact h.put hs (hrel.trans (hrel.sound.assignString ha hfit))
  · exact h

theorem Sound.moveAssign (h : w.Sound o) (ha : Conforms o a) {i j : ℕ}
    (hfit : o.propagateOnMove ∨ o.isAlwaysEqual ∨ o.internalBufferChars ≤ o.maxStorage) :
    (w.moveAssign o a i j).Sound o := by
  unfold World.moveAssign
  split
  · rename_i s x hs hx
    have hsound := h.each i s hs
    split
    · exact h
    · split
      · exact (h.put hs hsound.clear).swapData i j
      · rename_i hcopy
        have hfit' : o.internalBufferChars ≤ o.maxStorage := by
          rcases hfit with hf | hf | hf
          · exact absurd (Or.inl hf) hcopy
          · exact absurd (Or.inr (Or.inl hf)) hcopy
          · exact hf
        exact h.put hs (hsound.assignString ha hfit')
  · exact h

theorem Sound.swap (h : w.Sound o) (i j : ℕ) : (w.swap o i j).Sound o := by
  unfold World.swap
  split
  · split
    · exact ((h.swapData i j).setAlloc _ _).setAlloc _ _
    · exact h.swapData i j
  · exact h

/-- **Every call keeps the invariant.** -/
theorem Sound.exec (h : w.Sound o) (ha : Conforms o a) {c : Call α} (hv : c.Valid o w)
    (hf : c.Fits o w) : (w.exec o a c).Sound o := by
  cases c with
  | construct i alloc raw c => exact h.construct hv.1 (c.spec ha hv.2 hf)
  | copyConstruct i j alloc raw => exact h.copyConstruct ha hv.1 hv.2 hf
  | moveConstruct i j raw => exact h.moveConstruct hv.1 hv.2 hf
  | moveConstructAlloc i j alloc raw => exact h.moveConstructAlloc ha hv.1 hv.2 hf
  | destroy i => exact h.destroy i
  | modify i f => exact h.modify ha hv hf
  | copyAssign i j raw => exact h.copyAssign ha hv hf
  | moveAssign i j => exact h.moveAssign ha hf
  | swap i j => exact h.swap i j

/-- **A world whose strings are all whole.** -/
structure Correct (o : Options) (w : World α) : Prop where
  null : ∀ i s, w.strings i = some s →
    (w.memory s).buffer[(w.memory s).privSize]? = some 0
  size_le : ∀ i s, w.strings i = some s →
    (w.memory s).privSize ≤ (w.memory s).privCapacity o
  short_lt : ∀ i alloc length data, w.strings i = some ⟨alloc, .short length data⟩ →
    length < o.internalBufferChars
  /-- The storage of a long form is the size of its buffer. -/
  long_storage : ∀ i alloc length storage start,
    w.strings i = some ⟨alloc, .long length storage start⟩ →
      o.internalBufferChars < storage
        ∧ ∃ d, w.heap start = some d ∧ d.length = storage
  /-- Every buffer is owned by exactly one string. -/
  owned : ∀ p, w.heap p ≠ none → ∃! i, p ∈ w.owns i

theorem Sound.correct (h : w.Sound o) : w.Correct o where
  null i s hs := (h.each i s hs).null
  size_le i s hs := Nat.le_sub_one_of_lt (h.each i s hs).size_lt
  short_lt i alloc length data hs := (h.each i _ hs).size_lt
  long_storage i alloc length storage start hs := by
    obtain ⟨_, hint, _, hd⟩ := (h.each i _ hs).shaped
    exact ⟨hint, hd⟩
  owned p hp := by
    obtain ⟨i, hi⟩ := (h.owned.allocated p).mp hp
    refine ⟨i, hi, fun j hj => ?_⟩
    by_contra hne
    exact Set.disjoint_left.mp (h.owned.disjoint j i hne) hj hi

/-- **Strings over whole runs**, for every kind of strings, every order of
calls and every answer of the allocators: as long as every call meets its
condition, every string of every state, moved from or not, is whole. -/
theorem strings_correct (o : Options) (w : World α)
    (hw : ((runs o).restrict (fun w e => e.2.Fits o w)).Reachable w) : w.Correct o := by
  refine Sound.correct (hw.invariant (I := World.Sound o) ?_ ?_)
  · rintro w rfl
    exact ⟨fun i s hs => absurd hs (by simp), fun i j _ => Set.disjoint_empty _,
      fun p => ⟨fun hp => absurd rfl hp, fun ⟨_, hp⟩ => absurd hp (Set.notMem_empty p)⟩⟩
  · rintro w ⟨a, c⟩ w' h ⟨⟨ha, hv, rfl⟩, hf⟩
    exact h.exec ha hv hf

/-! ## A string that is moved from -/

/-- Strings of bytes on a 64-bit little-endian machine. -/
def byteOptions : Options :=
  { narrowOptions with
    storedBits := 64
    internalBufferChars := 23
    internal_pos := by decide
    internal_le := by decide
    internal_lt := by decide }

/-- An allocator with memory for one buffer, zeroed, at address 4096. -/
def oneBlock : Allocator UInt8 := fun h _ limit preferred =>
  if h 4096 = none ∧ limit ≤ preferred then .newBuffer 4096 (List.replicate preferred 0)
  else .throws

theorem conforms_oneBlock : Conforms byteOptions oneBlock := by
  intro h reuse limit preferred
  unfold oneBlock
  split
  · rename_i hfree
    refine ⟨by decide, hfree.1, ?_, fun hle => ?_⟩
    · rw [List.length_replicate]
      exact hfree.2
    · rwa [List.length_replicate]
  · trivial

/-- No string yet. -/
def noStrings : World UInt8 := ⟨fun _ => none, fun _ => none⟩

/-- A string with thirty characters on the heap. -/
def longString : World UInt8 :=
  (noStrings.exec byteOptions oneBlock (.construct 0 0 (List.replicate 23 0) .empty)).exec
    byteOptions oneBlock (.modify 0 (.append (List.replicate 30 97)))

/-- A second string, constructed by moving from the first over memory that
holds the given bytes. -/
def movedFrom (raw : List UInt8) : World UInt8 :=
  longString.exec byteOptions oneBlock (.moveConstruct 1 0 raw)

example : longString.strings 0 = some ⟨0, .long 30 36 4096⟩
    ∧ (movedFrom (List.replicate 23 65)).strings 0
      = some ⟨0, .short 0 (List.replicate 23 65)⟩
    ∧ (movedFrom (List.replicate 23 65)).strings 1 = some ⟨0, .long 30 36 4096⟩ := by
  refine ⟨rfl, rfl, rfl⟩

theorem reachable_longString :
    ((runs byteOptions).restrict (fun w e => e.2.Fits byteOptions w)).Reachable
      longString := by
  have hfit : byteOptions.internalBufferChars ≤ byteOptions.maxStorage := by decide
  have hempty : ((runs byteOptions).restrict (fun w e => e.2.Fits byteOptions w)).Reachable
      (noStrings.exec byteOptions oneBlock
        (.construct 0 0 (List.replicate 23 0) .empty)) :=
    (TransitionSystem.Reachable.of_init (s := noStrings) rfl).step
      (e := (oneBlock, .construct 0 0 (List.replicate 23 0) .empty))
      ⟨⟨conforms_oneBlock, ⟨rfl, by decide⟩, rfl⟩, trivial⟩
  exact hempty.step (e := (oneBlock, .modify 0 (.append (List.replicate 30 97))))
    ⟨⟨conforms_oneBlock, fun _ _ => trivial, rfl⟩, fun _ _ => hfit⟩

theorem correct_movedFrom : (movedFrom (List.replicate 23 0)).Correct byteOptions :=
  strings_correct byteOptions _ (reachable_longString.step
    (e := (oneBlock, .moveConstruct 1 0 (List.replicate 23 0)))
    ⟨⟨conforms_oneBlock, ⟨rfl, by decide⟩, rfl⟩, rfl⟩)

/-- **A moved-from string without its null**: constructing over memory that is
not zero leaves the first string empty, with no null at its end. -/
theorem not_correct_movedFrom :
    (runs byteOptions).Reachable (movedFrom (List.replicate 23 65))
      ∧ ¬ (movedFrom (List.replicate 23 65)).Correct byteOptions := by
  refine ⟨reachable_longString.of_restrict.step
    (e := (oneBlock, .moveConstruct 1 0 (List.replicate 23 65)))
    ⟨conforms_oneBlock, ⟨rfl, by decide⟩, rfl⟩, fun h => ?_⟩
  have hnull := h.null 0 ⟨0, .short 0 (List.replicate 23 65)⟩ rfl
  exact absurd hnull (by decide)

end World

end BasicString
