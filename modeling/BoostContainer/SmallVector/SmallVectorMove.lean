import Mathlib

/-!
# Moving a small vector

A small vector keeps its elements in storage of its own, or in a buffer of the heap once
they are more. The buffer can be handed over, the storage cannot, and the elements in it
are moved one by one. The move constructors do this without a look at the capacity of
the new object, whose storage may be smaller than that of the source, and take a buffer
whatever the allocator that is given. The move assignment grows where it must, and then
replaces the allocator with that of the source, also where the buffer it keeps is its
own.
-/

namespace SmallVector

/-! ## Small vectors and the heap -/

/-- Where the elements are: nowhere, in the storage of an object, or in a buffer. -/
inductive Ptr where
  | null
  | inline (owner : ℕ)
  | heap (b : ℕ)
  deriving DecidableEq

/-- **What the traits say of the allocator**: `==`,
`propagate_on_container_move_assignment`, and what `storage_is_unpropagable` of the
allocator below answers. -/
structure Traits (A : Type) where
  equal : A → A → Bool
  propagate : Bool
  unpropagable : A → Ptr → Bool
  equal_refl : ∀ a, equal a a = true
  equal_symm : ∀ {a b}, equal a b = true → equal b a = true
  equal_trans : ∀ {a b c}, equal a b = true → equal b c = true → equal a c = true

/-- **A small vector**: the object, `internal_capacity()`, the allocator, and `m_start`,
`m_capacity` and the elements. -/
structure Small (A T : Type) where
  addr : ℕ
  internalCapacity : ℕ
  alloc : A
  start : Ptr
  capacity : ℕ
  elems : List T

/-- The buffers in use, with the allocator they are from and their lengths. -/
abbrev Heap (A : Type) := ℕ → Option (A × ℕ)

section Definitions

variable {A T : Type} (τ : Traits A)

/-- `storage_is_unpropagable` of the allocator of a small vector. -/
def storageIsUnpropagable (x : Small A T) : Bool :=
  decide (x.start = .inline x.addr) || τ.unpropagable x.alloc x.start

/-- `is_propagable_from`. -/
def isPropagableFrom (propagateAllocator : Bool) (x : Small A T) (toAlloc : A) : Bool :=
  !storageIsUnpropagable τ x && (propagateAllocator || τ.equal x.alloc toAlloc)

/-- **`deallocate`**: nothing is done of the own storage, and a buffer must be from an
equal allocator. -/
def Small.deallocate (v : Small A T) (h : Heap A) : Option (Heap A) :=
  match v.start with
  | .null => none
  | .inline o => if o = v.addr then some h else none
  | .heap b => (h b).bind (fun r =>
      if τ.equal r.1 v.alloc ∧ r.2 = v.capacity then some (Function.update h b none) else none)

/-- What is left of a small vector whose resources were taken. -/
def Small.emptied (x : Small A T) : Small A T :=
  { x with start := .null, capacity := 0, elems := [] }

/-- `clear`. -/
def Small.clear (x : Small A T) : Small A T := { x with elems := [] }

/-- **`vector(initial_capacity_t, initial_memory, cap, a, x)`**, for the object `o`. -/
def moveConstructWith (o cap : ℕ) (a : A) (x : Small A T) : Small A T × Small A T :=
  if isPropagableFrom τ true x a then
    (⟨o, cap, a, x.start, x.capacity, x.elems⟩, x.emptied)
  else (⟨o, cap, a, .inline o, cap, x.elems⟩, x.clear)

/-- The move constructors without an allocator: it is moved from the source. -/
def moveConstruct (o cap : ℕ) (x : Small A T) : Small A T × Small A T :=
  moveConstructWith τ o cap x.alloc x

/-- A buffer is freed where there is one. -/
def Small.release (d : Small A T) (h : Heap A) : Option (Heap A) :=
  if d.start = .null then some h else d.deallocate τ h

/-- **`assign`** of as many elements; `fresh` is a buffer that the allocator grants. -/
def Small.assign (fresh : ℕ) (d : Small A T) (values : List T) (h : Heap A) :
    Option (Small A T × Heap A) :=
  if d.capacity < values.length then
    (d.release τ (Function.update h fresh (some (d.alloc, values.length)))).map (fun h =>
      ({ d with start := .heap fresh, capacity := values.length, elems := values }, h))
  else some ({ d with elems := values }, h)

/-- **`priv_move_assign`** -/
def moveAssign (fresh : ℕ) (d x : Small A T) (h : Heap A) :
    Option (Small A T × Small A T × Heap A) :=
  (if isPropagableFrom τ τ.propagate x d.alloc then
    (d.release τ h).map (fun h =>
      ({ d with start := x.start, capacity := x.capacity, elems := x.elems }, x.emptied, h))
  else (d.assign τ fresh x.elems h).map (fun r => (r.1, x.clear, r.2))).map (fun r =>
    -- The allocator is moved after the elements.
    ({ r.1 with alloc := if τ.propagate then x.alloc else d.alloc }, r.2))

end Definitions

/-! ## What is asked of a move -/

section Moves

variable {A T : Type} (τ : Traits A)

/-- **A small vector is valid**: it is in its own storage, or in a buffer from an equal
allocator, and its elements fit. -/
structure Small.Valid (h : Heap A) (v : Small A T) : Prop where
  storage : match v.start with
    | .null => v.capacity = 0
    | .inline o => o = v.addr ∧ v.capacity = v.internalCapacity
    | .heap b => ∃ a, h b = some (a, v.capacity) ∧ τ.equal a v.alloc = true
  size_le : v.elems.length ≤ v.capacity

/-- **A move**, to a new object or to one that there is. -/
inductive Move (A T : Type) where
  | construct (o cap : ℕ)
  | constructWith (o cap : ℕ) (a : A)
  | assign (d : Small A T)

/-- The move is run. -/
def Move.run (fresh : ℕ) (x : Small A T) (h : Heap A) :
    Move A T → Option (Small A T × Small A T × Heap A)
  | construct o cap =>
    some ((moveConstruct τ o cap x).1, (moveConstruct τ o cap x).2, h)
  | constructWith o cap a =>
    some ((moveConstructWith τ o cap a x).1, (moveConstructWith τ o cap a x).2, h)
  | assign d => moveAssign τ fresh d x h

/-- The buffer that the destination has. -/
def Move.before : Move A T → Ptr
  | assign d => d.start
  | _ => .null

/-- **The objects are different, and the destination is valid.** -/
def Move.Ready (x : Small A T) (h : Heap A) : Move A T → Prop
  | construct o _ => o ≠ x.addr
  | constructWith o _ _ => o ≠ x.addr
  | assign d => d.addr ≠ x.addr ∧ d.Valid τ h ∧ ∀ b, d.start = .heap b → x.start ≠ .heap b

/-- **What a move should leave**: the sequence, two valid objects that share no buffer,
and every buffer that was or is theirs in use exactly where one of them has it. -/
structure Moved (fresh : ℕ) (m : Move A T) (x : Small A T) (h : Heap A)
    (r : Small A T × Small A T × Heap A) : Prop where
  elems : r.1.elems = x.elems
  dest : r.1.Valid τ r.2.2
  source : r.2.1.Valid τ r.2.2
  apart : ∀ b, r.1.start = .heap b → r.2.1.start ≠ .heap b
  inUse : ∀ b, b = fresh ∨ m.before = .heap b ∨ x.start = .heap b →
    ((r.2.2 b).isSome ↔ r.1.start = .heap b ∨ r.2.1.start = .heap b)
  others : ∀ b, b ≠ fresh → m.before ≠ .heap b → x.start ≠ .heap b → r.2.2 b = h b

/-- The move does what it should. -/
def Move.DoesWell (fresh : ℕ) (x : Small A T) (h : Heap A) (m : Move A T) : Prop :=
  ∃ r, m.run τ fresh x h = some r ∧ Moved τ fresh m x h r

/-- **Where a construction slips**: elements that do not fit into the new storage, or a
buffer from an allocator that is not equal. -/
def ConstructSlips (cap : ℕ) (a : A) (x : Small A T) : Prop :=
  if storageIsUnpropagable τ x then cap < x.elems.length
  else (∃ b, x.start = .heap b) ∧ τ.equal x.alloc a = false

/-- **Where a move slips**: an assignment that cannot take the resources replaces the
allocator of a buffer. -/
def Move.Slips (x : Small A T) : Move A T → Prop
  | construct _ cap => ConstructSlips τ cap x.alloc x
  | constructWith _ cap a => ConstructSlips τ cap a x
  | assign d => τ.propagate = true ∧ storageIsUnpropagable τ x = true
    ∧ τ.equal d.alloc x.alloc = false ∧ (d.capacity < x.elems.length ∨ ∃ b, d.start = .heap b)

end Moves

section Results

variable {A T : Type} {τ : Traits A} {fresh o cap : ℕ} {a : A} {d x : Small A T} {h h' : Heap A}
  {values : List T}

theorem Small.Valid.emptied (hx : x.Valid τ h) : x.emptied.Valid τ h' :=
  ⟨rfl, Nat.le_refl 0⟩

/-- A valid object is valid where its buffer is as it was. -/
theorem Small.Valid.congr (hx : x.Valid τ h) (hb : ∀ b, x.start = .heap b → h' b = h b) :
    x.Valid τ h' := by
  refine ⟨?_, hx.size_le⟩
  have hstorage := hx.storage
  cases hs : x.start with
  | null => rw [hs] at hstorage; exact hstorage
  | inline o => rw [hs] at hstorage; exact hstorage
  | heap b =>
    rw [hs] at hstorage
    obtain ⟨a, ha, heq⟩ := hstorage
    exact ⟨a, (hb b hs).trans ha, heq⟩

theorem Small.Valid.clear (hx : x.Valid τ h) (hb : ∀ b, x.start = .heap b → h' b = h b) :
    x.clear.Valid τ h' :=
  ⟨(hx.congr hb).storage, Nat.zero_le _⟩

/-- A buffer of a valid object is in use. -/
theorem Small.Valid.isSome {b : ℕ} (hx : x.Valid τ h) (hb : x.start = .heap b) :
    (h b).isSome = true := by
  have hstorage := hx.storage
  rw [hb] at hstorage
  obtain ⟨a, ha, -⟩ := hstorage
  rw [ha]
  rfl

/-- What can be handed over is no storage of an object. -/
theorem Small.Valid.ne_inline (hx : x.Valid τ h) (hu : storageIsUnpropagable τ x = false) :
    ∀ o, x.start ≠ .inline o := by
  intro o ho
  have hstorage := hx.storage
  rw [ho] at hstorage
  rw [storageIsUnpropagable, Bool.or_eq_false_iff, decide_eq_false_iff_not] at hu
  exact hu.1 (ho.trans (congrArg Ptr.inline hstorage.1))

/-- **The storage of a source that can be handed over**, under another allocator. -/
theorem Small.Valid.handed (hx : x.Valid τ h) (hu : storageIsUnpropagable τ x = false)
    (hb : ∀ b, x.start = .heap b → h' b = h b)
    (heq : ∀ b, x.start = .heap b → τ.equal x.alloc a = true) :
    (⟨o, cap, a, x.start, x.capacity, x.elems⟩ : Small A T).Valid τ h' := by
  refine ⟨?_, hx.size_le⟩
  have hstorage := (hx.congr hb).storage
  cases hs : x.start with
  | null => rw [hs] at hstorage; exact hstorage
  | inline p => exact absurd hs (hx.ne_inline hu p)
  | heap b =>
    rw [hs] at hstorage
    obtain ⟨a', ha', heq'⟩ := hstorage
    exact ⟨a', ha', τ.equal_trans heq' (heq b hs)⟩

/-! ## Construction -/

theorem construct_iff {m : Move A T} (hm : m.before = .null) (hx : x.Valid τ h)
    (hfresh : h fresh = none) :
    Moved τ fresh m x h ((moveConstructWith τ o cap a x).1, (moveConstructWith τ o cap a x).2, h)
      ↔ ¬ ConstructSlips τ cap a x := by
  have hne : x.start ≠ .heap fresh := by
    intro hs
    have hsome := hx.isSome hs
    rw [hfresh] at hsome
    cases hsome
  have huse : ∀ b, b = fresh ∨ m.before = .heap b ∨ x.start = .heap b →
      ((h b).isSome ↔ x.start = .heap b) := by
    rintro b (rfl | hb | hb)
    · rw [hfresh]
      exact iff_of_false (by simp) hne
    · rw [hm] at hb
      cases hb
    · exact iff_of_true (hx.isSome hb) hb
  rw [moveConstructWith, isPropagableFrom, Bool.true_or, Bool.and_true, ConstructSlips]
  cases hu : storageIsUnpropagable τ x with
  | true =>
    simp only [Bool.not_true, Bool.false_eq_true, if_false, if_true, not_lt]
    refine ⟨fun hmoved => hmoved.dest.size_le, fun hle => ?_⟩
    exact ⟨rfl, ⟨⟨rfl, rfl⟩, hle⟩, hx.clear fun _ _ => rfl, fun b hb => (nomatch hb),
      fun b hb => (huse b hb).trans (by simp [Small.clear]), fun b _ _ _ => rfl⟩
  | false =>
    simp only [Bool.not_false, if_true, Bool.false_eq_true, if_false, not_and,
      Bool.not_eq_false]
    refine ⟨?_, fun heq => ?_⟩
    · rintro hmoved ⟨b, hb⟩
      have hdest := hmoved.dest.storage
      have hstorage := hx.storage
      simp only [hb] at hdest hstorage
      obtain ⟨a', ha', heq'⟩ := hdest
      obtain ⟨a'', ha'', heq''⟩ := hstorage
      obtain rfl : a' = a'' := (Prod.mk.inj (Option.some.inj (ha'.symm.trans ha''))).1
      exact τ.equal_trans (τ.equal_symm heq'') heq'
    · exact ⟨rfl, hx.handed hu (fun _ _ => rfl) fun b hb => heq ⟨b, hb⟩, hx.emptied,
        fun b _ hb => (nomatch hb), fun b hb => (huse b hb).trans (by simp [Small.emptied]),
        fun b _ _ _ => rfl⟩

/-! ## Assignment -/

/-- **The buffer of the destination is freed.** -/
theorem release_run (hd : d.Valid τ h) : ∃ h', d.release τ h = some h'
    ∧ (∀ b, d.start = .heap b → h' b = none) ∧ ∀ b, d.start ≠ .heap b → h' b = h b := by
  have hstorage := hd.storage
  rw [Small.release, Small.deallocate]
  cases hs : d.start with
  | null =>
    rw [if_pos rfl]
    exact ⟨h, rfl, fun b hb => (nomatch hb), fun b _ => rfl⟩
  | inline o =>
    rw [hs] at hstorage
    rw [if_neg (by simp)]
    exact ⟨h, if_pos hstorage.1, fun b hb => (nomatch hb), fun b _ => rfl⟩
  | heap b =>
    rw [hs] at hstorage
    obtain ⟨a', ha', heq⟩ := hstorage
    rw [if_neg (by simp)]
    refine ⟨Function.update h b none, ?_, ?_, fun c hc => ?_⟩
    · simp only [ha', Option.bind_some, heq, and_self, if_true]
    · intro c hc
      obtain rfl := Ptr.heap.inj hc
      exact Function.update_self _ _ _
    · exact Function.update_of_ne (fun he => hc (congrArg Ptr.heap he.symm)) _ _

/-- **What `assign` leaves.** -/
structure Assigned (fresh : ℕ) (d : Small A T) (values : List T) (h : Heap A) (d' : Small A T)
    (h' : Heap A) : Prop where
  elems : d'.elems = values
  same : d'.addr = d.addr ∧ d'.internalCapacity = d.internalCapacity ∧ d'.alloc = d.alloc
  valid : d'.Valid τ h'
  start : d'.start = if d.capacity < values.length then .heap fresh else d.start
  inUse : ∀ b, b = fresh ∨ d.start = .heap b → ((h' b).isSome ↔ d'.start = .heap b)
  others : ∀ b, b ≠ fresh → d.start ≠ .heap b → h' b = h b

theorem assign_run (hd : d.Valid τ h) (hfresh : h fresh = none) (values : List T) :
    ∃ d' h', d.assign τ fresh values h = some (d', h')
      ∧ @Assigned A T τ fresh d values h d' h' := by
  have hne : ∀ b, d.start = .heap b → b ≠ fresh := by
    rintro b hs rfl
    have hsome := hd.isSome hs
    rw [hfresh] at hsome
    cases hsome
  rw [Small.assign]
  split
  · next hlt =>
    have hd' : d.Valid τ (Function.update h fresh (some (d.alloc, values.length))) :=
      hd.congr fun b hb => Function.update_of_ne (hne b hb) _ _
    obtain ⟨h', hrun, hfreed, hkept⟩ := release_run hd'
    have hnew : h' fresh = some (d.alloc, values.length) := by
      rw [hkept fresh fun hs => hne fresh hs rfl]
      exact Function.update_self _ _ _
    refine ⟨{ d with start := .heap fresh, capacity := values.length, elems := values }, h',
      by rw [hrun, Option.map_some], rfl, ⟨rfl, rfl, rfl⟩,
      ⟨⟨d.alloc, hnew, τ.equal_refl d.alloc⟩, le_rfl⟩, (if_pos hlt).symm, ?_, ?_⟩
    · rintro b (rfl | hb)
      · rw [hnew]
        exact iff_of_true rfl rfl
      · rw [hfreed b hb]
        exact iff_of_false (by simp) fun he => hne b hb (Ptr.heap.inj he).symm
    · intro b hb hs
      rw [hkept b hs]
      exact Function.update_of_ne hb _ _
  · next hle =>
    refine ⟨{ d with elems := values }, h, rfl, rfl, ⟨rfl, rfl, rfl⟩,
      ⟨hd.storage, not_lt.mp hle⟩, (if_neg hle).symm, ?_, fun b _ _ => rfl⟩
    rintro b (rfl | hb)
    · rw [hfresh]
      exact iff_of_false (by simp) fun hs => hne b hs rfl
    · exact iff_of_true (hd.isSome hb) hb

/-- **Resources that can be handed over** are, and nothing is wrong. -/
theorem moved_of_propagable (hx : x.Valid τ h) (hready : (Move.assign d).Ready τ x h)
    (hfresh : h fresh = none) (hp : isPropagableFrom τ τ.propagate x d.alloc = true) :
    (Move.assign d).DoesWell τ fresh x h := by
  obtain ⟨-, hd, hapart⟩ := hready
  obtain ⟨hu, hequal⟩ := Bool.and_eq_true_iff.mp hp
  rw [Bool.not_eq_true'] at hu
  obtain ⟨h', hrun, hfreed, hkept⟩ := release_run hd
  have hxkept : ∀ b, x.start = .heap b → h' b = h b := fun b hb =>
    hkept b fun hs => hapart b hs hb
  refine ⟨({ d with
      alloc := if τ.propagate then x.alloc else d.alloc, start := x.start
      capacity := x.capacity, elems := x.elems }, x.emptied, h'),
    ?_, rfl, ?_, hx.emptied, fun b _ hb => (nomatch hb), ?_, fun b _ hb _ => hkept b hb⟩
  · simp only [Move.run, moveAssign, hp, if_true, hrun, Option.map_some]
  · refine hx.handed hu hxkept fun b _ => ?_
    split
    · exact τ.equal_refl x.alloc
    · next hprop =>
      rw [Bool.not_eq_true] at hprop
      rw [hprop, Bool.false_or] at hequal
      exact hequal
  · simp only [Small.emptied, reduceCtorEq, or_false]
    rintro b (rfl | hb | hb)
    · have hne : x.start ≠ .heap b := by
        intro hs
        have hsome := hx.isSome hs
        rw [hfresh] at hsome
        cases hsome
      refine iff_of_false ?_ hne
      by_cases hs : d.start = .heap b
      · rw [hfreed b hs]
        simp
      · rw [hkept b hs, hfresh]
        simp
    · rw [hfreed b hb]
      exact iff_of_false (by simp) (hapart b hb)
    · rw [hxkept b hb]
      exact iff_of_true (hx.isSome hb) hb

/-- **An assignment slips** where the allocator is replaced and the buffer is not. -/
theorem assign_iff (hx : x.Valid τ h) (hready : (Move.assign d).Ready τ x h)
    (hfresh : h fresh = none) :
    (Move.assign d).DoesWell τ fresh x h ↔ ¬ (Move.assign d).Slips τ x := by
  cases hp : isPropagableFrom τ τ.propagate x d.alloc with
  | true =>
    refine iff_of_true (moved_of_propagable hx hready hfresh hp) ?_
    rintro ⟨-, hu, -⟩
    rw [isPropagableFrom, hu] at hp
    cases hp
  | false =>
    obtain ⟨-, hd, hapart⟩ := hready
    obtain ⟨d', h', hrun, hass⟩ := assign_run hd hfresh x.elems
    have hxfresh : ∀ b, x.start = .heap b → b ≠ fresh := by
      rintro b hs rfl
      have hsome := hx.isSome hs
      rw [hfresh] at hsome
      cases hsome
    have hxkept : ∀ b, x.start = .heap b → h' b = h b := fun b hb =>
      hass.others b (hxfresh b hb) fun hs => hapart b hs hb
    have hres : (Move.assign d).run τ fresh x h = some
        ({ d' with alloc := if τ.propagate then x.alloc else d.alloc }, x.clear, h') := by
      simp only [Move.run, moveAssign, hp, Bool.false_eq_true, if_false, hrun, Option.map_some]
    have hheap : (∃ b, d'.start = .heap b)
        ↔ d.capacity < x.elems.length ∨ ∃ b, d.start = .heap b := by
      rw [hass.start]
      split
      · next hlt => exact iff_of_true ⟨fresh, rfl⟩ (Or.inl hlt)
      · next hle => rw [or_iff_right hle]
    -- All but the buffer of the destination is well.
    have hiff : (Move.assign d).DoesWell τ fresh x h
        ↔ ∀ b, d'.start = .heap b →
          τ.equal d.alloc (if τ.propagate then x.alloc else d.alloc) = true := by
      refine ⟨?_, fun heq => ⟨_, hres, hass.elems, ?_, hx.clear hxkept, ?_, ?_, ?_⟩⟩
      · rintro ⟨r, hr, hmoved⟩ b hb
        obtain rfl := Option.some.inj (hres.symm.trans hr)
        have hdest := hmoved.dest.storage
        have hvalid := hass.valid.storage
        simp only [hb] at hdest hvalid
        obtain ⟨a', ha', heq'⟩ := hdest
        obtain ⟨a'', ha'', heq''⟩ := hvalid
        obtain rfl : a' = a'' := (Prod.mk.inj (Option.some.inj (ha'.symm.trans ha''))).1
        rw [hass.same.2.2] at heq''
        exact τ.equal_trans (τ.equal_symm heq'') heq'
      · refine ⟨?_, hass.valid.size_le⟩
        have hvalid := hass.valid.storage
        cases hs : d'.start with
        | null => rw [hs] at hvalid; exact hvalid
        | inline o => rw [hs] at hvalid; exact hvalid
        | heap b =>
          rw [hs] at hvalid
          obtain ⟨a', ha', heq'⟩ := hvalid
          rw [hass.same.2.2] at heq'
          exact ⟨a', ha', τ.equal_trans heq' (heq b hs)⟩
      · intro b hb hs
        have hb' : d'.start = .heap b := hb
        have hs' : x.start = .heap b := hs
        rw [hass.start] at hb'
        split at hb'
        · exact hxfresh b hs' (Ptr.heap.inj hb').symm
        · exact hapart b hb' hs'
      · rintro b hb
        show (h' b).isSome ↔ d'.start = .heap b ∨ x.start = .heap b
        by_cases hs : x.start = .heap b
        · rw [hxkept b hs]
          exact iff_of_true (hx.isSome hs) (Or.inr hs)
        · rw [or_iff_left hs]
          exact hass.inUse b (by simpa only [hs, or_false, Move.before] using hb)
      · intro b hb hs _
        exact hass.others b hb hs
    rw [hiff]
    simp only [Move.Slips]
    cases hprop : τ.propagate with
    | false =>
      exact iff_of_true (fun _ _ => τ.equal_refl d.alloc) (by simp)
    | true =>
      have hu : storageIsUnpropagable τ x = true := by
        rw [isPropagableFrom, hprop, Bool.true_or, Bool.and_true, Bool.not_eq_false'] at hp
        exact hp
      simp only [if_true, hu, true_and, ← hheap, not_and, not_exists]
      refine ⟨fun heq hne b hb => ?_, fun h b hb => ?_⟩
      · rw [heq b hb] at hne
        cases hne
      · by_contra hne
        exact h (Bool.eq_false_iff.mpr hne) b hb

/-- **A move of a small vector does what it should unless it slips**: a construction
where the elements do not fit into the new storage or the buffer is from an allocator
that is not equal, an assignment where the allocator of a buffer is replaced. -/
theorem move_doesWell_iff (m : Move A T) (hx : x.Valid τ h) (hready : m.Ready τ x h)
    (hfresh : h fresh = none) : m.DoesWell τ fresh x h ↔ ¬ m.Slips τ x := by
  have hrun : ∀ {m : Move A T} {r}, m.run τ fresh x h = some r →
      (m.DoesWell τ fresh x h ↔ Moved τ fresh m x h r) := by
    intro m r hr
    refine ⟨?_, fun hmoved => ⟨r, hr, hmoved⟩⟩
    rintro ⟨r', hr', hmoved⟩
    rw [hr] at hr'
    exact Option.some.inj hr' ▸ hmoved
  cases m with
  | construct o cap => exact (hrun rfl).trans (construct_iff rfl hx hfresh)
  | constructWith o cap a => exact (hrun rfl).trans (construct_iff rfl hx hfresh)
  | assign d => exact assign_iff hx hready hfresh

/-! ## An input on which it fails -/

/-- Allocators that are equal where they are the same, and propagate. -/
def sameEqual : Traits ℕ where
  equal a b := a == b
  propagate := true
  unpropagable _ _ := false
  equal_refl a := beq_self_eq_true a
  equal_symm h := by rw [beq_iff_eq] at h ⊢; exact h.symm
  equal_trans h h' := by rw [beq_iff_eq] at h h' ⊢; exact h.trans h'

/-- Three elements in an own storage of four. -/
def threeInline : Small ℕ ℕ := ⟨1, 4, 0, .inline 1, 4, [7, 8, 9]⟩

theorem valid_threeInline : threeInline.Valid sameEqual fun _ => none :=
  ⟨⟨rfl, rfl⟩, by decide⟩

theorem doesWell_threeInline :
    (Move.construct 2 3).DoesWell sameEqual 5 threeInline fun _ => none :=
  (move_doesWell_iff (.construct 2 3) valid_threeInline (show 2 ≠ 1 by decide) rfl).mpr
    (show ¬ 3 < 3 by decide)

/-- **Three elements are moved into the storage of two.** -/
theorem not_doesWell_threeInline :
    ¬ ∀ (τ : Traits ℕ) (fresh : ℕ) (x : Small ℕ ℕ) (h : Heap ℕ) (m : Move ℕ ℕ),
      x.Valid τ h → m.Ready τ x h → h fresh = none → m.DoesWell τ fresh x h := by
  intro hall
  obtain ⟨r, hr, hmoved⟩ := hall sameEqual 5 threeInline (fun _ => none) (.construct 2 2)
    valid_threeInline (show 2 ≠ 1 by decide) rfl
  obtain rfl := Option.some.inj hr
  exact absurd hmoved.dest.size_le (show ¬ 3 ≤ 2 by decide)

end Results

end SmallVector
