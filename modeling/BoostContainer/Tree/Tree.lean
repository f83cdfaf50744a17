import BoostContainer.Lib.Program

/-!
# Trees of nodes

A `tree` owns nodes: memory that an allocator gave, in which a value is
constructed, and which an intrusive tree links. Memory is all there is of the
nodes of all trees, of those in a node handle and of those that a call is about
to link. A node that is deallocated by another allocator than the one that
gave it, a value that is destroyed where there is none, a node that is linked
without a value: all of this has no defined behaviour. What is allocated and
not owned by anything is lost.

The intrusive tree is not part of the repository. A search in it may throw,
since the comparison may, and changes nothing; to link a node where a search
told to cannot throw. Where a search ends is up to the environment, and so is
which call throws.
-/

open Function

namespace Tree

/-- **The memory of a node**: the allocator it is from, and the value in it. -/
structure Cell (α : Type) where
  owner : ℕ
  value : Option α

/-- **Memory, and who owns what in it.** -/
structure State (α : Type) where
  heap : ℕ → Option (Cell α)
  /-- `m_icont` of every container: its nodes, in order. -/
  icont : ℕ → List ℕ
  /-- The allocator of every container. -/
  alloc : ℕ → ℕ
  /-- The node in the node handle of a call. -/
  handle : Option ℕ
  /-- `other_tree`, the nodes that an assignment has left to reuse. -/
  otherTree : List ℕ
  /-- How many calls were made that may throw. -/
  ops : ℕ
  /-- How many assignments of elements threw. -/
  torn : ℕ

/-- How the search for the place of a unique key ends, among `n` elements. -/
inductive Check (n : ℕ)
  | threw
  /-- There is an equivalent key. -/
  | present (i : Fin n)
  | absent (i : Fin (n + 1))

/-- **What elements, comparisons and allocators do.** -/
structure Env (κ α : Type) where
  /-- Which operations on elements throw. -/
  throws : ℕ → Bool
  /-- Where there is memory for a node. -/
  node (used : ℕ → Bool) : Option {p : ℕ // used p = false}
  /-- The order in which `clone_from` visits the nodes of a tree. -/
  visit (l : List ℕ) : {o : List ℕ // o.Perm l}
  /-- What a move leaves of an element. -/
  moved : α → α
  /-- What an assignment that throws leaves of an element. -/
  torn : α → α
  keyOf : α → κ
  /-- `insert_unique_check` of the intrusive tree, with the hint if there is one. -/
  check (n : ℕ) (l : List α) (hint : Option ℕ) (k : κ) : Check l.length
  /-- `insert_equal` of the intrusive tree; `none` if a comparison throws. -/
  insertEqual (n : ℕ) (l : List α) (hint : Option ℕ) (v : α) : Option (Fin (l.length + 1))

variable {κ α : Type}

namespace State

variable (s : State α)

/-- The value in a node. -/
def valueAt (p : ℕ) : Option α := (s.heap p).bind Cell.value

/-- **The elements of a container**, in order. -/
def values (h : ℕ) : List α := (s.icont h).filterMap s.valueAt

/-- What memory is in use. -/
def used (p : ℕ) : Bool := (s.heap p).isSome

end State

/-! ## Nodes -/

section Nodes

variable (e : Env κ α) (h : ℕ)

/-- `allocate_one` -/
def allocateOne : Prog (State α) ℕ := fun s =>
  match e.node s.used with
  | some p => .done p.1 { s with heap := update s.heap p.1 (some ⟨s.alloc h, none⟩) }
  | none => .threw s

/-- `deallocate_one` -/
def deallocateOne (p : ℕ) : Prog (State α) Unit := fun s =>
  match s.heap p with
  | some ⟨owner, none⟩ =>
    if owner = s.alloc h then .done () { s with heap := update s.heap p none } else .undefined
  | _ => .undefined

/-- `Node(nalloc, args...)`: the value, in raw memory. -/
def construct (p : ℕ) (v : α) : Prog (State α) Unit := fun s =>
  match s.heap p with
  | some ⟨owner, none⟩ =>
    if e.throws s.ops then .threw { s with ops := s.ops + 1 }
    else .done () { s with
      heap := update s.heap p (some ⟨owner, some v⟩)
      ops := s.ops + 1 }
  | _ => .undefined

/-- `destructor(alloc)` -/
def destructor (p : ℕ) : Prog (State α) Unit := fun s =>
  match s.heap p with
  | some ⟨owner, some _⟩ => .done () { s with heap := update s.heap p (some ⟨owner, none⟩) }
  | _ => .undefined

/-- The value of a node. -/
def getData (p : ℕ) : Prog (State α) α := fun s =>
  match s.valueAt p with
  | some v => .done v s
  | none => .undefined

/-- `do_assign`: the value of a node, assigned to. -/
def doAssign (p : ℕ) (v : α) : Prog (State α) Unit := fun s =>
  match s.heap p with
  | some ⟨owner, some old⟩ =>
    if e.throws s.ops then .threw { s with
      heap := update s.heap p (some ⟨owner, some (e.torn old)⟩)
      ops := s.ops + 1
      torn := s.torn + 1 }
    else .done () { s with
      heap := update s.heap p (some ⟨owner, some v⟩)
      ops := s.ops + 1 }
  | _ => .undefined

/-- `create_node` -/
def createNode (v : α) : Prog (State α) ℕ := do
  let p ← allocateOne e h
  (construct e p v).onThrow (deallocateOne h p)
  pure p

/-- `destroy_node` -/
def destroyNode (p : ℕ) : Prog (State α) Unit := do
  destructor p
  deallocateOne h p

end Nodes

/-! ## What a call leaves as it was -/

/-- **All as it was**, but for the count of calls. -/
structure Unchanged (s t : State α) : Prop where
  heap : t.heap = s.heap
  icont : t.icont = s.icont
  alloc : t.alloc = s.alloc
  handle : t.handle = s.handle
  otherTree : t.otherTree = s.otherTree
  torn : t.torn = s.torn

/-- **A node was made** by a container, and all else is as it was. -/
structure Made (s : State α) (h p : ℕ) (v : α) (t : State α) : Prop where
  free : s.heap p = none
  heap : t.heap = update s.heap p (some ⟨s.alloc h, some v⟩)
  icont : t.icont = s.icont
  alloc : t.alloc = s.alloc
  handle : t.handle = s.handle
  otherTree : t.otherTree = s.otherTree
  torn : t.torn = s.torn

variable {e : Env κ α} {s t : State α} {h p : ℕ} {v : α}

theorem Unchanged.refl (s : State α) : Unchanged s s := ⟨rfl, rfl, rfl, rfl, rfl, rfl⟩

theorem Unchanged.ops (u : Unchanged s t) (n : ℕ) : Unchanged s { t with ops := n } :=
  ⟨u.heap, u.icont, u.alloc, u.handle, u.otherTree, u.torn⟩

theorem Made.ops (m : Made s h p v t) (n : ℕ) : Made s h p v { t with ops := n } :=
  ⟨m.free, m.heap, m.icont, m.alloc, m.handle, m.otherTree, m.torn⟩

theorem Made.heap_self (m : Made s h p v t) : t.heap p = some ⟨t.alloc h, some v⟩ := by
  rw [m.heap, update_self, m.alloc]

theorem Made.valueAt (m : Made s h p v t) : t.valueAt p = some v := by
  rw [State.valueAt, m.heap_self]
  rfl

/-- A node that was made is not yet taken back. -/
theorem Made.not_unchanged (m : Made s h p v t) : ¬ Unchanged s t := by
  intro u
  have hp := m.heap_self
  rw [u.heap, m.free] at hp
  cases hp

/-- **`allocate_one`** -/
theorem allocateOne_done {q : {p : ℕ // s.used p = false}} (hq : e.node s.used = some q) :
    allocateOne e h s
      = .done q.1 { s with heap := update s.heap q.1 (some ⟨s.alloc h, none⟩) } := by
  rw [allocateOne, hq]

theorem allocateOne_threw (hq : e.node s.used = none) : allocateOne e h s = .threw s := by
  rw [allocateOne, hq]

theorem construct_eq {owner : ℕ} (e : Env κ α) (v : α) (hp : s.heap p = some ⟨owner, none⟩) :
    construct e p v s
      = if e.throws s.ops then .threw { s with ops := s.ops + 1 }
        else .done () { s with
          heap := update s.heap p (some ⟨owner, some v⟩)
          ops := s.ops + 1 } := by
  rw [construct, hp]

theorem free_of_node {q : {p : ℕ // s.used p = false}} : s.heap q.1 = none :=
  Option.isNone_iff_eq_none.mp (Option.isSome_eq_false_iff.mp q.2)

theorem deallocateOne_done (hp : s.heap p = some ⟨s.alloc h, none⟩) :
    deallocateOne h p s = .done () { s with heap := update s.heap p none } := by
  rw [deallocateOne, hp]
  exact if_pos rfl

theorem destroyNode_done (hp : s.heap p = some ⟨s.alloc h, some v⟩) :
    destroyNode h p s = .done () { s with heap := update s.heap p none } := by
  have hdestroy : destructor p s
      = .done () { s with heap := update s.heap p (some ⟨s.alloc h, none⟩) } := by
    rw [destructor, hp]
  have hraw : update s.heap p (some ⟨s.alloc h, none⟩) p = some ⟨s.alloc h, none⟩ :=
    update_self _ _ _
  rw [destroyNode, Prog.bind_of_done hdestroy, deallocateOne_done hraw]
  simp only [update_idem]

theorem update_none (hp : s.heap p = none) (c : Option (Cell α)) :
    update (update s.heap p c) p none = s.heap := by
  rw [update_idem, ← hp, update_eq_self]

theorem Unchanged.made (u : Unchanged s t) {r : State α} (m : Made t h p v r) :
    Made s h p v r :=
  ⟨u.heap ▸ m.free, by rw [m.heap, u.heap, u.alloc], m.icont.trans u.icont,
    m.alloc.trans u.alloc, m.handle.trans u.handle, m.otherTree.trans u.otherTree,
    m.torn.trans u.torn⟩

theorem Unchanged.trans (u : Unchanged s t) {r : State α} (u' : Unchanged t r) : Unchanged s r :=
  ⟨u'.heap.trans u.heap, u'.icont.trans u.icont, u'.alloc.trans u.alloc,
    u'.handle.trans u.handle, u'.otherTree.trans u.otherTree, u'.torn.trans u.torn⟩

/-- **`create_node` makes a node**, if there is memory and the construction does
not throw. -/
theorem createNode_done {q : {p : ℕ // s.used p = false}} (v : α) (hq : e.node s.used = some q)
    (hthrow : e.throws s.ops = false) :
    ∃ t, createNode e h v s = .done q.1 t ∧ Made s h q.1 v t ∧ t.ops = s.ops + 1 := by
  have hraw : update s.heap q.1 (some ⟨s.alloc h, (none : Option α)⟩) q.1
      = some ⟨s.alloc h, none⟩ := update_self _ _ _
  refine ⟨{ s with
    heap := update s.heap q.1 (some ⟨s.alloc h, some v⟩)
    ops := s.ops + 1 }, ?_, ⟨free_of_node, rfl, rfl, rfl, rfl, rfl, rfl⟩, rfl⟩
  unfold createNode
  rw [Prog.bind_of_done (allocateOne_done hq)]
  refine Prog.bind_of_done (k := fun _ => pure q.1) (b := ()) ?_
  rw [Prog.onThrow, construct_eq e v hraw]
  dsimp only
  rw [hthrow, if_neg Bool.false_ne_true, update_idem]

/-- Otherwise it changes nothing. -/
theorem createNode_threw (v : α) (hthrow : e.node s.used = none ∨ e.throws s.ops = true) :
    ∃ t, createNode e h v s = .threw t ∧ Unchanged s t := by
  unfold createNode
  rcases hnode : e.node s.used with - | q
  · refine ⟨s, ?_, Unchanged.refl s⟩
    show Prog.bind _ _ s = _
    rw [Prog.bind, allocateOne_threw hnode]
  · have hthrows : e.throws s.ops = true :=
      hthrow.resolve_left fun hnone => by rw [hnone] at hnode; cases hnode
    have hraw : update s.heap q.1 (some ⟨s.alloc h, (none : Option α)⟩) q.1
        = some ⟨s.alloc h, none⟩ := update_self _ _ _
    rw [Prog.bind_of_done (allocateOne_done hnode)]
    refine ⟨{ s with ops := s.ops + 1 }, ?_, (Unchanged.refl s).ops _⟩
    show Prog.bind _ _ _ = _
    rw [Prog.bind, Prog.onThrow, construct_eq e v hraw]
    dsimp only
    rw [hthrows, if_pos rfl]
    dsimp only
    rw [deallocateOne_done hraw]
    dsimp only
    rw [update_none free_of_node]

/-- **`create_node` makes a node, or changes nothing.** -/
theorem createNode_meets (e : Env κ α) (s : State α) (h : ℕ) (v : α) :
    Prog.Meets (Unchanged s) (createNode e h v) (fun p => Made s h p v) (Unchanged s) := by
  intro t u
  rcases hnode : e.node t.used with - | q
  · obtain ⟨r, hr, u'⟩ := createNode_threw (h := h) v (Or.inl hnode)
    rw [hr]
    exact u.trans u'
  · cases hthrow : e.throws t.ops with
    | true =>
      obtain ⟨r, hr, u'⟩ := createNode_threw (h := h) v (Or.inr hthrow)
      rw [hr]
      exact u.trans u'
    | false =>
      obtain ⟨r, hr, m, -⟩ := createNode_done (h := h) v hnode hthrow
      rw [hr]
      exact u.made m

/-- **`destroy_node` takes a node back.** -/
theorem destroyNode_meets (E : State α → Prop) (s : State α) (h p : ℕ) (v : α) :
    Prog.Meets (Made s h p v) (destroyNode h p) (fun _ => Unchanged s) E := by
  intro t m
  rw [destroyNode_done m.heap_self]
  refine ⟨?_, m.icont, m.alloc, m.handle, m.otherTree, m.torn⟩
  dsimp only
  rw [m.heap]
  exact update_none m.free _

end Tree
