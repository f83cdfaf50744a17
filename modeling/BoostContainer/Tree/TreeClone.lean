import BoostContainer.Tree.Tree

/-!
# Cloning a tree

A tree that cannot have the nodes of another one is cloned from it, node by
node: that is how trees are copied, and how they are moved between allocators
that are not equal. A cloner makes the nodes; it may reuse nodes that the
destination had, one by one, and makes new ones when there are none left. If
that throws, the cloner destroys the old nodes that are left, and `clone_from`
the clones.

What is owned meanwhile is a list of nodes, that of a `Ledger`: the clones, and
the old nodes that are left. A ledger says where they are from, that they are
alive and of the right allocator, and that memory is otherwise as it was, but
for the old nodes that are gone. No step of cloning leaves it.
-/

open Function

namespace Tree

variable {κ α : Type}

section Cloners

variable (e : Env κ α) (h : ℕ)

/-- What is left of an element that was moved. -/
def setValue (q : ℕ) (w : α) : Prog (State α) Unit := fun s =>
  match s.heap q with
  | some ⟨owner, some _⟩ => .done () { s with heap := update s.heap q (some ⟨owner, some w⟩) }
  | _ => .undefined

/-- The argument of a call, spent if it was moved. -/
def spend (move : Bool) (q : ℕ) (w : α) : Prog (State α) Unit :=
  if move then setValue q w else pure ()

/-- `create_node` with the value of another node, copied or moved. -/
def createNodeFrom (move : Bool) (q : ℕ) : Prog (State α) ℕ := do
  let v ← getData q
  let p ← allocateOne e h
  (construct e p v).onThrow (do
    spend move q (e.torn v)
    deallocateOne h p)
  spend move q (e.moved v)
  pure p

/-- `do_assign` and `do_move_assign` -/
def doAssignFrom (move : Bool) (p q : ℕ) : Prog (State α) Unit := do
  let v ← getData q
  (doAssign e p v).onThrow (spend move q (e.torn v))
  spend move q (e.moved v)

/-- `destroy_node` of nodes, one after the other. -/
def destroyAll : List ℕ → Prog (State α) Unit
  | [] => pure ()
  | p :: ps => do
    destroyNode h p
    destroyAll ps

/-- `unlink_leftmost_without_rebalance` of `other_tree`. -/
def unlinkLeftmost : Prog (State α) (Option ℕ) := fun s =>
  match s.otherTree with
  | [] => .done none s
  | p :: ps => .done (some p) { s with otherTree := ps }

/-- `while ((p = other_tree.unlink_leftmost_without_rebalance()))`: the nodes
are unlinked and destroyed, one after the other. -/
def drain : List ℕ → Prog (State α) Unit
  | [] => pure ()
  | p :: ps => do
    Prog.modify fun s => { s with otherTree := ps }
    destroyNode h p
    drain ps

/-- The nodes that are left in `other_tree` are destroyed. -/
def destroyOtherTree : Prog (State α) Unit := do
  let ps ← Prog.gets State.otherTree
  drain h ps

/-- `RecyclingCloner` -/
def recyclingCloner (move : Bool) (q : ℕ) : Prog (State α) ℕ := do
  match ← unlinkLeftmost with
  | some p =>
    (doAssignFrom e move p q).onThrow (do
      destroyNode h p
      destroyOtherTree h)
    pure p
  | none => createNodeFrom e h move q

/-- `move_cloner` -/
def moveCloner (q : ℕ) : Prog (State α) ℕ := createNodeFrom e h true q

/-- The nodes of a tree, cloned; when the cloner throws, the clones are disposed. -/
def cloneNodes (cloner : ℕ → Prog (State α) ℕ) :
    List ℕ → List ℕ → (ℕ → ℕ) → Prog (State α) (ℕ → ℕ)
  | [], _, cloneOf => pure cloneOf
  | q :: qs, visited, cloneOf => do
    let p ← (cloner q).onThrow (destroyAll h (visited.map cloneOf))
    cloneNodes cloner qs (q :: visited) (update cloneOf q p)

/-- `clone_from` of the intrusive tree, into one that is empty. -/
def cloneFrom (cloner : ℕ → Prog (State α) ℕ) (x : ℕ) : Prog (State α) Unit := do
  let src ← Prog.gets fun s => s.icont x
  let cloneOf ← cloneNodes h cloner (e.visit src).1 [] id
  Prog.modify fun s => { s with icont := update s.icont h (src.map cloneOf) }

end Cloners

/-! ## What is owned while a tree is cloned -/

/-- A cell of memory, changed. -/
def State.setCell (s : State α) (p : ℕ) (c : Option (Cell α)) : State α :=
  { s with heap := update s.heap p c }

theorem State.heap_setCell_self (s : State α) (p : ℕ) (c : Option (Cell α)) :
    (s.setCell p c).heap p = c := update_self _ _ _

theorem State.heap_setCell_of_ne (s : State α) {p r : ℕ} (hne : r ≠ p) (c : Option (Cell α)) :
    (s.setCell p c).heap r = s.heap r := update_of_ne hne _ _

theorem State.setCell_comm (s : State α) {p r : ℕ} (hne : p ≠ r) (c d : Option (Cell α)) :
    (s.setCell p c).setCell r d = (s.setCell r d).setCell p c := by
  rw [State.setCell, State.setCell, State.setCell, State.setCell]
  dsimp only
  rw [update_comm hne]

/-- **The ledger**: some nodes are owned, and the rest of memory is as it was, but
for the old nodes that are gone. -/
structure Ledger (s : State α) (h : ℕ) (old src other owned : List ℕ) (t : State α) : Prop where
  nodup : owned.Nodup
  live : ∀ p ∈ owned, ∃ v, t.heap p = some ⟨s.alloc h, some v⟩
  apart : ∀ p ∈ owned, p ∉ src
  /-- What is owned is an old node, or one that was made. -/
  own : ∀ p ∈ owned, p ∈ old ∨ s.heap p = none
  source : ∀ q ∈ src, ∃ o v w, s.heap q = some ⟨o, some v⟩ ∧ t.heap q = some ⟨o, some w⟩
  rest : ∀ p, p ∉ owned → p ∉ src → t.heap p = if p ∈ old then none else s.heap p
  icont : t.icont = s.icont
  alloc : t.alloc = s.alloc
  handle : t.handle = s.handle
  otherTree : t.otherTree = other
  /-- What is left to reuse is old. -/
  left : ∀ p ∈ other, p ∈ old

namespace Ledger

variable {s t : State α} {h p q : ℕ} {old src other owned owned' : List ℕ} {v w : α}

theorem perm (l : Ledger s h old src other owned t) (hp : owned.Perm owned') :
    Ledger s h old src other owned' t :=
  ⟨hp.nodup_iff.mp l.nodup, fun p hp' => l.live p (hp.mem_iff.mpr hp'),
    fun p hp' => l.apart p (hp.mem_iff.mpr hp'), fun p hp' => l.own p (hp.mem_iff.mpr hp'),
    l.source, fun p hp' => l.rest p (hp.mem_iff.not.mpr hp'), l.icont, l.alloc, l.handle,
    l.otherTree, l.left⟩

/-- Counts of calls do not matter. -/
theorem counts (l : Ledger s h old src other owned t) (n m : ℕ) :
    Ledger s h old src other owned { t with ops := n, torn := m } :=
  ⟨l.nodup, l.live, l.apart, l.own, l.source, l.rest, l.icont, l.alloc, l.handle, l.otherTree,
    l.left⟩

theorem unlink {p : ℕ} (l : Ledger s h old src (p :: other) owned t) :
    Ledger s h old src other owned { t with otherTree := other } :=
  ⟨l.nodup, l.live, l.apart, l.own, l.source, l.rest, l.icont, l.alloc, l.handle, rfl,
    fun q hq => l.left q (List.mem_cons_of_mem p hq)⟩

/-- A node where there was none is owned. -/
theorem add (l : Ledger s h old src other owned t) (hp : t.heap p = none) (v : α) :
    Ledger s h old src other (p :: owned)
      (t.setCell p (some ⟨s.alloc h, some v⟩)) := by
  have howned : p ∉ owned := by
    intro hmem
    obtain ⟨v, hv⟩ := l.live p hmem
    rw [hp] at hv
    cases hv
  have hsrc : p ∉ src := by
    intro hmem
    obtain ⟨o, v, w, -, hw⟩ := l.source p hmem
    rw [hp] at hw
    cases hw
  have hne : ∀ r ∈ owned, r ≠ p := fun r hr hrp => howned (hrp ▸ hr)
  have hne' : ∀ r ∈ src, r ≠ p := fun r hr hrp => hsrc (hrp ▸ hr)
  refine ⟨List.nodup_cons.mpr ⟨howned, l.nodup⟩, ?_, ?_, ?_, ?_, ?_, l.icont, l.alloc, l.handle,
    l.otherTree, l.left⟩
  · intro r hr
    rcases List.mem_cons.mp hr with rfl | hr
    · exact ⟨v, t.heap_setCell_self _ _⟩
    · rw [t.heap_setCell_of_ne (hne r hr)]
      exact l.live r hr
  · intro r hr
    rcases List.mem_cons.mp hr with rfl | hr
    · exact hsrc
    · exact l.apart r hr
  · intro r hr
    rcases List.mem_cons.mp hr with rfl | hr
    · have hrest := l.rest r howned hsrc
      rw [hp] at hrest
      split at hrest
      · next hold => exact Or.inl hold
      · exact Or.inr hrest.symm
    · exact l.own r hr
  · intro q hq
    rw [t.heap_setCell_of_ne (hne' q hq)]
    exact l.source q hq
  · intro r hr hr'
    rw [List.mem_cons, not_or] at hr
    rw [t.heap_setCell_of_ne hr.1]
    exact l.rest r hr.2 hr'

/-- A node that is given back is no longer owned. -/
theorem drop (l : Ledger s h old src other (p :: owned) t) :
    Ledger s h old src other owned (t.setCell p none) := by
  obtain ⟨howned, hnodup⟩ := List.nodup_cons.mp l.nodup
  have hsrc := l.apart p List.mem_cons_self
  have hne : ∀ r ∈ owned, r ≠ p := fun r hr hrp => howned (hrp ▸ hr)
  have hne' : ∀ r ∈ src, r ≠ p := fun r hr hrp => hsrc (hrp ▸ hr)
  refine ⟨hnodup, fun r hr => ?_, fun r hr => l.apart r (List.mem_cons_of_mem p hr),
    fun r hr => l.own r (List.mem_cons_of_mem p hr), fun q hq => ?_, fun r hr hr' => ?_,
    l.icont, l.alloc, l.handle, l.otherTree, l.left⟩
  · rw [t.heap_setCell_of_ne (hne r hr)]
    exact l.live r (List.mem_cons_of_mem p hr)
  · rw [t.heap_setCell_of_ne (hne' q hq)]
    exact l.source q hq
  · by_cases hrp : r = p
    · subst hrp
      rw [t.heap_setCell_self]
      rcases l.own r List.mem_cons_self with hold | hnone
      · rw [if_pos hold]
      · rw [hnone, ite_self]
    · rw [t.heap_setCell_of_ne hrp]
      exact l.rest r (List.mem_cons.not.mpr (not_or.mpr ⟨hrp, hr⟩)) hr'

/-- A node that is owned may be assigned to. -/
theorem assign (l : Ledger s h old src other owned t) (hp : p ∈ owned) (v : α) :
    Ledger s h old src other owned
      (t.setCell p (some ⟨s.alloc h, some v⟩)) := by
  have hsrc := l.apart p hp
  have hne' : ∀ r ∈ src, r ≠ p := fun r hr hrp => hsrc (hrp ▸ hr)
  refine ⟨l.nodup, fun r hr => ?_, l.apart, l.own, fun q hq => ?_, fun r hr hr' => ?_,
    l.icont, l.alloc, l.handle, l.otherTree, l.left⟩
  · by_cases hrp : r = p
    · subst hrp
      exact ⟨v, t.heap_setCell_self _ _⟩
    · rw [t.heap_setCell_of_ne hrp]
      exact l.live r hr
  · rw [t.heap_setCell_of_ne (hne' q hq)]
    exact l.source q hq
  · have hrp : r ≠ p := fun hrp => hr (hrp ▸ hp)
    rw [t.heap_setCell_of_ne hrp]
    exact l.rest r hr hr'

/-- An element of the source may be moved. -/
theorem setSource (l : Ledger s h old src other owned t) (hq : q ∈ src) {o : ℕ}
    (hv : t.heap q = some ⟨o, some v⟩) (w : α) :
    Ledger s h old src other owned (t.setCell q (some ⟨o, some w⟩)) := by
  have hne : ∀ r ∈ owned, r ≠ q := fun r hr hrq => l.apart r hr (hrq ▸ hq)
  refine ⟨l.nodup, fun r hr => ?_, l.apart, l.own, fun r hr => ?_, fun r hr hr' => ?_,
    l.icont, l.alloc, l.handle, l.otherTree, l.left⟩
  · rw [t.heap_setCell_of_ne (hne r hr)]
    exact l.live r hr
  · by_cases hrq : r = q
    · subst hrq
      obtain ⟨o', v', w', hs, ht⟩ := l.source r hr
      rw [hv] at ht
      cases ht
      exact ⟨o, v', w, hs, t.heap_setCell_self _ _⟩
    · rw [t.heap_setCell_of_ne hrq]
      exact l.source r hr
  · have hrq : r ≠ q := fun hrq => hr' (hrq ▸ hq)
    rw [t.heap_setCell_of_ne hrq]
    exact l.rest r hr hr'

end Ledger

/-! ## Nodes given back -/

section Destroy

variable {s t : State α} {h p q : ℕ} {old src other owned : List ℕ} {E : State α → Prop}

theorem destroyNode_ledger :
    Prog.Meets (Ledger s h old src other (p :: owned)) (destroyNode h p)
      (fun _ => Ledger s h old src other owned) E := by
  intro t l
  obtain ⟨v, hv⟩ := l.live p List.mem_cons_self
  rw [← l.alloc] at hv
  rw [destroyNode_done hv]
  exact l.drop

/-- **Nodes that are destroyed are no longer owned.** -/
theorem destroyAll_ledger (ps : List ℕ) :
    Prog.Meets (Ledger s h old src other (ps ++ owned)) (destroyAll h ps)
      (fun _ => Ledger s h old src other owned) E := by
  induction ps with
  | nil => exact Prog.meets_pure fun _ => id
  | cons p ps ih => exact Prog.Meets.bind destroyNode_ledger fun _ => ih

/-- **`other_tree` is emptied**, and its nodes are no longer owned. -/
theorem drain_ledger (ps : List ℕ) :
    Prog.Meets (Ledger s h old src ps (ps ++ owned)) (drain h ps)
      (fun _ => Ledger s h old src [] owned) E := by
  induction ps with
  | nil => exact Prog.meets_pure fun _ => id
  | cons p ps ih =>
    refine (Prog.meets_modify fun t l => ?_).bind (R := fun _ =>
      Ledger s h old src ps (p :: (ps ++ owned))) fun _ => ?_
    · exact l.unlink
    · exact Prog.Meets.bind destroyNode_ledger fun _ => ih

theorem destroyOtherTree_ledger :
    Prog.Meets (Ledger s h old src other (other ++ owned)) (destroyOtherTree h)
      (fun _ => Ledger s h old src [] owned) E := by
  intro t l
  unfold destroyOtherTree
  rw [Prog.gets_bind, l.otherTree]
  exact drain_ledger other t l

end Destroy

/-! ## One node, cloned -/

section Clone

variable {e : Env κ α} {s t : State α} {h p q : ℕ} {old src other owned : List ℕ} {v w : α}
  {move : Bool} {o : ℕ}

/-- **A node was cloned**: the clone has the value, which was moved from the
source or not, and nothing else changed. -/
structure Cloned (e : Env κ α) (move : Bool) (q p : ℕ) (v : α) (t t' : State α) : Prop where
  clone : t'.valueAt p = some v
  source : t'.valueAt q = some (if move then e.moved v else v)
  frame : ∀ r, r ≠ p → r ≠ q → t'.heap r = t.heap r

theorem spend_done (move : Bool) (hq : t.heap q = some ⟨o, some v⟩) (w : α) :
    spend move q w t
      = .done () (if move then t.setCell q (some ⟨o, some w⟩) else t) := by
  cases move with
  | true =>
    rw [spend, if_pos rfl, setValue, hq]
    rfl
  | false => rfl

theorem Ledger.spend (l : Ledger s h old src other owned t) (hq : q ∈ src)
    (hv : t.heap q = some ⟨o, some v⟩) (move : Bool) (w : α) :
    Ledger s h old src other owned
      (if move then t.setCell q (some ⟨o, some w⟩) else t) := by
  cases move with
  | true => exact l.setSource hq hv w
  | false => exact l

/-- What is left when the value of a node was given to another one. -/
theorem cloned_of_frame {t' : State α} {a : ℕ} (hpq : p ≠ q)
    (hq : t.heap q = some ⟨o, some v⟩) (hp : t'.heap p = some ⟨a, some v⟩)
    (hframe : ∀ r, r ≠ p → t'.heap r = t.heap r) :
    Cloned e move q p v t (if move then t'.setCell q (some ⟨o, some (e.moved v)⟩) else t') := by
  cases move with
  | true =>
    refine ⟨?_, ?_, fun r hrp hrq => ?_⟩
    · show ((t'.setCell q _).heap p).bind _ = _
      rw [t'.heap_setCell_of_ne hpq, hp]
      rfl
    · show ((t'.setCell q _).heap q).bind _ = _
      rw [t'.heap_setCell_self]
      rfl
    · show (t'.setCell q _).heap r = _
      rw [t'.heap_setCell_of_ne hrq, hframe r hrp]
  | false =>
    refine ⟨?_, ?_, fun r hrp _ => hframe r hrp⟩
    · show (t'.heap p).bind _ = _
      rw [hp]
      rfl
    · show (t'.heap q).bind _ = _
      rw [hframe q hpq.symm, hq]
      rfl

theorem getData_done (hq : t.heap q = some ⟨o, some v⟩) : getData q t = .done v t := by
  rw [getData, State.valueAt, hq]
  rfl

/-- **An assignment to a node that is owned**, whether it throws or not. -/
theorem doAssign_cases (e : Env κ α) (v : α) (l : Ledger s h old src other owned t)
    (hp : p ∈ owned) :
    ∃ t', Ledger s h old src other owned t' ∧ (∀ r, r ≠ p → t'.heap r = t.heap r) ∧
      (doAssign e p v t = .threw t' ∨ doAssign e p v t = .done () t' ∧
        t'.heap p = some ⟨s.alloc h, some v⟩) := by
  obtain ⟨w, hw⟩ := l.live p hp
  rw [doAssign, hw]
  dsimp only
  split
  · exact ⟨_, (l.assign hp (e.torn w)).counts (t.ops + 1) (t.torn + 1),
      fun r hr => t.heap_setCell_of_ne hr _, Or.inl rfl⟩
  · exact ⟨_, (l.assign hp v).counts (t.ops + 1) t.torn,
      fun r hr => t.heap_setCell_of_ne hr _, Or.inr ⟨rfl, t.heap_setCell_self _ _⟩⟩

/-- **A node that is owned is assigned to.** -/
theorem doAssignFrom_meets (e : Env κ α) (move : Bool)
    (l : Ledger s h old src other owned t) (hp : p ∈ owned)
    (hq : q ∈ src) (hv : t.heap q = some ⟨o, some v⟩) :
    (doAssignFrom e move p q t).Meets
      (fun _ t' => Ledger s h old src other owned t' ∧ Cloned e move q p v t t')
      (Ledger s h old src other owned) := by
  have hpq : p ≠ q := fun hpq => l.apart p hp (hpq ▸ hq)
  unfold doAssignFrom
  rw [Prog.bind_of_done (getData_done hv)]
  obtain ⟨t', l', hframe, hthrew | ⟨hdone, hclone⟩⟩ := doAssign_cases e v l hp
  · have hv' : t'.heap q = some ⟨o, some v⟩ := by rw [hframe q hpq.symm, hv]
    refine Prog.bind_meets_of_throws ?_
    rw [Prog.onThrow, hthrew]
    dsimp only
    rw [spend_done move hv']
    exact l'.spend hq hv' move (e.torn v)
  · have hv' : t'.heap q = some ⟨o, some v⟩ := by rw [hframe q hpq.symm, hv]
    have hrun : ((doAssign e p v).onThrow (Tree.spend move q (e.torn v))) t = .done () t' := by
      rw [Prog.onThrow, hdone]
    rw [Prog.bind_of_done hrun, spend_done move hv']
    exact ⟨l'.spend hq hv' move (e.moved v), cloned_of_frame hpq hv hclone hframe⟩

/-- **A construction in new memory**: a node that is owned, or raw memory again,
which is given back. -/
theorem construct_cases (e : Env κ α) (v : α) (l : Ledger s h old src other owned t)
    (hnone : t.heap p = none) :
    (∃ t', construct e p v (t.setCell p (some ⟨t.alloc h, none⟩)) = .done () t' ∧
      Ledger s h old src other (p :: owned) t' ∧ t'.heap p = some ⟨s.alloc h, some v⟩ ∧
      ∀ r, r ≠ p → t'.heap r = t.heap r) ∨
    (∃ t', construct e p v (t.setCell p (some ⟨t.alloc h, none⟩)) = .threw t' ∧
      Ledger s h old src other owned (t'.setCell p none) ∧ t'.heap p = some ⟨t'.alloc h, none⟩ ∧
      ∀ r, r ≠ p → t'.heap r = t.heap r) := by
  have hraw : (t.setCell p (some ⟨t.alloc h, none⟩)).heap p = some ⟨t.alloc h, none⟩ :=
    t.heap_setCell_self _ _
  rw [construct_eq e v hraw]
  split
  · refine Or.inr ⟨_, rfl, ?_, t.heap_setCell_self _ _, fun r hr => t.heap_setCell_of_ne hr _⟩
    have hheap : update (update t.heap p (some ⟨t.alloc h, none⟩)) p none = t.heap :=
      update_none hnone _
    rw [State.setCell, State.setCell]
    dsimp only
    rw [hheap]
    exact l.counts (t.ops + 1) t.torn
  · have hheap : update (t.setCell p (some ⟨t.alloc h, none⟩)).heap p (some ⟨t.alloc h, some v⟩)
        = (t.setCell p (some ⟨s.alloc h, some v⟩)).heap := by
      rw [l.alloc]
      exact update_idem _ _ _
    refine Or.inl ⟨_, rfl, ?_, ?_, fun r hr => ?_⟩
    · rw [hheap]
      exact (l.add hnone v).counts (t.ops + 1) t.torn
    · dsimp only
      rw [hheap]
      exact t.heap_setCell_self _ _
    · dsimp only
      rw [hheap]
      exact t.heap_setCell_of_ne hr _

/-- **A node is made from another one.** -/
theorem createNodeFrom_meets (e : Env κ α) (move : Bool)
    (l : Ledger s h old src other owned t) (hq : q ∈ src)
    (hv : t.heap q = some ⟨o, some v⟩) :
    (createNodeFrom e h move q t).Meets
      (fun p t' => Ledger s h old src other (p :: owned) t' ∧ Cloned e move q p v t t')
      (Ledger s h old src other owned) := by
  unfold createNodeFrom
  rw [Prog.bind_of_done (getData_done hv)]
  rcases hnode : e.node t.used with - | p
  · refine Prog.bind_meets_of_throws ?_
    rw [allocateOne_threw hnode]
    exact l
  obtain ⟨p, hfree⟩ := p
  have hnone : t.heap p = none := free_of_node (q := ⟨p, hfree⟩)
  have hpq : p ≠ q := by
    rintro rfl
    rw [hv] at hnone
    cases hnone
  have halloc : allocateOne e h t = .done p (t.setCell p (some ⟨t.alloc h, none⟩)) :=
    allocateOne_done hnode
  rw [Prog.bind_of_done halloc]
  obtain ⟨t', hdone, l', hclone, hframe⟩ | ⟨t', hthrew, l', hraw, hframe⟩ :=
    construct_cases e v l hnone
  · have hv' : t'.heap q = some ⟨o, some v⟩ := by rw [hframe q hpq.symm, hv]
    have hrun : ((construct e p v).onThrow (do
        Tree.spend move q (e.torn v)
        deallocateOne h p)) (t.setCell p (some ⟨t.alloc h, none⟩)) = .done () t' := by
      rw [Prog.onThrow, hdone]
    rw [Prog.bind_of_done hrun, Prog.bind_of_done (spend_done move hv' (e.moved v))]
    exact ⟨l'.spend hq hv' move (e.moved v), cloned_of_frame hpq hv hclone hframe⟩
  · have hv' : t'.heap q = some ⟨o, some v⟩ := by rw [hframe q hpq.symm, hv]
    refine Prog.bind_meets_of_throws ?_
    rw [Prog.onThrow, hthrew]
    dsimp only
    rw [Prog.bind_of_done (spend_done move hv' (e.torn v))]
    have hv'' : (t'.setCell p none).heap q = some ⟨o, some v⟩ := by
      rw [t'.heap_setCell_of_ne hpq.symm, hv']
    have hspent := l'.spend hq hv'' move (e.torn v)
    cases move with
    | true =>
      have hraw' : (t'.setCell q (some ⟨o, some (e.torn v)⟩)).heap p
          = some ⟨t'.alloc h, none⟩ := by
        rw [t'.heap_setCell_of_ne hpq, hraw]
      rw [if_pos rfl] at hspent ⊢
      rw [deallocateOne_done hraw']
      rw [State.setCell_comm _ hpq] at hspent
      exact hspent
    | false =>
      rw [if_neg Bool.false_ne_true] at hspent ⊢
      rw [deallocateOne_done hraw]
      exact hspent

/-- **What a cloner owes**: a clone, for one of the nodes that were left to reuse
or a new one; nothing but the clones that there are, if it throws. -/
def Clones (e : Env κ α) (s : State α) (h : ℕ) (old src : List ℕ) (move : Bool)
    (cloner : ℕ → Prog (State α) ℕ) : Prop :=
  ∀ t other clones q o v, Ledger s h old src other (clones ++ other) t → q ∈ src →
    t.heap q = some ⟨o, some v⟩ →
    (cloner q t).Meets
      (fun p t' => ∃ other', Ledger s h old src other' (p :: clones ++ other') t' ∧
        Cloned e move q p v t t')
      (Ledger s h old src [] clones)

/-- **The recycling cloner reuses the nodes that are left**, makes new ones when
there are none, and destroys those that are left if it throws. -/
theorem recyclingCloner_clones (e : Env κ α) (s : State α) (h : ℕ) (old src : List ℕ)
    (move : Bool) : Clones e s h old src move (recyclingCloner e h move) := by
  intro t other clones q o v l hq hv
  unfold recyclingCloner
  rcases other with - | ⟨p, ps⟩
  · have hunlink : unlinkLeftmost t = .done none t := by rw [unlinkLeftmost, l.otherTree]
    rw [Prog.bind_of_done hunlink]
    rw [List.append_nil] at l
    refine (createNodeFrom_meets e move l hq hv).imp (fun p t' hl => ⟨[], ?_, hl.2⟩) fun _ => id
    rw [List.append_nil]
    exact hl.1
  · have hunlink : unlinkLeftmost t = .done (some p) { t with otherTree := ps } := by
      rw [unlinkLeftmost, l.otherTree]
    rw [Prog.bind_of_done hunlink]
    have l' := l.unlink.perm (List.perm_middle : (clones ++ p :: ps).Perm (p :: (clones ++ ps)))
    have hguard : Prog.Meets (fun r => r = { t with otherTree := ps })
        ((doAssignFrom e move p q).onThrow (do
          destroyNode h p
          destroyOtherTree h))
        (fun _ t' => Ledger s h old src ps (p :: (clones ++ ps)) t' ∧ Cloned e move q p v t t')
        (Ledger s h old src [] clones) := by
      refine Prog.Meets.onThrow (F := Ledger s h old src ps (p :: (clones ++ ps))) ?_ ?_
      · intro r hr
        rw [hr]
        exact (doAssignFrom_meets e move l' List.mem_cons_self hq hv).imp
          (fun _ _ hl => ⟨hl.1, hl.2.clone, hl.2.source, hl.2.frame⟩) fun _ => id
      · refine Prog.Meets.bind destroyNode_ledger fun _ => ?_
        exact destroyOtherTree_ledger.pre fun _ hl => hl.perm List.perm_append_comm
    exact Prog.bind_meets (hguard _ rfl) fun _ t' hl => ⟨ps, hl.1, hl.2⟩

/-- **The move cloner makes new nodes**, where there is none to reuse. -/
theorem moveCloner_clones (e : Env κ α) (s : State α) (h : ℕ) (src : List ℕ) :
    Clones e s h [] src true (moveCloner e h) := by
  intro t other clones q o v l hq hv
  have hother : other = [] := List.eq_nil_iff_forall_not_mem.mpr fun p hp => nomatch l.left p hp
  subst hother
  rw [List.append_nil] at l
  refine (createNodeFrom_meets e true l hq hv).imp (fun p t' hl => ⟨[], ?_, hl.2⟩) fun _ => id
  rw [List.append_nil]
  exact hl.1

end Clone

/-! ## A tree, cloned -/

section Loop

variable {e : Env κ α} {s t : State α} {h x : ℕ} {old src : List ℕ} {move : Bool}
  {cloner : ℕ → Prog (State α) ℕ}

/-- **The invariant of the loop of `clone_from`**: what is visited has a clone
with its value, and may have been moved from; what is not is as it was. -/
structure Cloning (e : Env κ α) (s : State α) (h : ℕ) (old src : List ℕ) (move : Bool)
    (todo visited : List ℕ) (cloneOf : ℕ → ℕ) (other : List ℕ) (t : State α) : Prop where
  ledger : Ledger s h old src other (visited.map cloneOf ++ other) t
  todo : ∀ q ∈ todo, t.valueAt q = s.valueAt q
  clone : ∀ q ∈ visited, t.valueAt (cloneOf q) = s.valueAt q
  source : ∀ q ∈ visited, t.valueAt q = (s.valueAt q).map (if move then e.moved else id)

/-- **A node was cloned**: it is visited. -/
theorem Cloning.visit {q p : ℕ} {qs visited other other' : List ℕ} {cloneOf : ℕ → ℕ}
    {t' : State α} {v : α} (c : Cloning e s h old src move (q :: qs) visited cloneOf other t)
    (hnodup : (visited ++ q :: qs).Nodup) (hsub : ∀ r ∈ visited ++ q :: qs, r ∈ src)
    (hv : s.valueAt q = some v)
    (l : Ledger s h old src other' (p :: visited.map cloneOf ++ other') t')
    (hc : Cloned e move q p v t t') :
    Cloning e s h old src move qs (q :: visited) (update cloneOf q p) other' t' := by
  obtain ⟨hvisited, hqs, hdisj⟩ := List.nodup_append.mp hnodup
  obtain ⟨hq, hqs⟩ := List.nodup_cons.mp hqs
  have hqvisited : ∀ r ∈ visited, r ≠ q := fun r hr => hdisj r hr q List.mem_cons_self
  have hclone : ∀ r ∈ visited, update cloneOf q p r = cloneOf r :=
    fun r hr => update_of_ne (hqvisited r hr) _ _
  have hmap : (q :: visited).map (update cloneOf q p) = p :: visited.map cloneOf := by
    rw [List.map_cons, update_self, List.map_congr_left hclone]
  have hpsrc : p ∉ src := l.apart p (List.mem_append_left _ List.mem_cons_self)
  have hqsrc : q ∈ src := hsub q (List.mem_append_right _ List.mem_cons_self)
  have hframe : ∀ r, r ≠ p → r ≠ q → t'.valueAt r = t.valueAt r := by
    intro r hrp hrq
    rw [State.valueAt, State.valueAt, hc.frame r hrp hrq]
  refine ⟨?_, fun r hr => ?_, fun r hr => ?_, fun r hr => ?_⟩
  · rw [hmap]
    exact l
  · have hrsrc := hsub r (List.mem_append_right _ (List.mem_cons_of_mem q hr))
    rw [hframe r (fun hrp => hpsrc (hrp ▸ hrsrc)) fun hrq => hq (hrq ▸ hr)]
    exact c.todo r (List.mem_cons_of_mem q hr)
  · rcases List.mem_cons.mp hr with rfl | hr
    · rw [update_self, hc.clone, hv]
    · have hmem : cloneOf r ∈ visited.map cloneOf := List.mem_map_of_mem hr
      have hrp : cloneOf r ≠ p := by
        have hnot := (List.nodup_cons.mp l.nodup).1
        exact fun hrp => hnot (List.mem_append_left _ (hrp ▸ hmem))
      have hrq : cloneOf r ≠ q := fun hrq =>
        l.apart (cloneOf r) (List.mem_append_left _ (List.mem_cons_of_mem p hmem)) (hrq ▸ hqsrc)
      rw [hclone r hr, hframe _ hrp hrq]
      exact c.clone r hr
  · rcases List.mem_cons.mp hr with rfl | hr
    · rw [hc.source, hv]
      cases move <;> rfl
    · have hrsrc := hsub r (List.mem_append_left _ hr)
      rw [hframe r (fun hrp => hpsrc (hrp ▸ hrsrc)) (hqvisited r hr)]
      exact c.source r hr

/-- **All nodes are cloned, or none is**: if the cloner throws, then nothing is
owned any more. -/
theorem cloneNodes_meets (hcloner : Clones e s h old src move cloner) (todo visited : List ℕ)
    (cloneOf : ℕ → ℕ) (hnodup : (visited ++ todo).Nodup) (hsub : ∀ r ∈ visited ++ todo, r ∈ src) :
    Prog.Meets (fun t => ∃ other, Cloning e s h old src move todo visited cloneOf other t)
      (cloneNodes h cloner todo visited cloneOf)
      (fun f t => ∃ other, Cloning e s h old src move [] (todo.reverse ++ visited) f other t)
      (Ledger s h old src [] []) := by
  induction todo generalizing visited cloneOf with
  | nil => exact Prog.meets_pure fun _ => id
  | cons q qs ih =>
    rintro t ⟨other, c⟩
    have hq : q ∈ src := hsub q (List.mem_append_right _ List.mem_cons_self)
    obtain ⟨o, v, w, hs, ht⟩ := c.ledger.source q hq
    have hv : s.valueAt q = some v := by
      rw [State.valueAt, hs]
      rfl
    have hw : w = v := by
      have htodo := c.todo q List.mem_cons_self
      rw [hv, State.valueAt, ht] at htodo
      exact Option.some.inj htodo
    rw [hw] at ht
    have hguard : Prog.Meets (fun r => r = t)
        ((cloner q).onThrow (destroyAll h (visited.map cloneOf)))
        (fun p t' => ∃ other',
          Ledger s h old src other' (p :: visited.map cloneOf ++ other') t' ∧
          Cloned e move q p v t t')
        (Ledger s h old src [] []) := by
      refine Prog.Meets.onThrow (F := Ledger s h old src [] (visited.map cloneOf)) ?_ ?_
      · intro r hr
        rw [hr]
        exact hcloner t other _ q o v c.ledger hq ht
      · refine (destroyAll_ledger (visited.map cloneOf)).pre fun r hl => ?_
        rw [List.append_nil]
        exact hl
    refine Prog.bind_meets (hguard t rfl) fun p t' hp => ?_
    obtain ⟨other', l, hc⟩ := hp
    have hperm : ((q :: visited) ++ qs).Perm (visited ++ q :: qs) := List.perm_middle.symm
    have hrun := ih (q :: visited) (update cloneOf q p) (hperm.nodup_iff.mpr hnodup)
      (fun r hr => hsub r (hperm.mem_iff.mp hr)) t'
      ⟨other', c.visit hnodup hsub hv l hc⟩
    rw [List.reverse_cons, List.append_assoc]
    exact hrun

/-- The clones become the nodes of the tree. -/
theorem Ledger.setIcont {old src other owned : List ℕ} (l : Ledger s h old src other owned t)
    (f : ℕ → List ℕ) :
    Ledger { s with icont := f } h old src other owned { t with icont := f } :=
  ⟨l.nodup, l.live, l.apart, l.own, l.source, l.rest, rfl, l.alloc, l.handle, l.otherTree, l.left⟩

/-- **A tree that was cloned**, and the nodes that were not reused. -/
structure ClonedFrom (e : Env κ α) (s : State α) (h x : ℕ) (move : Bool) (old other : List ℕ)
    (cloneOf : ℕ → ℕ) (t : State α) : Prop where
  icont : t.icont = update s.icont h ((s.icont x).map cloneOf)
  ledger : Ledger { s with icont := t.icont } h old (s.icont x) other
    (other ++ (s.icont x).map cloneOf) t
  clone : ∀ q ∈ s.icont x, t.valueAt (cloneOf q) = s.valueAt q
  source : ∀ q ∈ s.icont x, t.valueAt q = (s.valueAt q).map (if move then e.moved else id)

/-- **`clone_from` clones the source, or disposes what it cloned.** -/
theorem cloneFrom_meets {cloner : ℕ → Prog (State α) ℕ} {old other : List ℕ}
    (hcloner : Clones e s h old (s.icont x) move cloner)
    (l : Ledger s h old (s.icont x) other other s) (hnodup : (s.icont x).Nodup) :
    (cloneFrom e h cloner x s).Meets
      (fun _ t => ∃ cloneOf other', ClonedFrom e s h x move old other' cloneOf t)
      (Ledger s h old (s.icont x) [] []) := by
  have hperm := (e.visit (s.icont x)).2
  have hstart : Cloning e s h old (s.icont x) move (e.visit (s.icont x)).1 [] id other s :=
    ⟨l, fun _ _ => rfl, fun q hq => (nomatch hq), fun q hq => (nomatch hq)⟩
  have hrun := cloneNodes_meets hcloner (e.visit (s.icont x)).1 [] id
    (hperm.nodup_iff.mpr hnodup) (fun r hr => hperm.mem_iff.mp hr) s ⟨other, hstart⟩
  unfold cloneFrom
  rw [Prog.gets_bind]
  refine Prog.bind_meets hrun fun cloneOf t ⟨other', c⟩ => ⟨cloneOf, other', ?_⟩
  have hvisited : ((e.visit (s.icont x)).1.reverse ++ []).Perm (s.icont x) := by
    rw [List.append_nil]
    exact (List.reverse_perm _).trans hperm
  have hicont : update t.icont h ((s.icont x).map cloneOf)
      = update s.icont h ((s.icont x).map cloneOf) := by
    rw [c.ledger.icont]
  refine ⟨hicont, ?_, fun q hq => c.clone q (hvisited.mem_iff.mpr hq),
    fun q hq => c.source q (hvisited.mem_iff.mpr hq)⟩
  have howned := ((hvisited.map cloneOf).append_right other').trans List.perm_append_comm
  exact (c.ledger.perm howned).setIcont _

end Loop

end Tree
