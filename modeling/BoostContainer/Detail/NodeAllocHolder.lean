import BoostContainer.Lib.Links
import BoostContainer.Lib.Program

/-!
# Nodes that are allocated together

`node_alloc_holder::allocate_many_and_construct` takes the memory of all its
nodes at once, as a chain whose links are in the memory of the nodes. It
detaches the chain, and walks it while the nodes are built over the links. Two
guards watch the node that is being built, and what is left of the chain is
given back where an exception is caught.

The intrusive container and the intrusive list under a chain are not part of
the repository. Of the first, an inserter links the node somewhere among the
nodes that are there already, or throws and changes nothing; of the second,
the functions that are called are given here, pointer by pointer.
-/

open Function

namespace NodeAllocHolder

/-- **The memory of a node.** -/
inductive Cell (α : Type) where
  /-- Not a node yet; linked to the next member of a chain. -/
  | free (next : ℕ)
  /-- A header without a value. -/
  | raw
  /-- A node and its value. -/
  | live (v : α)

/-- **What outlives a call**: memory, the nodes of the container in their order,
and what was destroyed and given back so far. -/
structure State (α : Type) where
  heap : ℕ → Option (Cell α)
  /-- `m_icont` -/
  icont : List ℕ
  /-- The nodes whose value was destroyed. -/
  destroyed : List ℕ
  /-- The nodes that were given back to the allocator. -/
  deallocated : List ℕ

/-- **A call in progress**: the local variables that its cleanups read. -/
structure Frame (α : Type) extends State α where
  n : ℕ
  itbeg : ℕ
  /-- `m_ptr` of `node_deallocator` -/
  nodeDeallocator : ℕ
  /-- `pv_` of `sdestructor` -/
  sdestructor : ℕ

/-- What may throw for a node. -/
inductive Stage where
  | construct
  | insert
  deriving DecidableEq

/-- **What comes from outside**: which node meets an exception, and where the
inserter links a node. -/
structure Env (α : Type) where
  throws : Stage → ℕ → Bool
  place : State α → ℕ → ℕ

/-- **A chain** (`multiallocation_chain`): a list that keeps its last member and its
size. Without members the last one is the root, before the beginning. -/
structure Chain where
  first : ℕ
  /-- `none` is the root. -/
  last : Option ℕ
  size : ℕ

/-- The chain without members, which is what `clear` leaves. -/
def Chain.empty : Chain := ⟨0, none, 0⟩

section Memory

variable {α : Type}

/-- The links that memory holds. -/
def State.links (s : State α) (a : ℕ) : Option ℕ :=
  match s.heap a with
  | some (.free next) => some next
  | _ => none

/-- `++it`, of the iterator of a chain. -/
def readLink (p : ℕ) : Prog (Frame α) ℕ := fun s =>
  match s.links p with
  | some next => .done next s
  | none => .undefined

/-- A link, written over what is no node. -/
def writeLink (p next : ℕ) : Prog (Frame α) Unit := fun s =>
  match s.heap p with
  | some (.free _) | some .raw => .done () { s with heap := update s.heap p (some (.free next)) }
  | _ => .undefined

/-- A node that the allocator grants. -/
def allocate (p : ℕ) : Prog (Frame α) Unit :=
  Prog.modify fun s => { s with heap := update s.heap p (some .raw) }

/-- `deallocate(p, 1)` -/
def deallocate (p : ℕ) : Prog (Frame α) Unit := fun s =>
  match s.heap p with
  | some _ =>
    .done () { s with heap := update s.heap p none, deallocated := s.deallocated ++ [p] }
  | none => .undefined

/-- `Node(iterator_arg_t(), nalloc, beg)`: the header is made first, over the link. -/
def constructNode (e : Env α) (i p : ℕ) (v : α) : Prog (Frame α) Unit := fun s =>
  match s.heap p with
  | some (.free _) | some .raw =>
    if e.throws .construct i then .threw { s with heap := update s.heap p (some .raw) }
    else .done () { s with heap := update s.heap p (some (.live v)) }
  | _ => .undefined

/-- `destructor(alloc)`, of a node. -/
def destructor (p : ℕ) : Prog (Frame α) Unit := fun s =>
  match s.heap p with
  | some (.live _) =>
    .done () { s with heap := update s.heap p (some .raw), destroyed := s.destroyed ++ [p] }
  | _ => .undefined

/-- `inserter(*p)` -/
def inserter (e : Env α) (i p : ℕ) : Prog (Frame α) Unit := fun s =>
  match s.heap p with
  | some (.live _) =>
    if e.throws .insert i then .threw s
    else .done () { s with
      icont := s.icont.insertIdx (min (e.place s.toState p) s.icont.length) p }
  | _ => .undefined

end Memory

section Chains

variable {α : Type}

/-- `push_front` -/
def Chain.pushFront (p : ℕ) (c : Chain) : Prog (Frame α) Chain := do
  writeLink p c.first
  return ⟨p, some (c.last.getD p), c.size + 1⟩

/-- **`incorporate_after`**, of the members from `f` to `beforeL`, `n` of them. -/
def Chain.incorporateAfter (prev : Option ℕ) (f beforeL n : ℕ) (c : Chain) :
    Prog (Frame α) Chain := do
  if n = 0 then return c
  let last := if c.last = prev then some beforeL else c.last
  match prev with
  | none =>
    writeLink beforeL c.first
    return ⟨f, last, c.size + n⟩
  | some p =>
    writeLink beforeL (← readLink p)
    writeLink p f
    return ⟨c.first, last, c.size + n⟩

/-- The loop of `deallocate_individual`. -/
def deallocateLoop : ℕ → ℕ → Prog (Frame α) Unit
  | 0, _ => pure ()
  | n + 1, it => do
    let next ← readLink it
    deallocate it
    deallocateLoop n next

/-- **`deallocate_individual`** -/
def deallocateIndividual (c : Chain) : Prog (Frame α) Unit := deallocateLoop c.size c.first

/-- **`allocate_individual`**, with what the allocator answers: a node, or an
exception, after which the nodes so far are given back. -/
def allocateIndividual : List (Option ℕ) → Chain → Prog (Frame α) Chain
  | [], c => return c
  | none :: _, c => do
    deallocateIndividual c
    Prog.throw
  | some p :: answers, c => do
    allocate p
    allocateIndividual answers (← c.pushFront p)

end Chains

section Call

variable {α : Type}

/-- `sdestructor.set(p)`; a null pointer is `release`. -/
def setSdestructor (p : ℕ) : Prog (Frame α) Unit :=
  Prog.modify fun s => { s with sdestructor := p }

/-- `node_deallocator.set(p)`, likewise. -/
def setNodeDeallocator (p : ℕ) : Prog (Frame α) Unit :=
  Prog.modify fun s => { s with nodeDeallocator := p }

/-- One round of the loop, for the `i`-th value. -/
def buildOne (e : Env α) (i : ℕ) (v : α) : Prog (Frame α) Unit := do
  Prog.modify fun s => { s with n := s.n - 1 }
  let p ← Prog.gets fun s => s.itbeg
  -- Before the memory with the link becomes a node.
  let next ← readLink p
  Prog.modify fun s => { s with itbeg := next }
  constructNode e i p v
  setSdestructor p
  inserter e i p
  setSdestructor 0

/-- `while(n)`; there are as many values left. -/
def buildLoop (e : Env α) : ℕ → List α → Prog (Frame α) Unit
  | _, [] => pure ()
  | i, v :: vs => do
    buildOne e i v
    buildLoop e (i + 1) vs

/-- `~scoped_node_destructor` -/
def runSdestructor : Prog (Frame α) Unit := do
  let p ← Prog.gets fun s => s.sdestructor
  if p ≠ 0 then destructor p

/-- `~scoped_deallocator` -/
def runNodeDeallocator : Prog (Frame α) Unit := do
  let p ← Prog.gets fun s => s.nodeDeallocator
  if p ≠ 0 then deallocate p

/-- **The `try` block.** On a return both guards have been released. -/
def buildAll (e : Env α) (values : List α) : Prog (Frame α) Unit := do
  setNodeDeallocator 0
  let body : Prog (Frame α) Unit := do
    buildLoop e 0 values
    setSdestructor 0
    setNodeDeallocator 0
  (do
    setSdestructor 0
    body.onThrow runSdestructor : Prog (Frame α) Unit).onThrow runNodeDeallocator

/-- The `catch` block, before the exception goes on. -/
def giveBack (itlast : ℕ) : Prog (Frame α) Unit := do
  let itbeg ← Prog.gets fun s => s.itbeg
  let n ← Prog.gets fun s => s.n
  let chain ← Chain.empty.incorporateAfter Chain.empty.last itbeg itlast n
  deallocateIndividual chain

-- Irreducible, for a call on a concrete frame is reasoned about and not run.
/-- **`allocate_many_and_construct`**, of as many nodes as there are values. -/
@[irreducible] def allocateManyAndConstruct (e : Env α) (answers : List (Option ℕ)) (values : List α) :
    Prog (Frame α) Unit := do
  if values = [] then return
  let chain ← allocateIndividual answers Chain.empty
  Prog.modify fun s => { s with n := values.length, itbeg := chain.first }
  let itlast := chain.last.getD 0
  (buildAll e values).onThrow (giveBack itlast)

end Call

variable {α : Type} {e : Env α} {s t : Frame α} {s₀ : State α} {p i k n nx : ℕ} {v : α}
  {nodes ps qs rest d : List ℕ} {values : List α} {built : List (ℕ × α)} {stage : Stage}

/-! ## One operation -/

theorem links_eq_some {s : State α} : s.links p = some nx ↔ s.heap p = some (.free nx) := by
  rw [State.links]
  split
  · next h => rw [h, Option.some.injEq, Option.some.injEq, Cell.free.injEq]
  · next h => exact ⟨fun h' => (Option.some_ne_none _ h'.symm).elim, fun h' => absurd h' (h nx)⟩

/-- The links are read where memory is the same. -/
theorem links_congr {s s' : State α} {a : ℕ} (h : s'.heap a = s.heap a) :
    s'.links a = s.links a := by
  rw [State.links, State.links, h]

theorem readLink_run (h : s.links p = some nx) : readLink p s = .done nx s := by
  rw [readLink, h]

theorem deallocate_run {c : Cell α} (h : s.heap p = some c) :
    deallocate p s
      = .done () { s with heap := update s.heap p none, deallocated := s.deallocated ++ [p] } := by
  rw [deallocate, h]

/-- **One round**: what it leaves, in each of the three ways it ends. -/
theorem buildOne_run (hp : s.heap s.itbeg = some (.free nx)) :
    buildOne e i v s
      = if e.throws .construct i then
          .threw { s with n := s.n - 1, itbeg := nx, heap := update s.heap s.itbeg (some .raw) }
        else if e.throws .insert i then
          .threw { s with n := s.n - 1, itbeg := nx, heap := update s.heap s.itbeg (some (.live v)),
                          sdestructor := s.itbeg }
        else .done () { s with
          n := s.n - 1, itbeg := nx, heap := update s.heap s.itbeg (some (.live v)),
          sdestructor := 0,
          icont := s.icont.insertIdx (min (e.place ⟨update s.heap s.itbeg (some (.live v)), s.icont,
              s.destroyed, s.deallocated⟩ s.itbeg) s.icont.length) s.itbeg } := by
  have hl : ({ s with n := s.n - 1 } : Frame α).links s.itbeg = some nx := links_eq_some.mpr hp
  have hread := readLink_run hl
  cases hc : e.throws .construct i <;> cases hi : e.throws .insert i <;>
    simp [buildOne, bind, Prog.bind, Prog.modify, Prog.gets, hread, constructNode, hp, hc, hi,
      setSdestructor, inserter]

/-! ## Chains -/

/-- **All members of a chain are given back**, once each. -/
theorem deallocateLoop_run {a : ℕ} (h : Linked s.links a ps) (hnodup : ps.Nodup) :
    deallocateLoop ps.length a s
      = .done () { s with heap := fun b => if b ∈ ps then none else s.heap b,
                          deallocated := s.deallocated ++ ps } := by
  induction ps generalizing a s with
  | nil =>
    simp only [List.not_mem_nil, if_false, List.append_nil]
    rfl
  | cons p ps ih =>
    obtain ⟨rfl, b, hb, hps⟩ := h
    obtain ⟨hnotin, hps'⟩ := List.nodup_cons.mp hnodup
    have hlinked : Linked (State.links { s.toState with
        heap := update s.heap a none, deallocated := s.deallocated ++ [a] }) b ps :=
      hps.congr fun q hq => links_congr (update_of_ne (ne_of_mem_of_not_mem hq hnotin) _ _)
    show deallocateLoop (ps.length + 1) a s = _
    rw [deallocateLoop, Prog.bind_of_done (readLink_run hb),
      Prog.bind_of_done (deallocate_run (links_eq_some.mp hb)), ih hlinked hps']
    congr 1
    rw [List.append_assoc, List.singleton_append]
    congr 2
    funext c
    by_cases hc : c = a
    · rw [hc, if_pos List.mem_cons_self, if_neg hnotin]
      exact update_self _ _ _
    · simp only [List.mem_cons, hc, false_or]
      exact congrArg _ (update_of_ne hc _ _)

/-- **A chain and its members.** -/
structure Chain.Holds (c : Chain) (s : State α) (ps : List ℕ) : Prop where
  linked : Linked s.links c.first ps
  last_eq : c.last = ps.getLast?
  size_eq : c.size = ps.length

theorem Chain.holds_empty (s : State α) : Chain.empty.Holds s [] := ⟨rfl, rfl, rfl⟩

/-- Nodes that the allocator may grant. -/
structure Fresh (s : State α) (nodes : List ℕ) : Prop where
  nodup : nodes.Nodup
  ne_zero : ∀ p ∈ nodes, p ≠ 0
  vacant : ∀ p ∈ nodes, s.heap p = none

theorem Chain.pushFront_run {c : Chain} (h : s.heap p = some .raw) :
    c.pushFront p s
      = .done ⟨p, some (c.last.getD p), c.size + 1⟩
          { s with heap := update s.heap p (some (.free c.first)) } := by
  simp [bind, Prog.bind, Chain.pushFront, writeLink, pure, h]

/-- What granting a node, and putting it into the chain, leaves. -/
theorem grant_run {β : Type} {c : Chain} (k : Chain → Prog (Frame α) β) :
    (allocate p >>= fun _ => c.pushFront p >>= k) s
      = k ⟨p, some (c.last.getD p), c.size + 1⟩
          { s with heap := update s.heap p (some (.free c.first)) } := by
  have halloc : allocate p s = .done () { s with heap := update s.heap p (some .raw) } := rfl
  rw [Prog.bind_of_done halloc, Prog.bind_of_done (Chain.pushFront_run (update_self _ _ _)),
    update_idem]

theorem Chain.Holds.pushFront {c : Chain} (h : c.Holds s.toState qs) (hp : p ∉ qs) :
    (⟨p, some (c.last.getD p), c.size + 1⟩ : Chain).Holds
      { s.toState with heap := update s.heap p (some (.free c.first)) } (p :: qs) := by
  refine ⟨(h.linked.congr fun q hq => links_congr ?_).cons ?_, ?_, ?_⟩
  · exact update_of_ne (ne_of_mem_of_not_mem hq hp) _ _
  · exact links_eq_some.mpr (update_self _ _ _)
  · show some (c.last.getD p) = _
    rw [h.last_eq, List.getLast?_cons]
  · show c.size + 1 = _
    rw [h.size_eq, List.length_cons]

/-- **A chain of all that was asked for.** -/
theorem allocateIndividual_granted {c : Chain} (hc : c.Holds s.toState qs) (hps : ps.Nodup)
    (hdisj : ∀ p ∈ ps, p ∉ qs) :
    (allocateIndividual (ps.map some) c s).Meets
      (fun c' t => c'.Holds t.toState (ps.reverse ++ qs)
        ∧ ∃ h, t = { s with heap := h } ∧ ∀ a, a ∉ ps → h a = s.heap a) (fun _ => False) := by
  induction ps generalizing c s qs with
  | nil => exact ⟨hc, s.heap, rfl, fun a _ => rfl⟩
  | cons p ps ih =>
    obtain ⟨hnotin, hps'⟩ := List.nodup_cons.mp hps
    have hpush := hc.pushFront (hdisj p List.mem_cons_self)
    rw [List.map_cons, allocateIndividual, grant_run]
    refine (ih (s := { s with heap := update s.heap p (some (.free c.first)) }) hpush hps'
      (fun q hq => ?_)).imp (fun c' t ht => ?_) (fun _ => id)
    · rw [List.mem_cons]
      exact not_or_intro (ne_of_mem_of_not_mem hq hnotin) (hdisj q (List.mem_cons_of_mem p hq))
    · obtain ⟨hholds, h, rfl, hkept⟩ := ht
      refine ⟨?_, h, rfl, fun a ha => ?_⟩
      · rwa [List.reverse_cons, List.append_assoc, List.singleton_append]
      · rw [List.mem_cons, not_or] at ha
        exact (hkept a ha.2).trans (update_of_ne ha.1 _ _)

/-- **A refusal gives all back** that was granted before it. -/
theorem allocateIndividual_refused {c : Chain} {answers : List (Option ℕ)}
    (hc : c.Holds s.toState qs) (hps : (ps.reverse ++ qs).Nodup) :
    (allocateIndividual (ps.map some ++ none :: answers) c s).Meets (fun _ _ => False)
      (fun t => t.icont = s.icont ∧ t.destroyed = s.destroyed
        ∧ t.deallocated = s.deallocated ++ (ps.reverse ++ qs)
        ∧ ∀ a, t.heap a = if a ∈ ps ∨ a ∈ qs then none else s.heap a) := by
  induction ps generalizing c s qs with
  | nil =>
    have hrun := deallocateLoop_run hc.linked hps
    rw [← hc.size_eq] at hrun
    show ((deallocateLoop c.size c.first >>= fun _ => Prog.throw) s).Meets _ _
    rw [Prog.bind_of_done hrun]
    refine ⟨rfl, rfl, rfl, fun a => ?_⟩
    simp only [List.not_mem_nil, false_or]
  | cons p ps ih =>
    rw [List.reverse_cons, List.append_assoc, List.singleton_append] at hps ⊢
    have hp : p ∉ qs := (List.nodup_cons.mp (List.nodup_append.mp hps).2.1).1
    rw [List.map_cons, List.cons_append, allocateIndividual, grant_run]
    refine (ih (s := { s with heap := update s.heap p (some (.free c.first)) })
      (hc.pushFront hp) hps).imp (fun _ _ => id) (fun t ht => ?_)
    obtain ⟨h₁, h₂, h₃, hheap⟩ := ht
    refine ⟨h₁, h₂, h₃, fun a => ?_⟩
    rw [hheap]
    by_cases ha : a = p
    · rw [if_pos (Or.inr (List.mem_cons.mpr (Or.inl ha))),
        if_pos (Or.inl (List.mem_cons.mpr (Or.inl ha)))]
    · simp only [List.mem_cons, ha, false_or]
      exact congrArg _ (update_of_ne ha _ _)

/-! ## Building nodes -/

/-- **Where a call is**: the nodes that were built so far are in the container with
their values, the rest of the chain can be walked, and nothing else changed. -/
structure Building (s₀ : State α) (nodes : List ℕ) (built : List (ℕ × α)) (rest : List ℕ)
    (s : Frame α) : Prop where
  inserted : s.icont.Perm (built.map Prod.fst ++ s₀.icont)
  order : s₀.icont.Sublist s.icont
  live : ∀ q ∈ built, s.heap q.1 = some (.live q.2)
  kept : ∀ a, a ∉ nodes → s.heap a = s₀.heap a
  linked : Linked s.links s.itbeg rest
  left : s.n = rest.length
  deallocated : s.deallocated = s₀.deallocated
  released : s.nodeDeallocator = 0

/-- What is between two rounds. -/
structure Between (s₀ : State α) (nodes : List ℕ) (built : List (ℕ × α)) (rest : List ℕ)
    (s : Frame α) : Prop extends Building s₀ nodes built rest s where
  destroyed : s.destroyed = s₀.destroyed
  done : s.sdestructor = 0
  nodup : (built.map Prod.fst ++ rest).Nodup
  mem : ∀ q ∈ rest, q ∈ nodes

/-- What an exception finds of the node that is being built. -/
def Guarded (p : ℕ) (s : Frame α) : Stage → Prop
  | .construct => s.heap p = some .raw ∧ s.sdestructor = 0
  | .insert => (∃ v, s.heap p = some (.live v)) ∧ s.sdestructor = p

/-- **The exception** that ends a call: the `k`-th node is the first that meets one. -/
structure Env.FirstThrow (e : Env α) (stage : Stage) (k : ℕ) : Prop where
  throws : e.throws stage k = true
  before : ∀ j < k, ∀ t, e.throws t j = false
  constructs : stage = .insert → e.throws .construct k = false

theorem Between.ne {q : ℕ} (h : Between s₀ nodes built (p :: rest) s)
    (hq : q ∈ built.map Prod.fst ∨ q ∈ rest) : q ≠ p := by
  rintro rfl
  obtain ⟨_, hr, hdisj⟩ := List.nodup_append.mp h.nodup
  rcases hq with hq | hq
  · exact hdisj q hq q List.mem_cons_self rfl
  · exact (List.nodup_cons.mp hr).1 hq

/-- Memory that changed at the node that is being built. -/
theorem Between.building {c : Option (Cell α)} (h : Between s₀ nodes built (p :: rest) s)
    (hheap : t.heap = update s.heap p c) (hicont : t.icont = s.icont) (hn : t.n = s.n - 1)
    (hit : s.links p = some t.itbeg) (hdealloc : t.deallocated = s.deallocated)
    (hptr : t.nodeDeallocator = s.nodeDeallocator) : Building s₀ nodes built rest t := by
  have hne : ∀ {a : ℕ}, a ≠ p → t.heap a = s.heap a := fun ha => by rw [hheap, update_of_ne ha]
  obtain ⟨hp, b, hb, hrest⟩ := h.linked
  rw [hit, Option.some.injEq] at hb
  refine ⟨hicont ▸ h.inserted, hicont ▸ h.order, fun q hq => ?_, fun a ha => ?_, ?_, ?_,
    hdealloc.trans h.deallocated, hptr.trans h.released⟩
  · rw [hne (h.ne (Or.inl (List.mem_map_of_mem hq)))]
    exact h.live q hq
  · rw [hne (ne_of_mem_of_not_mem (h.mem p List.mem_cons_self) ha).symm]
    exact h.kept a ha
  · rw [hb]
    exact hrest.congr fun q hq => links_congr (hne (h.ne (Or.inr hq)))
  · rw [hn, h.left, List.length_cons, Nat.add_sub_cancel]

/-- **The step lemma**: a round without an exception builds one node. -/
theorem buildOne_done (h : Between s₀ nodes built (p :: rest) s)
    (hc : ∀ st, e.throws st i = false) :
    (buildOne e i v s).Meets (fun _ t => Between s₀ nodes (built ++ [(p, v)]) rest t)
      (fun _ => False) := by
  obtain ⟨hp, nx, hnx, -⟩ := h.linked
  have hread : s.heap s.itbeg = some (.free nx) := hp ▸ links_eq_some.mp hnx
  rw [buildOne_run hread, hc, hc, if_neg Bool.false_ne_true, if_neg Bool.false_ne_true, hp]
  have hb : Building s₀ nodes built rest { s with
      n := s.n - 1, itbeg := nx, heap := update s.heap p (some (.live v)), sdestructor := 0 } :=
    h.building rfl rfl rfl hnx rfl rfl
  refine ⟨⟨?_, h.order.trans (List.sublist_insertIdx _ _ _), fun q hq => ?_, hb.kept, hb.linked,
    hb.left, hb.deallocated, hb.released⟩, h.destroyed, rfl, ?_, fun q hq =>
    h.mem q (List.mem_cons_of_mem p hq)⟩
  · refine (List.perm_insertIdx p _ (min_le_right _ _)).trans ?_
    rw [List.map_append, List.append_assoc]
    exact ((h.inserted.cons p).trans List.perm_middle.symm)
  · rcases List.mem_append.mp hq with hq | hq
    · exact hb.live q hq
    · rw [List.mem_singleton.mp hq]
      exact update_self _ _ _
  · rw [List.map_append, List.append_assoc]
    exact h.nodup

/-- **The round that ends with an exception.** -/
theorem buildOne_threw (h : Between s₀ nodes built (p :: rest) s) (hf : e.FirstThrow stage i) :
    (buildOne e i v s).Meets (fun _ _ => False)
      (fun t => Building s₀ nodes built rest t ∧ t.destroyed = s₀.destroyed
        ∧ Guarded p t stage) := by
  obtain ⟨hp, nx, hnx, -⟩ := h.linked
  have hread : s.heap s.itbeg = some (.free nx) := hp ▸ links_eq_some.mp hnx
  have hthrows := hf.throws
  rw [buildOne_run hread, hp]
  cases stage with
  | construct =>
    rw [if_pos hthrows]
    exact ⟨h.building rfl rfl rfl hnx rfl rfl, h.destroyed, update_self _ _ _, h.done⟩
  | insert =>
    rw [if_neg (Bool.not_eq_true _ ▸ hf.constructs rfl), if_pos hthrows]
    exact ⟨h.building rfl rfl rfl hnx rfl rfl, h.destroyed, ⟨v, update_self _ _ _⟩, rfl⟩

/-- **The run lemma**: the loop throws in the `k`-th round, after the rounds before it
have built their nodes. -/
theorem buildLoop_threw (hf : e.FirstThrow stage k) (h : Between s₀ nodes built rest s)
    (hlen : values.length = rest.length) (hi : i ≤ k) (hk : k < i + rest.length) :
    (buildLoop e i values s).Meets (fun _ _ => False)
      (fun t => ∃ p, rest[k - i]? = some p
        ∧ Building s₀ nodes (built ++ (rest.zip values).take (k - i)) (rest.drop (k - i + 1)) t
        ∧ t.destroyed = s₀.destroyed ∧ Guarded p t stage) := by
  induction values generalizing i built rest s with
  | nil =>
    rw [← hlen] at hk
    exact absurd hk (Nat.not_lt.mpr hi)
  | cons v vs ih =>
    cases rest with
    | nil => exact absurd hlen (Nat.succ_ne_zero _)
    | cons p rest =>
      rw [buildLoop]
      rcases Nat.eq_or_lt_of_le hi with rfl | hlt
      · refine (Prog.bind_meets_of_throws (buildOne_threw h hf)).imp (fun _ _ => id)
          (fun t ht => ⟨p, ?_, ?_, ht.2⟩)
        · rw [Nat.sub_self]
          rfl
        · rw [Nat.sub_self, List.take_zero, List.append_nil]
          exact ht.1
      · have hdone := buildOne_done (v := v) h (fun st => hf.before i hlt st)
        have hki : k - i = k - (i + 1) + 1 := by omega
        rw [hki, List.getElem?_cons_succ, List.zip_cons_cons, List.take_succ_cons,
          List.drop_succ_cons]
        have hall := @Prog.Meets.bind _ _ _ (fun s' => s' = s) (buildOne e i v)
          (fun t => ∃ q, rest[k - (i + 1)]? = some q
            ∧ Building s₀ nodes (built ++ (p, v) :: (rest.zip vs).take (k - (i + 1)))
              (rest.drop (k - (i + 1) + 1)) t
            ∧ t.destroyed = s₀.destroyed ∧ Guarded q t stage)
          (fun _ t => Between s₀ nodes (built ++ [(p, v)]) rest t)
          (fun _ => buildLoop e (i + 1) vs) (fun _ _ => False) ?_ ?_
        · exact hall s rfl
        · rintro _ rfl
          exact hdone.imp (fun _ _ => id) (fun _ => False.elim)
        · intro _ t ht
          have hrec := ih ht (Nat.succ.inj hlen) hlt
            (by rw [List.length_cons] at hk; omega)
          rw [List.append_assoc, List.singleton_append] at hrec
          exact hrec

/-! ## What an exception leaves -/

/-- `sdestructor` destroys the value of the node, where it has one. -/
theorem runSdestructor_meets (h : Building s₀ nodes built rest t) (hp : p ≠ 0) (hmem : p ∈ nodes)
    (hbuilt : p ∉ built.map Prod.fst) (hrest : p ∉ rest) (hd : t.destroyed = s₀.destroyed)
    (hg : Guarded p t stage) :
    (runSdestructor t).Meets
      (fun _ u => Building s₀ nodes built rest u ∧ u.heap p = some .raw
        ∧ u.destroyed = s₀.destroyed ++ if stage = .insert then [p] else []) (fun _ => False) := by
  cases stage with
  | construct =>
    have hrun : runSdestructor t = .done () t := by
      simp [runSdestructor, bind, Prog.bind, Prog.gets, hg.2, pure]
    rw [hrun]
    exact ⟨h, hg.1, hd.trans (List.append_nil _).symm⟩
  | insert =>
    obtain ⟨⟨v, hv⟩, hptr⟩ := hg
    have hrun : runSdestructor t = .done () { t with
        heap := update t.heap p (some .raw), destroyed := t.destroyed ++ [p] } := by
      simp [runSdestructor, bind, Prog.bind, Prog.gets, hptr, hp, destructor, hv]
    rw [hrun]
    refine ⟨⟨h.inserted, h.order, fun q hq => ?_, fun a ha => ?_, ?_, h.left, h.deallocated,
      h.released⟩, update_self _ _ _, by rw [← hd]; rfl⟩
    · refine (update_of_ne ?_ _ _).trans (h.live q hq)
      rintro rfl
      exact hbuilt (List.mem_map_of_mem hq)
    · exact (update_of_ne (ne_of_mem_of_not_mem hmem ha).symm _ _).trans (h.kept a ha)
    · exact h.linked.congr fun q hq =>
        links_congr (update_of_ne (ne_of_mem_of_not_mem hq hrest) _ _)

/-- `node_deallocator` was never told of a node. -/
theorem runNodeDeallocator_run (h : t.nodeDeallocator = 0) : runNodeDeallocator t = .done () t := by
  simp [runNodeDeallocator, bind, Prog.bind, Prog.gets, h, pure]

/-- **The `catch` block gives back what is left of the chain**, and nothing else. -/
theorem giveBack_run {itlast : ℕ} (h : Linked t.links t.itbeg rest) (hn : t.n = rest.length)
    (hlast : rest ≠ [] → rest.getLast? = some itlast) (hnodup : rest.Nodup) :
    giveBack itlast t
      = .done () { t with heap := fun a => if a ∈ rest then none else t.heap a,
                          deallocated := t.deallocated ++ rest } := by
  rcases List.eq_nil_or_concat rest with rfl | ⟨ps, p, rfl⟩
  · have hrun : giveBack itlast t = .done () t := by
      simp [giveBack, bind, Prog.bind, Prog.gets, Chain.incorporateAfter, hn, pure,
        deallocateIndividual, deallocateLoop, Chain.empty]
    rw [hrun]
    simp only [List.not_mem_nil, if_false, List.append_nil]
  · rw [List.concat_eq_append] at *
    have hp : t.heap p = some (.free 0) := links_eq_some.mp h.next_last
    have hitlast : p = itlast := by
      have heq := hlast (List.append_ne_nil_of_right_ne_nil _ (List.cons_ne_nil _ _))
      rw [List.getLast?_append, List.getLast?_singleton] at heq
      exact Option.some.inj heq
    have hsame : ({ t with heap := update t.heap p (some (.free 0)) } : Frame α) = t := by
      rw [← hp, update_eq_self]
    have hne : t.n ≠ 0 := by
      rw [hn, List.length_append, List.length_singleton]
      exact Nat.succ_ne_zero _
    have hinc : Chain.empty.incorporateAfter Chain.empty.last t.itbeg itlast t.n t
        = .done ⟨t.itbeg, some itlast, t.n⟩ t := by
      subst hitlast
      simp [Chain.incorporateAfter, bind, Prog.bind, Chain.empty, writeLink, hp, hne, pure, hsame]
    have hrun : giveBack itlast t = deallocateLoop t.n t.itbeg t :=
      (Prog.bind_of_done hinc :)
    have hloop := deallocateLoop_run h hnodup
    rw [← hn] at hloop
    exact hrun.trans hloop

/-- The members of a list around the `k`-th. -/
theorem split_at (h : nodes[k]? = some p) : nodes = nodes.take k ++ p :: nodes.drop (k + 1) := by
  obtain ⟨hk, rfl⟩ := List.getElem?_eq_some_iff.mp h
  rw [← List.drop_eq_getElem_cons hk, List.take_append_drop]

/-- What the guards leave, where the `k`-th node met an exception. -/
def Failed (s₀ : State α) (nodes : List ℕ) (values : List α) (k : ℕ) (stage : Stage)
    (t : Frame α) : Prop :=
  ∃ p, nodes[k]? = some p ∧ Building s₀ nodes ((nodes.zip values).take k) (nodes.drop (k + 1)) t
    ∧ t.heap p = some .raw ∧ t.destroyed = s₀.destroyed ++ if stage = .insert then [p] else []

/-- **The `try` block**, where the `k`-th node meets an exception. -/
theorem buildAll_threw (hf : e.FirstThrow stage k) (hne : ∀ q ∈ nodes, q ≠ 0)
    (h : Between s₀ nodes [] nodes { s with nodeDeallocator := 0, sdestructor := 0 })
    (hlen : values.length = nodes.length) (hk : k < nodes.length) :
    (buildAll e values s).Meets (fun _ _ => False) (Failed s₀ nodes values k stage) := by
  have hfst : ((nodes.zip values).take k).map Prod.fst = nodes.take k := by
    rw [List.map_take, List.map_fst_zip hlen.ge]
  have hloop := buildLoop_threw hf h hlen (Nat.zero_le k) (by rwa [Nat.zero_add])
  rw [List.nil_append, Nat.sub_zero] at hloop
  have hguard := @Prog.Meets.onThrow _ _
    (fun u => u = { s with nodeDeallocator := 0, sdestructor := 0 })
    (buildLoop e 0 values >>= fun _ => setSdestructor 0 >>= fun _ => setNodeDeallocator 0)
    (fun _ _ => False) (Failed s₀ nodes values k stage) _ runSdestructor
    (by rintro _ rfl; exact Prog.bind_meets_of_throws hloop) ?_
  · refine @Prog.Meets.onThrow _ _ (fun u => u = { s with nodeDeallocator := 0 }) _ _ _
      (Failed s₀ nodes values k stage) runNodeDeallocator ?_ ?_ _ rfl
    · rintro _ rfl
      exact hguard _ rfl
    · rintro t ⟨p, hp, hb, hrest⟩
      rw [runNodeDeallocator_run hb.released]
      exact ⟨p, hp, hb, hrest⟩
  · rintro t ⟨p, hp, hb, hd, hg⟩
    have hmem : p ∈ nodes := List.mem_of_getElem? hp
    have hnodup : nodes.Nodup := h.nodup
    rw [split_at hp] at hnodup
    obtain ⟨-, hrest, hdisj⟩ := List.nodup_append.mp hnodup
    refine (runSdestructor_meets hb (hne p hmem) hmem ?_ (List.nodup_cons.mp hrest).1 hd hg).imp
      (fun _ u hu => ⟨p, hp, hu⟩) (fun _ => id)
    rw [hfst]
    exact fun hin => hdisj p hin p List.mem_cons_self rfl

/-- **What a failed call should undo**, as far as the container and the values go: the
nodes before the failing one stay, and its value is destroyed once if it has one. -/
structure Undone (s : State α) (nodes : List ℕ) (values : List α) (k : ℕ) (stage : Stage)
    (s' : State α) : Prop where
  inserted : s'.icont.Perm (nodes.take k ++ s.icont)
  order : s.icont.Sublist s'.icont
  live : ∀ q ∈ (nodes.zip values).take k, s'.heap q.1 = some (.live q.2)
  kept : ∀ a, a ∉ nodes → s'.heap a = s.heap a
  destroyed : s'.destroyed
    = s.destroyed ++ if stage = .insert then (nodes[k]?).toList else []

/-- **Everything is released**: the failing node, and all after it, are given back
exactly once. -/
structure Released (s : State α) (nodes : List ℕ) (values : List α) (k : ℕ) (stage : Stage)
    (s' : State α) : Prop extends Undone s nodes values k stage s' where
  deallocated : s'.deallocated.Perm (s.deallocated ++ nodes.drop k)

/-- **The failing node is lost**: its memory is held by nobody, and those after it are
given back. -/
structure Leaked (s : State α) (nodes : List ℕ) (values : List α) (k : ℕ) (stage : Stage)
    (s' : State α) : Prop extends Undone s nodes values k stage s' where
  deallocated : s'.deallocated = s.deallocated ++ nodes.drop (k + 1)
  lost : ∃ p, nodes[k]? = some p ∧ s'.heap p = some .raw

theorem Leaked.not_released {s' : State α} (h : Leaked s₀ nodes values k stage s')
    (hk : k < nodes.length) : ¬ Released s₀ nodes values k stage s' := by
  intro hr
  have hlen := hr.deallocated.length_eq
  rw [h.deallocated, List.length_append, List.length_append, List.length_drop, List.length_drop]
    at hlen
  omega

/-- **A call that throws** for its `k`-th node. -/
theorem allocateManyAndConstruct_threw (hnodes : Fresh s.toState nodes)
    (hlen : values.length = nodes.length) (hk : k < nodes.length) (hf : e.FirstThrow stage k) :
    (allocateManyAndConstruct e (nodes.reverse.map some) values s).Meets (fun _ _ => False)
      (fun t => Leaked s.toState nodes values k stage t.toState) := by
  have hvalues : values ≠ [] := by
    rintro rfl
    exact absurd hk (by rw [← hlen]; exact Nat.not_lt_zero k)
  have halloc := allocateIndividual_granted (Chain.holds_empty s.toState)
    (List.nodup_reverse.mpr hnodes.nodup) (fun p _ => List.not_mem_nil)
  rw [List.reverse_reverse, List.append_nil] at halloc
  rw [allocateManyAndConstruct, if_neg hvalues]
  refine @Prog.Meets.bind _ _ _ (fun u => u = s) _ _
    (fun c t => c.Holds t.toState nodes
      ∧ ∃ h, t = { s with heap := h } ∧ ∀ a, a ∉ nodes.reverse → h a = s.heap a) _ _
    (fun u hu => ?_) (fun c => ?_) s rfl
  · rw [hu]
    exact halloc.imp (fun _ _ => id) (fun _ => False.elim)
  rintro t ⟨hholds, m, rfl, hkept⟩
  have hbetween : Between s.toState nodes [] nodes { s with
      heap := m, n := values.length, itbeg := c.first, nodeDeallocator := 0, sdestructor := 0 } :=
    ⟨⟨List.Perm.refl _, List.Sublist.refl _, fun _ hq => absurd hq List.not_mem_nil,
      fun a ha => hkept a (fun h => ha (List.mem_reverse.mp h)), hholds.linked, hlen, rfl, rfl⟩,
      rfl, rfl, hnodes.nodup, fun _ hq => hq⟩
  refine @Prog.Meets.onThrow _ _ (fun u => u = { s with
      heap := m, n := values.length, itbeg := c.first }) _ _ _
    (Failed s.toState nodes values k stage) (giveBack (c.last.getD 0)) ?_ ?_ _ rfl
  · rintro _ rfl
    exact buildAll_threw hf hnodes.ne_zero hbetween hlen hk
  · rintro u ⟨p, hp, hb, hraw, hd⟩
    have hsplit := split_at hp
    have hnodup := hnodes.nodup
    rw [hsplit] at hnodup
    obtain ⟨-, hrest, hdisj⟩ := List.nodup_append.mp hnodup
    have hback := @giveBack_run _ u (nodes.drop (k + 1)) (c.last.getD 0) hb.linked hb.left ?_
      (List.nodup_cons.mp hrest).2
    · rw [hback]
      refine ⟨⟨?_, hb.order, fun q hq => ?_, fun a ha => ?_, ?_⟩, ?_, p, hp, ?_⟩
      · have hfst := hb.inserted
        rwa [List.map_take, List.map_fst_zip hlen.ge] at hfst
      · refine (if_neg (fun hin => ?_)).trans (hb.live q hq)
        have hqk : q.1 ∈ nodes.take k := by
          rw [← List.map_fst_zip hlen.ge, ← List.map_take]
          exact List.mem_map_of_mem hq
        exact hdisj q.1 hqk q.1 (List.mem_cons_of_mem p hin) rfl
      · exact (if_neg (fun hin => ha (List.mem_of_mem_drop hin))).trans (hb.kept a ha)
      · show u.destroyed = _
        rw [hd, hp]
        rfl
      · show u.deallocated ++ _ = _
        rw [hb.deallocated]
      · exact (if_neg (List.nodup_cons.mp hrest).1).trans hraw
    · intro hne
      have hlt : ¬ nodes.length ≤ k + 1 := fun h => hne (List.drop_eq_nil_iff.mpr h)
      have hlast : (nodes.drop (k + 1)).getLast? = nodes.getLast? := by
        rw [List.getLast?_drop, if_neg hlt]
      rw [hholds.last_eq, ← hlast, List.getLast?_eq_some_getLast hne]
      rfl

/-- **No call that throws releases everything**: whichever node meets the exception, and
whether its value or the inserter threw it, the memory of that node is lost. -/
theorem allocateManyAndConstruct_never_released (hnodes : Fresh s.toState nodes)
    (hlen : values.length = nodes.length) (hk : k < nodes.length) (hf : e.FirstThrow stage k) :
    (allocateManyAndConstruct e (nodes.reverse.map some) values s).Meets (fun _ _ => False)
      (fun t => Leaked s.toState nodes values k stage t.toState
        ∧ ¬ Released s.toState nodes values k stage t.toState) :=
  (allocateManyAndConstruct_threw hnodes hlen hk hf).imp (fun _ _ => id)
    (fun _ ht => ⟨ht, ht.not_released hk⟩)

/-- A call on an empty container and empty memory. -/
def emptyFrame : Frame ℕ := ⟨⟨fun _ => none, [], [], []⟩, 0, 0, 0, 0⟩

/-- One exception, and an inserter that links at the end. -/
def throwingAt (stage : Stage) (k : ℕ) : Env ℕ :=
  ⟨fun t j => decide (t = stage ∧ j = k), fun s _ => s.icont.length⟩

theorem firstThrow_throwingAt : (throwingAt stage k).FirstThrow stage k := by
  refine ⟨decide_eq_true ⟨rfl, rfl⟩, fun j hj t => decide_eq_false ?_, ?_⟩
  · exact fun h : t = stage ∧ j = k => absurd h.2 (Nat.ne_of_lt hj)
  · rintro rfl
    exact decide_eq_false (fun h : Stage.construct = .insert ∧ k = k => Stage.noConfusion h.1)

theorem fresh_emptyFrame (hnodup : nodes.Nodup) (hne : ∀ p ∈ nodes, p ≠ 0) :
    Fresh emptyFrame.toState nodes := ⟨hnodup, hne, fun _ _ => rfl⟩

/-- The inserter throws for the second of three nodes. -/
theorem allocateManyAndConstruct_never_released_three :
    (allocateManyAndConstruct (throwingAt .insert 1) ([10, 20, 30].reverse.map some) [1, 2, 3]
        emptyFrame).Meets (fun _ _ => False)
      (fun t => Leaked emptyFrame.toState [10, 20, 30] [1, 2, 3] 1 .insert t.toState
        ∧ ¬ Released emptyFrame.toState [10, 20, 30] [1, 2, 3] 1 .insert t.toState) :=
  allocateManyAndConstruct_never_released (fresh_emptyFrame (by decide) (by decide)) rfl
    (by decide) firstThrow_throwingAt

/-- **The only node of a call is lost** when its value throws. -/
theorem allocateManyAndConstruct_lost_node :
    (allocateManyAndConstruct (throwingAt .construct 0) ([10].reverse.map some) [1]
        emptyFrame).Meets (fun _ _ => False)
      (fun t => t.deallocated = [] ∧ t.icont = [] ∧ t.heap 10 ≠ none
        ∧ ¬ Released emptyFrame.toState [10] [1] 0 .construct t.toState) := by
  have hnodes : Fresh emptyFrame.toState [10] :=
    fresh_emptyFrame (List.nodup_singleton 10) (by decide)
  have hlen : [1].length = [10].length := rfl
  have hf : (throwingAt .construct 0).FirstThrow .construct 0 := firstThrow_throwingAt
  refine (allocateManyAndConstruct_threw hnodes hlen Nat.one_pos hf).imp (fun _ _ => id)
    (fun t ht => ⟨ht.deallocated, List.perm_nil.mp ht.inserted, ?_, ht.not_released Nat.one_pos⟩)
  obtain ⟨p, hp, hraw⟩ := ht.lost
  obtain rfl : 10 = p := Option.some.inj hp
  rw [hraw]
  exact Option.some_ne_none _

end NodeAllocHolder
