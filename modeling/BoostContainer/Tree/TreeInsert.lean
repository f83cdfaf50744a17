import BoostContainer.Lib.Run
import BoostContainer.Tree.Tree

/-!
# Insertion into a tree

Every insertion searches for the place of the new key, and makes a node or
takes the one of a node handle, and links it. The routes differ in the order of
these steps, and in what guards a node that is not yet linked. What is asked of
all of them is the strong guarantee: if the search, the construction or the
allocation throws, then the container is as it was, and so is the memory of
nodes, and the handle.

Two routes do not give it. `emplace_hint_unique` has no guard for the node it
made while it searches, and the insertion of a node handle for equal keys takes
the node out of the handle before it searches. Either loses the node if the
search throws.
-/

open Function

namespace Tree

variable {κ α : Type}

section Routes

variable (e : Env κ α) (h : ℕ)

/-- `insert_unique_check` -/
def insertUniqueCheck (hint : Option ℕ) (k : κ) : Prog (State α) (ℕ × Bool) := fun s =>
  match e.check s.ops (s.values h) hint k with
  | .threw => .threw { s with ops := s.ops + 1 }
  | .present i => .done (i, false) { s with ops := s.ops + 1 }
  | .absent i => .done (i, true) { s with ops := s.ops + 1 }

/-- A node, linked at a place. -/
def State.link (s : State α) (p i : ℕ) : State α :=
  { s with icont := update s.icont h ((s.icont h).insertIdx i p) }

/-- `insert_unique_commit` of the intrusive tree: the node, linked where the
search ended. -/
def icontInsertUniqueCommit (p i : ℕ) : Prog (State α) Unit :=
  Prog.modify fun s => s.link h p i

/-- The search of `insert_equal` of the intrusive tree. -/
def insertEqualSearch (hint : Option ℕ) (v : α) : Prog (State α) ℕ := fun s =>
  match e.insertEqual s.ops (s.values h) hint v with
  | none => .threw { s with ops := s.ops + 1 }
  | some i => .done i { s with ops := s.ops + 1 }

/-- `insert_equal` of the intrusive tree. -/
def icontInsertEqual (hint : Option ℕ) (p : ℕ) : Prog (State α) Unit := do
  let v ← getData p
  let i ← insertEqualSearch e h hint v
  icontInsertUniqueCommit h p i

/-- `insert_unique_commit` -/
def insertUniqueCommit (v : α) (i : ℕ) : Prog (State α) Unit := do
  let p ← createNode e h v
  (icontInsertUniqueCommit h p i).onThrow (destroyNode h p)

/-- `insert_unique_convertible` and `insert_unique_hint_convertible` -/
def insertUniqueConvertible (hint : Option ℕ) (v : α) : Prog (State α) Unit := do
  let (i, absent) ← insertUniqueCheck e h hint (e.keyOf v)
  (if absent then insertUniqueCommit e h v i else pure ())

/-- `emplace_unique_node` -/
def emplaceUniqueNode (p : ℕ) : Prog (State α) Unit := do
  let v ← getData p
  let (i, absent) ← (insertUniqueCheck e h none (e.keyOf v)).onThrow (destroyNode h p)
  (if absent then icontInsertUniqueCommit h p i else destroyNode h p)

/-- `emplace_unique` -/
def emplaceUnique (v : α) : Prog (State α) Unit := do
  let p ← createNode e h v
  emplaceUniqueNode e h p

/-- `emplace_hint_unique_node` -/
def emplaceHintUniqueNode (hint p : ℕ) : Prog (State α) Unit := do
  let v ← getData p
  let (i, absent) ← insertUniqueCheck e h (some hint) (e.keyOf v)
  (if absent then icontInsertUniqueCommit h p i else destroyNode h p)

/-- `emplace_hint_unique` -/
def emplaceHintUnique (hint : ℕ) (v : α) : Prog (State α) Unit := do
  let p ← createNode e h v
  emplaceHintUniqueNode e h hint p

/-- `insert_equal_convertible`, `insert_equal_hint_convertible`, `emplace_equal`
and `emplace_hint_equal` -/
def insertEqualConvertible (hint : Option ℕ) (v : α) : Prog (State α) Unit := do
  let p ← createNode e h v
  (icontInsertEqual e h hint p).onThrow (destroyNode h p)

/-- `try_emplace`, where `v` is what the arguments make. -/
def tryEmplace (hint : Option ℕ) (k : κ) (v : α) : Prog (State α) Unit := do
  let (i, absent) ← insertUniqueCheck e h hint k
  (if absent then createNode e h v >>= fun p => icontInsertUniqueCommit h p i else pure ())

/-- `insert_or_assign`, where `v` is what the arguments make, and `assigned` what
the assignment to the mapped value makes of an element. -/
def insertOrAssign (hint : Option ℕ) (k : κ) (v : α) (assigned : α → α) :
    Prog (State α) Unit := do
  let (i, absent) ← insertUniqueCheck e h hint k
  (if absent then insertUniqueCommit e h v i
    else do
      let p ← Prog.gets fun s => (s.icont h).getD i 0
      let old ← getData p
      doAssign e p (assigned old))

/-- `nh.release()` -/
def release : Prog (State α) Unit := Prog.modify fun s => { s with handle := none }

/-- `insert_unique_node`; a node that is not inserted stays in a handle. -/
def insertUniqueNode (hint : Option ℕ) : Prog (State α) Unit := do
  match ← Prog.gets State.handle with
  | none => pure ()
  | some p =>
    let v ← getData p
    let (i, absent) ← insertUniqueCheck e h hint (e.keyOf v)
    (if absent then do
      icontInsertUniqueCommit h p i
      release
    else pure ())

/-- `insert_equal_node` -/
def insertEqualNode (hint : Option ℕ) : Prog (State α) Unit := do
  match ← Prog.gets State.handle with
  | none => pure ()
  | some p =>
    release
    icontInsertEqual e h hint p

/-- **The routes of insertion.** -/
inductive Route (κ α : Type)
  | insertUniqueConvertible (hint : Option ℕ) (v : α)
  | emplaceUnique (v : α)
  | emplaceHintUnique (hint : ℕ) (v : α)
  | insertEqualConvertible (hint : Option ℕ) (v : α)
  | tryEmplace (hint : Option ℕ) (k : κ) (v : α)
  | insertOrAssign (hint : Option ℕ) (k : κ) (v : α) (assigned : α → α)
  | insertUniqueNode (hint : Option ℕ)
  | insertEqualNode (hint : Option ℕ)

/-- The insertion by a route. -/
def Route.insert : Route κ α → Prog (State α) Unit
  | .insertUniqueConvertible hint v => Tree.insertUniqueConvertible e h hint v
  | .emplaceUnique v => Tree.emplaceUnique e h v
  | .emplaceHintUnique hint v => Tree.emplaceHintUnique e h hint v
  | .insertEqualConvertible hint v => Tree.insertEqualConvertible e h hint v
  | .tryEmplace hint k v => Tree.tryEmplace e h hint k v
  | .insertOrAssign hint k v assigned => Tree.insertOrAssign e h hint k v assigned
  | .insertUniqueNode hint => Tree.insertUniqueNode e h hint
  | .insertEqualNode hint => Tree.insertEqualNode e h hint

end Routes

/-! ## Every node has one owner -/

/-- What owns a node: a container that links it, or the handle. -/
def Owned (s : State α) (p : ℕ) : Prop := (∃ h, p ∈ s.icont h) ∨ s.handle = some p

/-- **Every node that is owned has a value and one owner.** -/
structure OneOwner (s : State α) : Prop where
  linked : ∀ h, ∀ p ∈ s.icont h, (s.valueAt p).isSome
  nodup : ∀ h, (s.icont h).Nodup
  apart : ∀ h h' p, p ∈ s.icont h → p ∈ s.icont h' → h = h'
  held : ∀ p, s.handle = some p → (s.valueAt p).isSome ∧ ∀ h, p ∉ s.icont h

/-- **Nothing was lost**: what has no owner now had none before. -/
def NothingLost (s t : State α) : Prop :=
  ∀ p, (t.heap p).isSome → ¬ Owned t p → (s.heap p).isSome ∧ ¬ Owned s p

/-- What an insertion that returns leaves. -/
def Settled (s t : State α) : Prop := OneOwner t ∧ NothingLost s t

/-- What an insertion leaves that throws: all as it was, unless it was an
assignment to an element that threw. -/
def Strong (s t : State α) : Prop := Unchanged s t ∨ s.torn < t.torn ∧ Settled s t

/-- **Where a route loses a node**: the search throws, while nothing owns it. -/
def Route.LosesNode (e : Env κ α) (h : ℕ) (s : State α) : Route κ α → Prop
  | .emplaceHintUnique hint v =>
    (e.node s.used).isSome ∧ e.throws s.ops = false
      ∧ e.check (s.ops + 1) (s.values h) (some hint) (e.keyOf v) = .threw
  | .insertEqualNode hint =>
    ∃ p v, s.handle = some p ∧ s.valueAt p = some v
      ∧ e.insertEqual s.ops (s.values h) hint v = none
  | _ => False

variable {e : Env κ α} {s t : State α} {h p : ℕ} {v : α}

theorem Unchanged.valueAt (u : Unchanged s t) (p : ℕ) : t.valueAt p = s.valueAt p := by
  rw [State.valueAt, State.valueAt, u.heap]

theorem Unchanged.owned (u : Unchanged s t) (p : ℕ) : Owned t p ↔ Owned s p := by
  rw [Owned, Owned, u.icont, u.handle]

theorem Unchanged.values (u : Unchanged s t) (h : ℕ) : t.values h = s.values h := by
  rw [State.values, State.values, u.icont]
  exact List.filterMap_congr fun p _ => u.valueAt p

theorem Unchanged.oneOwner (u : Unchanged s t) (hs : OneOwner s) : OneOwner t where
  linked h p hp := by
    rw [u.icont] at hp
    rw [u.valueAt]
    exact hs.linked h p hp
  nodup h := by
    rw [u.icont]
    exact hs.nodup h
  apart h h' p hp hp' := by
    rw [u.icont] at hp hp'
    exact hs.apart h h' p hp hp'
  held p hp := by
    rw [u.handle] at hp
    rw [u.valueAt, u.icont]
    exact hs.held p hp

/-- An insertion that changes nothing has settled. -/
theorem Unchanged.settled (u : Unchanged s t) (hs : OneOwner s) : Settled s t := by
  refine ⟨u.oneOwner hs, fun p hp hfree => ?_⟩
  rw [u.heap] at hp
  exact ⟨hp, fun ho => hfree ((u.owned p).mpr ho)⟩

/-- The number of elements is the number of nodes. -/
theorem OneOwner.length_values (hs : OneOwner s) (h : ℕ) :
    (s.values h).length = (s.icont h).length := by
  rw [State.values, List.length_filterMap_eq_countP]
  exact List.countP_eq_length.mpr fun p hp => hs.linked h p hp

/-- A node that was made is not owned by anything. -/
theorem Made.not_owned (m : Made s h p v t) (hs : OneOwner s) : ¬ Owned t p := by
  have hnone : ¬ (s.valueAt p).isSome := by
    rw [State.valueAt, m.free]
    exact Bool.false_ne_true
  rintro (⟨k, hk⟩ | hheld)
  · rw [m.icont] at hk
    exact hnone (hs.linked k p hk)
  · rw [m.handle] at hheld
    exact hnone (hs.held p hheld).1

/-- What was owned has the value that it had. -/
theorem Made.valueAt_of_owned (m : Made s h p v t) {q : ℕ} (hq : (s.valueAt q).isSome) :
    t.valueAt q = s.valueAt q := by
  have hne : q ≠ p := by
    rintro rfl
    rw [State.valueAt, m.free] at hq
    cases hq
  rw [State.valueAt, State.valueAt, m.heap, update_of_ne hne]

theorem Made.values (m : Made s h p v t) (hs : OneOwner s) (k : ℕ) :
    t.values k = s.values k := by
  rw [State.values, State.values, m.icont]
  exact List.filterMap_congr fun q hq => m.valueAt_of_owned (hs.linked k q hq)

theorem Made.oneOwner (m : Made s h p v t) (hs : OneOwner s) : OneOwner t where
  linked k q hq := by
    rw [m.icont] at hq
    rw [m.valueAt_of_owned (hs.linked k q hq)]
    exact hs.linked k q hq
  nodup k := by
    rw [m.icont]
    exact hs.nodup k
  apart k k' q hq hq' := by
    rw [m.icont] at hq hq'
    exact hs.apart k k' q hq hq'
  held q hq := by
    rw [m.handle] at hq
    obtain ⟨hlive, hnot⟩ := hs.held q hq
    rw [m.valueAt_of_owned hlive, m.icont]
    exact ⟨hlive, hnot⟩

/-! ## Linking a node -/

section Link

variable {i : ℕ} (hi : i ≤ (t.icont h).length)

include hi

theorem mem_link {k q : ℕ} :
    q ∈ (t.link h p i).icont k ↔ q ∈ t.icont k ∨ q = p ∧ k = h := by
  show q ∈ update t.icont h ((t.icont h).insertIdx i p) k ↔ _
  by_cases hk : k = h
  · subst hk
    rw [update_self, List.mem_insertIdx hi, or_comm, and_iff_left rfl]
  · rw [update_of_ne hk]
    exact ⟨Or.inl, fun hq => hq.resolve_right fun hqk => hk hqk.2⟩

/-- **A node that has a value and no owner may be linked.** -/
theorem OneOwner.link (ht : OneOwner t) (hlive : (t.valueAt p).isSome) (hfree : ¬ Owned t p) :
    OneOwner (t.link h p i) := by
  have hnot : ∀ k, p ∉ t.icont k := fun k hk => hfree (Or.inl ⟨k, hk⟩)
  refine ⟨fun k q hq => ?_, fun k => ?_, fun k k' q hq hq' => ?_, fun q hq => ?_⟩
  · rcases (mem_link hi).mp hq with hq | ⟨rfl, rfl⟩
    · exact ht.linked k q hq
    · exact hlive
  · show (update t.icont h _ k).Nodup
    by_cases hk : k = h
    · subst hk
      rw [update_self, (List.perm_insertIdx p _ hi).nodup_iff]
      exact List.nodup_cons.mpr ⟨hnot k, ht.nodup k⟩
    · rw [update_of_ne hk]
      exact ht.nodup k
  · rcases (mem_link hi).mp hq with hq | ⟨rfl, rfl⟩ <;>
      rcases (mem_link hi).mp hq' with hq' | ⟨hqp, hkh⟩
    · exact ht.apart k k' q hq hq'
    · exact absurd hq (hqp ▸ hnot k)
    · exact absurd hq' (hnot k')
    · exact hkh.symm
  · refine ⟨(ht.held q hq).1, fun k hk => ?_⟩
    rcases (mem_link hi).mp hk with hk | ⟨rfl, -⟩
    · exact (ht.held q hq).2 k hk
    · exact hfree (Or.inr hq)

/-- What is owned then: what was, and the node. -/
theorem owned_link {q : ℕ} : Owned (t.link h p i) q ↔ Owned t q ∨ q = p := by
  constructor
  · rintro (⟨k, hk⟩ | hheld)
    · rcases (mem_link hi).mp hk with hk | ⟨rfl, -⟩
      · exact Or.inl (Or.inl ⟨k, hk⟩)
      · exact Or.inr rfl
    · exact Or.inl (Or.inr hheld)
  · rintro ((⟨k, hk⟩ | hheld) | rfl)
    · exact Or.inl ⟨k, (mem_link hi).mpr (Or.inl hk)⟩
    · exact Or.inr hheld
    · exact Or.inl ⟨h, (mem_link hi).mpr (Or.inr ⟨rfl, rfl⟩)⟩

/-- **A node that was made is linked**, and no node is lost. -/
theorem Made.settled_link (m : Made s h p v t) (hs : OneOwner s) : Settled s (t.link h p i) := by
  have hlive : (t.valueAt p).isSome := by
    rw [m.valueAt]
    rfl
  refine ⟨(m.oneOwner hs).link hi hlive (m.not_owned hs), fun q hq hfree => ?_⟩
  rw [owned_link hi, not_or] at hfree
  obtain ⟨hfree, hqp⟩ := hfree
  have hheap : t.heap q = s.heap q := by rw [m.heap, update_of_ne hqp]
  refine ⟨hheap ▸ hq, fun ho => hfree ?_⟩
  rw [Owned, m.icont, m.handle]
  exact ho

end Link

/-- **The node of a handle is linked**, and no node is lost. -/
theorem Unchanged.settled_link (u : Unchanged s t) (hs : OneOwner s) (hp : s.handle = some p)
    {i : ℕ} (hi : i ≤ (t.icont h).length) :
    Settled s { t.link h p i with handle := none } := by
  have ht : OneOwner { t with handle := none } := by
    have := u.oneOwner hs
    exact ⟨this.linked, this.nodup, this.apart, fun q hq => nomatch hq⟩
  obtain ⟨hlive, hnot⟩ := hs.held p hp
  have hfree : ¬ Owned { t with handle := none } p := by
    rintro (⟨k, hk⟩ | hheld)
    · rw [show State.icont { t with handle := none } = s.icont from u.icont] at hk
      exact hnot k hk
    · cases hheld
  rw [← u.valueAt] at hlive
  refine ⟨OneOwner.link (t := { t with handle := none }) hi ht hlive hfree, fun q hq hq' => ?_⟩
  have howned := (owned_link (t := { t with handle := none }) (h := h) (p := p) hi).not.mp hq'
  rw [not_or] at howned
  obtain ⟨hq', hqp⟩ := howned
  refine ⟨u.heap ▸ hq, ?_⟩
  rintro (⟨k, hk⟩ | hheld)
  · refine hq' (Or.inl ⟨k, ?_⟩)
    rw [show State.icont { t with handle := none } = s.icont from u.icont]
    exact hk
  · rw [hp] at hheld
    exact hqp (Option.some.inj hheld).symm

/-! ## The search -/

theorem getData_meets {R : State α → Prop} {E : State α → Prop}
    (hv : ∀ t, R t → t.valueAt p = some v) :
    Prog.Meets R (getData p) (fun w t => R t ∧ w = v) E := by
  intro t ht
  rw [getData, hv t ht]
  exact ⟨ht, rfl⟩

/-- A search that throws. -/
theorem insertUniqueCheck_threw {hint : Option ℕ} {k : κ}
    (hc : e.check s.ops (s.values h) hint k = .threw) :
    insertUniqueCheck e h hint k s = .threw { s with ops := s.ops + 1 } := by
  rw [insertUniqueCheck, hc]

/-- A search that does not. -/
theorem insertUniqueCheck_done {hint : Option ℕ} {k : κ}
    (hc : e.check s.ops (s.values h) hint k ≠ .threw) :
    ∃ r, insertUniqueCheck e h hint k s = .done r { s with ops := s.ops + 1 }
      ∧ r.1 ≤ (s.values h).length := by
  rw [insertUniqueCheck]
  split
  · next hthrew => exact absurd hthrew hc
  · next i _ => exact ⟨_, rfl, i.2.le⟩
  · next i _ => exact ⟨_, rfl, Nat.lt_succ_iff.mp i.2⟩

theorem insertEqualSearch_threw {hint : Option ℕ}
    (hc : e.insertEqual s.ops (s.values h) hint v = none) :
    insertEqualSearch e h hint v s = .threw { s with ops := s.ops + 1 } := by
  rw [insertEqualSearch, hc]

theorem insertEqualSearch_done {hint : Option ℕ} {i : Fin ((s.values h).length + 1)}
    (hc : e.insertEqual s.ops (s.values h) hint v = some i) :
    insertEqualSearch e h hint v s = .done i { s with ops := s.ops + 1 } := by
  rw [insertEqualSearch, hc]

section Search

variable {R : State α → Prop} (hops : ∀ t n, R t → R { t with ops := n })

include hops

/-- **A search changes nothing**, and ends at a place of the tree. -/
theorem insertUniqueCheck_meets (hint : Option ℕ) (k : κ) :
    Prog.Meets R (insertUniqueCheck e h hint k)
      (fun r t => R t ∧ r.1 ≤ (t.values h).length ∧ (r.2 = false → r.1 < (t.values h).length))
      R := by
  intro t ht
  rw [insertUniqueCheck]
  split
  · exact hops t _ ht
  · next i _ => exact ⟨hops t _ ht, i.2.le, fun _ => i.2⟩
  · next i _ => exact ⟨hops t _ ht, Nat.lt_succ_iff.mp i.2, fun hb => nomatch hb⟩

theorem insertEqualSearch_meets (hint : Option ℕ) (v : α) :
    Prog.Meets R (insertEqualSearch e h hint v) (fun i t => R t ∧ i ≤ (t.values h).length) R := by
  intro t ht
  rw [insertEqualSearch]
  split
  · exact hops t _ ht
  · next i _ => exact ⟨hops t _ ht, Nat.lt_succ_iff.mp i.2⟩

/-- **`insert_equal` links the node, or changes nothing.** -/
theorem icontInsertEqual_meets (hint : Option ℕ) (hv : ∀ t, R t → t.valueAt p = some v) :
    Prog.Meets R (icontInsertEqual e h hint p)
      (fun _ u => ∃ t i, R t ∧ i ≤ (t.values h).length ∧ u = t.link h p i) R := by
  refine Prog.Meets.bind (getData_meets hv) fun w => Prog.Meets.of_pre_right fun _ => ?_
  refine (insertEqualSearch_meets hops hint w).bind fun i => ?_
  exact Prog.meets_modify fun t ht => ⟨t, i, ht.1, ht.2, rfl⟩

end Search

/-! ## The routes -/

/-- A node that was made and that nothing owns is lost. -/
theorem Made.not_strong (m : Made s h p v t) : ¬ Strong s t := by
  rintro (u | ⟨hlt, -⟩)
  · exact m.not_unchanged u
  · exact hlt.ne m.torn.symm

section Strong

variable (hs : OneOwner s)

include hs

theorem Unchanged.length_values (u : Unchanged s t) (h : ℕ) :
    (t.values h).length = (t.icont h).length :=
  (u.oneOwner hs).length_values h

/-- **The node that was made is linked, or taken back.** -/
theorem insertUniqueCommit_meets (e : Env κ α) (h : ℕ) (v : α) {i : ℕ}
    (hi : i ≤ (s.icont h).length) :
    Prog.Meets (Unchanged s) (insertUniqueCommit e h v i) (fun _ => Settled s)
      (Unchanged s) := by
  refine (createNode_meets e s h v).bind fun p => ?_
  refine Prog.Meets.onThrow (F := Made s h p v) ?_ (destroyNode_meets _ s h p v)
  refine Prog.meets_modify fun t m => m.settled_link ?_ hs
  rw [m.icont]
  exact hi

theorem insertUniqueConvertible_meets (e : Env κ α) (h : ℕ) (hint : Option ℕ) (v : α) :
    Prog.Meets (Unchanged s) (insertUniqueConvertible e h hint v) (fun _ => Settled s)
      (Unchanged s) := by
  refine (insertUniqueCheck_meets (fun _ n u => u.ops n) hint _).bind fun r => ?_
  rintro t ⟨u, hi, -⟩
  dsimp only
  rw [u.length_values hs, u.icont] at hi
  split
  · exact insertUniqueCommit_meets hs e h v hi t u
  · exact u.settled hs

theorem emplaceUnique_meets (e : Env κ α) (h : ℕ) (v : α) :
    Prog.Meets (Unchanged s) (emplaceUnique e h v) (fun _ => Settled s) (Unchanged s) := by
  refine (createNode_meets e s h v).bind fun p => ?_
  refine (getData_meets fun t (m : Made s h p v t) => m.valueAt).bind fun w => ?_
  refine Prog.Meets.of_pre_right fun hw => ?_
  refine (Prog.Meets.onThrow (insertUniqueCheck_meets (fun _ n m => m.ops n) none _)
    (destroyNode_meets _ s h p v)).bind fun r => ?_
  rintro t ⟨m, hi, -⟩
  dsimp only
  rw [(m.oneOwner hs).length_values] at hi
  split
  · exact m.settled_link hi hs
  · exact (destroyNode_meets (Unchanged s) s h p v t m).imp (fun _ _ u => u.settled hs)
      fun _ => id

theorem insertEqualConvertible_meets (e : Env κ α) (h : ℕ) (hint : Option ℕ) (v : α) :
    Prog.Meets (Unchanged s) (insertEqualConvertible e h hint v) (fun _ => Settled s)
      (Unchanged s) := by
  refine (createNode_meets e s h v).bind fun p => ?_
  refine Prog.Meets.onThrow (F := Made s h p v) ?_ (destroyNode_meets _ s h p v)
  refine (icontInsertEqual_meets (fun _ n m => m.ops n) hint fun t m => m.valueAt).post ?_
  rintro - u ⟨t, i, m, hi, rfl⟩
  rw [(m.oneOwner hs).length_values] at hi
  exact m.settled_link hi hs

theorem tryEmplace_meets (e : Env κ α) (h : ℕ) (hint : Option ℕ) (k : κ) (v : α) :
    Prog.Meets (Unchanged s) (tryEmplace e h hint k v) (fun _ => Settled s) (Unchanged s) := by
  refine (insertUniqueCheck_meets (fun _ n u => u.ops n) hint k).bind fun r => ?_
  rintro t ⟨u, hi, -⟩
  dsimp only
  rw [u.length_values hs, u.icont] at hi
  split
  · refine Prog.bind_meets (createNode_meets e s h v t u) fun p t' m => m.settled_link ?_ hs
    rw [m.icont]
    exact hi
  · exact u.settled hs

theorem insertUniqueNode_meets (e : Env κ α) (h : ℕ) (hint : Option ℕ) :
    Prog.Meets (Unchanged s) (insertUniqueNode e h hint) (fun _ => Settled s)
      (Unchanged s) := by
  intro t u
  unfold insertUniqueNode
  rw [Prog.gets_bind, u.handle]
  rcases hp : s.handle with - | p
  · exact u.settled hs
  · obtain ⟨v, hv⟩ := Option.isSome_iff_exists.mp (hs.held p hp).1
    dsimp only
    refine Prog.bind_meets (getData_meets (R := Unchanged s) (v := v) ?_ t u) ?_
    · intro t' u'
      rw [u'.valueAt, hv]
    rintro w t' ⟨u', rfl⟩
    refine Prog.bind_meets (insertUniqueCheck_meets (fun _ n u => u.ops n) hint _ t' u') ?_
    rintro ⟨i, absent⟩ r ⟨u'', hi, -⟩
    dsimp only at hi ⊢
    rw [u''.length_values hs] at hi
    split
    · exact u''.settled_link hs hp hi
    · exact u''.settled hs

/-- **An element is assigned to**: it stays where it is. -/
theorem Unchanged.settled_assign (u : Unchanged s t) {k : ℕ} (hp : p ∈ s.icont k)
    (owner n m : ℕ) (w : α) :
    Settled s { t with
      heap := update t.heap p (some ⟨owner, some w⟩)
      ops := n
      torn := m } := by
  have hval : ∀ q, (t.valueAt q).isSome → (State.valueAt { t with
      heap := update t.heap p (some ⟨owner, some w⟩)
      ops := n
      torn := m } q).isSome := by
    intro q hq
    rw [State.valueAt]
    by_cases hqp : q = p
    · subst hqp
      dsimp only
      rw [update_self]
      rfl
    · dsimp only
      rw [update_of_ne hqp]
      exact hq
  have ht := u.oneOwner hs
  refine ⟨⟨fun h q hq => hval q (ht.linked h q hq), ht.nodup, ht.apart, fun q hq => ?_⟩, ?_⟩
  · exact ⟨hval q (ht.held q hq).1, (ht.held q hq).2⟩
  · intro q hq hfree
    have hfree' : ¬ Owned s q := fun ho => hfree ((u.owned q).mpr ho)
    have hqp : q ≠ p := fun hqp => hfree' (Or.inl ⟨k, hqp ▸ hp⟩)
    dsimp only at hq
    rw [update_of_ne hqp, u.heap] at hq
    exact ⟨hq, hfree'⟩

theorem insertOrAssign_meets (e : Env κ α) (h : ℕ) (hint : Option ℕ) (k : κ) (v : α)
    (assigned : α → α) :
    Prog.Meets (Unchanged s) (insertOrAssign e h hint k v assigned) (fun _ => Settled s)
      (Strong s) := by
  refine ((insertUniqueCheck_meets (fun _ n u => u.ops n) hint k).except
    fun _ => Or.inl).bind fun r => ?_
  rintro t ⟨u, hi, hlt⟩
  dsimp only
  rw [u.length_values hs, u.icont] at hi hlt
  cases hr : r.2 with
  | true =>
    exact (insertUniqueCommit_meets hs e h v hi t u).imp (fun _ _ => id) fun _ => Or.inl
  | false =>
    have hlt := hlt hr
    have hp : (t.icont h).getD r.1 0 ∈ s.icont h := by
      rw [u.icont, List.getD_eq_getElem _ _ hlt]
      exact List.getElem_mem hlt
    rw [if_neg Bool.false_ne_true, Prog.gets_bind]
    generalize (t.icont h).getD r.1 0 = p at hp ⊢
    have hlive := hs.linked h p hp
    rw [State.valueAt] at hlive
    obtain ⟨c, hc⟩ : ∃ c, s.heap p = some c := by
      cases hc : s.heap p with
      | none =>
        rw [hc] at hlive
        cases hlive
      | some c => exact ⟨c, rfl⟩
    obtain ⟨owner, w⟩ := c
    rw [hc] at hlive
    obtain ⟨old, rfl⟩ := Option.isSome_iff_exists.mp hlive
    have hct : t.heap p = some ⟨owner, some old⟩ := by rw [u.heap, hc]
    have hget : getData p t = .done old t := by
      rw [getData, State.valueAt, hct]
      rfl
    rw [Prog.bind_of_done hget, doAssign, hct]
    dsimp only
    split
    · exact Or.inr ⟨Nat.lt_succ_iff.mpr u.torn.ge, u.settled_assign hs hp owner _ _ _⟩
    · exact u.settled_assign hs hp owner _ _ _

/-- **The node of `emplace_hint` has no guard**: it is lost where the search
throws. -/
theorem emplaceHintUnique_threw {hint : ℕ}
    (hl : (Route.emplaceHintUnique hint v : Route κ α).LosesNode e h s) :
    ∃ t p, emplaceHintUnique e h hint v s = .threw t ∧ Made s h p v t := by
  obtain ⟨hnode, hthrow, hc⟩ := hl
  obtain ⟨q, hq⟩ := Option.isSome_iff_exists.mp hnode
  obtain ⟨t, ht, m, hops⟩ := createNode_done (h := h) v hq hthrow
  have hget : getData q.1 t = .done v t := by rw [getData, m.valueAt]
  rw [← m.values hs, ← hops] at hc
  refine ⟨{ t with ops := t.ops + 1 }, q.1, ?_, m.ops _⟩
  rw [emplaceHintUnique, Prog.bind_of_done ht, emplaceHintUniqueNode, Prog.bind_of_done hget]
  show Prog.bind _ _ t = _
  rw [Prog.bind, insertUniqueCheck_threw hc]

/-- Elsewhere it is linked, or destroyed. -/
theorem emplaceHintUnique_meets {hint : ℕ}
    (hl : ¬ (Route.emplaceHintUnique hint v : Route κ α).LosesNode e h s) :
    (emplaceHintUnique e h hint v s).Meets (fun _ => Settled s) (Unchanged s) := by
  unfold emplaceHintUnique
  rcases hnode : e.node s.used with - | q
  · obtain ⟨t, ht, u⟩ := createNode_threw (h := h) v (Or.inl hnode)
    refine Prog.bind_meets_of_throws ?_
    rw [ht]
    exact u
  cases hthrow : e.throws s.ops with
  | true =>
    obtain ⟨t, ht, u⟩ := createNode_threw (h := h) v (Or.inr hthrow)
    refine Prog.bind_meets_of_throws ?_
    rw [ht]
    exact u
  | false =>
    obtain ⟨t, ht, m, hops⟩ := createNode_done (h := h) v hnode hthrow
    have hget : getData q.1 t = .done v t := by rw [getData, m.valueAt]
    have hc : e.check t.ops (t.values h) (some hint) (e.keyOf v) ≠ .threw := by
      rw [m.values hs, hops]
      intro hc
      refine hl ⟨?_, hthrow, hc⟩
      rw [hnode]
      rfl
    obtain ⟨⟨i, absent⟩, hdone, hi⟩ := insertUniqueCheck_done hc
    rw [Prog.bind_of_done ht, emplaceHintUniqueNode, Prog.bind_of_done hget,
      Prog.bind_of_done hdone]
    rw [(m.oneOwner hs).length_values] at hi
    dsimp only at hi ⊢
    split
    · exact (m.ops _).settled_link hi hs
    · exact (destroyNode_meets (Unchanged s) s h q.1 v _ (m.ops _)).imp
        (fun _ _ u => u.settled hs) fun _ => id

omit hs in
/-- **The node of a handle is taken out before the search**: it is lost where
the search throws. -/
theorem insertEqualNode_threw {hint : Option ℕ}
    (hl : (Route.insertEqualNode hint : Route κ α).LosesNode e h s) :
    s.handle ≠ none
      ∧ insertEqualNode e h hint s = .threw { s with handle := none, ops := s.ops + 1 } := by
  obtain ⟨p, v, hp, hv, hc⟩ := hl
  have hget : getData p { s with handle := none } = .done v { s with handle := none } := by
    rw [getData, show State.valueAt { s with handle := none } p = s.valueAt p from rfl, hv]
  have hsearch : insertEqualSearch e h hint v { s with handle := none }
      = .threw { s with handle := none, ops := s.ops + 1 } :=
    insertEqualSearch_threw (s := { s with handle := none }) hc
  refine ⟨hp ▸ Option.some_ne_none p, ?_⟩
  rw [insertEqualNode, Prog.gets_bind, hp]
  dsimp only
  rw [release, Prog.modify_bind, icontInsertEqual, Prog.bind_of_done hget]
  show Prog.bind _ _ _ = _
  rw [Prog.bind, hsearch]

/-- Elsewhere it is linked. -/
theorem insertEqualNode_meets {hint : Option ℕ}
    (hl : ¬ (Route.insertEqualNode hint : Route κ α).LosesNode e h s) :
    (insertEqualNode e h hint s).Meets (fun _ => Settled s) (Unchanged s) := by
  unfold insertEqualNode
  rw [Prog.gets_bind]
  rcases hp : s.handle with - | p
  · exact (Unchanged.refl s).settled hs
  · obtain ⟨v, hv⟩ := Option.isSome_iff_exists.mp (hs.held p hp).1
    have hget : getData p { s with handle := none } = .done v { s with handle := none } := by
      rw [getData, show State.valueAt { s with handle := none } p = s.valueAt p from rfl, hv]
    dsimp only
    rw [release, Prog.modify_bind, icontInsertEqual, Prog.bind_of_done hget]
    rcases hc : e.insertEqual s.ops (s.values h) hint v with - | i
    · exact absurd ⟨p, v, hp, hv, hc⟩ hl
    · have hsearch : insertEqualSearch e h hint v { s with handle := none }
          = .done i { s with handle := none, ops := s.ops + 1 } :=
        insertEqualSearch_done (s := { s with handle := none }) hc
      rw [Prog.bind_of_done hsearch]
      have hi := (Nat.lt_succ_iff.mp i.2).trans_eq (hs.length_values h)
      exact ((Unchanged.refl s).ops (s.ops + 1)).settled_link hs hp hi

/-- **An insertion that loses no node gives the strong guarantee.** -/
theorem Route.insert_meets (e : Env κ α) (h : ℕ) (r : Route κ α) (hl : ¬ r.LosesNode e h s) :
    (r.insert e h s).Meets (fun _ => Settled s) (Strong s) := by
  have hstrong : ∀ {o : Outcome (State α) Unit}, o.Meets (fun _ => Settled s) (Unchanged s) →
      o.Meets (fun _ => Settled s) (Strong s) :=
    fun ho => ho.imp (fun _ _ => id) fun _ => Or.inl
  have u : Unchanged s s := Unchanged.refl s
  cases r with
  | insertUniqueConvertible hint v =>
    exact hstrong (insertUniqueConvertible_meets hs e h hint v s u)
  | emplaceUnique v => exact hstrong (emplaceUnique_meets hs e h v s u)
  | emplaceHintUnique hint v => exact hstrong (emplaceHintUnique_meets hs hl)
  | insertEqualConvertible hint v =>
    exact hstrong (insertEqualConvertible_meets hs e h hint v s u)
  | tryEmplace hint k v => exact hstrong (tryEmplace_meets hs e h hint k v s u)
  | insertOrAssign hint k v assigned => exact insertOrAssign_meets hs e h hint k v assigned s u
  | insertUniqueNode hint => exact hstrong (insertUniqueNode_meets hs e h hint s u)
  | insertEqualNode hint => exact hstrong (insertEqualNode_meets hs hl)

/-- **An insertion that loses a node throws**, and what is left is not what was
there. -/
theorem Route.insert_threw (e : Env κ α) (h : ℕ) (r : Route κ α) (hl : r.LosesNode e h s) :
    ∃ t, r.insert e h s = .threw t ∧ ¬ Strong s t ∧ OneOwner t := by
  cases r with
  | emplaceHintUnique hint v =>
    obtain ⟨t, p, hrun, m⟩ := emplaceHintUnique_threw hs hl
    exact ⟨t, hrun, m.not_strong, m.oneOwner hs⟩
  | insertEqualNode hint =>
    obtain ⟨hp, hrun⟩ := insertEqualNode_threw hl
    refine ⟨_, hrun, ?_, ⟨hs.linked, hs.nodup, hs.apart, fun q hq => nomatch hq⟩⟩
    rintro (u | ⟨hlt, -⟩)
    · exact hp u.handle.symm
    · exact hlt.ne rfl
  | _ => exact hl.elim

/-- **The strong guarantee of an insertion**: the node it made is linked or
taken back, the node of a handle is linked or stays there, and if the search,
the construction or the allocation throws then all is as it was. It holds of
every route, but for the two that lose a node. -/
theorem Route.insert_strong_iff (e : Env κ α) (h : ℕ) (r : Route κ α) :
    Prog.Meets (fun t => t = s) (r.insert e h) (fun _ => Settled s) (Strong s)
      ↔ ¬ r.LosesNode e h s := by
  constructor
  · intro hmeets hl
    obtain ⟨t, ht, hnot, -⟩ := Route.insert_threw hs e h r hl
    have hrun := hmeets s rfl
    rw [ht] at hrun
    exact hnot hrun
  · intro hl t ht
    rw [ht]
    exact Route.insert_meets hs e h r hl

end Strong

/-- Elements whose comparisons all throw. -/
def throwingCompare : Env ℕ ℕ where
  throws _ := false
  node used := if hfree : used 7 = false then some ⟨7, hfree⟩ else none
  visit l := ⟨l, List.Perm.refl l⟩
  moved v := v
  torn v := v
  keyOf v := v
  check _ _ _ _ := .threw
  insertEqual _ _ _ _ := none

/-- A container of one element. -/
def oneElement : State ℕ where
  heap p := if p = 3 then some ⟨0, some 10⟩ else none
  icont h := if h = 0 then [3] else []
  alloc _ := 0
  handle := none
  otherTree := []
  ops := 0
  torn := 0

theorem oneElement_icont (h : ℕ) : oneElement.icont h = if h = 0 then [3] else [] := rfl

theorem oneElement_oneOwner : OneOwner oneElement := by
  have hmem : ∀ {h p}, p ∈ oneElement.icont h → h = 0 ∧ p = 3 := by
    intro h p hp
    by_cases hh : h = 0
    · subst hh
      exact ⟨rfl, List.mem_singleton.mp hp⟩
    · rw [oneElement_icont, if_neg hh] at hp
      cases hp
  refine ⟨fun h p hp => ?_, fun h => ?_, fun h h' p hp hp' => ?_, fun p hp => nomatch hp⟩
  · rw [(hmem hp).2]
    rfl
  · by_cases hh : h = 0
    · subst hh
      exact List.nodup_singleton 3
    · rw [oneElement_icont, if_neg hh]
      exact List.nodup_nil
  · rw [(hmem hp).1, (hmem hp').1]

theorem Route.insert_strong_iff_sample :
    Prog.Meets (fun t => t = oneElement) ((Route.emplaceUnique 5).insert throwingCompare 0)
        (fun _ => Settled oneElement) (Strong oneElement)
      ↔ ¬ (Route.emplaceUnique 5).LosesNode throwingCompare 0 oneElement :=
  Route.insert_strong_iff oneElement_oneOwner throwingCompare 0 (.emplaceUnique 5)

/-- `emplace_hint` of a second element leaks the node when the comparison throws. -/
theorem emplaceHintUnique_leaks :
    ¬ Prog.Meets (fun t => t = oneElement)
      ((Route.emplaceHintUnique 0 5).insert throwingCompare 0) (fun _ => Settled oneElement)
      (Strong oneElement) := by
  intro hmeets
  obtain ⟨t, ht, hnot, -⟩ := Route.insert_threw oneElement_oneOwner throwingCompare 0
    (.emplaceHintUnique 0 5) ⟨rfl, rfl, rfl⟩
  have hrun := hmeets oneElement rfl
  rw [ht] at hrun
  exact hnot hrun

/-! ## Runs -/

/-- `extract`: the node at a place, unlinked and handed out. -/
def extract (h i : ℕ) : Prog (State α) Unit := fun s =>
  match (s.icont h)[i]? with
  | some p => .done () { s with
      icont := update s.icont h ((s.icont h).eraseIdx i)
      handle := some p }
  | none => .undefined

/-- A call. -/
inductive Event (κ α : Type)
  | insert (h : ℕ) (r : Route κ α)
  | extract (h i : ℕ)

/-- **Containers that are inserted into and extracted from.** Every call may
throw; there is one handle, and a node is extracted to it when it is empty. -/
def calls (e : Env κ α) : TransitionSystem (State α) (Event κ α) where
  Init s := (∀ h, s.icont h = []) ∧ s.handle = none
  Step s c t :=
    match c with
    | .insert h r => r.insert e h s = .done () t ∨ r.insert e h s = .threw t
    | .extract h i => s.handle = none ∧ extract h i s = .done () t

theorem OneOwner.extract {i : ℕ} (hs : OneOwner s) (ht : extract h i s = .done () t) :
    OneOwner t := by
  rw [Tree.extract] at ht
  split at ht
  · next p hp =>
    cases ht
    obtain ⟨hi, hp⟩ := List.getElem?_eq_some_iff.mp hp
    have hmem : ∀ {k q}, q ∈ update s.icont h ((s.icont h).eraseIdx i) k → q ∈ s.icont k := by
      intro k q hq
      by_cases hk : k = h
      · subst hk
        rw [update_self] at hq
        exact List.mem_of_mem_eraseIdx hq
      · rw [update_of_ne hk] at hq
        exact hq
    have hpmem : p ∈ s.icont h := hp ▸ List.getElem_mem hi
    refine ⟨fun k q hq => hs.linked k q (hmem hq), fun k => ?_,
      fun k k' q hq hq' => hs.apart k k' q (hmem hq) (hmem hq'), fun q hq => ?_⟩
    · show (update s.icont h _ k).Nodup
      by_cases hk : k = h
      · subst hk
        rw [update_self]
        exact (hs.nodup k).sublist (List.eraseIdx_sublist _ _)
      · rw [update_of_ne hk]
        exact hs.nodup k
    · cases hq
      refine ⟨hs.linked h p hpmem, fun k hk => ?_⟩
      obtain rfl := hs.apart k h p (hmem hk) hpmem
      change p ∈ update s.icont k _ k at hk
      have herase : (s.icont k).erase p = (s.icont k).eraseIdx i := by
        rw [← hp]
        exact (hs.nodup k).erase_getElem i hi
      rw [update_self, ← herase] at hk
      exact (hs.nodup k).not_mem_erase hk
  · cases ht

/-- **Every state that calls reach is well owned**, whatever throws. -/
theorem oneOwner_of_reachable {e : Env κ α} (hs : (calls e).Reachable s) : OneOwner s := by
  refine hs.invariant ?_ ?_
  · rintro s ⟨hicont, hhandle⟩
    refine ⟨fun h p hp => ?_, fun h => ?_, fun h h' p hp => ?_, fun p hp => ?_⟩
    · rw [hicont h] at hp
      cases hp
    · rw [hicont h]
      exact List.nodup_nil
    · rw [hicont h] at hp
      cases hp
    · rw [hhandle] at hp
      cases hp
  · rintro s (⟨h, r⟩ | ⟨h, i⟩) t hs hstep
    · by_cases hl : r.LosesNode e h s
      · obtain ⟨u, hu, -, hone⟩ := Route.insert_threw hs e h r hl
        rcases hstep with hrun | hrun
        · rw [hu] at hrun
          cases hrun
        · rw [hu] at hrun
          cases hrun
          exact hone
      · have hmeets := Route.insert_meets hs e h r hl
        rcases hstep with hrun | hrun
        · rw [hrun] at hmeets
          exact hmeets.1
        · rw [hrun] at hmeets
          rcases hmeets with u | ⟨-, hsettled⟩
          · exact u.oneOwner hs
          · exact hsettled.1
    · exact hs.extract hstep.2

end Tree
