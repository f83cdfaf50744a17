import BoostContainer.Lib.StableOrder
import BoostContainer.Tree.TreeAssign
import BoostContainer.Tree.TreeInsert

/-!
# Moving a tree

A tree whose nodes cannot be taken is moved element by element, into new nodes
or reused ones. The source keeps its nodes, with what the moves left in them.
Whether it is still a tree in order depends on that.

What the intrusive tree finds is only promised for a tree in order
(`Env.Searches`). With it, the containers act as the sets, or multisets, of
their elements.
-/

open Function

namespace Tree

variable {κ α : Type}

/-- `tree(tree&&, a)`, of a container that is being made. -/
def moveConstruct (e : Env κ α) (h a x : ℕ) : Prog (State α) Unit := do
  Prog.modify fun s => { s with alloc := update s.alloc h a }
  let equal ← Prog.gets fun s => decide (s.alloc h = s.alloc x)
  (if equal then
    Prog.modify fun s => { s with
      icont := update (update s.icont h (s.icont x)) x (s.icont h) }
  else cloneFrom e h (moveCloner e h) x)

/-- The insertion of a value, without a hint. -/
def insertValue (e : Env κ α) (unique : Bool) (h : ℕ) (v : α) : Prog (State α) Unit :=
  if unique then insertUniqueConvertible e h none v else insertEqualConvertible e h none v

/-- **What the intrusive tree promises** of a tree in order: it finds equivalents, it
says where there is none, and where a value is in order. -/
structure Env.Searches (e : Env κ α) (c : Compare κ) (find : List α → κ → Option ℕ) :
    Prop where
  found : ∀ l, (c.onKey e.keyOf).Sorted l → ∀ k i, find l k = some i →
    ∃ v, l[i]? = some v ∧ c.equiv (e.keyOf v) k = true
  missing : ∀ l, (c.onKey e.keyOf).Sorted l → ∀ k, find l k = none →
    ∀ v ∈ l, c.equiv (e.keyOf v) k = false
  present : ∀ n l, (c.onKey e.keyOf).StrictlySorted l → ∀ hint k i,
    e.check n l hint k = .present i → c.equiv (e.keyOf l[i]) k = true
  absent : ∀ n l, (c.onKey e.keyOf).StrictlySorted l → ∀ hint v i,
    e.check n l hint (e.keyOf v) = .absent i →
      (c.onKey e.keyOf).StrictlySorted (l.insertIdx i v)
  equal : ∀ n l, (c.onKey e.keyOf).Sorted l → ∀ hint v i, e.insertEqual n l hint v = some i →
    (c.onKey e.keyOf).Sorted (l.insertIdx i v)

/-! ## What is left of the source -/

section Move

variable {e : Env κ α} {s t : State α} {h x : ℕ} {move : Bool}

/-- **A clone has the sequence of its source**, and the source what was left of it. -/
theorem ClonedFrom.values {old other : List ℕ} {cloneOf : ℕ → ℕ} (hne : h ≠ x)
    (c : ClonedFrom e s h x move old other cloneOf t) :
    t.values h = s.values x
      ∧ t.values x = (s.values x).map (if move then e.moved else id) := by
  have hicont : t.icont h = (s.icont x).map cloneOf := by rw [c.icont, update_self]
  have hx : t.icont x = s.icont x := by rw [c.icont, update_of_ne hne.symm]
  constructor
  · rw [State.values, hicont, List.filterMap_map]
    exact List.filterMap_congr c.clone
  · rw [State.values, hx, State.values, List.map_filterMap]
    exact List.filterMap_congr c.source

/-- **A move that could not take the nodes**: the sequence of the source has moved, and
the source keeps its nodes with what is left in them. -/
structure MovedFrom (e : Env κ α) (s : State α) (h x : ℕ) (t : State α) : Prop where
  values : t.values h = s.values x
  source : t.values x = (s.values x).map e.moved
  live : ∀ q ∈ t.icont x, (t.valueAt q).isSome

/-- **Non-stealing move assignment.** -/
theorem moveAssign_movedFrom (e : Env κ α) (v : Trees s h x)
    (hunequal : s.alloc h ≠ s.alloc x) :
    (moveAssign e h false false x s).Meets (fun _ => MovedFrom e s h x) (fun _ => True) := by
  have hne : h ≠ x := fun heq => hunequal (heq ▸ rfl)
  unfold moveAssign privMoveAssign
  rw [if_neg hne, if_neg (by decide), Prog.gets_bind, decide_eq_false hunequal]
  refine (rebuild_meets e true v hne).imp (fun _ t r => ⟨r.values, r.sourceValues, ?_⟩)
    fun _ _ => trivial
  intro q hq
  rw [r.icont x hne.symm] at hq
  obtain ⟨o, v', w, -, hw⟩ := r.source q hq
  rw [State.valueAt, hw]
  rfl

/-- **Move construction with an allocator that is not equal.** -/
theorem moveConstruct_movedFrom (e : Env κ α) {a : ℕ} (v : Trees s h x) (hne : h ≠ x)
    (hother : s.otherTree = []) (hunequal : a ≠ s.alloc x) :
    (moveConstruct e h a x s).Meets (fun _ => MovedFrom e s h x) (fun _ => True) := by
  have hunequal' : update s.alloc h a h ≠ update s.alloc h a x := by
    rw [update_self, update_of_ne hne.symm]
    exact hunequal
  unfold moveConstruct
  rw [Prog.modify_bind, Prog.gets_bind]
  dsimp only
  rw [decide_eq_false hunequal', if_neg Bool.false_ne_true]
  have l : Ledger { s with alloc := update s.alloc h a } h [] (s.icont x) [] []
      { s with alloc := update s.alloc h a } := by
    have hnil : ∀ {P : ℕ → Prop}, ∀ p ∈ [], P p := fun p hp => nomatch hp
    refine ⟨List.nodup_nil, hnil, hnil, hnil, fun q hq => ?_,
      fun p _ _ => (if_neg List.not_mem_nil).symm, rfl, rfl, rfl, hother, hnil⟩
    obtain ⟨w, hw⟩ := v.source q hq
    exact ⟨s.alloc x, w, w, hw, hw⟩
  refine (cloneFrom_meets (s := { s with alloc := update s.alloc h a })
    (moveCloner_clones e _ h _) l v.source_nodup).imp ?_ fun _ _ => trivial
  rintro - t ⟨cloneOf, other, c⟩
  obtain ⟨hvalues, hsource⟩ := c.values hne
  refine ⟨hvalues, hsource, fun q hq => ?_⟩
  rw [c.icont, update_of_ne hne.symm] at hq
  obtain ⟨o, v', w, -, hw⟩ := c.ledger.source q hq
  rw [State.valueAt, hw]
  rfl

/-! ## Insertion, by values -/

/-- A node that is linked adds its value, where the nodes are alive. -/
theorem filterMap_insertIdx {β γ : Type} {f : β → Option γ} {p : β} {w : γ} (hp : f p = some w)
    (l : List β) (hl : ∀ q ∈ l, (f q).isSome) (i : ℕ) :
    (l.insertIdx i p).filterMap f = (l.filterMap f).insertIdx i w := by
  induction l generalizing i with
  | nil =>
    cases i with
    | zero => exact List.filterMap_cons_some hp
    | succ i => rfl
  | cons q l ih =>
    cases i with
    | zero => exact List.filterMap_cons_some hp
    | succ i =>
      obtain ⟨u, hu⟩ := Option.isSome_iff_exists.mp (hl q List.mem_cons_self)
      rw [List.insertIdx_succ_cons, List.filterMap_cons_some hu, List.filterMap_cons_some hu,
        List.insertIdx_succ_cons, ih fun r hr => hl r (List.mem_cons_of_mem q hr)]

/-- The values of a tree into which a node that was made is linked. -/
theorem Made.values_link {p i : ℕ} {w : α} (m : Made s h p w t)
    (hlive : ∀ q ∈ s.icont h, (s.valueAt q).isSome) :
    (t.link h p i).values h = (s.values h).insertIdx i w := by
  have hkeep : ∀ q ∈ s.icont h, t.valueAt q = s.valueAt q :=
    fun q hq => m.valueAt_of_owned (hlive q hq)
  show (update t.icont h ((t.icont h).insertIdx i p) h).filterMap t.valueAt = _
  rw [update_self, m.icont]
  have hlive' : ∀ q ∈ s.icont h, (t.valueAt q).isSome := by
    intro q hq
    rw [hkeep q hq]
    exact hlive q hq
  rw [filterMap_insertIdx m.valueAt _ hlive', List.filterMap_congr hkeep]
  rfl

theorem Made.values_of_live {p : ℕ} {w : α} (m : Made s h p w t)
    (hlive : ∀ q ∈ s.icont h, (s.valueAt q).isSome) : t.values h = s.values h := by
  rw [State.values, m.icont]
  exact List.filterMap_congr fun q hq => m.valueAt_of_owned (hlive q hq)

end Move

section Insert

variable {e : Env κ α} {s : State α} {h : ℕ} {v : α}

/-- **`insert_unique` adds the value where the search ended.** -/
theorem insertUniqueConvertible_values (hlive : ∀ q ∈ s.icont h, (s.valueAt q).isSome) :
    (insertUniqueConvertible e h none v s).Meets
      (fun _ u => ∃ n, (∃ i, e.check n (s.values h) none (e.keyOf v) = .present i
          ∧ u.values h = s.values h)
        ∨ ∃ i, e.check n (s.values h) none (e.keyOf v) = .absent i
          ∧ u.values h = (s.values h).insertIdx i v)
      (fun _ => True) := by
  unfold insertUniqueConvertible
  show (Prog.bind (insertUniqueCheck e h none (e.keyOf v)) _ s).Meets _ _
  rw [Prog.bind, insertUniqueCheck]
  rcases hc : e.check s.ops (s.values h) none (e.keyOf v) with - | i | i
  · trivial
  · exact ⟨s.ops, Or.inl ⟨i, hc, rfl⟩⟩
  · dsimp only
    rw [if_pos rfl]
    unfold insertUniqueCommit
    refine Prog.bind_meets ((createNode_meets e s h v _ ((Unchanged.refl s).ops (s.ops + 1))).imp
      (fun _ _ => id) fun _ _ => trivial) fun p t m => ?_
    have hlink : ((icontInsertUniqueCommit h p i).onThrow (destroyNode h p)) t
        = .done () (t.link h p i) := rfl
    rw [hlink]
    exact ⟨s.ops, Or.inr ⟨i, hc, m.values_link hlive⟩⟩

/-- **`insert_equal` adds the value where the search ended.** -/
theorem insertEqualConvertible_values (hlive : ∀ q ∈ s.icont h, (s.valueAt q).isSome) :
    (insertEqualConvertible e h none v s).Meets
      (fun _ u => ∃ n i, e.insertEqual n (s.values h) none v = some i
        ∧ u.values h = (s.values h).insertIdx i v)
      (fun _ => True) := by
  unfold insertEqualConvertible
  refine Prog.bind_meets ((createNode_meets e s h v s (Unchanged.refl s)).imp
    (fun _ _ => id) fun _ _ => trivial) fun p t m => ?_
  have hvalues := m.values_of_live hlive
  have hinsert : (icontInsertEqual e h none p t).Meets
      (fun _ u => ∃ n i, e.insertEqual n (s.values h) none v = some i
        ∧ u.values h = (s.values h).insertIdx i v) (Made s h p v) := by
    have hget : getData p t = .done v t := by rw [getData, m.valueAt]
    rw [icontInsertEqual, Prog.bind_of_done hget, ← hvalues]
    show (Prog.bind (insertEqualSearch e h none v) _ t).Meets _ _
    rw [Prog.bind, insertEqualSearch]
    rcases hc : e.insertEqual t.ops (t.values h) none v with - | i
    · exact m.ops _
    · refine ⟨t.ops, i, hc, ?_⟩
      have hlink := (m.ops (t.ops + 1)).values_link (i := i.1) hlive
      exact hlink.trans (congrArg (fun l => l.insertIdx i.1 v) hvalues.symm)
  have hguard : Prog.Meets (fun r => r = t)
      ((icontInsertEqual e h none p).onThrow (destroyNode h p)) _ (fun _ => True) :=
    Prog.Meets.onThrow (fun r hr => hr ▸ hinsert)
      ((destroyNode_meets _ s h p v).post fun _ _ _ => trivial)
  exact hguard t rfl

/-- **A tree in order acts as the set, or multiset, of its elements.** -/
theorem actsAs {c : Compare κ} {find : List α → κ → Option ℕ} (hsearch : e.Searches c find)
    {unique : Bool} (hs : (c.onKey e.keyOf).InOrder unique (s.values h))
    (hlive : ∀ q ∈ s.icont h, (s.valueAt q).isSome) :
    c.ActsAs e.keyOf unique (s.values h) (find (s.values h))
      fun v m => ∃ u, insertValue e unique h v s = .done () u ∧ u.values h = m := by
  have hsorted : (c.onKey e.keyOf).Sorted (s.values h) := by
    cases unique with
    | true => exact Compare.StrictlySorted.sorted hs
    | false => exact hs
  refine ⟨hsearch.found _ hsorted, hsearch.missing _ hsorted, ?_⟩
  rintro v m ⟨u, hu, rfl⟩
  cases unique with
  | true =>
    have hvalues := insertUniqueConvertible_values (e := e) (v := v) hlive
    rw [insertValue, if_pos rfl] at hu
    rw [hu] at hvalues
    obtain ⟨n, ⟨i, hc, heq⟩ | ⟨i, hc, heq⟩⟩ := hvalues
    · have hequiv := hsearch.present n _ hs none _ i hc
      rw [heq, if_pos ⟨rfl, _, List.getElem_mem i.2, hequiv⟩]
      exact ⟨hs, rfl⟩
    · have hin := hsearch.absent n _ hs none v i hc
      have hperm := List.perm_insertIdx v (s.values h) (Nat.lt_succ_iff.mp i.2)
      have hno : ¬ (true = true ∧ ∃ w ∈ s.values h, (c.onKey e.keyOf).equiv w v = true) := by
        rintro ⟨-, w, hw, hequiv⟩
        rw [Compare.StrictlySorted.not_equiv_of_perm hin hperm w hw] at hequiv
        cases hequiv
      rw [heq, if_neg hno]
      exact ⟨hin, hperm⟩
  | false =>
    have hvalues := insertEqualConvertible_values (e := e) (v := v) hlive
    rw [insertValue, if_neg Bool.false_ne_true] at hu
    rw [hu] at hvalues
    obtain ⟨n, i, hc, heq⟩ := hvalues
    rw [heq, if_neg (fun hand => Bool.false_ne_true hand.1)]
    exact ⟨hsearch.equal n _ hs none v i hc,
      List.perm_insertIdx v (s.values h) (Nat.lt_succ_iff.mp i.2)⟩

end Insert

end Tree
