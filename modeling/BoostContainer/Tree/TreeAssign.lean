import BoostContainer.Tree.TreeClone

/-!
# Assignment of trees

An assignment that cannot take the nodes of its source makes the destination
anew. Its old nodes are detached first, and reused one by one for the elements
of the source; those that are left in the end are destroyed. If it throws, then
the destination is empty, and none of its old and new nodes is left.
-/

open Function

namespace Tree

variable {κ α : Type}

section Assignments

variable (e : Env κ α) (h : ℕ)

/-- `clear` -/
def clear : Prog (State α) Unit := do
  let ps ← Prog.gets fun s => s.icont h
  Prog.modify fun s => { s with icont := update s.icont h [] }
  destroyAll h ps

/-- The tree made anew, of nodes that it had: what copy and move assignment have
in common. -/
def rebuild (move : Bool) (x : ℕ) : Prog (State α) Unit := do
  Prog.modify fun s => { s with
    otherTree := s.icont h
    icont := update s.icont h [] }
  cloneFrom e h (recyclingCloner e h move) x
  destroyOtherTree h

/-- The allocator, assigned where it propagates. -/
def assignAlloc (propagates : Bool) (x : ℕ) : Prog (State α) Unit :=
  if propagates then Prog.modify fun s => { s with alloc := update s.alloc h (s.alloc x) }
  else pure ()

/-- `operator=(const tree&)` -/
def copyAssign (propagates : Bool) (x : ℕ) : Prog (State α) Unit :=
  if h = x then pure ()
  else do
    let differ ← Prog.gets fun s => decide (s.alloc h ≠ s.alloc x)
    (if propagates && differ then clear h else pure ())
    assignAlloc h propagates x
    rebuild e h false x

/-- `priv_move_assign`, where the nodes can be taken. -/
def privMoveAssignSteal (propagates : Bool) (x : ℕ) : Prog (State α) Unit := do
  clear h
  assignAlloc h propagates x
  Prog.modify fun s => { s with icont := update (update s.icont h (s.icont x)) x [] }

/-- `priv_move_assign`, where that depends on the allocators. -/
def privMoveAssign (x : ℕ) : Prog (State α) Unit := do
  let equal ← Prog.gets fun s => decide (s.alloc h = s.alloc x)
  (if equal then privMoveAssignSteal h false x else rebuild e h true x)

/-- `operator=(tree&&)` -/
def moveAssign (propagates alwaysEqual : Bool) (x : ℕ) : Prog (State α) Unit :=
  if h = x then pure ()
  else if propagates || alwaysEqual then privMoveAssignSteal h propagates x
  else privMoveAssign e h x

end Assignments

/-! ## What stays as it was while nodes are destroyed -/

theorem destroyNode_keeps {h p r : ℕ} (hne : r ≠ p) :
    Prog.Keeps (fun s : State α => s.heap r) (destroyNode h p) := by
  have hdestructor : Prog.Keeps (fun s : State α => s.heap r) (destructor p) := by
    intro s
    rw [destructor]
    split
    · exact update_of_ne hne _ _
    · trivial
  have hdeallocate : Prog.Keeps (fun s : State α => s.heap r) (deallocateOne h p) := by
    intro s
    rw [deallocateOne]
    split
    · split
      · exact update_of_ne hne _ _
      · trivial
    · trivial
  exact hdestructor.bind fun _ => hdeallocate

theorem drain_keeps {h r : ℕ} {ps : List ℕ} (hr : r ∉ ps) :
    Prog.Keeps (fun s : State α => s.heap r) (drain h ps) := by
  induction ps with
  | nil => exact Prog.keeps_pure ()
  | cons p ps ih =>
    rw [List.mem_cons, not_or] at hr
    have hunlink : Prog.Keeps (fun s : State α => s.heap r)
        (Prog.modify fun s => { s with otherTree := ps }) := Prog.keeps_modify fun _ => rfl
    exact hunlink.bind fun _ => (destroyNode_keeps hr.1).bind fun _ => ih hr.2

/-! ## The tree, made anew -/

section Rebuild

variable {e : Env κ α} {s t : State α} {h x : ℕ} {move : Bool}

/-- **Two trees that are well formed**: their nodes are alive, and each has its
own. -/
structure Trees (s : State α) (h x : ℕ) : Prop where
  dest : ∀ p ∈ s.icont h, ∃ v, s.heap p = some ⟨s.alloc h, some v⟩
  dest_nodup : (s.icont h).Nodup
  source : ∀ q ∈ s.icont x, ∃ v, s.heap q = some ⟨s.alloc x, some v⟩
  source_nodup : (s.icont x).Nodup
  apart : h ≠ x → ∀ p ∈ s.icont h, p ∉ s.icont x

/-- **What a tree that was made anew is.** -/
structure Rebuilt (e : Env κ α) (s : State α) (h x : ℕ) (move : Bool) (t : State α) : Prop where
  icont : ∀ k, k ≠ h → t.icont k = s.icont k
  alloc : t.alloc = s.alloc
  nodup : (t.icont h).Nodup
  live : ∀ p ∈ t.icont h, ∃ v, t.heap p = some ⟨s.alloc h, some v⟩
  own : ∀ p ∈ t.icont h, p ∈ s.icont h ∨ s.heap p = none
  source : ∀ q ∈ s.icont x, ∃ o v w, s.heap q = some ⟨o, some v⟩ ∧ t.heap q = some ⟨o, some w⟩
  rest : ∀ p, p ∉ t.icont h → p ∉ s.icont x →
    t.heap p = if p ∈ s.icont h then none else s.heap p
  values : t.values h = s.values x
  sourceValues : t.values x = (s.values x).map (if move then e.moved else id)

/-- **What is left when that throws**: an empty tree, and no node of it. -/
structure Abandoned (s : State α) (h x : ℕ) (t : State α) : Prop where
  empty : t.icont h = []
  icont : ∀ k, k ≠ h → t.icont k = s.icont k
  alloc : t.alloc = s.alloc
  source : ∀ q ∈ s.icont x, ∃ o v w, s.heap q = some ⟨o, some v⟩ ∧ t.heap q = some ⟨o, some w⟩
  rest : ∀ p, p ∉ s.icont x → t.heap p = if p ∈ s.icont h then none else s.heap p

/-- The old nodes, detached. -/
def State.detach (s : State α) (h : ℕ) : State α :=
  { s with
    otherTree := s.icont h
    icont := update s.icont h [] }

theorem Trees.ledger (v : Trees s h x) (hne : h ≠ x) :
    Ledger (s.detach h) h (s.icont h) (s.icont x) (s.icont h) (s.icont h) (s.detach h) where
  nodup := v.dest_nodup
  live := v.dest
  apart := v.apart hne
  own p hp := Or.inl hp
  source q hq := by
    obtain ⟨w, hw⟩ := v.source q hq
    exact ⟨s.alloc x, w, w, hw, hw⟩
  rest p hp _ := (if_neg hp).symm
  icont := rfl
  alloc := rfl
  handle := rfl
  otherTree := rfl
  left p hp := hp
/-- What was not reused is destroyed. -/
theorem ClonedFrom.rebuilt {other : List ℕ} {cloneOf : ℕ → ℕ} {t' : State α} (hne : h ≠ x)
    (c : ClonedFrom e (s.detach h) h x move (s.icont h) other cloneOf t)
    (l : Ledger { s.detach h with icont := t.icont } h (s.icont h) (s.icont x) []
      ((s.icont x).map cloneOf) t') (hkeep : ∀ r, r ∉ other → t'.heap r = t.heap r) :
    Rebuilt e s h x move t' := by
  have hsrc : (s.detach h).icont x = s.icont x := update_of_ne hne.symm _ _
  have hicont : t'.icont h = (s.icont x).map cloneOf := by
    rw [l.icont]
    show t.icont h = _
    rw [c.icont, update_self, hsrc]
  have hx : t'.icont x = s.icont x := by
    rw [l.icont]
    show t.icont x = _
    rw [c.icont, update_of_ne hne.symm, hsrc]
  have hvalue : ∀ r, r ∉ other → t'.valueAt r = t.valueAt r := by
    intro r hr
    rw [State.valueAt, State.valueAt, hkeep r hr]
  have hclone : ∀ q ∈ s.icont x, cloneOf q ∉ other := by
    intro q hq hother
    have hdisj := (List.nodup_append.mp c.ledger.nodup).2.2
    rw [hsrc] at hdisj
    exact hdisj _ hother _ (List.mem_map_of_mem hq) rfl
  have hsource : ∀ q ∈ s.icont x, q ∉ other := by
    intro q hq hother
    exact c.ledger.apart q (List.mem_append_left _ hother) (hsrc ▸ hq)
  refine ⟨fun k hk => ?_, l.alloc, ?_, ?_, ?_, l.source, ?_, ?_, ?_⟩
  · rw [l.icont]
    show t.icont k = _
    rw [c.icont, update_of_ne hk]
    exact update_of_ne hk _ _
  · rw [hicont]
    exact l.nodup
  · rw [hicont]
    exact l.live
  · rw [hicont]
    exact l.own
  · rw [hicont]
    exact l.rest
  · rw [State.values, hicont, List.filterMap_map]
    refine List.filterMap_congr fun q hq => ?_
    show t'.valueAt (cloneOf q) = _
    rw [hvalue _ (hclone q hq), c.clone q (hsrc ▸ hq)]
    rfl
  · rw [State.values, hx, State.values, List.map_filterMap]
    refine List.filterMap_congr fun q hq => ?_
    rw [hvalue q (hsource q hq), c.source q (hsrc ▸ hq)]
    rfl

/-- **The tree is made anew, or nothing is left of it.** -/
theorem rebuild_meets (e : Env κ α) (move : Bool) (v : Trees s h x) (hne : h ≠ x) :
    (rebuild e h move x s).Meets (fun _ => Rebuilt e s h x move) (Abandoned s h x) := by
  have hsrc : (s.detach h).icont x = s.icont x := update_of_ne hne.symm _ _
  have hcloner := recyclingCloner_clones e (s.detach h) h (s.icont h) (s.icont x) move
  have l := v.ledger hne
  have hnodup := v.source_nodup
  rw [← hsrc] at hcloner l hnodup
  have hclone := cloneFrom_meets hcloner l hnodup
  rw [hsrc] at hclone
  have habandoned : ∀ t, Ledger (s.detach h) h (s.icont h) (s.icont x) [] [] t →
      Abandoned s h x t := by
    intro t l
    refine ⟨?_, fun k hk => ?_, l.alloc, l.source, fun p hp => l.rest p List.not_mem_nil hp⟩
    · rw [l.icont]
      exact update_self _ _ _
    · rw [l.icont]
      exact update_of_ne hk _ _
  unfold rebuild
  rw [Prog.modify_bind]
  refine Prog.bind_meets (hclone.imp (fun _ _ => id) habandoned) fun _ t ⟨cloneOf, other, c⟩ => ?_
  have lc := c.ledger
  rw [hsrc] at lc
  unfold destroyOtherTree
  rw [Prog.gets_bind, lc.otherTree]
  have hdrain := drain_ledger (E := fun _ => False) other t lc
  have hkeep : ∀ r, r ∉ other → (drain h other t).Permits (fun _ t' => t'.heap r = t.heap r)
      fun t' => t'.heap r = t.heap r := fun r hr => drain_keeps hr t
  cases hrun : drain h other t with
  | done u t' =>
    rw [hrun] at hdrain
    refine c.rebuilt hne hdrain fun r hr => ?_
    have hr' := hkeep r hr
    rw [hrun] at hr'
    exact hr'
  | threw t' =>
    rw [hrun] at hdrain
    exact hdrain.elim
  | undefined =>
    rw [hrun] at hdrain
    exact hdrain.elim

/-! ## Assignment -/

/-- **What an assignment leaves**: the sequence of the source, in nodes that are
those of the source, reused or new; every old node that is not reused is gone,
and the rest of memory is as it was. -/
structure Assigned (s : State α) (h x : ℕ) (propagates : Bool) (t : State α) : Prop where
  values : t.values h = s.values x
  trees : Trees t h x
  own : ∀ p ∈ t.icont h, p ∈ s.icont h ∨ p ∈ s.icont x ∨ s.heap p = none
  rest : ∀ p, p ∉ t.icont h → p ∉ s.icont x →
    t.heap p = if p ∈ s.icont h then none else s.heap p
  icont : ∀ k, k ≠ h → k ≠ x → t.icont k = s.icont k
  alloc : t.alloc h = if propagates then s.alloc x else s.alloc h

/-- **What an assignment leaves that throws**: an empty tree, and none of its old
and new nodes. -/
structure Left (s : State α) (h x : ℕ) (t : State α) : Prop where
  empty : t.icont h = []
  trees : Trees t h x
  rest : ∀ p, p ∉ s.icont x → t.heap p = if p ∈ s.icont h then none else s.heap p
  icont : ∀ k, k ≠ h → t.icont k = s.icont k

/-- All nodes of the trees destroyed. -/
def State.cleared (s : State α) (h : ℕ) : State α :=
  { s with
    icont := update s.icont h []
    heap := fun p => if p ∈ s.icont h then none else s.heap p }

theorem destroyAll_done (ps : List ℕ) (hnodup : ps.Nodup)
    (hlive : ∀ p ∈ ps, ∃ v, s.heap p = some ⟨s.alloc h, some v⟩) :
    destroyAll h ps s
      = .done () { s with heap := fun p => if p ∈ ps then none else s.heap p } := by
  induction ps generalizing s with
  | nil => rfl
  | cons p ps ih =>
    obtain ⟨hp, hnodup⟩ := List.nodup_cons.mp hnodup
    obtain ⟨v, hv⟩ := hlive p List.mem_cons_self
    have hdone : destroyNode h p s = .done () (s.setCell p none) := destroyNode_done hv
    rw [destroyAll, Prog.bind_of_done hdone, ih hnodup]
    · have hheap : (fun r => if r ∈ ps then none else (s.setCell p none).heap r)
          = fun r => if r ∈ p :: ps then none else s.heap r := by
        funext r
        by_cases hrp : r = p
        · subst hrp
          rw [if_neg hp, if_pos List.mem_cons_self, s.heap_setCell_self]
        · rw [s.heap_setCell_of_ne hrp]
          exact if_congr (List.mem_cons.trans (or_iff_right hrp)).symm rfl rfl
      rw [hheap]
      rfl
    · intro r hr
      have hrp : r ≠ p := fun hrp => hp (hrp ▸ hr)
      rw [s.heap_setCell_of_ne hrp]
      exact hlive r (List.mem_cons_of_mem p hr)

theorem clear_done (v : Trees s h x) : clear h s = .done () (s.cleared h) := by
  unfold clear
  rw [Prog.gets_bind, Prog.modify_bind]
  exact destroyAll_done (s := { s with icont := update s.icont h [] }) _ v.dest_nodup v.dest

theorem assignAlloc_done (h : ℕ) (propagates : Bool) (x : ℕ) (s : State α) :
    assignAlloc h propagates x s = .done () (if propagates
      then { s with alloc := update s.alloc h (s.alloc x) } else s) := by
  cases propagates <;> rfl

/-- The source of an assignment is apart from what is cleared. -/
theorem Trees.heap_cleared (v : Trees s h x) (hne : h ≠ x) {q : ℕ} (hq : q ∈ s.icont x) :
    (s.cleared h).heap q = s.heap q :=
  if_neg fun hmem => v.apart hne q hmem hq

theorem Trees.values_cleared (v : Trees s h x) (hne : h ≠ x) :
    (s.cleared h).icont x = s.icont x ∧ (s.cleared h).values x = s.values x := by
  have hx : (s.cleared h).icont x = s.icont x := update_of_ne hne.symm _ _
  refine ⟨hx, ?_⟩
  rw [State.values, hx]
  refine List.filterMap_congr fun q hq => ?_
  rw [State.valueAt, v.heap_cleared hne hq]
  rfl

/-- A tree that was made anew from a source of equal allocator settings. -/
theorem Rebuilt.assigned {move : Bool} (r : Rebuilt e s h x move t) (v : Trees s h x)
    (hne : h ≠ x) : Assigned s h x false t := by
  have hx : t.icont x = s.icont x := r.icont x hne.symm
  refine ⟨r.values, ⟨?_, r.nodup, ?_, ?_, fun _ => ?_⟩, fun p hp => ?_, r.rest,
    fun k hk _ => r.icont k hk, ?_⟩
  · rw [r.alloc]
    exact r.live
  · intro q hq
    rw [hx] at hq
    obtain ⟨o, v', w, hs, ht⟩ := r.source q hq
    obtain ⟨w', hw'⟩ := v.source q hq
    rw [hw'] at hs
    cases hs
    rw [r.alloc]
    exact ⟨w, ht⟩
  · rw [hx]
    exact v.source_nodup
  · intro p hp hpx
    rw [hx] at hpx
    rcases r.own p hp with hold | hnone
    · exact v.apart hne p hold hpx
    · obtain ⟨w, hw⟩ := v.source p hpx
      rw [hnone] at hw
      cases hw
  · rcases r.own p hp with hold | hnone
    · exact Or.inl hold
    · exact Or.inr (Or.inr hnone)
  · rw [r.alloc]
    rfl

theorem Abandoned.left (a : Abandoned s h x t) (v : Trees s h x) (hne : h ≠ x) :
    Left s h x t := by
  have hx : t.icont x = s.icont x := a.icont x hne.symm
  refine ⟨a.empty, ⟨?_, ?_, ?_, ?_, fun _ => ?_⟩, a.rest, a.icont⟩
  · rw [a.empty]
    exact fun p hp => nomatch hp
  · rw [a.empty]
    exact List.nodup_nil
  · intro q hq
    rw [hx] at hq
    obtain ⟨o, v', w, hs, ht⟩ := a.source q hq
    obtain ⟨w', hw'⟩ := v.source q hq
    rw [hw'] at hs
    cases hs
    rw [a.alloc]
    exact ⟨w, ht⟩
  · rw [hx]
    exact v.source_nodup
  · rw [a.empty]
    exact fun p hp => nomatch hp

/-- The destination, cleared, with the allocator of the source. -/
def State.emptied (s : State α) (h x : ℕ) : State α :=
  { s.cleared h with alloc := update s.alloc h (s.alloc x) }

theorem Trees.emptied (v : Trees s h x) (hne : h ≠ x) : Trees (s.emptied h x) h x := by
  have hh : (s.emptied h x).icont h = [] := update_self _ _ _
  have hx : (s.emptied h x).icont x = s.icont x := (v.values_cleared hne).1
  refine ⟨?_, ?_, fun q hq => ?_, ?_, fun _ => ?_⟩
  · rw [hh]
    exact fun p hp => nomatch hp
  · rw [hh]
    exact List.nodup_nil
  · rw [hx] at hq
    obtain ⟨w, hw⟩ := v.source q hq
    refine ⟨w, ?_⟩
    show (s.cleared h).heap q = some ⟨update s.alloc h (s.alloc x) x, some w⟩
    rw [v.heap_cleared hne hq, update_of_ne hne.symm, hw]
  · rw [hx]
    exact v.source_nodup
  · rw [hh]
    exact fun p hp => nomatch hp

/-- What is assigned to a tree that was cleared is assigned to the tree. -/
theorem Assigned.of_emptied (r : Assigned (s.emptied h x) h x false t) (v : Trees s h x)
    (hne : h ≠ x) : Assigned s h x true t := by
  have hh : (s.emptied h x).icont h = [] := update_self _ _ _
  have hx : (s.emptied h x).icont x = s.icont x := (v.values_cleared hne).1
  refine ⟨r.values.trans (v.values_cleared hne).2, r.trees, fun p hp => ?_, fun p hp hpx => ?_,
    fun k hk hkx => (r.icont k hk hkx).trans (update_of_ne hk _ _), ?_⟩
  · rcases r.own p hp with hold | hsrc | hnone
    · rw [hh] at hold
      cases hold
    · exact Or.inr (Or.inl (hx ▸ hsrc))
    · change (if p ∈ s.icont h then none else s.heap p) = none at hnone
      split at hnone
      · next hold => exact Or.inl hold
      · exact Or.inr (Or.inr hnone)
  · have hrest := r.rest p hp (hx ▸ hpx)
    rw [hh, if_neg List.not_mem_nil] at hrest
    exact hrest
  · rw [r.alloc]
    exact update_self _ _ _

theorem Left.of_emptied (r : Left (s.emptied h x) h x t) (v : Trees s h x)
    (hne : h ≠ x) : Left s h x t := by
  have hh : (s.emptied h x).icont h = [] := update_self _ _ _
  have hx : (s.emptied h x).icont x = s.icont x := (v.values_cleared hne).1
  refine ⟨r.empty, r.trees, fun p hp => ?_, fun k hk => (r.icont k hk).trans (update_of_ne hk _ _)⟩
  have hrest := r.rest p (hx ▸ hp)
  rw [hh, if_neg List.not_mem_nil] at hrest
  exact hrest

/-- A tree is assigned to itself by nothing. -/
theorem Trees.assigned_self (v : Trees s h h) (propagates : Bool) :
    Assigned s h h propagates s := by
  refine ⟨rfl, v, fun p hp => Or.inl hp, fun p hp _ => (if_neg hp).symm, fun _ _ _ => rfl, ?_⟩
  rw [ite_self]

/-- **Copy assignment.** -/
theorem copyAssign_meets (e : Env κ α) (propagates : Bool) (v : Trees s h x) :
    (copyAssign e h propagates x s).Meets (fun _ => Assigned s h x propagates)
      (Left s h x) := by
  unfold copyAssign
  by_cases hne : h = x
  · subst hne
    rw [if_pos rfl]
    exact v.assigned_self propagates
  rw [if_neg hne, Prog.gets_bind]
  have hrebuild : (rebuild e h false x s).Meets (fun _ => Assigned s h x false) (Left s h x) :=
    (rebuild_meets e false v hne).imp (fun _ _ r => r.assigned v hne) fun _ a => a.left v hne
  cases propagates with
  | false => exact hrebuild
  | true =>
    by_cases hdiffer : s.alloc h = s.alloc x
    · rw [decide_eq_false (not_not.mpr hdiffer)]
      have hsame : update s.alloc h (s.alloc x) = s.alloc := by
        rw [← hdiffer, update_eq_self]
      show (rebuild e h false x { s with alloc := update s.alloc h (s.alloc x) }).Meets _ _
      rw [hsame]
      refine hrebuild.imp (fun _ t r => ⟨r.values, r.trees, r.own, r.rest, r.icont, ?_⟩)
        fun _ => id
      rw [r.alloc]
      exact hdiffer
    · rw [decide_eq_true hdiffer]
      have hrun : (clear h >>= fun _ => assignAlloc h true x) s = .done () (s.emptied h x) := by
        rw [Prog.bind_of_done (clear_done v)]
        rfl
      show ((clear h >>= fun _ => assignAlloc h true x >>= fun _ => rebuild e h false x) s).Meets
        _ _
      rw [← Prog.bind_assoc, Prog.bind_of_done hrun]
      have v' := v.emptied hne
      exact (rebuild_meets e false v' hne).imp
        (fun _ _ r => (r.assigned v' hne).of_emptied v hne)
        fun _ a => (a.left v' hne).of_emptied v hne

/-- **A move assignment that takes the nodes**, where that is allowed. -/
theorem privMoveAssignSteal_meets (propagates : Bool) (v : Trees s h x) (hne : h ≠ x)
    (hequal : propagates = false → s.alloc h = s.alloc x) :
    (privMoveAssignSteal h propagates x s).Meets (fun _ => Assigned s h x propagates)
      (Left s h x) := by
  unfold privMoveAssignSteal
  rw [Prog.bind_of_done (clear_done v), Prog.bind_of_done (assignAlloc_done h propagates x _)]
  generalize ht : (if propagates then
    { s.cleared h with alloc := update (s.cleared h).alloc h ((s.cleared h).alloc x) }
    else s.cleared h) = t
  have hheap : t.heap = (s.cleared h).heap := by
    rw [← ht]
    cases propagates <;> rfl
  have hicont : t.icont = update s.icont h [] := by
    rw [← ht]
    cases propagates <;> rfl
  have halloc : t.alloc h = (if propagates then s.alloc x else s.alloc h)
      ∧ t.alloc x = s.alloc x := by
    rw [← ht]
    cases propagates with
    | true => exact ⟨update_self _ _ _, update_of_ne hne.symm _ _⟩
    | false => exact ⟨rfl, rfl⟩
  have howner : t.alloc h = s.alloc x := by
    rw [halloc.1]
    cases propagates with
    | true => rfl
    | false => exact hequal rfl
  have hx : t.icont x = s.icont x := by
    rw [hicont]
    exact update_of_ne hne.symm _ _
  show Assigned s h x propagates
    { t with icont := update (update t.icont h (t.icont x)) x [] }
  have hdest : update (update t.icont h (t.icont x)) x [] h = s.icont x := by
    rw [update_of_ne hne, update_self, hx]
  have hsource : update (update t.icont h (t.icont x)) x [] x = [] := update_self _ _ _
  have hcell : ∀ q ∈ s.icont x, t.heap q = s.heap q := by
    intro q hq
    rw [hheap]
    exact v.heap_cleared hne hq
  refine ⟨?_, ⟨?_, ?_, ?_, ?_, fun _ => ?_⟩, ?_, ?_, fun k hk hkx => ?_, halloc.1⟩
  · rw [State.values]
    dsimp only
    rw [hdest]
    refine List.filterMap_congr fun q hq => ?_
    show (t.heap q).bind _ = _
    rw [hcell q hq]
    rfl
  · dsimp only
    rw [hdest, howner]
    intro q hq
    rw [hcell q hq]
    exact v.source q hq
  · dsimp only
    rw [hdest]
    exact v.source_nodup
  · dsimp only
    rw [hsource]
    exact fun q hq => nomatch hq
  · dsimp only
    rw [hsource]
    exact List.nodup_nil
  · dsimp only
    rw [hsource]
    exact fun q _ hq => nomatch hq
  · dsimp only
    rw [hdest]
    exact fun q hq => Or.inr (Or.inl hq)
  · dsimp only
    rw [hdest, hheap]
    exact fun q _ _ => rfl
  · dsimp only
    rw [update_of_ne hkx, update_of_ne hk, hicont, update_of_ne hk]

/-- **Move assignment**, where always equal allocators are equal. -/
theorem moveAssign_meets (e : Env κ α) (propagates alwaysEqual : Bool) (v : Trees s h x)
    (hequal : alwaysEqual = true → s.alloc h = s.alloc x) :
    (moveAssign e h propagates alwaysEqual x s).Meets (fun _ => Assigned s h x propagates)
      (Left s h x) := by
  unfold moveAssign
  by_cases hne : h = x
  · subst hne
    rw [if_pos rfl]
    exact v.assigned_self propagates
  rw [if_neg hne]
  split
  · next hsteal =>
    refine privMoveAssignSteal_meets propagates v hne fun hp => hequal ?_
    rwa [hp, Bool.false_or] at hsteal
  · next hsteal =>
    have hp : propagates = false := by
      rw [Bool.or_eq_true, not_or, Bool.not_eq_true] at hsteal
      exact hsteal.1
    subst hp
    unfold privMoveAssign
    rw [Prog.gets_bind]
    by_cases hsame : s.alloc h = s.alloc x
    · rw [decide_eq_true hsame]
      exact privMoveAssignSteal_meets false v hne fun _ => hsame
    · rw [decide_eq_false hsame]
      exact (rebuild_meets e true v hne).imp (fun _ _ r => r.assigned v hne)
        fun _ a => a.left v hne

/-- **The assignments of a tree**, with what is known of its allocators. -/
inductive Assignment
  | copy (propagates : Bool)
  | move (propagates alwaysEqual : Bool)

namespace Assignment

def run (e : Env κ α) (h x : ℕ) : Assignment → Prog (State α) Unit
  | .copy propagates => copyAssign e h propagates x
  | .move propagates alwaysEqual => moveAssign e h propagates alwaysEqual x

/-- Whether the allocator is assigned too. -/
def propagates : Assignment → Bool
  | .copy p => p
  | .move p _ => p

/-- What `is_always_equal` says is so. -/
def Honest (s : State α) (h x : ℕ) : Assignment → Prop
  | .move _ true => s.alloc h = s.alloc x
  | _ => True

/-- **An assignment makes the destination equal to the source, or empties it.**
Every old node is reused or given back, every new one is linked or given back,
and none by an allocator that it is not from: that would not be defined. -/
theorem run_assigns (e : Env κ α) (v : Trees s h x) (a : Assignment) (ha : a.Honest s h x) :
    Prog.Meets (fun t => t = s) (a.run e h x) (fun _ => Assigned s h x a.propagates)
      (Left s h x) := by
  intro t ht
  rw [ht]
  cases a with
  | copy propagates => exact copyAssign_meets e propagates v
  | move propagates alwaysEqual =>
    refine moveAssign_meets e propagates alwaysEqual v fun heq => ?_
    subst heq
    exact ha

/-- A tree of two elements, and one of one. -/
def twoTrees : State ℕ where
  heap p := if p = 1 then some ⟨0, some 10⟩ else if p = 2 then some ⟨0, some 20⟩
    else if p = 3 then some ⟨5, some 30⟩ else none
  icont h := if h = 0 then [1, 2] else if h = 1 then [3] else []
  alloc h := if h = 0 then 0 else 5
  handle := none
  otherTree := []
  ops := 0
  torn := 0

theorem twoTrees_trees : Trees twoTrees 0 1 where
  dest p hp := by
    rcases List.mem_pair.mp (show p ∈ [1, 2] from hp) with rfl | rfl
    · exact ⟨10, rfl⟩
    · exact ⟨20, rfl⟩
  dest_nodup := show [1, 2].Nodup by decide
  source q hq := by
    obtain rfl := List.mem_singleton.mp (show q ∈ [3] from hq)
    exact ⟨30, rfl⟩
  source_nodup := List.nodup_singleton 3
  apart _ p hp hpx := by
    obtain rfl := List.mem_singleton.mp (show p ∈ [3] from hpx)
    rcases List.mem_pair.mp (show 3 ∈ [1, 2] from hp) with h | h
    · cases h
    · cases h

/-- Elements whose second operation throws. -/
def secondThrows : Env ℕ ℕ where
  throws n := n == 1
  node used := if hfree : used 7 = false then some ⟨7, hfree⟩ else none
  visit l := ⟨l, List.Perm.refl l⟩
  moved _ := 0
  torn _ := 0
  keyOf v := v
  check _ _ _ _ := .absent 0
  insertEqual _ _ _ _ := some 0

theorem run_assigns_sample :
    Prog.Meets (fun t => t = twoTrees) ((Assignment.move false false).run secondThrows 0 1)
      (fun _ => Assigned twoTrees 0 1 false) (Left twoTrees 0 1) :=
  run_assigns secondThrows twoTrees_trees (.move false false) trivial

end Assignment

end Rebuild

end Tree
