import BoostContainer.Lib.Links

/-!
# Editing a singly linked list

`slist` keeps its elements in nodes that are linked one after the other and back to
the header, which is both `before_begin()` and `end()`. A range is inserted node by
node, or, where the allocator serves bursts and the iterators can be counted first,
all nodes are taken at once and a functor links them. The functor is passed by value,
so that what it has seen is lost.

Exceptions are left out here. The intrusive list is not part of the repository; the
functions of it that are called are given link by link.
-/

namespace Slist

/-! ## The list in memory -/

/-- **A list**: the header, the links and the values of the nodes, the stored size, and
the nodes that the allocator grants next. -/
structure State (N α : Type) where
  root : N
  next : N → Option N
  value : N → Option α
  size : ℕ
  supply : List N

/-- `version_1`, or `version_2` with its bursts. -/
inductive AllocVersion where
  | version1
  | version2
  deriving DecidableEq

/-- Whether the iterators are only input iterators. -/
inductive Category where
  | input
  | forward
  deriving DecidableEq

section Definitions

variable {N α : Type} [DecidableEq N]

/-- `icont().insert_after(prev, n)`: the iterator of the node. -/
def icontInsertAfter (prev n : N) (s : State N α) : Option (N × State N α) :=
  (s.next prev).map (fun next =>
    (n, { s with
      next := Function.update (Function.update s.next n (some next)) prev (some n)
      size := s.size + 1 }))

/-- The nodes from `fp` on are destroyed, before the last. -/
def disposeLoop (last : N) : ℕ → N → State N α → Option (State N α)
  | 0, fp, s => if fp = last then some s else none
  | fuel + 1, fp, s =>
    if fp = last then some s
    else (s.next fp).bind (fun next => disposeLoop last fuel next { s with
      next := Function.update s.next fp none
      value := Function.update s.value fp none
      size := s.size - 1 })

/-- **`erase_after`** of the range, the first and the last left out. -/
def eraseAfter (beforeFirst last : N) (s : State N α) : Option (State N α) :=
  (s.next beforeFirst).bind (fun fp =>
    disposeLoop last s.size fp { s with next := Function.update s.next beforeFirst (some last) })

/-- `create_node_from_it`. -/
def createNode (x : α) (s : State N α) : Option (N × State N α) :=
  match s.supply with
  | [] => none
  | p :: supply =>
    some (p, { s with value := Function.update s.value p (some x), supply := supply })

/-- The loop of `insert_after` of a range. -/
def insertAfterLoop : List α → N → State N α → Option (N × State N α)
  | [], retIt, s => some (retIt, s)
  | x :: xs, retIt, s =>
    (createNode x s).bind (fun c => (icontInsertAfter retIt c.1 c.2).bind (fun r =>
      insertAfterLoop xs r.1 r.2))

/-- **`insertion_functor`**: `prev_`, and `ret_`, which may be null. -/
structure InsertionFunctor (N : Type) where
  prev : N
  ret : Option N

/-- `operator()` of the functor. -/
def InsertionFunctor.call (f : InsertionFunctor N) (n : N) (s : State N α) :
    Option (InsertionFunctor N × State N α) :=
  (icontInsertAfter f.prev n s).map (fun r => (⟨r.1, f.ret.orElse (fun _ => some r.1)⟩, r.2))

/-- `inserted_first` of the functor. -/
def InsertionFunctor.insertedFirst (f : InsertionFunctor N) (s : State N α) : Option N :=
  f.ret.bind s.next

/-- The loop of `allocate_many_and_construct`. -/
def constructMany : List (N × α) → InsertionFunctor N → State N α → Option (State N α)
  | [], _, s => some s
  | c :: cells, inserter, s =>
    (inserter.call c.1 { s with value := Function.update s.value c.1 (some c.2) }).bind (fun r =>
      constructMany cells r.1 r.2)

/-- **`allocate_many_and_construct`**: of the functor nothing comes back. -/
def allocateManyAndConstruct (values : List α) (inserter : InsertionFunctor N) (s : State N α) :
    Option (State N α) :=
  if values = [] then some s
  else if s.supply.length < values.length then none
  else constructMany ((s.supply.take values.length).zip values) inserter
    { s with supply := s.supply.drop values.length }

/-- **`insert_after`** of a range: which of the two overloads it is. -/
def insertAfter (version : AllocVersion) (category : Category) (prev : N) (values : List α)
    (s : State N α) : Option (N × State N α) :=
  if category = .input ∨ version = .version1 then insertAfterLoop values prev s
  else
    let func : InsertionFunctor N := ⟨prev, some prev⟩
    (allocateManyAndConstruct values func s).bind (fun s =>
      (func.insertedFirst s).map (fun first => (first, s)))

/-- **`insert_after`** of copies. -/
def insertAfterN (version : AllocVersion) (prev : N) (n : ℕ) (x : α) (s : State N α) :
    Option (N × State N α) :=
  insertAfter version .forward prev (List.replicate n x) s

/-- The loop of `priv_try_shrink`: where it stops, and what comes next there. -/
def shrinkLoop (endN : N) : ℕ → N → State N α → Option (N × N)
  | 0, cur, s => (s.next cur).map (fun curNext => (cur, curNext))
  | newSize + 1, cur, s => (s.next cur).bind (fun curNext =>
      if curNext = endN then some (cur, curNext) else shrinkLoop endN newSize curNext s)

/-- **`priv_try_shrink`**: whether it has erased, and `last_pos`. -/
def privTryShrink (newSize : ℕ) (s : State N α) : Option (Bool × N × State N α) :=
  (shrinkLoop s.root newSize s.root s).bind (fun r =>
    if r.2 ≠ s.root then (eraseAfter r.1 s.root s).map (fun t => (true, r.1, t))
    else some (false, r.1, s))

/-- **`resize`**, with values that are initialised. -/
def resize [Inhabited α] (version : AllocVersion) (newSize : ℕ) (s : State N α) :
    Option (State N α) :=
  (privTryShrink newSize s).bind (fun r =>
    if r.1 then some r.2.2
    else (insertAfter version .forward r.2.1
      (List.replicate (newSize - r.2.2.size) default) r.2.2).map Prod.snd)

/-- **`resize`** with a value: all of the new size is inserted. -/
def resizeWith (version : AllocVersion) (newSize : ℕ) (x : α) (s : State N α) :
    Option (State N α) :=
  (privTryShrink newSize s).bind (fun r =>
    if r.1 then some r.2.2
    else (insertAfterN version r.2.1 newSize x r.2.2).map Prod.snd)

/-- The loop of `assign`: what is left of the range, and the last node that was
written. -/
def assignLoop (endN : N) : List α → N → N → State N α → Option (List α × N × State N α)
  | [], prev, _, s => some ([], prev, s)
  | x :: xs, prev, node, s =>
    if node = endN then some (x :: xs, prev, s)
    else (s.next node).bind (fun next =>
      assignLoop endN xs node next { s with value := Function.update s.value node (some x) })

/-- **`assign`** of a range. -/
def assign (version : AllocVersion) (category : Category) (values : List α) (s : State N α) :
    Option (State N α) :=
  (s.next s.root).bind (fun node => (assignLoop s.root values s.root node s).bind (fun r =>
    if r.1 ≠ [] then (insertAfter version category r.2.1 r.1 r.2.2).map Prod.snd
    else eraseAfter r.2.1 s.root r.2.2))

end Definitions

/-! ## What a list shows -/

section Shows

variable {N α : Type}

/-- The position after these elements: the last of them, or the header. -/
def lastOf (root : N) (us : List (N × α)) : N := (us.map Prod.fst).getLastD root

/-- **A list shows its elements**, each in its node. -/
structure State.Shows (s : State N α) (cells : List (N × α)) : Prop where
  linked : LinkPath s.next s.root (s.root :: cells.map Prod.fst) s.root
  value : ∀ c ∈ cells, s.value c.1 = some c.2
  size_eq : s.size = cells.length
  /-- Nodes are not granted while they are in use. -/
  nodup : (s.root :: cells.map Prod.fst ++ s.supply).Nodup

variable {s t : State N α} {us vs ws cells : List (N × α)} {p root : N} {x : α}
  {xs values : List α} {supply : List N} {n : ℕ}

@[simp] theorem lastOf_nil : lastOf root ([] : List (N × α)) = root := rfl

@[simp] theorem lastOf_concat {c : N × α} : lastOf root (us ++ [c]) = c.1 := by
  rw [lastOf, List.map_append, List.map_singleton, List.getLastD_concat]

theorem lastOf_cons {c : N × α} : lastOf root (c :: us) = lastOf c.1 us := by
  rw [lastOf, lastOf, List.map_cons, List.getLastD_cons]

theorem lastOf_append : lastOf root (us ++ vs) = lastOf (lastOf root us) vs := by
  induction us generalizing root with
  | nil => rfl
  | cons c us ih => rw [List.cons_append, lastOf_cons, ih, lastOf_cons]

/-- The position is in the list. -/
theorem exists_lastOf (root : N) (us : List (N × α)) :
    ∃ ws, root :: us.map Prod.fst = ws ++ [lastOf root us] := by
  rcases List.eq_nil_or_concat us with rfl | ⟨us, c, rfl⟩
  · exact ⟨[], rfl⟩
  · exact ⟨root :: us.map Prod.fst, by simp⟩

/-- Every valid position has elements before it. -/
theorem exists_split (h : p ∈ root :: cells.map Prod.fst) :
    ∃ us vs, cells = us ++ vs ∧ p = lastOf root us := by
  rcases List.mem_cons.mp h with rfl | h
  · exact ⟨[], cells, rfl, rfl⟩
  · obtain ⟨c, hc, rfl⟩ := List.mem_map.mp h
    obtain ⟨us, vs, rfl⟩ := List.append_of_mem hc
    exact ⟨us ++ [c], vs, by simp, lastOf_concat.symm⟩

namespace State.Shows

/-- **The link after a position** leads to the rest. -/
theorem split (h : s.Shows (us ++ vs)) :
    ∃ ws y, s.root :: us.map Prod.fst = ws ++ [lastOf s.root us]
    ∧ LinkPath s.next s.root (ws ++ [lastOf s.root us]) y
    ∧ s.next (lastOf s.root us) = some y ∧ LinkPath s.next y (vs.map Prod.fst) s.root := by
  obtain ⟨ws, hws⟩ := exists_lastOf s.root us
  have hlinked := h.linked
  rw [List.map_append, ← List.cons_append, hws] at hlinked
  obtain ⟨y, hpath, hrest⟩ := LinkPath.append_iff.mp hlinked
  exact ⟨ws, y, hws, hpath, hpath.next_last.2, hrest⟩

theorem nodup_cells (h : s.Shows cells) : (s.root :: cells.map Prod.fst).Nodup :=
  (List.nodup_append.mp h.nodup).1

/-- What comes next after a position. -/
theorem next_eq (h : s.Shows (us ++ vs)) :
    s.next (lastOf s.root us) = some ((vs.map Prod.fst).headD s.root) := by
  obtain ⟨_, y, _, _, hnext, hrest⟩ := h.split
  rw [hnext]
  cases vs with
  | nil => exact congrArg some hrest
  | cons c vs => exact congrArg some hrest.eq_head

variable [DecidableEq N]

/-- **A node is made and linked.** -/
theorem insertOne (h : s.Shows (us ++ vs)) (hsupply : s.supply = p :: supply) (x : α) :
    ∃ c t, createNode x s = some c ∧ icontInsertAfter (lastOf s.root us) c.1 c.2 = some (p, t)
      ∧ t.Shows (us ++ (p, x) :: vs) ∧ t.root = s.root ∧ t.supply = supply := by
  obtain ⟨ws, y, hws, hpath, hnext, hrest⟩ := h.split
  have hnodup := h.nodup
  rw [hsupply] at hnodup
  have hp : p ∉ s.root :: (us ++ vs).map Prod.fst := by
    intro hm
    exact (List.nodup_append.mp hnodup).2.2 p hm p List.mem_cons_self rfl
  have hprev := h.nodup_cells
  rw [List.map_append] at hp hprev
  rw [← List.cons_append, hws] at hp hprev
  have hlast : lastOf s.root us ∉ ws :=
    fun hm => (List.nodup_append.mp (List.nodup_append.mp hprev).1).2.2 _ hm _
      List.mem_cons_self rfl
  have hlast' : lastOf s.root us ∉ vs.map Prod.fst :=
    fun hm => (List.nodup_append.mp hprev).2.2 _
      (List.mem_append_right ws List.mem_cons_self) _ hm rfl
  have hpvs : p ∉ vs.map Prod.fst := fun hm => hp (List.mem_append_right _ hm)
  have hpus : p ∉ ws ++ [lastOf s.root us] := fun hm => hp (List.mem_append_left _ hm)
  have hne : lastOf s.root us ≠ p :=
    fun he => hpus (he ▸ List.mem_append_right ws List.mem_cons_self)
  refine ⟨(p, { s with value := Function.update s.value p (some x), supply := supply }),
    { s with
      next := Function.update (Function.update s.next p (some y)) (lastOf s.root us) (some p)
      value := Function.update s.value p (some x), size := s.size + 1, supply := supply },
    ?_, ?_, ⟨?_, ?_, ?_, ?_⟩, rfl, rfl⟩
  · rw [createNode, hsupply]
  · simp only [icontInsertAfter, hnext, Option.map_some]
  · have hnew : LinkPath (Function.update s.next p (some y)) p (p :: vs.map Prod.fst) s.root :=
      LinkPath.cons (Function.update_self p _ _) (hrest.update hpvs _)
    have hredirect := (hpath.update hpus (some y)).redirect hnew hlast
      (List.not_mem_cons_of_ne_of_not_mem hne hlast')
    rw [List.map_append, List.map_cons, ← List.cons_append, hws, List.append_assoc,
      List.singleton_append]
    exact hredirect
  · intro c hc
    rw [List.mem_append, List.mem_cons] at hc
    by_cases hcp : c = (p, x)
    · rw [hcp]
      exact Function.update_self p _ _
    · have hmem : c ∈ us ++ vs := List.mem_append.mpr (by tauto)
      have hcne : c.1 ≠ p := by
        intro he
        have hm : p ∈ s.root :: (us ++ vs).map Prod.fst :=
          List.mem_cons_of_mem _ (he ▸ List.mem_map_of_mem hmem)
        rw [List.map_append, ← List.cons_append, hws] at hm
        exact hp hm
      exact (Function.update_of_ne hcne _ _).trans (h.value c hmem)
  · have hsize := h.size_eq
    simp only [List.length_append, List.length_cons] at hsize ⊢
    omega
  · refine (List.Perm.nodup_iff ?_).mp hnodup
    simp only [List.map_append, List.map_cons, List.cons_append, List.append_assoc]
    refine List.Perm.cons _ (List.Perm.append_left _ ?_)
    exact List.perm_middle

/-- **A value is written over.** -/
theorem write {c : N × α} (h : s.Shows (us ++ c :: vs)) (x : α) :
    State.Shows { s with value := Function.update s.value c.1 (some x) }
      (us ++ (c.1, x) :: vs) := by
  have hnodup := h.nodup_cells
  have hkeys : (us ++ (c.1, x) :: vs).map Prod.fst = (us ++ c :: vs).map Prod.fst := by simp
  refine ⟨?_, ?_, ?_, ?_⟩
  · rw [hkeys]
    exact h.linked
  · intro d hd
    simp only [List.map_append, List.map_cons, List.nodup_cons, List.nodup_append] at hnodup
    obtain ⟨-, -, ⟨hcvs, -⟩, hdisj⟩ := hnodup
    simp only [List.mem_append, List.mem_cons] at hd
    rcases hd with hd | rfl | hd
    · have hne : d.1 ≠ c.1 := hdisj _ (List.mem_map_of_mem hd) _ List.mem_cons_self
      exact (Function.update_of_ne hne _ _).trans (h.value d (List.mem_append_left _ hd))
    · exact Function.update_self _ _ _
    · have hne : d.1 ≠ c.1 := fun he => hcvs (he ▸ List.mem_map_of_mem hd)
      exact (Function.update_of_ne hne _ _).trans
        (h.value d (List.mem_append_right _ (List.mem_cons_of_mem _ hd)))
  · rw [h.size_eq, List.length_append, List.length_append, List.length_cons, List.length_cons]
  · rw [hkeys]
    exact h.nodup

end State.Shows

variable [DecidableEq N]

/-! ## Insertion -/

/-- **A range is inserted node by node.** -/
theorem State.Shows.insertLoop (h : s.Shows (us ++ vs)) (hn : values.length ≤ s.supply.length) :
    ∃ t, insertAfterLoop values (lastOf s.root us) s
        = some (lastOf s.root (us ++ (s.supply.take values.length).zip values), t)
      ∧ t.Shows (us ++ (s.supply.take values.length).zip values ++ vs) ∧ t.root = s.root := by
  induction values generalizing us s with
  | nil => exact ⟨s, by simp [insertAfterLoop], by simpa using h, rfl⟩
  | cons x xs ih =>
    obtain ⟨p, supply, hsupply⟩ := List.exists_cons_of_length_pos
      (Nat.lt_of_lt_of_le (Nat.succ_pos xs.length) hn)
    obtain ⟨c, t, hcreate, hinsert, ht, hroot, hrest⟩ := h.insertOne hsupply x
    rw [hsupply, List.length_cons, List.length_cons] at hn
    have ht' : t.Shows ((us ++ [(p, x)]) ++ vs) := by simpa using ht
    obtain ⟨u, hloop, hu, huroot⟩ := ih ht' (by rw [hrest]; omega)
    rw [hroot, hrest, lastOf_concat] at hloop
    rw [hrest] at hu
    refine ⟨u, ?_, ?_, huroot.trans hroot⟩
    · simp only [insertAfterLoop, hcreate, Option.bind_some, hinsert, hloop, hsupply,
        List.length_cons, List.take_succ_cons, List.zip_cons_cons, List.append_assoc,
        List.singleton_append]
    · simpa [hsupply] using hu

/-- **The nodes of a burst are linked as those of the loop are.** -/
theorem insertAfterLoop_eq_constructMany (q prev : N) (hn : values.length ≤ s.supply.length) :
    insertAfterLoop values prev s
      = (constructMany ((s.supply.take values.length).zip values) ⟨prev, some q⟩
          { s with supply := s.supply.drop values.length }).map
          (fun t => (lastOf prev ((s.supply.take values.length).zip values), t)) := by
  induction values generalizing prev s with
  | nil => simp [insertAfterLoop, constructMany]
  | cons x xs ih =>
    obtain ⟨p, supply, hsupply⟩ := List.exists_cons_of_length_pos
      (Nat.lt_of_lt_of_le (Nat.succ_pos xs.length) hn)
    rw [hsupply, List.length_cons, List.length_cons] at hn
    simp only [insertAfterLoop, createNode, hsupply, Option.bind_some, icontInsertAfter,
      List.length_cons, List.take_succ_cons, List.zip_cons_cons, List.drop_succ_cons,
      constructMany, InsertionFunctor.call, Option.map_map, lastOf_cons]
    cases s.next prev with
    | none => rfl
    | some y =>
      simp only [Option.map_some, Option.bind_some, Function.comp_apply, Option.orElse_some]
      rw [ih p (by simpa using hn)]

/-- The iterator that a range insertion returns: of the last new element, or, from a
burst, of what comes after the position. -/
def returned (version : AllocVersion) (category : Category) (root : N) (us news vs : List (N × α)) :
    N :=
  if category = .input ∨ version = .version1 then lastOf root (us ++ news)
  else ((news ++ vs).map Prod.fst).headD root

/-- **`insert_after` of a range**, by either overload. -/
theorem State.Shows.insertAfter (h : s.Shows (us ++ vs)) (hn : values.length ≤ s.supply.length)
    (version : AllocVersion) (category : Category) :
    ∃ t, Slist.insertAfter .version1 category (lastOf s.root us) values s
        = some (lastOf s.root (us ++ (s.supply.take values.length).zip values), t)
      ∧ Slist.insertAfter version category (lastOf s.root us) values s
        = some (returned version category s.root us
            ((s.supply.take values.length).zip values) vs, t)
      ∧ t.Shows (us ++ (s.supply.take values.length).zip values ++ vs) ∧ t.root = s.root := by
  obtain ⟨t, hloop, ht, hroot⟩ := h.insertLoop hn
  refine ⟨t, ?_, ?_, ht, hroot⟩
  · rw [Slist.insertAfter, if_pos (Or.inr rfl), hloop]
  · rw [Slist.insertAfter, returned]
    split
    · exact hloop
    · have hall : allocateManyAndConstruct values ⟨lastOf s.root us, some (lastOf s.root us)⟩ s
          = some t := by
        rw [allocateManyAndConstruct]
        split
        · next hnil =>
          rw [hnil] at hloop
          exact congrArg (Option.map Prod.snd) hloop
        · rw [if_neg (by omega)]
          rw [insertAfterLoop_eq_constructMany (lastOf s.root us) _ hn] at hloop
          obtain ⟨u, hu, hut⟩ := Option.map_eq_some_iff.mp hloop
          rw [hu, (Prod.mk.inj hut).2]
      rw [List.append_assoc] at ht
      have hnext := ht.next_eq
      rw [hroot] at hnext
      simp only [hall, Option.bind_some, InsertionFunctor.insertedFirst, hnext, Option.map_some]

/-! ## Erasure -/

/-- **What the loop of the erasure leaves.** -/
theorem disposeLoop_run {last fp : N} {ps : List N} {fuel : ℕ} (h : LinkPath s.next fp ps last)
    (hlast : last ∉ ps) (hnodup : ps.Nodup) (hfuel : ps.length ≤ fuel) :
    ∃ t, disposeLoop last fuel fp s = some t ∧ t.root = s.root ∧ t.supply = s.supply
      ∧ t.size = s.size - ps.length ∧ (∀ q, q ∉ ps → t.next q = s.next q)
      ∧ ∀ q, q ∉ ps → t.value q = s.value q := by
  induction ps generalizing fp s fuel with
  | nil =>
    obtain rfl : fp = last := h
    refine ⟨s, ?_, rfl, rfl, rfl, fun _ _ => rfl, fun _ _ => rfl⟩
    cases fuel <;> rw [disposeLoop, if_pos rfl]
  | cons p ps ih =>
    obtain ⟨rfl, y, hy, hps⟩ := h
    obtain ⟨hnot, hnodup⟩ := List.nodup_cons.mp hnodup
    rw [List.length_cons] at hfuel
    obtain ⟨fuel, rfl⟩ : ∃ k, fuel = k + 1 := ⟨fuel - 1, by omega⟩
    rw [List.mem_cons, not_or] at hlast
    obtain ⟨t, ht, hroot, hsupply, hsize, hnext, hvalue⟩ := ih
      (s := { s with next := Function.update s.next fp none
                     value := Function.update s.value fp none, size := s.size - 1 })
      (hps.update hnot none) hlast.2 hnodup (Nat.le_of_succ_le_succ hfuel)
    refine ⟨t, ?_, hroot, hsupply, ?_, ?_, ?_⟩
    · rw [disposeLoop, if_neg (Ne.symm hlast.1)]
      simp only [hy, Option.bind_some, ht]
    · simp only at hsize
      rw [hsize, List.length_cons]
      omega
    · intro q hq
      rw [List.mem_cons, not_or] at hq
      exact (hnext q hq.2).trans (Function.update_of_ne hq.1 _ _)
    · intro q hq
      rw [List.mem_cons, not_or] at hq
      exact (hvalue q hq.2).trans (Function.update_of_ne hq.1 _ _)

/-- **`erase_after` to the end.** -/
theorem State.Shows.eraseAfter (h : s.Shows (us ++ vs)) :
    ∃ t, Slist.eraseAfter (lastOf s.root us) s.root s = some t ∧ t.Shows us ∧ t.root = s.root := by
  obtain ⟨ws, y, hws, hpath, hnext, hrest⟩ := h.split
  have hnodup := h.nodup_cells
  rw [List.map_append, ← List.cons_append] at hnodup
  obtain ⟨hus, hvs, hdisj⟩ := List.nodup_append.mp hnodup
  have hprev : lastOf s.root us ∉ vs.map Prod.fst := by
    intro hm
    refine hdisj _ ?_ _ hm rfl
    rw [hws]
    exact List.mem_append_right ws List.mem_cons_self
  have hprevws : lastOf s.root us ∉ ws := by
    rw [hws] at hus
    exact fun hm => (List.nodup_append.mp hus).2.2 _ hm _ List.mem_cons_self rfl
  have hsize := h.size_eq
  rw [List.length_append] at hsize
  obtain ⟨t, ht, hroot, hsupply, htsize, htnext, htvalue⟩ := disposeLoop_run
    (s := { s with next := Function.update s.next (lastOf s.root us) (some s.root) })
    (hrest.update hprev (some s.root)) (fun hm => hdisj _ List.mem_cons_self _ hm rfl) hvs
    (show (vs.map Prod.fst).length ≤ s.size by rw [List.length_map]; omega)
  simp only [List.length_map] at hroot hsupply htsize htnext htvalue
  refine ⟨t, ?_, ⟨?_, ?_, ?_, ?_⟩, hroot⟩
  · simp only [Slist.eraseAfter, hnext, Option.bind_some, ht]
  · rw [hroot]
    have hnew := hpath.redirect (show LinkPath s.next s.root [] s.root from rfl) hprevws
      List.not_mem_nil
    rw [← hws] at hnew
    exact hnew.congr fun q hq => htnext q fun hm => hdisj q hq q hm rfl
  · intro c hc
    have hmem : c.1 ∈ s.root :: us.map Prod.fst := List.mem_cons_of_mem _ (List.mem_map_of_mem hc)
    exact (htvalue c.1 fun hm => hdisj _ hmem _ hm rfl).trans
      (h.value c (List.mem_append_left vs hc))
  · rw [htsize]
    omega
  · rw [hroot, hsupply]
    refine h.nodup.sublist (List.Sublist.append_right (List.Sublist.cons_cons _ ?_) _)
    rw [List.map_append]
    exact List.sublist_append_left _ _

/-! ## Shrinking -/

/-- **Where the loop of `priv_try_shrink` stops.** -/
theorem State.Shows.shrinkLoop (h : s.Shows (us ++ vs)) (n : ℕ) :
    Slist.shrinkLoop s.root n (lastOf s.root us) s
      = some (lastOf s.root (us ++ vs.take n), ((vs.drop n).map Prod.fst).headD s.root) := by
  induction n generalizing us vs with
  | zero => simp [Slist.shrinkLoop, h.next_eq]
  | succ n ih =>
    rw [Slist.shrinkLoop, h.next_eq, Option.bind_some]
    cases vs with
    | nil => simp
    | cons c vs =>
      have hne : c.1 ≠ s.root := by
        intro he
        have hnodup := h.nodup_cells
        rw [List.nodup_cons] at hnodup
        exact hnodup.1 (he ▸ List.mem_map_of_mem (List.mem_append_right us List.mem_cons_self))
      have h' : s.Shows ((us ++ [c]) ++ vs) := by simpa using h
      have hloop := ih h'
      rw [lastOf_concat] at hloop
      simpa [hne] using hloop

/-- **`priv_try_shrink`**: it erases where there are more elements than the new size. -/
theorem State.Shows.privTryShrink (h : s.Shows cells) (n : ℕ) :
    if n < cells.length then
      ∃ t, Slist.privTryShrink n s = some (true, lastOf s.root (cells.take n), t)
        ∧ t.Shows (cells.take n) ∧ t.root = s.root
    else Slist.privTryShrink n s = some (false, lastOf s.root cells, s) := by
  have hcells : s.Shows ([] ++ cells) := h
  have hloop := hcells.shrinkLoop n
  rw [lastOf_nil, List.nil_append] at hloop
  split
  · next hlt =>
    obtain ⟨c, vs, hcons⟩ := List.exists_cons_of_length_pos
      (l := cells.drop n) (by rw [List.length_drop]; omega)
    have hne : c.1 ≠ s.root := by
      intro he
      have hnodup := h.nodup_cells
      rw [List.nodup_cons] at hnodup
      refine hnodup.1 (he ▸ List.mem_map_of_mem (List.drop_subset n cells ?_))
      rw [hcons]
      exact List.mem_cons_self
    have h' : s.Shows (cells.take n ++ cells.drop n) := by rwa [List.take_append_drop]
    obtain ⟨t, ht, hshows, hroot⟩ := h'.eraseAfter
    refine ⟨t, ?_, hshows, hroot⟩
    rw [hcons] at hloop
    simp [Slist.privTryShrink, hloop, hne, ht]
  · next hle =>
    rw [List.drop_eq_nil_of_le (by omega), List.take_of_length_le (by omega)] at hloop
    simp [Slist.privTryShrink, hloop]

end Shows

end Slist
