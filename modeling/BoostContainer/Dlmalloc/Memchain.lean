import BoostContainer.Lib.Links
import BoostContainer.Lib.Word

/-!
# The chain of memory portions

A `boost_cont_memchain` is a number of portions that are linked through their own
memory, from a root node in the chain to null, with their count and the address of
the last. The macros edit the links, the count and the last node by hand.

What they should bring about is an edit of the list of the portions. All of them
do, with one exception: `BOOST_CONTAINER_MEMCHAIN_ERASE_AFTER` takes the root for
the last node when the last node is erased, and the last node is then the one
before the erased.
-/

namespace Dlmalloc

/-! ## The macros -/

/-- `next_node_ptr` of the nodes in memory; the root node of a chain is one of them.
An address at which there is no node has none. -/
abbrev Nodes := ℕ → Option ℕ

/-- **`boost_cont_memchain`**, apart from the link of its root node. -/
structure Memchain where
  numMem : ℕ
  lastNodePtr : ℕ

/-- `BOOST_CONTAINER_MEMCHAIN_INIT`. -/
def memchainInit (root : ℕ) (next : Nodes) : Nodes × Memchain :=
  (Function.update next root (some 0), ⟨0, root⟩)

/-- `BOOST_CONTAINER_MEMCHAIN_INIT_FROM`. -/
def memchainInitFrom (root first last num : ℕ) (next : Nodes) : Nodes × Memchain :=
  (Function.update next root (some first), ⟨num, last⟩)

/-- `BOOST_CONTAINER_MEMCHAIN_FIRSTMEM`. -/
def memchainFirstmem (root : ℕ) (s : Nodes × Memchain) : Option ℕ := s.1 root

/-- **`BOOST_CONTAINER_MEMCHAIN_PUSH_BACK`.** -/
def memchainPushBack (mem : ℕ) (s : Nodes × Memchain) : Nodes × Memchain :=
  (Function.update (Function.update s.1 s.2.lastNodePtr (some mem)) mem (some 0),
    ⟨Word.add 64 s.2.numMem 1, mem⟩)

/-- **`BOOST_CONTAINER_MEMCHAIN_ERASE_AFTER`.** Null has no next node. -/
def memchainEraseAfter (root beforeIt : ℕ) (s : Nodes × Memchain) : Option (Nodes × Memchain) :=
  (s.1 beforeIt).bind (fun eraseNode => (s.1 eraseNode).map (fun next =>
    (Function.update s.1 beforeIt (some next),
      ⟨Word.sub 64 s.2.numMem 1,
        if s.2.lastNodePtr = eraseNode then root else s.2.lastNodePtr⟩)))

/-- **`BOOST_CONTAINER_MEMCHAIN_POP_FRONT`.** -/
def memchainPopFront (root : ℕ) (s : Nodes × Memchain) : Option (Nodes × Memchain) :=
  memchainEraseAfter root root s

/-- **`BOOST_CONTAINER_MEMCHAIN_INCORPORATE_AFTER`.** -/
def memchainIncorporateAfter (beforeIt first blast num : ℕ) (s : Nodes × Memchain) :
    Option (Nodes × Memchain) :=
  (s.1 beforeIt).map (fun next =>
    if num = 0 then s
    else (Function.update (Function.update s.1 beforeIt (some first)) blast (some next),
      ⟨Word.add 64 s.2.numMem num,
        if beforeIt = s.2.lastNodePtr then blast else s.2.lastNodePtr⟩))

/-- The loop of `internal_node_multialloc` that pushes the elements of a segment. -/
def memchainPushBacks (mems : List ℕ) (s : Nodes × Memchain) : Nodes × Memchain :=
  mems.foldl (fun s mem => memchainPushBack mem s) s

/-! ## What a chain denotes -/

/-- The node after which the rest of a chain comes: the last of those before, or the
root. -/
def nodeBefore (root : ℕ) (qs : List ℕ) : ℕ := (root :: qs).getLast (List.cons_ne_nil root qs)

/-- **A chain denotes a list of nodes**: they are linked from the root to null, their
count is kept, and the last is the last. -/
structure Denotes (root : ℕ) (s : Nodes × Memchain) (ps : List ℕ) : Prop where
  linked : LinkPath s.1 root (root :: ps) 0
  numMem_eq : s.2.numMem = ps.length
  last_eq : s.2.lastNodePtr = nodeBefore root ps
  /-- The nodes have addresses. -/
  addr : ∀ p ∈ root :: ps, p ≠ 0 ∧ p < 2 ^ 64

/-- **Nodes that may be added** to a chain: they have addresses, and are not in it. -/
structure NewNodes (root : ℕ) (ps ns : List ℕ) : Prop where
  nodup : ns.Nodup
  addr : ∀ p ∈ ns, p ≠ 0 ∧ p < 2 ^ 64
  notMem : ∀ p ∈ ns, p ∉ root :: ps

section Denotes

variable {root mem e first blast y num : ℕ} {s t : Nodes × Memchain} {ps qs rs ns us : List ℕ}

theorem exists_nodeBefore (root : ℕ) (qs : List ℕ) :
    ∃ us, root :: qs = us ++ [nodeBefore root qs] :=
  ⟨(root :: qs).dropLast, (List.dropLast_concat_getLast (List.cons_ne_nil root qs)).symm⟩

theorem nodeBefore_append (root : ℕ) (qs : List ℕ) (h : rs ≠ []) :
    nodeBefore root (qs ++ rs) = rs.getLast h :=
  List.getLast_append_of_ne_nil (l := root :: qs) _ h

theorem nodeBefore_mem (root : ℕ) (qs : List ℕ) : nodeBefore root qs ∈ root :: qs :=
  List.getLast_mem _

/-- There are fewer addresses than words. -/
theorem length_lt_of_addr (hnodup : ps.Nodup) (h : ∀ p ∈ ps, p ≠ 0 ∧ p < 2 ^ 64) :
    ps.length < 2 ^ 64 := by
  have hsub : ps.toFinset ⊆ Finset.Ioo 0 (2 ^ 64) := by
    intro p hp
    obtain ⟨h0, hlt⟩ := h p (List.mem_toFinset.mp hp)
    exact Finset.mem_Ioo.mpr ⟨Nat.pos_of_ne_zero h0, hlt⟩
  have hcard := Finset.card_le_card hsub
  rw [List.toFinset_card_of_nodup hnodup, Nat.card_Ioo] at hcard
  omega

namespace Denotes

theorem of_eq {next : Nodes} {n last : ℕ} (hlinked : LinkPath next root (root :: ps) 0)
    (hn : n = ps.length) (hlast : last = nodeBefore root ps)
    (haddr : ∀ p ∈ root :: ps, p ≠ 0 ∧ p < 2 ^ 64) : Denotes root (next, ⟨n, last⟩) ps :=
  ⟨hlinked, hn, hlast, haddr⟩

/-- The root and the nodes are different. -/
theorem nodup (h : Denotes root s ps) : (root :: ps).Nodup :=
  h.linked.nodup fun h0 => (h.addr 0 h0).1 rfl

theorem length_lt (h : Denotes root s ps) : (root :: ps).length < 2 ^ 64 :=
  length_lt_of_addr h.nodup h.addr

/-- The link of the node before the rest leads to it. -/
theorem before (h : Denotes root s (qs ++ rs)) : ∃ us x,
    root :: qs = us ++ [nodeBefore root qs] ∧ nodeBefore root qs ∉ us
      ∧ nodeBefore root qs ∉ rs ∧ LinkPath s.1 root (us ++ [nodeBefore root qs]) x
      ∧ s.1 (nodeBefore root qs) = some x ∧ LinkPath s.1 x rs 0 := by
  obtain ⟨us, hus⟩ := exists_nodeBefore root qs
  have hnodup := h.nodup
  have hlinked := h.linked
  rw [← List.cons_append, hus] at hnodup hlinked
  obtain ⟨x, hpath, hrest⟩ := LinkPath.append_iff.mp hlinked
  refine ⟨us, x, hus, ?_, ?_, hpath, hpath.next_last.2, hrest⟩
  · exact fun hm => (List.nodup_append.mp (List.nodup_append.mp hnodup).1).2.2 _ hm _
      (List.mem_singleton_self _) rfl
  · exact fun hm => (List.nodup_append.mp hnodup).2.2 _
      (List.mem_append_right us (List.mem_singleton_self _)) _ hm rfl

end Denotes

/-! ## The edits -/

/-- **The new chain is empty.** -/
theorem denotes_memchainInit (next : Nodes) (h : root ≠ 0) (hlt : root < 2 ^ 64) :
    Denotes root (memchainInit root next) [] where
  linked := LinkPath.single (Function.update_self root _ next)
  numMem_eq := rfl
  last_eq := rfl
  addr := by
    intro p hp
    rw [List.mem_singleton.mp hp]
    exact ⟨h, hlt⟩

/-- The addresses of an edited chain. -/
theorem addr_insert (h : Denotes root s (qs ++ rs)) (hnew : NewNodes root (qs ++ rs) ns) :
    ∀ p ∈ root :: (qs ++ ns ++ rs), p ≠ 0 ∧ p < 2 ^ 64 := by
  intro p hp
  simp only [List.mem_cons, List.mem_append] at hp
  rcases hp with hp | (hp | hp) | hp
  · exact h.addr p (hp ▸ List.mem_cons_self)
  · exact h.addr p (List.mem_cons_of_mem _ (List.mem_append_left _ hp))
  · exact hnew.addr p hp
  · exact h.addr p (List.mem_cons_of_mem _ (List.mem_append_right _ hp))

/-- New nodes make the chain as much longer. -/
theorem length_insert_lt (h : Denotes root s (qs ++ rs)) (hnew : NewNodes root (qs ++ rs) ns) :
    (qs ++ rs).length + ns.length < 2 ^ 64 := by
  have hperm : (qs ++ rs ++ ns).Perm (qs ++ ns ++ rs) := by
    rw [List.append_assoc, List.append_assoc]
    exact List.Perm.append_left qs List.perm_append_comm
  have hnodup : (qs ++ rs ++ ns).Nodup :=
    List.nodup_append.mpr ⟨(List.nodup_cons.mp h.nodup).2, hnew.nodup,
      fun p hp q hq hpq => hnew.notMem q hq (List.mem_cons_of_mem _ (hpq ▸ hp))⟩
  have hlt := length_lt_of_addr hnodup (fun p hp =>
    addr_insert h hnew p (List.mem_cons_of_mem _ (hperm.mem_iff.mp hp)))
  rwa [List.length_append] at hlt

/-- **Nodes that are linked are put into a chain anywhere**: between the node before
and the rest. The link of the last of them is not read. -/
theorem denotes_incorporate (h : Denotes root s (qs ++ rs)) (hnew : NewNodes root (qs ++ rs) ns)
    (hns : ns ≠ []) (hpath : LinkPath s.1 first ns.dropLast (ns.getLast hns)) :
    ∃ t, memchainIncorporateAfter (nodeBefore root qs) first (ns.getLast hns) ns.length s = some t
      ∧ Denotes root t (qs ++ ns ++ rs) := by
  obtain ⟨us, x, hus, husn, hrsn, hto, hx, hrest⟩ := h.before
  have hlen : ns.length ≠ 0 := fun h0 => hns (List.length_eq_zero_iff.mp h0)
  refine ⟨_, by rw [memchainIncorporateAfter, hx, Option.map_some, if_neg hlen], ?_⟩
  have hbefore : ∀ p ∈ root :: qs, p ∈ root :: (qs ++ rs) := fun p hp =>
    List.cons_append ▸ List.mem_append_left rs hp
  have hmem : ∀ p ∈ ns.dropLast, p ∈ ns := fun p hp => List.mem_of_mem_dropLast hp
  have hlast : ns.dropLast ++ [ns.getLast hns] = ns := List.dropLast_concat_getLast hns
  have hnsn : nodeBefore root qs ∉ ns := fun hm =>
    hnew.notMem _ hm (hbefore _ (nodeBefore_mem root qs))
  -- first the node before leads to the new nodes, then the last of them to the rest
  have hmid := hto.redirect hpath husn (fun hm => hnsn (hmem _ hm))
  have hndrop : ns.getLast hns ∉ us ++ nodeBefore root qs :: ns.dropLast := by
    rw [List.append_cons, ← hus]
    intro hm
    rcases List.mem_append.mp hm with hm | hm
    · exact hnew.notMem _ (List.getLast_mem hns) (hbefore _ hm)
    · have hnd := hnew.nodup
      rw [← hlast] at hnd
      exact (List.nodup_append.mp hnd).2.2 _ hm _ (List.mem_singleton_self _) rfl
  have hnrest : ns.getLast hns ∉ rs := fun hm =>
    hnew.notMem _ (List.getLast_mem hns)
      (List.mem_cons_of_mem _ (List.mem_append_right qs hm))
  have hall := (hmid.update hndrop (some x)).append
    (LinkPath.cons (Function.update_self _ _ _)
      ((hrest.update hrsn (some first)).update hnrest (some x)))
  refine .of_eq ?_ ?_ ?_ (addr_insert h hnew)
  · rwa [List.append_cons us, ← hus, List.append_cons, List.append_assoc (root :: qs), hlast]
      at hall
  · have hlt := length_insert_lt h hnew
    simp only [h.numMem_eq, List.length_append] at hlt ⊢
    rw [Word.add_of_lt hlt]
    omega
  · rw [h.last_eq]
    by_cases hrs : rs = []
    · subst hrs
      rw [List.append_nil, List.append_nil, if_pos rfl, nodeBefore_append root qs hns]
    · rw [nodeBefore_append root qs hrs, nodeBefore_append root _ hrs, if_neg]
      exact fun he => hrsn (he ▸ List.getLast_mem hrs)

/-- **A node is pushed to the back.** -/
theorem denotes_pushBack (h : Denotes root s ps) (hnew : NewNodes root ps [mem]) :
    Denotes root (memchainPushBack mem s) (ps ++ [mem]) := by
  have h' : Denotes root s (ps ++ []) := by rwa [List.append_nil]
  have hlast : s.1 s.2.lastNodePtr = some 0 := by
    obtain ⟨_, x, _, _, _, _, hx, hrest⟩ := h'.before
    rw [h.last_eq, hx]
    exact congrArg some hrest
  have hnew' : NewNodes root (ps ++ []) [mem] := by rwa [List.append_nil]
  obtain ⟨t, ht, hd⟩ := denotes_incorporate h' hnew' (List.cons_ne_nil mem [])
    (rfl : LinkPath s.1 mem [] mem)
  rw [← h.last_eq, memchainIncorporateAfter, hlast, Option.map_some, List.length_singleton,
    if_neg Nat.one_ne_zero, if_pos rfl, List.getLast_singleton, Option.some.injEq] at ht
  rwa [List.append_nil, ← ht] at hd

/-- **The loop that pushes nodes** appends their list. -/
theorem denotes_pushBacks (h : Denotes root s ps) (hnew : NewNodes root ps ns) :
    Denotes root (memchainPushBacks ns s) (ps ++ ns) := by
  induction ns generalizing s ps with
  | nil => rwa [List.append_nil]
  | cons n ns ih =>
    have hnd := List.nodup_cons.mp hnew.nodup
    have hstep : Denotes root (memchainPushBack n s) (ps ++ [n]) :=
      denotes_pushBack h ⟨List.nodup_singleton n,
        fun p hp => hnew.addr p (List.mem_singleton.mp hp ▸ List.mem_cons_self),
        fun p hp => hnew.notMem p (List.mem_singleton.mp hp ▸ List.mem_cons_self)⟩
    rw [List.append_cons]
    refine ih hstep ⟨hnd.2, fun p hp => hnew.addr p (List.mem_cons_of_mem n hp), fun p hp hm => ?_⟩
    rcases List.mem_append.mp (List.cons_append ▸ hm) with hm | hm
    · exact hnew.notMem p (List.mem_cons_of_mem n hp) hm
    · exact hnd.1 (List.mem_singleton.mp hm ▸ hp)

/-- **What is left when a node is erased**: the links and the count are right always,
the last node where the erased was not the last of several. -/
theorem denotes_eraseAfter_iff (h : Denotes root s (qs ++ e :: rs)) :
    ∃ t, memchainEraseAfter root (nodeBefore root qs) s = some t
      ∧ (Denotes root t (qs ++ rs) ↔ rs = [] → qs = []) := by
  obtain ⟨us, x, hus, husn, hrsn, hto, hx, hrest⟩ := h.before
  obtain ⟨rfl, y, hy, hrest⟩ := hrest
  refine ⟨_, by rw [memchainEraseAfter, hx, Option.bind_some, hy, Option.map_some], ?_⟩
  have hsub : (root :: (qs ++ rs)).Sublist (root :: (qs ++ x :: rs)) :=
    ((List.sublist_cons_self x rs).append_left qs).cons_cons root
  have hpath : LinkPath (Function.update s.1 (nodeBefore root qs) (some y)) root
      (root :: (qs ++ rs)) 0 := by
    have hall := hto.redirect hrest husn (fun hm => hrsn (List.mem_cons_of_mem x hm))
    rwa [List.append_cons, ← hus] at hall
  have hnum : Word.sub 64 s.2.numMem 1 = (qs ++ rs).length := by
    have hlt := h.length_lt
    rw [h.numMem_eq]
    simp only [List.length_cons, List.length_append] at hlt ⊢
    rw [Word.sub_of_le (by omega) (by omega)]
    omega
  have haddr : ∀ p ∈ root :: (qs ++ rs), p ≠ 0 ∧ p < 2 ^ 64 := fun p hp => h.addr p (hsub.subset hp)
  have hlast : s.2.lastNodePtr = x ↔ rs = [] := by
    rw [h.last_eq, nodeBefore_append root qs (List.cons_ne_nil x rs)]
    have hnd := (List.nodup_append.mp (List.nodup_cons.mp h.nodup).2).2.1
    refine ⟨fun he => ?_, fun he => by subst he; rfl⟩
    by_contra hrs
    rw [List.getLast_cons hrs] at he
    exact (List.nodup_cons.mp hnd).1 (he ▸ List.getLast_mem hrs)
  by_cases hrs : rs = []
  · rw [if_pos (hlast.mpr hrs)]
    subst hrs
    rw [List.append_nil] at *
    refine ⟨fun hd _ => ?_, fun hqs => .of_eq hpath hnum (by rw [hqs rfl]; rfl) haddr⟩
    by_contra hqs
    have hroot : root = nodeBefore root qs := hd.last_eq
    have hmem : nodeBefore root qs ∈ qs := by
      rw [← List.nil_append qs, nodeBefore_append root [] hqs]
      exact List.getLast_mem hqs
    exact (List.nodup_cons.mp hd.nodup).1 (hroot ▸ hmem)
  · rw [if_neg (fun he => hrs (hlast.mp he))]
    refine ⟨fun _ he => absurd he hrs, fun _ => .of_eq hpath hnum ?_ haddr⟩
    rw [h.last_eq, nodeBefore_append root qs (List.cons_ne_nil x rs), List.getLast_cons hrs,
      nodeBefore_append root qs hrs]

/-- **The first node is popped.** -/
theorem denotes_popFront (h : Denotes root s (e :: rs)) :
    ∃ t, memchainPopFront root s = some t ∧ Denotes root t rs := by
  have h' : Denotes root s ([] ++ e :: rs) := h
  obtain ⟨t, ht, hd⟩ := denotes_eraseAfter_iff h'
  exact ⟨t, ht, hd.mpr fun _ => rfl⟩

/-- **The macros edit the list that a chain denotes**: a push to the back, the pop of
the first, and nodes incorporated after any position, always; the erasure of the
node after a position, exactly where it does not erase the last of several. -/
theorem memchain_edits (h : Denotes root s ps) :
    (∀ mem, NewNodes root ps [mem] → Denotes root (memchainPushBack mem s) (ps ++ [mem])) ∧
    (∀ qs e rs, ps = qs ++ e :: rs →
      ∃ t, memchainEraseAfter root (nodeBefore root qs) s = some t
        ∧ (Denotes root t (qs ++ rs) ↔ rs = [] → qs = [])) ∧
    (∀ e rs, ps = e :: rs → ∃ t, memchainPopFront root s = some t ∧ Denotes root t rs) ∧
    (∀ qs rs ns first (hns : ns ≠ []), ps = qs ++ rs → NewNodes root ps ns →
      LinkPath s.1 first ns.dropLast (ns.getLast hns) →
      ∃ t, memchainIncorporateAfter (nodeBefore root qs) first (ns.getLast hns) ns.length s
          = some t ∧ Denotes root t (qs ++ ns ++ rs)) := by
  refine ⟨fun mem hnew => denotes_pushBack h hnew, ?_, ?_, ?_⟩
  · rintro qs e rs rfl
    exact denotes_eraseAfter_iff h
  · rintro e rs rfl
    exact denotes_popFront h
  · rintro qs rs ns first hns rfl hnew hpath
    exact denotes_incorporate h hnew hns hpath

/-- Two portions that were pushed to a new chain. -/
def twoPortions : Nodes × Memchain := memchainPushBacks [2, 3] (memchainInit 1 (fun _ => none))

theorem denotes_twoPortions : Denotes 1 twoPortions [2, 3] := by
  refine denotes_pushBacks (denotes_memchainInit _ Nat.one_ne_zero (by decide))
    ⟨by decide, ?_, by decide⟩
  decide

/-- The first of two portions is erased. -/
theorem memchain_edits_two :
    ∃ t, memchainEraseAfter 1 1 twoPortions = some t ∧ Denotes 1 t [3] := by
  obtain ⟨t, ht, hd⟩ := (memchain_edits denotes_twoPortions).2.1 [] 2 [3] rfl
  exact ⟨t, ht, hd.mpr fun h => absurd h (List.cons_ne_nil 3 [])⟩

/-- When the second of two portions is erased, the root is taken for the last, and the
next push to the back loses the first. -/
theorem memchainEraseAfter_last : Denotes 1 twoPortions [2, 3]
    ∧ ¬ (∃ t, memchainEraseAfter 1 2 twoPortions = some t ∧ Denotes 1 t [2])
    ∧ (memchainEraseAfter 1 2 twoPortions).map (fun t => (memchainPushBack 4 t).1 1)
      = some (some 4) := by
  refine ⟨denotes_twoPortions, ?_, by decide⟩
  rintro ⟨t, ht, hd⟩
  have hlast : (memchainEraseAfter 1 2 twoPortions).map (fun t => t.2.lastNodePtr) = some 1 := by
    decide
  rw [ht, Option.map_some, hd.last_eq] at hlast
  exact absurd hlast (by decide)

end Denotes

end Dlmalloc
