import BoostContainer.Dlmalloc.Memchain
import BoostContainer.Lib.Segments

/-!
# Allocation in bursts

The allocators hand out many blocks in one call: the portions that the heap has
linked in a chain are put into the chain of the caller. `allocator` lets the heap
fill a chain of its own and splices it in front, from its first node to its last;
`node_allocator` was written after it and takes the last node for the first as
well; `adaptive_pool` lets the heap append to the chain of the caller.

What the heap does to a chain is taken from its documentation, and so is the splice
of the intrusive list. The address of everything that is in use is known, so that a
new block is one that was not, and a block that is freed is not any more.
-/

namespace Dlmalloc

/-! ## The heap and the splice -/

/-- **The memory**: the links of the nodes, and the sizes of what is in use. -/
structure World where
  next : Nodes
  inUse : ℕ → Option ℕ

/-- A call of the heap that appends portions to a chain, and says whether it did. -/
abbrev Multialloc := ℕ → World × Memchain → Bool × World × Memchain

/-- `dlmalloc_multialloc_nodes`, with the number and the size of the portions, and
`dlmalloc_multialloc_arrays`, with their number, their sizes and the size of an
element. -/
structure Primitives where
  nodes : ℕ → ℕ → Multialloc
  arrays : ℕ → (ℕ → ℕ) → ℕ → Multialloc

/-- `incorporate_after` of the list, with the node before, the first and the last of
the new nodes and their number. -/
abbrev Incorporate := ℕ → ℕ → ℕ → ℕ → Nodes × Memchain → Option (Nodes × Memchain)

/-- **So many new blocks**, of at least the sizes that were asked for. -/
structure Served (n : ℕ) (req : ℕ → ℕ) (w w' : World) (ns : List ℕ) : Prop where
  length_eq : ns.length = n
  nodup : ns.Nodup
  addr : ∀ p ∈ ns, p ≠ 0 ∧ p < 2 ^ 64
  fresh : ∀ p ∈ ns, w.inUse p = none
  size : ∀ i p, ns[i]? = some p → ∃ m, w'.inUse p = some m ∧ req i ≤ m
  frame : ∀ p, p ∉ ns → w'.inUse p = w.inUse p

/-- **What the heap promises**: the portions are appended to the chain, or the chain is
as before. No other link is written. -/
structure Multiallocates (n : ℕ) (req : ℕ → ℕ) (call : Multialloc) : Prop where
  served : ∀ {root w ch ps}, Denotes root (w.next, ch) ps →
    (∀ p ∈ root :: ps, w.inUse p ≠ none) → (call root (w, ch)).1 = true →
    ∃ ns, Served n req w (call root (w, ch)).2.1 ns
      ∧ Denotes root ((call root (w, ch)).2.1.next, (call root (w, ch)).2.2) (ps ++ ns)
      ∧ ∀ p, p ∉ root :: ps → p ∉ ns → (call root (w, ch)).2.1.next p = w.next p
  refused : ∀ {root w ch ps}, Denotes root (w.next, ch) ps →
    (∀ p ∈ root :: ps, w.inUse p ≠ none) → (call root (w, ch)).1 = false →
    (call root (w, ch)).2.1.inUse = w.inUse
      ∧ Denotes root ((call root (w, ch)).2.1.next, (call root (w, ch)).2.2) ps
      ∧ ∀ p, p ∉ root :: ps → (call root (w, ch)).2.1.next p = w.next p

/-- The two calls of the heap do what they promise. -/
structure Primitives.Sound (P : Primitives) : Prop where
  nodes : ∀ n bytes, Multiallocates n (fun _ => bytes) (P.nodes n bytes)
  arrays : ∀ n sizes s, Multiallocates n (fun i => sizes i * s) (P.arrays n sizes s)

/-- **What the splice promises**: nodes that are linked from the first to the last come
after the node before, and of no nodes nothing is done. -/
structure Incorporates (inc : Incorporate) : Prop where
  splice : ∀ {root s qs rs ns first}, Denotes root s (qs ++ rs) → NewNodes root (qs ++ rs) ns →
    ∀ hns : ns ≠ [], LinkPath s.1 first ns.dropLast (ns.getLast hns) →
    ∃ t, inc (nodeBefore root qs) first (ns.getLast hns) ns.length s = some t
      ∧ Denotes root t (qs ++ ns ++ rs)
  none : ∀ {root s ps} first blast, Denotes root s ps → inc root first blast 0 s = some s

/-- The splice of the macros is one. -/
theorem incorporates_memchainIncorporateAfter : Incorporates memchainIncorporateAfter where
  splice h hnew hns hpath := denotes_incorporate h hnew hns hpath
  none := by
    intro root s ps first blast h
    obtain ⟨x, hx, -⟩ := h.linked.2
    rw [memchainIncorporateAfter, hx, Option.map_some, if_pos rfl]

/-! ## The three allocators -/

/-- What has become of a call: whether it has thrown, and what it leaves. -/
abbrev Burst := Bool × World × Memchain

/-- A chain on the stack is filled and spliced into the chain of the caller, unless the
call throws. -/
def spliceMany (call : Multialloc) (inc : Incorporate) (throws : Bool × Memchain → Bool)
    (first : Nodes × Memchain → Option ℕ) (r R : ℕ) (ch : Nodes × Memchain) (w : World)
    (chain : Memchain) : Option Burst :=
  let res := call r (⟨ch.1, w.inUse⟩, ch.2)
  if throws (res.1, res.2.2) then some (true, res.2.1, chain)
  else (first (res.2.1.next, res.2.2)).bind (fun first =>
    (inc R first res.2.2.lastNodePtr res.2.2.numMem (res.2.1.next, chain)).map (fun t =>
      (false, ⟨t.1, res.2.1.inUse⟩, t.2)))

/-- One of the `allocate_many`: with the heap, the splice, what memory on the stack
holds that is not initialised, the addresses of the chain on the stack and of the chain
of the caller. -/
abbrev AllocateMany :=
  Primitives → Incorporate → ℕ × Memchain → ℕ → ℕ → World → Memchain → Option Burst

/-- **`allocator::allocate_many`** of elements of one size. -/
def allocatorAllocateMany (sizeofT elemSize n : ℕ) : AllocateMany := fun P inc _ r R w chain =>
  spliceMany (P.nodes n (Word.mul 64 elemSize sizeofT)) inc (fun res => !res.1)
    (memchainFirstmem r) r R (memchainInit r w.next) w chain

/-- **`allocator::allocate_many`** of elements of many sizes. -/
def allocatorAllocateArrays (sizeofT : ℕ) (elemSizes : ℕ → ℕ) (n : ℕ) : AllocateMany :=
  fun P inc _ r R w chain =>
    spliceMany (P.arrays n elemSizes sizeofT) inc (fun res => !res.1) (memchainFirstmem r) r R
      (memchainInit r w.next) w chain

/-- **`node_allocator::allocate_many`** of elements of one size: the last node is handed
over for the first. -/
def nodeAllocatorAllocateMany (sizeofT elemSize n : ℕ) : AllocateMany :=
  fun P inc _ r R w chain =>
    spliceMany (P.nodes n (Word.mul 64 elemSize sizeofT)) inc (fun res => !res.1)
      (fun s => some s.2.lastNodePtr) r R (memchainInit r w.next) w chain

/-- **`node_allocator::allocate_many`** of elements of many sizes. The chain on the stack
is not initialised, and the call throws where it is empty afterwards. -/
def nodeAllocatorAllocateArrays (sizeofT : ℕ) (elemSizes : ℕ → ℕ) (n : ℕ) : AllocateMany :=
  fun P inc garbage r R w chain =>
    spliceMany (P.arrays n elemSizes sizeofT) inc (fun res => decide (res.2.numMem = 0))
      (fun s => some s.2.lastNodePtr) r R
      (Function.update w.next r (some garbage.1), garbage.2) w chain

/-- **`adaptive_pool::allocate_many`** of elements of one size: the chain of the caller is
the chain of the heap. -/
def adaptivePoolAllocateMany (sizeofT elemSize n : ℕ) : AllocateMany := fun P _ _ _ R w chain =>
  let res := P.nodes n (Word.mul 64 elemSize sizeofT) R (w, chain)
  some (!res.1, res.2)

/-- **`adaptive_pool::allocate_many`** of elements of many sizes. -/
def adaptivePoolAllocateArrays (sizeofT : ℕ) (elemSizes : ℕ → ℕ) (n : ℕ) : AllocateMany :=
  fun P _ _ _ R w chain =>
    let res := P.arrays n elemSizes sizeofT R (w, chain)
    some (!res.1, res.2)

/-! ## What they are to do -/

/-- **A chain of the caller**, all of whose nodes are in use, and the address of another
on the stack. -/
structure HasChain (r R : ℕ) (w : World) (chain : Memchain) (ps : List ℕ) : Prop where
  denotes : Denotes R (w.next, chain) ps
  used : ∀ p ∈ r :: R :: ps, w.inUse p ≠ none
  notMem : r ∉ R :: ps
  addr : r ≠ 0 ∧ r < 2 ^ 64

/-- **A burst**: the chain has got the blocks, and the nodes that it held are still in it,
in their order; or the call has thrown, and the chain and the heap are as before. A
request that can be served and is served does not throw, and one that is not
representable does. -/
structure IsBurst (n : ℕ) (req : ℕ → ℕ) (fits : Prop) (ask : Multialloc) (R : ℕ) (w : World)
    (ps : List ℕ) (res : Burst) : Prop where
  served : res.1 = false → fits ∧ ∃ ns us, Served n req w res.2.1 ns
    ∧ Denotes R (res.2.1.next, res.2.2) us ∧ us.Perm (ns ++ ps) ∧ ps.Sublist us
  thrown : res.1 = true → Denotes R (res.2.1.next, res.2.2) ps ∧ res.2.1.inUse = w.inUse
  serves : fits → (∀ root s, (ask root s).1 = true) → res.1 = false

/-- **`allocate_many` does what it is to do**, whatever the heap, the chain and what is on
the stack are. -/
def AllocatesMany (n : ℕ) (req : ℕ → ℕ) (fits : Prop) (ask : Primitives → Multialloc)
    (op : AllocateMany) : Prop :=
  ∀ P inc garbage r R w chain ps, Primitives.Sound P → Incorporates inc →
    HasChain r R w chain ps →
    (op P inc garbage r R w chain).Yields (IsBurst n req fits (ask P) R w ps)

/-- Of elements of one size, whose product with the size of an element is to be
representable. -/
def AllocatesNodes (sizeofT elemSize n : ℕ) (op : AllocateMany) : Prop :=
  AllocatesMany n (fun _ => elemSize * sizeofT) (elemSize * sizeofT < 2 ^ 64)
    (fun P => P.nodes n (elemSize * sizeofT)) op

/-- Of elements of many sizes; the heap refuses a size that is not representable. -/
def AllocatesArrays (sizeofT : ℕ) (elemSizes : ℕ → ℕ) (n : ℕ) (op : AllocateMany) : Prop :=
  AllocatesMany n (fun i => elemSizes i * sizeofT) True (fun P => P.arrays n elemSizes sizeofT) op

section Burst

variable {n r R first : ℕ} {req req' : ℕ → ℕ} {fits : Prop} {call ask : Multialloc}
  {inc : Incorporate} {w w' : World} {chain ch : Memchain} {ps ns : List ℕ} {root : ℕ}
  {next' : Nodes}

/-- Only the links of a chain are read. -/
theorem Denotes.congr {s : Nodes × Memchain} (h : Denotes root s ps)
    (heq : ∀ p ∈ root :: ps, next' p = s.1 p) : Denotes root (next', s.2) ps where
  linked := h.linked.congr heq
  numMem_eq := h.numMem_eq
  last_eq := h.last_eq
  addr := h.addr

/-- **There are no more new blocks than addresses** that are not in use. -/
theorem Served.length_le (h : Served n req w w' ns) (hc : HasChain r R w chain ps) :
    n ≤ 2 ^ 64 - 3 := by
  have hR := hc.denotes.addr R List.mem_cons_self
  have hne : r ≠ R := fun he => hc.notMem (he ▸ List.mem_cons_self)
  have hnodup : (r :: R :: ns).Nodup := by
    refine List.nodup_cons.mpr ⟨fun hm => ?_, List.nodup_cons.mpr ⟨fun hm => ?_, h.nodup⟩⟩
    · rcases List.mem_cons.mp hm with rfl | hm
      · exact hne rfl
      · exact hc.used r List.mem_cons_self (h.fresh r hm)
    · exact hc.used R (List.mem_cons_of_mem r List.mem_cons_self) (h.fresh R hm)
  have hlt := length_lt_of_addr hnodup (fun p hp => by
    rcases List.mem_cons.mp hp with rfl | hp
    · exact hc.addr
    · rcases List.mem_cons.mp hp with rfl | hp
      · exact hR
      · exact h.addr p hp)
  simp only [List.length_cons, h.length_eq] at hlt
  omega

/-- New blocks may be added to a chain of nodes that are in use. -/
theorem Served.newNodes (h : Served n req w w' ns) (hused : ∀ p ∈ root :: ps, w.inUse p ≠ none) :
    NewNodes root ps ns where
  nodup := h.nodup
  addr := h.addr
  notMem p hp hm := hused p hm (h.fresh p hp)

/-- **The nodes of a chain are spliced in front of another.** -/
theorem denotes_splice (hinc : Incorporates inc) (h : Denotes R (w.next, chain) ps)
    (hch : Denotes r (w.next, ch) ns) (hnew : NewNodes R ps ns)
    (hfirst : ns ≠ [] → w.next r = some first) :
    ∃ t, inc R first ch.lastNodePtr ch.numMem (w.next, chain) = some t
      ∧ Denotes R t (ns ++ ps) := by
  have hnum : ch.numMem = ns.length := hch.numMem_eq
  have hlast : ch.lastNodePtr = nodeBefore r ns := hch.last_eq
  by_cases hns : ns = []
  · subst hns
    rw [hnum]
    exact ⟨_, hinc.none first ch.lastNodePtr h, h⟩
  · obtain ⟨-, x, hx, hpath⟩ := hch.linked
    obtain rfl : x = first := Option.some.inj (hx.symm.trans (hfirst hns))
    have hsplit : ns.dropLast ++ [ns.getLast hns] = ns := List.dropLast_concat_getLast hns
    rw [← hsplit] at hpath
    have hend : nodeBefore r ns = ns.getLast hns := nodeBefore_append r [] hns
    rw [hnum, hlast, hend]
    exact hinc.splice (show Denotes R (w.next, chain) ([] ++ ps) from h) hnew hns
      hpath.next_last.1

/-- A call that is served splices. -/
theorem spliceMany_of_served {first : Nodes × Memchain → Option ℕ} {s : Nodes × Memchain} {x : ℕ}
    (h : call r (⟨s.1, w.inUse⟩, s.2) = (true, w', ch)) (hx : first (w'.next, ch) = some x) :
    spliceMany call inc (fun res => !res.1) first r R s w chain
      = (inc R x ch.lastNodePtr ch.numMem (w'.next, chain)).map (fun t =>
        (false, ⟨t.1, w'.inUse⟩, t.2)) := by
  unfold spliceMany
  simp only [h, hx, Bool.not_true, Bool.false_eq_true, if_false, Option.bind_some]

/-- A call that is refused throws. -/
theorem spliceMany_of_refused {first : Nodes × Memchain → Option ℕ} {s : Nodes × Memchain}
    (h : call r (⟨s.1, w.inUse⟩, s.2) = (false, w', ch)) :
    spliceMany call inc (fun res => !res.1) first r R s w chain = some (true, w', chain) := by
  unfold spliceMany
  simp only [h, Bool.not_false, if_true]

/-- **A chain on the stack, filled by the heap, is spliced in**: right, if its first node
is handed over as the first. -/
theorem spliceMany_yields (hinc : Incorporates inc) (hcall : Multiallocates n req' call)
    (hreq : n ≤ 2 ^ 64 - 3 → req' = req) (hc : HasChain r R w chain ps)
    (first : Nodes × Memchain → Option ℕ)
    (hfits : n ≤ 2 ^ 64 - 3 → fits) (hask : fits → ask = call)
    (hfirst : ∀ next ch ns, n ≤ 2 ^ 64 - 3 → ns.length = n → Denotes r (next, ch) ns →
      ∃ x, first (next, ch) = some x ∧ (ns ≠ [] → next r = some x)) :
    (spliceMany call inc (fun res => !res.1) first r R (memchainInit r w.next) w chain).Yields
      (IsBurst n req fits ask R w ps) := by
  have hinit := denotes_memchainInit w.next hc.addr.1 hc.addr.2
  have hused : ∀ p ∈ r :: [], w.inUse p ≠ none := by
    intro p hp
    rw [List.mem_singleton.mp hp]
    exact hc.used r List.mem_cons_self
  -- the links of the chain of the caller are not written
  have hlinks : ∀ p ∈ R :: ps, (memchainInit r w.next).1 p = w.next p := fun p hp =>
    Function.update_of_ne (ne_of_mem_of_not_mem hp hc.notMem) ..
  have hnotMem : ∀ p ∈ R :: ps, p ∉ r :: [] := fun p hp hm =>
    hc.notMem (List.mem_singleton.mp hm ▸ hp)
  generalize memchainInit r w.next = init at hinit hlinks ⊢
  obtain ⟨next, ch⟩ := init
  have hserved := hcall.served (w := ⟨next, w.inUse⟩) hinit hused
  have hrefused := hcall.refused (w := ⟨next, w.inUse⟩) hinit hused
  obtain ⟨res, hres⟩ : ∃ res, call r (⟨next, w.inUse⟩, ch) = res := ⟨_, rfl⟩
  obtain ⟨ok, w', ch'⟩ := res
  rw [hres] at hserved hrefused
  cases ok with
  | false =>
    rw [spliceMany_of_refused hres]
    obtain ⟨hinUse, -, hframe⟩ := hrefused rfl
    refine Option.yields_some ⟨fun h => absurd h Bool.noConfusion, fun _ => ⟨?_, hinUse⟩,
      fun hf hall => ?_⟩
    · exact hc.denotes.congr (fun p hp => (hframe p (hnotMem p hp)).trans (hlinks p hp))
    · have := hall r (⟨next, w.inUse⟩, ch)
      rw [hask hf, hres] at this
      exact absurd this Bool.noConfusion
  | true =>
    obtain ⟨ns, hns, hdenotes, hframe⟩ := hserved rfl
    have hns' : Served n req' w w' ns := ⟨hns.length_eq, hns.nodup, hns.addr, hns.fresh, hns.size,
      hns.frame⟩
    obtain rfl := hreq (hns'.length_le hc)
    have husedR : ∀ p ∈ R :: ps, w.inUse p ≠ none := fun p hp =>
      hc.used p (List.mem_cons_of_mem r hp)
    have hchain : Denotes R (w'.next, chain) ps := hc.denotes.congr (fun p hp =>
      (hframe p (hnotMem p hp) (fun hm => husedR p hp (hns.fresh p hm))).trans (hlinks p hp))
    obtain ⟨x, hx, hxr⟩ := hfirst w'.next ch' ns (hns'.length_le hc) hns.length_eq hdenotes
    obtain ⟨t, ht, hd⟩ := denotes_splice hinc hchain hdenotes (hns'.newNodes husedR) hxr
    rw [spliceMany_of_served hres hx, ht, Option.map_some]
    exact Option.yields_some ⟨fun _ => ⟨hfits (hns'.length_le hc), ns, ns ++ ps,
      ⟨hns.length_eq, hns.nodup, hns.addr, hns.fresh, hns.size, hns.frame⟩, hd, List.Perm.refl _,
      List.sublist_append_right ns ps⟩, fun h => absurd h Bool.noConfusion, fun _ _ => rfl⟩

/-- **The heap appends to the chain of the caller.** -/
theorem isBurst_append (hcall : Multiallocates n req' call)
    (hreq : n ≤ 2 ^ 64 - 3 → req' = req) (hc : HasChain r R w chain ps)
    (hfits : n ≤ 2 ^ 64 - 3 → fits) (hask : fits → ask = call) :
    IsBurst n req fits ask R w ps (!(call R (w, chain)).1, (call R (w, chain)).2) := by
  have husedR : ∀ p ∈ R :: ps, w.inUse p ≠ none := fun p hp =>
    hc.used p (List.mem_cons_of_mem r hp)
  have hserved := hcall.served hc.denotes husedR
  have hrefused := hcall.refused hc.denotes husedR
  refine ⟨fun h => ?_, fun h => ?_, fun hf hall => ?_⟩
  · obtain ⟨ns, hns, hd, -⟩ := hserved (by simpa using h)
    obtain rfl := hreq (hns.length_le hc)
    exact ⟨hfits (hns.length_le hc), ns, ps ++ ns, hns, hd, List.perm_append_comm,
      List.sublist_append_left ps ns⟩
  · obtain ⟨hinUse, hd, -⟩ := hrefused (by simpa using h)
    exact ⟨hd, hinUse⟩
  · rw [← hask hf, hall R (w, chain)]
    rfl

/-! ## A heap that serves what it can -/

open Classical in
/-- **A heap that serves a request** where there are addresses that are not in use, with
blocks of just the size. -/
noncomputable def serve (n : ℕ) (req : ℕ → ℕ) : Multialloc := fun _ s =>
  if h : ∃ ns : List ℕ, ns.length = n ∧ ns.Nodup ∧ (∀ p ∈ ns, p ≠ 0 ∧ p < 2 ^ 64)
      ∧ ∀ p ∈ ns, s.1.inUse p = none then
    let t := memchainPushBacks h.choose (s.1.next, s.2)
    (true, ⟨t.1, fun p => if p ∈ h.choose then some (req (h.choose.idxOf p)) else s.1.inUse p⟩, t.2)
  else (false, s)

/-- A heap that refuses every request. -/
def refuse : Multialloc := fun _ s => (false, s)

/-- Only the links of the last node and of those that are pushed are written. -/
theorem memchainPushBacks_apply_of_notMem {s : Nodes × Memchain} {p : ℕ}
    (hlast : p ≠ s.2.lastNodePtr) (hp : p ∉ ns) : (memchainPushBacks ns s).1 p = s.1 p := by
  induction ns generalizing s with
  | nil => rfl
  | cons n ns ih =>
    have hne : p ≠ n := fun he => hp (he ▸ List.mem_cons_self)
    refine (ih (s := memchainPushBack n s) hne (fun hm => hp (List.mem_cons_of_mem n hm))).trans ?_
    exact (Function.update_of_ne hne ..).trans (Function.update_of_ne hlast ..)

theorem multiallocates_serve (n : ℕ) (req : ℕ → ℕ) : Multiallocates n req (serve n req) where
  served := by
    intro root w ch ps h hused hok
    by_cases hex : ∃ ns : List ℕ, ns.length = n ∧ ns.Nodup ∧ (∀ p ∈ ns, p ≠ 0 ∧ p < 2 ^ 64)
      ∧ ∀ p ∈ ns, w.inUse p = none
    · obtain ⟨hlen, hnodup, haddr, hfresh⟩ := hex.choose_spec
      have hnew : NewNodes root ps hex.choose :=
        ⟨hnodup, haddr, fun p hp hm => hused p hm (hfresh p hp)⟩
      refine ⟨hex.choose, ⟨hlen, hnodup, haddr, hfresh, fun i p hi => ?_, fun p hp => ?_⟩, ?_, ?_⟩
      · obtain ⟨hi', rfl⟩ := List.getElem?_eq_some_iff.mp hi
        refine ⟨req i, ?_, le_rfl⟩
        rw [serve, dif_pos hex]
        simp only
        rw [if_pos (List.getElem_mem hi'), hnodup.idxOf_getElem i hi']
      · rw [serve, dif_pos hex]
        exact if_neg hp
      · rw [serve, dif_pos hex]
        exact denotes_pushBacks h hnew
      · intro p hp hpn
        rw [serve, dif_pos hex]
        refine memchainPushBacks_apply_of_notMem (fun he => hp ?_) hpn
        have hlast : ch.lastNodePtr = nodeBefore root ps := h.last_eq
        rw [he, hlast]
        exact nodeBefore_mem root ps
    · rw [serve, dif_neg hex] at hok
      exact absurd hok Bool.noConfusion
  refused := by
    intro root w ch ps h _ hok
    by_cases hex : ∃ ns : List ℕ, ns.length = n ∧ ns.Nodup ∧ (∀ p ∈ ns, p ≠ 0 ∧ p < 2 ^ 64)
      ∧ ∀ p ∈ ns, w.inUse p = none
    · rw [serve, dif_pos hex] at hok
      exact absurd hok Bool.noConfusion
    · rw [serve, dif_neg hex]
      exact ⟨rfl, h, fun _ _ => rfl⟩

theorem multiallocates_refuse (n : ℕ) (req : ℕ → ℕ) : Multiallocates n req refuse where
  served _ _ h := absurd h Bool.noConfusion
  refused h _ _ := ⟨rfl, h, fun _ _ => rfl⟩

/-- The two calls of such heaps. -/
noncomputable def serving : Primitives :=
  ⟨fun n bytes => serve n (fun _ => bytes), fun n sizes s => serve n (fun i => sizes i * s)⟩

def refusing : Primitives := ⟨fun _ _ => refuse, fun _ _ _ => refuse⟩

theorem sound_serving : serving.Sound :=
  ⟨fun n _ => multiallocates_serve n _, fun n _ _ => multiallocates_serve n _⟩

theorem sound_refusing : refusing.Sound :=
  ⟨fun n _ => multiallocates_refuse n _, fun n _ _ => multiallocates_refuse n _⟩

/-- Two chains in use and nothing else: one at address 1 and one at address 2. -/
def twoChains : World :=
  ⟨fun p => if p = 1 then some 0 else none, fun p => if p = 1 ∨ p = 2 then some 0 else none⟩

theorem hasChain_twoChains : HasChain 2 1 twoChains ⟨0, 1⟩ [] where
  denotes := .of_eq (LinkPath.single rfl) rfl rfl (by decide)
  used := by decide
  notMem := by decide
  addr := by decide

/-- **There is room for as many blocks as addresses**, but for null and the chains. -/
theorem serve_twoChains (hn : n ≤ 2 ^ 64 - 3) (req : ℕ → ℕ) (root : ℕ) (next : Nodes)
    (ch : Memchain) : (serve n req root (⟨next, twoChains.inUse⟩, ch)).1 = true := by
  have hex : ∃ ns : List ℕ, ns.length = n ∧ ns.Nodup ∧ (∀ p ∈ ns, p ≠ 0 ∧ p < 2 ^ 64)
      ∧ ∀ p ∈ ns, twoChains.inUse p = none := by
    refine ⟨List.range' 3 n, List.length_range', List.nodup_range', fun p hp => ?_, fun p hp => ?_⟩
    · have := List.mem_range'_1.mp hp
      omega
    · have := List.mem_range'_1.mp hp
      exact if_neg (by omega)
  rw [serve, dif_pos hex]

/-! ## What the three do -/

/-- A call that is served does not throw. -/
theorem fst_of_spliceMany {first : Nodes × Memchain → Option ℕ} {s : Nodes × Memchain} {res : Burst}
    (hok : (call r (⟨s.1, w.inUse⟩, s.2)).1 = true)
    (h : spliceMany call inc (fun res => !res.1) first r R s w chain = some res) :
    res.1 = false := by
  unfold spliceMany at h
  simp only [hok, Bool.not_true, Bool.false_eq_true, if_false] at h
  obtain ⟨x, -, h⟩ := Option.bind_eq_some_iff.mp h
  obtain ⟨t, -, rfl⟩ := Option.map_eq_some_iff.mp h
  rfl

/-- **A product that is not representable is not noticed**, where there is room for the
blocks. -/
theorem fits_of_serves {op : AllocateMany} {ask : Primitives → Multialloc}
    (h : AllocatesMany n req fits ask op)
    (hok : ∀ res, op serving memchainIncorporateAfter (0, ⟨5, 2⟩) 2 1 twoChains ⟨0, 1⟩ = some res →
      res.1 = false) : fits := by
  obtain ⟨res, hres, hburst⟩ := h serving memchainIncorporateAfter (0, ⟨5, 2⟩) 2 1 twoChains ⟨0, 1⟩
    [] sound_serving incorporates_memchainIncorporateAfter hasChain_twoChains
  exact (hburst.served (hok res hres)).1

variable {sizeofT elemSize : ℕ} {elemSizes : ℕ → ℕ}

/-- The right call is made where the product is representable. -/
theorem nodes_mul_eq (P : Primitives) (h : elemSize * sizeofT < 2 ^ 64) :
    P.nodes n (elemSize * sizeofT) = P.nodes n (Word.mul 64 elemSize sizeofT) := by
  rw [Word.mul_of_lt h]

/-- **A request of one size**: where there is room for the blocks, the size that the heap
is asked for is the size. -/
theorem allocatesNodes_of_fits {op : AllocateMany}
    (hfits : n ≤ 2 ^ 64 - 3 → elemSize * sizeofT < 2 ^ 64)
    (h : (n ≤ 2 ^ 64 - 3 →
        (fun _ : ℕ => Word.mul 64 elemSize sizeofT) = fun _ => elemSize * sizeofT) →
      (∀ P : Primitives, elemSize * sizeofT < 2 ^ 64 →
        P.nodes n (elemSize * sizeofT) = P.nodes n (Word.mul 64 elemSize sizeofT)) →
      AllocatesNodes sizeofT elemSize n op) : AllocatesNodes sizeofT elemSize n op :=
  h (fun hn => by rw [Word.mul_of_lt (hfits hn)]) (fun P hlt => nodes_mul_eq P hlt)

/-- **`allocator::allocate_many` is right** where the product is representable, or no memory
has room for the blocks. -/
theorem allocatorAllocateMany_iff : AllocatesNodes sizeofT elemSize n
      (allocatorAllocateMany sizeofT elemSize n)
    ↔ (n ≤ 2 ^ 64 - 3 → elemSize * sizeofT < 2 ^ 64) := by
  refine ⟨fun h hn => fits_of_serves h (fun res => fst_of_spliceMany ?_), fun hfits => ?_⟩
  · exact serve_twoChains hn ..
  · refine allocatesNodes_of_fits hfits (fun hreq hask => ?_)
    intro P inc garbage r R w chain ps hP hinc hc
    exact spliceMany_yields hinc (hP.nodes n _) hreq hc (memchainFirstmem r) hfits (hask P)
      (fun next ch ns _ _ hd => by
        obtain ⟨-, x, hx, -⟩ := hd.linked
        exact ⟨x, hx, fun _ => hx⟩)

/-- **`adaptive_pool::allocate_many` is right** under the same condition. -/
theorem adaptivePoolAllocateMany_iff : AllocatesNodes sizeofT elemSize n
      (adaptivePoolAllocateMany sizeofT elemSize n)
    ↔ (n ≤ 2 ^ 64 - 3 → elemSize * sizeofT < 2 ^ 64) := by
  refine ⟨fun h hn => fits_of_serves h ?_, fun hfits => ?_⟩
  · rintro res hres
    obtain rfl := Option.some.inj hres
    exact congrArg not (serve_twoChains hn ..)
  · refine allocatesNodes_of_fits hfits (fun hreq hask => ?_)
    intro P inc garbage r R w chain ps hP hinc hc
    exact Option.yields_some (isBurst_append (hP.nodes n _) hreq hc hfits (hask P))

/-- The arrays of `allocator` and of `adaptive_pool` are always right. -/
theorem allocatorAllocateArrays_allocates : AllocatesArrays sizeofT elemSizes n
    (allocatorAllocateArrays sizeofT elemSizes n) := by
  intro P inc garbage r R w chain ps hP hinc hc
  exact spliceMany_yields hinc (hP.arrays n elemSizes sizeofT) (fun _ => rfl) hc
    (memchainFirstmem r) (fun _ => trivial) (fun _ => rfl) (fun next ch ns _ _ hd => by
      obtain ⟨-, x, hx, -⟩ := hd.linked
      exact ⟨x, hx, fun _ => hx⟩)

theorem adaptivePoolAllocateArrays_allocates : AllocatesArrays sizeofT elemSizes n
    (adaptivePoolAllocateArrays sizeofT elemSizes n) := by
  intro P inc garbage r R w chain ps hP hinc hc
  exact Option.yields_some (isBurst_append (hP.arrays n elemSizes sizeofT) (fun _ => rfl) hc
    (fun _ => trivial) (fun _ => rfl))

/-- **Of two nodes or more only the last is in the chain**, where it is taken for the
first. -/
theorem le_one_of_nodeAllocator (h : AllocatesNodes sizeofT elemSize n
      (nodeAllocatorAllocateMany sizeofT elemSize n)) (hn : n ≤ 2 ^ 64 - 3) : n ≤ 1 := by
  have hinit : Denotes 2 (memchainInit 2 twoChains.next) [] :=
    denotes_memchainInit twoChains.next (by decide) (by decide)
  have hused : ∀ p ∈ 2 :: ([] : List ℕ), twoChains.inUse p ≠ none := by decide
  obtain ⟨res, hres, hburst⟩ := h serving memchainIncorporateAfter (0, ⟨5, 2⟩) 2 1 twoChains ⟨0, 1⟩
    [] sound_serving incorporates_memchainIncorporateAfter hasChain_twoChains
  have hlinks : (memchainInit 2 twoChains.next).1 1 = some 0 := rfl
  unfold nodeAllocatorAllocateMany at hres
  generalize memchainInit 2 twoChains.next = init at hinit hlinks hres
  have hok := serve_twoChains hn (fun _ => Word.mul 64 elemSize sizeofT) 2 init.1 init.2
  obtain ⟨ns, hns, hd, hframe⟩ := (multiallocates_serve n
    (fun _ => Word.mul 64 elemSize sizeofT)).served (w := ⟨init.1, twoChains.inUse⟩) hinit hused hok
  obtain ⟨⟨ok, w', ch'⟩, hserve⟩ : ∃ res, serve n (fun _ => Word.mul 64 elemSize sizeofT) 2
    (⟨init.1, twoChains.inUse⟩, init.2) = res := ⟨_, rfl⟩
  rw [hserve] at hok hns hd hframe
  simp only at hok hns hd hframe
  subst hok
  have hserving : serving.nodes n (Word.mul 64 elemSize sizeofT) 2
      (⟨init.1, twoChains.inUse⟩, init.2) = (true, w', ch') := hserve
  rw [spliceMany_of_served hserving rfl] at hres
  by_contra hmany
  have hne : ns ≠ [] := by
    rintro rfl
    have := hns.length_eq
    simp only [List.length_nil] at this
    omega
  -- the link of the chain leads to the last of the nodes, and its link to null
  obtain ⟨last, hlast⟩ : ∃ last, ch'.lastNodePtr = last := ⟨_, rfl⟩
  have hmem : last ∈ ns := by
    rw [← hlast, hd.last_eq, ← List.nil_append ns, List.nil_append]
    exact (nodeBefore_append 2 [] hne).symm ▸ List.getLast_mem hne
  have h1ns : 1 ∉ ns := by
    intro hm
    have hfree : twoChains.inUse 1 = none := hns.fresh 1 hm
    exact absurd hfree (by decide)
  have h1 : last ≠ 1 := fun he => h1ns (he ▸ hmem)
  have hnum : ch'.numMem ≠ 0 := by
    rw [hd.numMem_eq]
    exact fun h0 => hne (List.length_eq_zero_iff.mp h0)
  have hnext : w'.next 1 = some 0 := by
    rw [hframe 1 (by decide) h1ns, hlinks]
  simp only [memchainIncorporateAfter, hnext, Option.map_some, hlast, if_neg hnum] at hres
  obtain rfl := Option.some.inj hres
  obtain ⟨-, ns', us, hns', hus, hperm, -⟩ := hburst.served rfl
  obtain ⟨-, x, hx, hpath⟩ := hus.linked
  simp only at hx hpath
  rw [Function.update_of_ne h1.symm, Function.update_self] at hx
  obtain rfl := Option.some.inj hx
  have hsingle : LinkPath (Function.update (Function.update w'.next 1 (some last)) last (some 0))
      last [last] 0 := LinkPath.single (Function.update_self ..)
  have hlen := hperm.length_eq
  rw [LinkPath.eq_of_null hpath hsingle (fun hm => (hus.addr 0 (List.mem_cons_of_mem 1 hm)).1 rfl)
    (fun hm => (hns.addr last hmem).1 (List.mem_singleton.mp hm).symm), List.append_nil,
    hns'.length_eq, List.length_singleton] at hlen
  omega

/-- **`node_allocator::allocate_many` is right** where in addition there is at most one
block. -/
theorem nodeAllocatorAllocateMany_iff : AllocatesNodes sizeofT elemSize n
      (nodeAllocatorAllocateMany sizeofT elemSize n)
    ↔ (n ≤ 2 ^ 64 - 3 → n ≤ 1 ∧ elemSize * sizeofT < 2 ^ 64) := by
  refine ⟨fun h hn => ⟨le_one_of_nodeAllocator h hn,
    fits_of_serves h (fun res => fst_of_spliceMany ?_)⟩, fun hfits => ?_⟩
  · exact serve_twoChains hn ..
  · refine allocatesNodes_of_fits (fun hn => (hfits hn).2) (fun hreq hask => ?_)
    intro P inc garbage r R w chain ps hP hinc hc
    refine spliceMany_yields hinc (hP.nodes n _) hreq hc (fun s => some s.2.lastNodePtr)
      (fun hn => (hfits hn).2) (hask P) (fun next ch ns hn hlen hd => ⟨_, rfl, fun hne => ?_⟩)
    -- the one node is the first and the last
    obtain ⟨p, rfl⟩ : ∃ p, ns = [p] := by
      have := (hfits hn).1
      have := List.length_pos_iff.mpr hne
      exact List.length_eq_one_iff.mp (by omega)
    have hlast : ch.lastNodePtr = p := hd.last_eq
    obtain ⟨-, x, hx, rfl, -⟩ := hd.linked
    rw [hlast]
    exact hx

/-- **The arrays of `node_allocator` are never right**: the chain on the stack is what was
there before. -/
theorem not_nodeAllocatorAllocateArrays : ¬ AllocatesArrays sizeofT elemSizes n
    (nodeAllocatorAllocateArrays sizeofT elemSizes n) := by
  intro h
  obtain ⟨res, hres, hburst⟩ := h refusing memchainIncorporateAfter (0, ⟨5, 2⟩) 2 1 twoChains ⟨0, 1⟩
    [] sound_refusing incorporates_memchainIncorporateAfter hasChain_twoChains
  obtain rfl := Option.some.inj hres
  obtain ⟨-, ns, us, hns, hus, hperm, -⟩ := hburst.served rfl
  have hnum : 5 = us.length := hus.numMem_eq
  have hlen := hperm.length_eq
  rw [List.append_nil] at hlen
  cases ns with
  | nil => exact absurd (hnum.trans hlen) (by decide)
  | cons p ns =>
    obtain ⟨m, hm, -⟩ := hns.size 0 p rfl
    have hfresh := hns.fresh p List.mem_cons_self
    exact absurd (hm.symm.trans hfresh) (Option.some_ne_none m)

end Burst

/-! ## Deallocation -/

/-- A block is freed, and may be overwritten. One that is not in use cannot be. -/
def World.free (p : ℕ) (w : World) : Option World :=
  (w.inUse p).map (fun _ => ⟨Function.update w.next p none, Function.update w.inUse p none⟩)

/-- The loop of `internal_multialloc_free`: the link of a block is read before the block
is freed. -/
def multideallocLoop : ℕ → ℕ → World → Option World
  | 0, _, _ => none
  | fuel + 1, it, w =>
    if it = 0 then some w
    else (w.next it).bind (fun next => (w.free it).bind (multideallocLoop fuel next))

/-- **`dlmalloc_multidealloc`.** -/
def multidealloc (fuel root : ℕ) (w : World) : Option World :=
  (w.next root).bind (fun first => multideallocLoop fuel first w)

/-- One of the `deallocate_many`: with the addresses of a chain on the stack and of the
chain of the caller. -/
abbrev DeallocateMany := ℕ → ℕ → ℕ → World → Memchain → Option World

/-- **`allocator::deallocate_many`**: a chain on the stack is made of the chain of the
caller. -/
def allocatorDeallocateMany : DeallocateMany := fun fuel r R w chain =>
  (w.next R).bind (fun first => multidealloc fuel r
    ⟨(memchainInitFrom r first chain.lastNodePtr chain.numMem w.next).1, w.inUse⟩)

/-- **`node_allocator::deallocate_many`**, which does the same. -/
def nodeAllocatorDeallocateMany : DeallocateMany := fun fuel r R w chain =>
  (w.next R).bind (fun first => multidealloc fuel r
    ⟨(memchainInitFrom r first chain.lastNodePtr chain.numMem w.next).1, w.inUse⟩)

/-- **`adaptive_pool::deallocate_many`**: the chain of the caller is the chain of the
heap. -/
def adaptivePoolDeallocateMany : DeallocateMany := fun fuel _ R w _ => multidealloc fuel R w

/-- **Each block of a chain is freed**, once, and nothing else. -/
def DeallocatesMany (op : DeallocateMany) : Prop :=
  ∀ fuel r R w chain ps, HasChain r R w chain ps → ps.length < fuel →
    (op fuel r R w chain).Yields (fun w' =>
      ∀ p, w'.inUse p = if p ∈ ps then none else w.inUse p)

section Dealloc

variable {w : World} {a fuel r R : ℕ} {chain : Memchain} {ps : List ℕ}

theorem multideallocLoop_yields (hpath : LinkPath w.next a ps 0) (h0 : (0 : ℕ) ∉ ps)
    (hnodup : ps.Nodup) (hused : ∀ p ∈ ps, w.inUse p ≠ none) (hfuel : ps.length < fuel) :
    (multideallocLoop fuel a w).Yields (fun w' =>
      ∀ p, w'.inUse p = if p ∈ ps then none else w.inUse p) := by
  induction ps generalizing w a fuel with
  | nil =>
    obtain rfl : a = 0 := hpath
    obtain ⟨fuel, rfl⟩ : ∃ k, fuel = k + 1 :=
      ⟨fuel - 1, by simp only [List.length_nil] at hfuel; omega⟩
    exact Option.yields_some (fun p => (if_neg (List.not_mem_nil)).symm)
  | cons p ps ih =>
    obtain ⟨rfl, next, hnext, hrest⟩ := hpath
    obtain ⟨fuel, rfl⟩ : ∃ k, fuel = k + 1 := ⟨fuel - 1, by omega⟩
    obtain ⟨hnotMem, hnodup'⟩ := List.nodup_cons.mp hnodup
    obtain ⟨m, hm⟩ := Option.ne_none_iff_exists'.mp (hused a List.mem_cons_self)
    have ha : a ≠ 0 := fun he => h0 (he ▸ List.mem_cons_self)
    rw [multideallocLoop, if_neg ha, hnext, Option.bind_some, World.free, hm, Option.map_some,
      Option.bind_some]
    refine (ih (hrest.update hnotMem none) (fun h => h0 (List.mem_cons_of_mem a h)) hnodup'
      (fun q hq => ?_) (Nat.lt_of_succ_lt_succ hfuel)).imp (fun w' hw' q => ?_)
    · simp only
      rw [Function.update_of_ne (ne_of_mem_of_not_mem hq hnotMem)]
      exact hused q (List.mem_cons_of_mem a hq)
    · rw [hw' q]
      by_cases hq : q ∈ ps
      · rw [if_pos hq, if_pos (List.mem_cons_of_mem a hq)]
      · rw [if_neg hq]
        by_cases hqa : q = a
        · rw [hqa, if_pos List.mem_cons_self]
          exact Function.update_self ..
        · rw [if_neg (fun h => (List.mem_cons.mp h).elim hqa hq)]
          exact Function.update_of_ne hqa ..

/-- The nodes of a chain are blocks. -/
theorem HasChain.blocks (h : HasChain r R w chain ps) :
    (0 : ℕ) ∉ ps ∧ ps.Nodup ∧ ∀ p ∈ ps, w.inUse p ≠ none :=
  ⟨fun hm => (h.denotes.addr 0 (List.mem_cons_of_mem R hm)).1 rfl,
    (List.nodup_cons.mp h.denotes.nodup).2,
    fun p hp => h.used p (List.mem_cons_of_mem r (List.mem_cons_of_mem R hp))⟩

/-- **After a burst there is a chain again**, of blocks that are in use. -/
theorem IsBurst.hasChain {n : ℕ} {req : ℕ → ℕ} {fits : Prop} {ask : Multialloc} {res : Burst}
    (h : IsBurst n req fits ask R w ps res) (hc : HasChain r R w chain ps) (hok : res.1 = false) :
    ∃ us, HasChain r R res.2.1 res.2.2 us ∧ us.length = n + ps.length := by
  obtain ⟨-, ns, us, hns, hd, hperm, -⟩ := h.served hok
  have hkept : ∀ p ∈ r :: R :: ps, res.2.1.inUse p ≠ none := fun p hp => by
    rw [hns.frame p (fun hm => hc.used p hp (hns.fresh p hm))]
    exact hc.used p hp
  have hnew : ∀ p ∈ ns, res.2.1.inUse p ≠ none := fun p hp => by
    obtain ⟨i, hi, rfl⟩ := List.getElem_of_mem hp
    obtain ⟨m, hm, -⟩ := hns.size i _ (List.getElem?_eq_getElem hi)
    rw [hm]
    exact Option.some_ne_none m
  have hmem : ∀ p ∈ us, p ∈ ns ∨ p ∈ ps := fun p hp => List.mem_append.mp (hperm.mem_iff.mp hp)
  refine ⟨us, ⟨hd, fun p hp => ?_, fun hm => ?_, hc.addr⟩, ?_⟩
  · rcases List.mem_cons.mp hp with rfl | hp
    · exact hkept p List.mem_cons_self
    · rcases List.mem_cons.mp hp with rfl | hp
      · exact hkept p (List.mem_cons_of_mem r List.mem_cons_self)
      · exact (hmem p hp).elim (hnew p)
          (fun hp => hkept p (List.mem_cons_of_mem r (List.mem_cons_of_mem R hp)))
  · rcases List.mem_cons.mp hm with rfl | hm
    · exact hc.notMem List.mem_cons_self
    · rcases hmem r hm with hm | hm
      · exact hc.used r List.mem_cons_self (hns.fresh r hm)
      · exact hc.notMem (List.mem_cons_of_mem R hm)
  · rw [hperm.length_eq, List.length_append, hns.length_eq]

theorem adaptivePoolDeallocateMany_deallocates : DeallocatesMany adaptivePoolDeallocateMany := by
  intro fuel r R w chain ps h hfuel
  obtain ⟨h0, hnodup, hused⟩ := h.blocks
  obtain ⟨-, x, hx, hpath⟩ := h.denotes.linked
  rw [adaptivePoolDeallocateMany, multidealloc, show w.next R = some x from hx, Option.bind_some]
  exact multideallocLoop_yields hpath h0 hnodup hused hfuel

theorem allocatorDeallocateMany_deallocates : DeallocatesMany allocatorDeallocateMany := by
  intro fuel r R w chain ps h hfuel
  obtain ⟨h0, hnodup, hused⟩ := h.blocks
  obtain ⟨-, x, hx, hpath⟩ := h.denotes.linked
  have hr : r ∉ ps := fun hm => h.notMem (List.mem_cons_of_mem R hm)
  rw [allocatorDeallocateMany, show w.next R = some x from hx, Option.bind_some, multidealloc,
    memchainInitFrom]
  simp only [Function.update_self, Option.bind_some]
  exact multideallocLoop_yields (hpath.update hr (some x)) h0 hnodup hused hfuel

end Dealloc

/-! ## The burst interface -/

end Dlmalloc
