import BoostContainer.Pool.NodePoolSweep

/-!
# What a node pool lends over a run

The nodes of the owned blocks are at any time either on the free list or
lent, each exactly once, and the free list records its length
(`NodePool.Sound`). Every operation but one keeps this whatever the state.
The exception is `deallocate_free_blocks`, whose last splice is within the
contract of the list only under a condition on the blocks
(`NodePool.SweepCovers`); under that condition it does what it is for
(`NodePool.Sound.exact`), and without it no list that merely honours its
contract makes it do so (`NodePool.Sound.exact_iff`).
-/

namespace NodePool

/-- **The invariant of a pool**, with the nodes it has lent. -/
structure Sound (s : NodePool) (live : List ℕ) : Prop where
  node_pos : 0 < s.realNodeSize
  block_pos : 0 < s.nodesPerBlock
  /-- The free list records its length. -/
  wellFormed : s.freelist.WellFormed
  blocks_apart : (s.blocklist.map s.blockRegion).Pairwise Region.Apart
  /-- What is free and what is lent are the nodes of the owned blocks. -/
  partition : (s.freelist.nodes ++ live).Perm s.allSlots
  allocated_eq : s.allocated = live.length

/-- **The answers of a segment manager are fresh**: they are apart from each
other and from the blocks the pool owns. -/
def FreshAnswers (s : NodePool) (answers : List (Option ℕ)) : Prop :=
  ((answers.reduceOption ++ s.blocklist).map s.blockRegion).Pairwise Region.Apart

/-- **The condition of `deallocate_free_blocks`**: its cached last position is
set, or none is needed. -/
def SweepCovers (s : NodePool) : Prop :=
  LastCached s.nodesPerBlock s.freeIn s.blocklist
    ∨ NothingKept s.nodesPerBlock s.freeIn s.blocklist

/-- **What `deallocate_free_blocks` is for**: it hands back the blocks that
are wholly free, keeps the others, and keeps their free nodes. -/
structure Exact (sl : IntrusiveSlist (Option ℕ)) (s : NodePool) : Prop where
  returned_eq : (s.deallocateFreeBlocks sl).1 = s.blocklist.filter s.TotallyFree
  kept_eq : (s.deallocateFreeBlocks sl).2.blocklist
    = s.blocklist.filter (fun b => ¬ s.TotallyFree b)
  wellFormed : (s.deallocateFreeBlocks sl).2.freelist.WellFormed
  free_perm : (s.deallocateFreeBlocks sl).2.freelist.nodes.Perm
    ((s.blocklist.filter (fun b => ¬ s.TotallyFree b)).flatMap s.freeIn)

/-! ## Nodes of apart blocks -/

theorem isBetween_iff {b size x : ℕ} :
    isBetween b size x = true ↔ x ∈ (⟨b, size⟩ : Region).bytes := by
  unfold isBetween Region.bytes
  rw [Bool.and_eq_true, decide_eq_true_iff, decide_eq_true_iff]
  exact Iff.rfl

/-- A node lies between the ends of its block. -/
theorem isBetween_of_mem_slots {s : NodePool} {b x : ℕ} (hpos : 0 < s.realNodeSize)
    (h : x ∈ s.slots b) : isBetween b s.blocksize x = true := by
  rw [isBetween_iff, blocksize, Nat.mul_comm]
  exact Region.mem_bytes_of_mem_slots hpos h

variable {s : NodePool} {live : List ℕ}

theorem Sound.separate (h : s.Sound live) : Separate s.blocksize s.blocklist := by
  have hap := List.pairwise_map.mp h.blocks_apart
  refine hap.imp (fun {b c} hbc x hb => ?_)
  rw [Bool.eq_false_iff]
  exact fun hc => Set.disjoint_left.mp hbc (isBetween_iff.mp hb) (isBetween_iff.mp hc)

theorem Sound.nodup_allSlots (h : s.Sound live) : s.allSlots.Nodup := by
  refine Region.nodup_flatMap_slots h.node_pos ?_
  rw [Nat.mul_comm]
  exact h.blocks_apart

theorem Sound.nodup_free (h : s.Sound live) : s.freelist.nodes.Nodup :=
  (List.nodup_append.mp (h.partition.nodup_iff.mpr h.nodup_allSlots)).1

/-- Every free node is a node of some owned block. -/
theorem Sound.exists_block (h : s.Sound live) {x : ℕ} (hx : x ∈ s.freelist.nodes) :
    ∃ b ∈ s.blocklist, x ∈ s.slots b :=
  List.mem_flatMap.mp (h.partition.subset (List.mem_append_left live hx))

theorem Sound.exists_isBetween (h : s.Sound live) {x : ℕ} (hx : x ∈ s.freelist.nodes) :
    ∃ b ∈ s.blocklist, isBetween b s.blocksize x = true := by
  obtain ⟨b, hb, hslot⟩ := h.exists_block hx
  exact ⟨b, hb, isBetween_of_mem_slots h.node_pos hslot⟩

/-- Two blocks of the list that share an address are one. -/
theorem Separate.eq {size : ℕ} {bs : List ℕ} (h : Separate size bs) {b c x : ℕ}
    (hb : b ∈ bs) (hc : c ∈ bs) (hxb : isBetween b size x = true)
    (hxc : isBetween c size x = true) : b = c := by
  by_contra hne
  have hsymm : Std.Symm (fun b c => ∀ x, isBetween b size x = true →
      isBetween c size x = false) := by
    refine ⟨fun b c hbc x hxc => ?_⟩
    rw [Bool.eq_false_iff]
    exact fun hxb => by simp [hbc x hxb] at hxc
  have hsep := h.forall hb hc hne
  rw [hsep x hxb] at hxc
  cases hxc

/-- **The free nodes of an owned block** are those of its nodes that are
free. -/
theorem Sound.mem_freeIn (h : s.Sound live) {b x : ℕ} (hb : b ∈ s.blocklist) :
    x ∈ s.freeIn b ↔ x ∈ s.slots b ∧ x ∈ s.freelist.nodes := by
  unfold freeIn
  rw [List.mem_filter]
  constructor
  · rintro ⟨hx, hxb⟩
    obtain ⟨c, hc, hslot⟩ := h.exists_block hx
    obtain rfl := h.separate.eq hb hc hxb (isBetween_of_mem_slots h.node_pos hslot)
    exact ⟨hslot, hx⟩
  · rintro ⟨hslot, hx⟩
    exact ⟨hx, isBetween_of_mem_slots h.node_pos hslot⟩

theorem Sound.nodup_freeIn (h : s.Sound live) (b : ℕ) : (s.freeIn b).Nodup :=
  h.nodup_free.filter _

/-- The nodes of a wholly free block are all found in the free list. -/
theorem Sound.freeIn_perm (h : s.Sound live) {b : ℕ} (hb : b ∈ s.blocklist)
    (hfree : s.TotallyFree b) : (s.freeIn b).Perm (s.slots b) := by
  have hslots : (s.slots b).Nodup := Region.nodup_slots h.node_pos
  rw [List.perm_ext_iff_of_nodup (h.nodup_freeIn b) hslots]
  intro x
  rw [h.mem_freeIn hb]
  exact ⟨fun hx => hx.1, fun hx => ⟨hx, hfree x hx⟩⟩

/-- **A block is wholly free exactly when as many of its nodes are free as it
has.** -/
theorem Sound.totallyFree_iff (h : s.Sound live) {b : ℕ} (hb : b ∈ s.blocklist) :
    s.TotallyFree b ↔ (s.freeIn b).length = s.nodesPerBlock := by
  constructor
  · intro hfree
    rw [(h.freeIn_perm hb hfree).length_eq]
    exact Region.length_slots _ _ _
  · intro hlen x hx
    have hsub : (s.freeIn b).Subperm (s.slots b) :=
      (h.nodup_freeIn b).subperm (fun y hy => ((h.mem_freeIn hb).mp hy).1)
    have hperm := hsub.perm_of_length_le
      (le_of_eq ((Region.length_slots _ _ _).trans hlen.symm))
    exact ((h.mem_freeIn hb).mp (hperm.symm.subset hx)).2

/-- **The free list, block by block.** -/
theorem Sound.free_perm_flatMap (h : s.Sound live) :
    s.freelist.nodes.Perm (s.blocklist.flatMap s.freeIn) := by
  have hnodup : (s.blocklist.flatMap s.freeIn).Nodup := by
    rw [List.nodup_flatMap]
    refine ⟨fun b _ => h.nodup_freeIn b, h.separate.imp (fun {b c} hbc x hxb hxc => ?_)⟩
    rw [freeIn, List.mem_filter] at hxb hxc
    rw [hbc x hxb.2] at hxc
    exact Bool.false_ne_true hxc.2
  rw [List.perm_ext_iff_of_nodup h.nodup_free hnodup]
  intro x
  rw [List.mem_flatMap]
  constructor
  · intro hx
    obtain ⟨b, hb, hslot⟩ := h.exists_block hx
    exact ⟨b, hb, (h.mem_freeIn hb).mpr ⟨hslot, hx⟩⟩
  · rintro ⟨b, hb, hx⟩
    exact ((h.mem_freeIn hb).mp hx).2

/-! ## Handing back the free blocks -/

/-- **The sweep of a sound pool.** -/
theorem Sound.sweep_eq (h : s.Sound live) (sl : IntrusiveSlist (Option ℕ)) :
    (s.sweep sl).freelist = Slist.nil
      ∧ (s.sweep sl).kept = s.blocklist.filter (fun b => ¬ s.TotallyFree b)
      ∧ (s.sweep sl).returned = s.blocklist.filter s.TotallyFree
      ∧ (s.sweep sl).backupList.WellFormed
      ∧ (s.sweep sl).backupList.nodes.Perm
        ((s.blocklist.filter (fun b => ¬ s.TotallyFree b)).flatMap s.freeIn) := by
  obtain ⟨hfree, hkept, hret, hwf, hback⟩ := sweep_foldl
    sl s.nodesPerBlock s.blocklist ⟨s.freelist, Slist.nil, .beforeBegin none, [], []⟩ h.wellFormed
      rfl
    h.separate (fun _ => h.exists_isBetween)
  have hkeep : s.blocklist.filter (fun b =>
        (nodesIn s.blocksize s.freelist.nodes b).length ≠ s.nodesPerBlock)
      = s.blocklist.filter (fun b => ¬ s.TotallyFree b) :=
    List.filter_congr (fun b hb => by
      rw [decide_eq_decide]
      exact not_congr (h.totallyFree_iff hb).symm)
  have hgive : s.blocklist.filter (fun b =>
        (nodesIn s.blocksize s.freelist.nodes b).length = s.nodesPerBlock)
      = s.blocklist.filter s.TotallyFree :=
    List.filter_congr (fun b hb => by
      rw [decide_eq_decide]
      exact (h.totallyFree_iff hb).symm)
  rw [hkeep] at hkept hback
  rw [hgive] at hret
  exact ⟨hfree, hkept, hret, hwf, hback.trans (List.Perm.of_eq (List.append_nil _))⟩

/-- The cached last position is one of the backup list exactly under the
condition. -/
theorem Sound.covers_iff (h : s.Sound live) (sl : IntrusiveSlist (Option ℕ)) :
    (s.sweep sl).backupList.Covers none (s.sweep sl).backupListLast
      (s.sweep sl).backupList.size ↔ s.SweepCovers := by
  refine (covers_foldl_iff sl s.blocklist ⟨s.freelist, Slist.nil, .beforeBegin none, [], []⟩
    none h.block_pos h.separate (fun _ => h.exists_isBetween) rfl rfl).trans (or_congr_right ?_)
  exact ⟨fun hk => hk.2, fun hk => ⟨rfl, hk⟩⟩

/-- **Under the condition the free list is gathered again.** -/
theorem Sound.exact (h : s.Sound live) (sl : IntrusiveSlist (Option ℕ))
    (hcov : s.SweepCovers) : s.Exact sl := by
  obtain ⟨hfree, hkept, hret, hwf, hback⟩ := h.sweep_eq sl
  have hlist : (s.deallocateFreeBlocks sl).2.freelist = (s.sweep sl).backupList := by
    show sl.spliceAfter (s.sweep sl).freelist (s.sweep sl).backupList none
      (s.sweep sl).backupListLast (s.sweep sl).backupList.size = _
    rw [sl.spliceAfter_spec _ _ _ _ _ ((h.covers_iff sl).mpr hcov), hfree,
      List.take_of_length_le (le_of_eq hwf.symm)]
    simp [Slist.nil]
  exact ⟨hret, hkept, hlist ▸ hwf, hlist ▸ hback⟩

/-- **A list that gives up outside its contract**: it honours the contract
and loses what it is given otherwise. -/
noncomputable def unforgiving : IntrusiveSlist (Option ℕ) where
  spliceAfter dst src name last n :=
    open Classical in
    if src.Covers name last n then ⟨src.nodes.take n ++ dst.nodes, dst.size + n⟩
    else ⟨[], 1⟩
  spliceAfter_spec _ _ _ _ _ h := if_pos h

/-- **The condition is exactly what is needed** of a pool that may rely on the
contract of its list and on nothing else. -/
theorem Sound.exact_iff (h : s.Sound live) :
    (∀ sl, s.Exact sl) ↔ s.SweepCovers := by
  refine ⟨fun hall => ?_, fun hcov sl => h.exact sl hcov⟩
  by_contra hcov
  have hlist : (s.deallocateFreeBlocks unforgiving).2.freelist = ⟨[], 1⟩ :=
    if_neg (fun hc => hcov ((h.covers_iff unforgiving).mp hc))
  have hwf := (hall unforgiving).wellFormed
  rw [hlist] at hwf
  cases hwf

/-- **Handing back the free blocks keeps the invariant** where it does what it
is for. -/
theorem Sound.deallocateFreeBlocks (h : s.Sound live) {sl : IntrusiveSlist (Option ℕ)}
    (hex : s.Exact sl) : (s.deallocateFreeBlocks sl).2.Sound live := by
  set kept := s.blocklist.filter (fun b => ¬ s.TotallyFree b) with hkept
  set freed := s.blocklist.filter s.TotallyFree with hfreed
  have hsplit : (freed ++ kept).Perm s.blocklist := by
    rw [hkept, hfreed]
    simpa using List.filter_append_perm s.TotallyFree s.blocklist
  have hfreed_slots : (freed.flatMap s.freeIn).Perm (freed.flatMap s.slots) := by
    refine List.Perm.flatMap_left _ (fun b hb => ?_)
    obtain ⟨hmem, hfree⟩ := List.mem_filter.mp hb
    exact h.freeIn_perm hmem (of_decide_eq_true hfree)
  -- what is free of the kept blocks and what is lent are the nodes of the kept blocks
  have hpart : (kept.flatMap s.freeIn ++ live).Perm (kept.flatMap s.slots) := by
    have hfree : s.freelist.nodes.Perm (freed.flatMap s.slots ++ kept.flatMap s.freeIn) := by
      refine h.free_perm_flatMap.trans ((hsplit.symm.flatMap_right _).trans ?_)
      rw [List.flatMap_append]
      exact hfreed_slots.append_right _
    have hall : s.allSlots.Perm (freed.flatMap s.slots ++ kept.flatMap s.slots) := by
      refine (hsplit.symm.flatMap_right s.slots).trans ?_
      rw [List.flatMap_append]
    have := ((hfree.append_right live).symm.trans h.partition).trans hall
    rw [List.append_assoc] at this
    exact (List.perm_append_left_iff _).mp this
  refine ⟨h.node_pos, h.block_pos, hex.wellFormed, ?_, ?_, h.allocated_eq⟩
  · rw [hex.kept_eq]
    exact h.blocks_apart.sublist (List.filter_sublist.map _)
  · refine (hex.free_perm.append_right live).trans (hpart.trans ?_)
    show (kept.flatMap s.slots).Perm
      ((s.deallocateFreeBlocks sl).2.blocklist.flatMap s.slots)
    rw [hex.kept_eq]

/-! ## Lending and taking back -/

/-- The loop pushes the nodes of one block. -/
theorem pushNodes_eq (unit n a : ℕ) (l : Slist) :
    pushNodes unit n a l
      = ⟨(Region.slots unit n a).reverse ++ l.nodes, l.size + n⟩ := by
  induction n generalizing a l with
  | zero => rfl
  | succ n ih =>
    rw [pushNodes, ih, Region.slots, List.reverse_cons, List.append_assoc]
    simp only [Slist.pushFront, List.singleton_append, Slist.mk.injEq, true_and]
    omega

theorem FreshAnswers.tail {q : ℕ} {answers : List (Option ℕ)}
    (h : s.FreshAnswers (some q :: answers)) : (s.pushBlock q).FreshAnswers answers := by
  unfold FreshAnswers at h ⊢
  rw [List.reduceOption_cons_of_some] at h
  have hperm : (q :: answers.reduceOption ++ s.blocklist).Perm
      (answers.reduceOption ++ q :: s.blocklist) := List.perm_middle.symm
  exact ((hperm.map s.blockRegion).pairwise_iff Region.Apart.symm).mp h

/-- **A block more**: its nodes are free. -/
theorem Sound.pushBlock (h : s.Sound live) {q : ℕ} {answers : List (Option ℕ)}
    (hq : s.FreshAnswers (some q :: answers)) : (s.pushBlock q).Sound live := by
  have hfree : (s.pushBlock q).freelist
      = ⟨(s.slots q).reverse ++ s.freelist.nodes, s.freelist.size + s.nodesPerBlock⟩ :=
    pushNodes_eq _ _ _ _
  refine ⟨h.node_pos, h.block_pos, ?_, ?_, ?_, h.allocated_eq⟩
  · show (s.pushBlock q).freelist.size = (s.pushBlock q).freelist.nodes.length
    rw [hfree, List.length_append, List.length_reverse, h.wellFormed]
    show _ = (Region.slots _ _ _).length + _
    rw [Region.length_slots, Nat.add_comm]
  · unfold FreshAnswers at hq
    rw [List.reduceOption_cons_of_some, List.cons_append] at hq
    refine hq.sublist (List.Sublist.map _ (List.Sublist.cons_cons _ ?_))
    exact List.sublist_append_right _ _
  · rw [hfree]
    show ((s.slots q).reverse ++ s.freelist.nodes ++ live).Perm (s.slots q ++ s.allSlots)
    rw [List.append_assoc]
    exact (List.reverse_perm _).append h.partition

/-- **`priv_alloc_block`**, whether it returns or throws, keeps the invariant;
where it returns, the free list has grown by the nodes of all its blocks. -/
theorem Sound.privAllocBlock (n : ℕ) (answers : List (Option ℕ)) (h : s.Sound live)
    (hq : s.FreshAnswers answers) :
    (s.privAllocBlock n answers).2.Sound live
      ∧ ((s.privAllocBlock n answers).1 = true →
        (s.privAllocBlock n answers).2.freelist.size
          = s.freelist.size + n * s.nodesPerBlock) := by
  induction n generalizing s answers with
  | zero => exact ⟨h, fun _ => by rw [Nat.zero_mul]; rfl⟩
  | succ n ih =>
    cases answers with
    | nil => exact ⟨h, fun hok => by cases hok⟩
    | cons answer answers =>
      cases answer with
      | none => exact ⟨h, fun hok => by cases hok⟩
      | some q =>
        obtain ⟨hsound, hsize⟩ := ih answers (h.pushBlock hq) hq.tail
        refine ⟨hsound, fun hok => (hsize hok).trans ?_⟩
        show (pushNodes _ _ _ _).size + n * s.nodesPerBlock = _
        rw [pushNodes_eq, Nat.add_one_mul]
        show s.freelist.size + s.nodesPerBlock + _ = _
        omega

/-- Taking nodes off the front of the free list, and lending them. -/
theorem Sound.lend (h : s.Sound live) {n : ℕ} (hn : n ≤ s.freelist.nodes.length) :
    ({ s with
      freelist := (s.freelist.eraseFront n).2
      allocated := s.allocated + n } : NodePool).Sound
        ((s.freelist.eraseFront n).1 ++ live) := by
  refine ⟨h.node_pos, h.block_pos, ?_, h.blocks_apart, ?_, ?_⟩
  · show s.freelist.size - n = (s.freelist.nodes.drop n).length
    rw [List.length_drop, h.wellFormed]
  · show (s.freelist.nodes.drop n ++ (s.freelist.nodes.take n ++ live)).Perm s.allSlots
    refine List.Perm.trans ?_ h.partition
    rw [← List.append_assoc]
    refine List.Perm.append_right live (List.perm_append_comm.trans ?_)
    rw [List.take_append_drop]
  · show s.allocated + n = (s.freelist.nodes.take n ++ live).length
    rw [List.length_append, List.length_take, Nat.min_eq_left hn, h.allocated_eq,
      Nat.add_comm]

/-- **`priv_alloc_node`** lends the node it returns, and nothing where it
throws. -/
theorem Sound.privAllocNode (h : s.Sound live) {answers : List (Option ℕ)}
    (hq : s.FreshAnswers answers) :
    (s.privAllocNode answers).2.Sound ((s.privAllocNode answers).1.toList ++ live) := by
  have hsound : ∀ {t : NodePool}, t.Sound live → ∀ {a : ℕ} {rest : Slist},
      t.freelist.popFront = some (a, rest) →
      ({ t with freelist := rest, allocated := t.allocated + 1 } : NodePool).Sound
        (a :: live) := by
    intro t ht a rest hpop
    unfold Slist.popFront at hpop
    cases hnodes : t.freelist.nodes with
    | nil => simp [hnodes] at hpop
    | cons b bs =>
      simp only [hnodes] at hpop
      obtain ⟨rfl, rfl⟩ := Prod.mk.inj (Option.some.inj hpop)
      have hlend := ht.lend (n := 1) (by simp [hnodes])
      simpa [Slist.eraseFront, hnodes] using hlend
  unfold NodePool.privAllocNode
  by_cases hempty : s.freelist.nodes = []
  · rw [if_pos hempty]
    obtain ⟨halloc, _⟩ := h.privAllocBlock 1 answers hq
    cases hok : (s.privAllocBlock 1 answers).1 with
    | false => simpa [hok] using halloc
    | true =>
      cases hpop : (s.privAllocBlock 1 answers).2.freelist.popFront with
      | none => simpa [hok, hpop] using halloc
      | some p => simpa [hok, hpop] using hsound halloc hpop
  · rw [if_neg hempty]
    cases hpop : s.freelist.popFront with
    | none => simpa [hpop] using h
    | some p => simpa [hpop] using hsound h hpop

/-- **`allocate_nodes`** lends the chain it returns, of the length asked for,
and nothing where it throws. -/
theorem Sound.allocateNodes (h : s.Sound live) {n : ℕ} {answers : List (Option ℕ)}
    (hq : s.FreshAnswers answers) :
    (s.allocateNodes n answers).2.Sound
        ((s.allocateNodes n answers).1.getD [] ++ live)
      ∧ ∀ chain, (s.allocateNodes n answers).1 = some chain → chain.length = n := by
  have htaken : ∀ {t : NodePool}, n ≤ t.freelist.nodes.length →
      (t.freelist.eraseFront n).1.length = n := fun hn => by
    rw [Slist.eraseFront, List.length_take, Nat.min_eq_left hn]
  unfold NodePool.allocateNodes
  dsimp only
  by_cases hless : s.freelist.size < n
  · rw [if_pos hless]
    set k := (n - s.freelist.size - 1) / s.nodesPerBlock + 1 with hk
    obtain ⟨halloc, hsize⟩ := h.privAllocBlock k answers hq
    cases hok : (s.privAllocBlock k answers).1 with
    | false => simpa [hok] using halloc
    | true =>
      have henough : n ≤ (s.privAllocBlock k answers).2.freelist.nodes.length := by
        rw [← show _ = _ from halloc.wellFormed, hsize hok, hk]
        have hdiv := Nat.lt_div_mul_add h.block_pos (a := n - s.freelist.size - 1)
        rw [Nat.add_one_mul]
        omega
      refine ⟨by simpa [hok] using halloc.lend henough, fun chain hc => ?_⟩
      simp only [if_true, Option.some.injEq] at hc
      rw [← hc]
      exact htaken henough
  · rw [if_neg hless]
    have henough : n ≤ s.freelist.nodes.length := by
      rw [← show _ = _ from h.wellFormed]
      exact not_lt.mp hless
    refine ⟨by simpa using h.lend henough, fun chain hc => ?_⟩
    simp only [if_true, Option.some.injEq] at hc
    rw [← hc]
    exact htaken henough

/-- **`priv_dealloc_node`** takes a lent node back. -/
theorem Sound.privDeallocNode (h : s.Sound live) {a : ℕ} (ha : a ∈ live) :
    (s.privDeallocNode a).Sound (live.erase a) := by
  refine ⟨h.node_pos, h.block_pos, ?_, h.blocks_apart, ?_, ?_⟩
  · show s.freelist.size + 1 = s.freelist.nodes.length + 1
    rw [h.wellFormed]
  · show (a :: s.freelist.nodes ++ live.erase a).Perm s.allSlots
    refine List.Perm.trans ?_ h.partition
    exact List.perm_middle.symm.trans ((List.perm_cons_erase ha).symm.append_left _)
  · show s.allocated - 1 = _
    rw [List.length_erase_of_mem ha, h.allocated_eq]

/-- **`deallocate_nodes`** takes a chain of lent nodes back. -/
theorem Sound.deallocateNodes (h : s.Sound live) {chain : List ℕ}
    (hchain : chain.Subperm live) : (s.deallocateNodes chain).Sound (live.diff chain) := by
  induction chain generalizing s live with
  | nil => exact h
  | cons a chain ih =>
    rw [List.diff_cons]
    refine ih (h.privDeallocNode (hchain.subset List.mem_cons_self)) ?_
    have := hchain.erase a
    rwa [List.erase_cons_head] at this

theorem roundedSize_pos {origSize roundTo : ℕ} (h : 0 < roundTo) :
    0 < roundedSize origSize roundTo := Nat.mul_pos (Nat.succ_pos _) h

/-- **A new pool is sound.** -/
theorem sound_construct (layout : NodeLayout) (nodeSize nodeAlignment : ℕ)
    {nodesPerBlock : ℕ} (hpos : 0 < nodesPerBlock) :
    (construct layout nodeSize nodesPerBlock nodeAlignment).Sound [] := by
  refine ⟨?_, hpos, rfl, List.Pairwise.nil, List.Perm.refl _, rfl⟩
  have hsize : ∀ n, 0 < roundedSize n layout.listNodeAlign :=
    fun _ => roundedSize_pos layout.listNodeAlign_pos
  show 0 < if nodeAlignment < layout.listNodeAlign then _ else _
  split
  · exact hsize _
  · split
    · exact roundedSize_pos (layout.listNodeAlign_pos.trans ‹_›)
    · exact hsize _

/-! ## Sessions -/

/-- **A session**: a pool and the nodes it has lent. -/
structure Session where
  pool : NodePool
  live : List ℕ
  deriving DecidableEq, Repr

/-- The calls a session makes. Those that may need blocks carry the answers of
the segment manager. -/
inductive Call
  | allocateNode (answers : List (Option ℕ))
  | allocateNodes (n : ℕ) (answers : List (Option ℕ))
  | deallocateNode (a : ℕ)
  | deallocateNodes (chain : List ℕ)
  | deallocateFreeBlocks

/-- The session after a call. -/
def Session.exec (sl : IntrusiveSlist (Option ℕ)) (s : Session) : Call → Session
  | .allocateNode answers =>
    let (node, pool) := s.pool.privAllocNode answers
    ⟨pool, node.toList ++ s.live⟩
  | .allocateNodes n answers =>
    let (chain, pool) := s.pool.allocateNodes n answers
    ⟨pool, chain.getD [] ++ s.live⟩
  | .deallocateNode a => ⟨s.pool.privDeallocNode a, s.live.erase a⟩
  | .deallocateNodes chain => ⟨s.pool.deallocateNodes chain, s.live.diff chain⟩
  | .deallocateFreeBlocks => ⟨(s.pool.deallocateFreeBlocks sl).2, s.live⟩

/-- **What callers and the segment manager owe**: fresh blocks, and only lent
nodes given back. -/
def Call.Valid (s : Session) : Call → Prop
  | .allocateNode answers => s.pool.FreshAnswers answers
  | .allocateNodes _ answers => s.pool.FreshAnswers answers
  | .deallocateNode a => a ∈ s.live
  | .deallocateNodes chain => chain.Subperm s.live
  | .deallocateFreeBlocks => True

/-- **The condition on a call**: `deallocate_free_blocks` is called where its
cached last position is right. -/
def Call.Covers (s : Session) : Call → Prop
  | .deallocateFreeBlocks => s.pool.SweepCovers
  | _ => True

/-- **The sessions of a new pool.** -/
def sessions (sl : IntrusiveSlist (Option ℕ)) (layout : NodeLayout)
    (nodeSize nodesPerBlock nodeAlignment : ℕ) : TransitionSystem Session Call where
  Init s := s = ⟨construct layout nodeSize nodesPerBlock nodeAlignment, []⟩
  Step s c s' := c.Valid s ∧ s' = s.exec sl c

/-- **A session whose nodes are all accounted for**: the free list records its
length, what is free and what is lent are the nodes of the owned blocks, each
once, and `deallocate_free_blocks` would do what it is for. -/
structure Session.Correct (s : Session) : Prop where
  wellFormed : s.pool.freelist.WellFormed
  partition : (s.pool.freelist.nodes ++ s.live).Perm s.pool.allSlots
  nodup : s.pool.allSlots.Nodup
  exact_iff : (∀ sl, s.pool.Exact sl) ↔ s.pool.SweepCovers

/-- **Every call keeps the invariant**, `deallocate_free_blocks` where it is
covered. -/
theorem Session.sound_exec (sl : IntrusiveSlist (Option ℕ)) (s : Session) (c : Call)
    (h : s.pool.Sound s.live) (hv : c.Valid s) (hc : c.Covers s) :
    (s.exec sl c).pool.Sound (s.exec sl c).live := by
  cases c with
  | allocateNode answers => exact h.privAllocNode hv
  | allocateNodes n answers => exact (h.allocateNodes hv).1
  | deallocateNode a => exact h.privDeallocNode hv
  | deallocateNodes chain => exact h.deallocateNodes hv
  | deallocateFreeBlocks => exact h.deallocateFreeBlocks (h.exact sl hc)

/-- **The nodes of a pool over whole runs.** As long as every call of
`deallocate_free_blocks` meets the condition, no node is lost or handed out
twice; and the next such call hands back the wholly free blocks, and keeps
the others with their free nodes, for every list that honours its contract
exactly where the condition holds again. -/
theorem Session.nodePool_correct (sl : IntrusiveSlist (Option ℕ)) (layout : NodeLayout)
    (nodeSize nodesPerBlock nodeAlignment : ℕ) (hpos : 0 < nodesPerBlock) (s : Session)
    (hs : ((sessions sl layout nodeSize nodesPerBlock nodeAlignment).restrict
      (fun s c => c.Covers s)).Reachable s) : s.Correct := by
  have hsound : s.pool.Sound s.live := by
    refine hs.invariant (I := fun s => s.pool.Sound s.live) ?_ ?_
    · rintro s rfl
      exact sound_construct layout nodeSize nodeAlignment hpos
    · rintro s c s' h ⟨⟨hv, rfl⟩, hc⟩
      exact Session.sound_exec sl s c h hv hc
  exact ⟨hsound.wellFormed, hsound.partition, hsound.nodup_allSlots, hsound.exact_iff⟩

/-! ## A list that takes its arguments as they come -/

/-- A list whose splice goes by the last position it is given: it moves no
node where that is a position before a first node, and records the number it
is told. -/
def byCursor : IntrusiveSlist (Option ℕ) where
  spliceAfter dst src _ last n :=
    match last with
    | .beforeBegin _ => ⟨dst.nodes, dst.size + n⟩
    | .node _ => ⟨src.nodes.take n ++ dst.nodes, dst.size + n⟩
  spliceAfter_spec dst src name last n h := by
    cases last with
    | beforeBegin list =>
      obtain ⟨_, rfl⟩ := h
      rfl
    | node a => rfl

/-- The layout of a list node that is one pointer. -/
def pointerLayout : NodeLayout := ⟨8, 8, by decide, by decide⟩

/-- A session that has taken one node of a block of two. -/
def oneLent : Session :=
  (⟨construct pointerLayout 8 2 8, []⟩ : Session).exec byCursor (.allocateNode [some 64])

theorem oneLent_eq : oneLent = ⟨⟨2, 8, [64], ⟨[64], 1⟩, 1⟩, [72]⟩ := rfl

theorem reachable_oneLent :
    ((sessions byCursor pointerLayout 8 2 8).restrict (fun s c => c.Covers s)).Reachable
      oneLent := by
  refine (TransitionSystem.Reachable.of_init rfl).step (e := .allocateNode [some 64])
    ⟨⟨?_, rfl⟩, trivial⟩
  exact List.pairwise_singleton _ _

theorem Session.correct_oneLent : oneLent.Correct :=
  Session.nodePool_correct byCursor pointerLayout 8 2 8 (by decide) oneLent
    reachable_oneLent

/-- **A free node is lost.** With one of the two nodes of the only block lent,
`deallocate_free_blocks` leaves an empty free list that records one node. -/
theorem Session.node_lost :
    (sessions byCursor pointerLayout 8 2 8).Reachable
        (oneLent.exec byCursor .deallocateFreeBlocks)
      ∧ (oneLent.exec byCursor .deallocateFreeBlocks).pool.freelist = ⟨[], 1⟩
      ∧ ¬ (oneLent.exec byCursor .deallocateFreeBlocks).pool.freelist.WellFormed
      ∧ ¬ ((oneLent.exec byCursor .deallocateFreeBlocks).pool.freelist.nodes
          ++ oneLent.live).Perm
        (oneLent.exec byCursor .deallocateFreeBlocks).pool.allSlots := by
  refine ⟨?_, rfl, by decide, by decide⟩
  exact reachable_oneLent.of_restrict.step (e := .deallocateFreeBlocks) ⟨trivial, rfl⟩

end NodePool
