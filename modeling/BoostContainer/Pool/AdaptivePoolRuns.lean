import BoostContainer.Pool.AdaptivePoolAccounts

/-!
# What an adaptive pool lends over a run

Nodes are taken from the first block of the container as long as there is
one (`Accounted.takeFirst`), and then from new blocks, each used up before
the next is obtained (`Accounted.addBlock`). Both keep every node accounted
for, so every call does, whatever the segment manager answers; and so do
whole runs.
-/

namespace AdaptivePool

variable {L : PoolLayout} {s : AdaptivePool} {live : List ℕ}

/-! ## Taking nodes from the first block -/

/-- **Nodes of the first block are lent.** The block leaves the container with
its last node, and is wholly free no more. -/
theorem Accounted.takeFirst (h : s.Accounted L live) {b : ℕ} {rest : List ℕ}
    (hc : s.blockContainer = b :: rest) {k : ℕ} (hk : 0 < k) :
    (s.setFree b ((s.freeNodes b).drop k)
        (if (s.freeNodes b).drop k = [] then rest else b :: rest)
        (s.totallyFreeBlocks
          - (decide ((s.freeNodes b).length = L.realNumNode)).toNat)).Accounted L
      ((s.freeNodes b).take k ++ live) := by
  obtain ⟨hb, hne⟩ := (h.mem_container b).mp (hc ▸ List.mem_cons_self)
  have hnot : b ∉ rest := (List.nodup_cons.mp (hc ▸ h.container_nodup)).1
  have hpos := List.length_pos_of_ne_nil hne
  have hle := h.length_le hb
  have hdrop : ((s.freeNodes b).drop k).length < L.realNumNode := by
    rw [List.length_drop]
    omega
  obtain ⟨hfirst, hrest⟩ := List.pairwise_cons.mp (hc ▸ h.in_order)
  refine h.setFree hb (fun x hx => h.free_subset b hb (List.mem_of_mem_drop hx)) ?_ ?_ ?_ ?_
  · rw [← List.append_assoc]
    refine (List.perm_append_comm.append_right live).trans ?_
    rw [List.take_append_drop]
  · rw [hc, List.erase_cons_head]
  · have hrest' := pairwise_setFree ((s.freeNodes b).drop k)
      (if (s.freeNodes b).drop k = [] then rest else b :: rest)
      (s.totallyFreeBlocks - (decide ((s.freeNodes b).length = L.realNumNode)).toNat)
      hrest hnot
    by_cases hnil : (s.freeNodes b).drop k = []
    · rwa [if_pos hnil] at hrest' ⊢
    · rw [if_neg hnil] at hrest' ⊢
      refine List.pairwise_cons.mpr ⟨fun c hcr => ?_, hrest'⟩
      have hcb : c ≠ b := ne_of_mem_of_not_mem hcr hnot
      have hold := hfirst c hcr
      unfold InOrder Less at hold ⊢
      rw [setFree_freeNodes_self, setFree_freeNodes_of_ne hcb, setFree_isFull_of_ne hcb]
      cases hg : L.ordered with
      | true =>
        -- a block that is less than the shorter list is less than the longer
        rw [hg, if_pos rfl] at hold
        rw [if_pos rfl]
        refine fun hlt => hold (PoolShape.less_mono_right hg ?_ hlt)
        rw [List.length_drop]
        exact Nat.sub_le _ _
      | false =>
        rw [if_neg (by simp)]
        intro hfull
        have := of_decide_eq_true hfull
        rw [setFree_freeNodes_self] at this
        omega
  · have hcount : (s.isFull L.toPoolShape b).toNat ≤ s.totallyFreeBlocks := by
      rw [h.totallyFree_eq, hc, List.countP_cons]
      cases s.isFull L.toPoolShape b <;> simp
    have hnew : decide (((s.freeNodes b).drop k).length = L.realNumNode) = false :=
      decide_eq_false hdrop.ne
    rw [hnew]
    unfold isFull at hcount ⊢
    exact Nat.sub_add_cancel hcount

/-- **The loop of `priv_allocate_nodes`** over the blocks of the container:
what it has taken is lent, and where it wants more, no block has any. -/
theorem Accounted.takeFromBlocks {blocks : List ℕ} (h : s.Accounted L live)
    (hblocks : s.blockContainer = blocks) (n : ℕ) (chain : List ℕ) :
    ∃ left taken t,
      takeFromBlocks L.toPoolShape blocks n chain s = (left, chain ++ taken, t)
        ∧ taken.length + left = n ∧ t.Accounted L (taken ++ live)
        ∧ t.totallyFreeBlocks ≤ s.totallyFreeBlocks
        ∧ (left ≠ 0 → t.blockContainer = []) ∧ t.segment = s.segment := by
  induction blocks generalizing s n chain live with
  | nil =>
    refine ⟨n, [], s, ?_, Nat.zero_add _, h, le_rfl, fun _ => hblocks, rfl⟩
    rw [List.append_nil]
    rfl
  | cons b rest ih =>
    cases n with
    | zero =>
      refine ⟨0, [], s, ?_, rfl, h, le_rfl, fun hne => absurd rfl hne, rfl⟩
      rw [List.append_nil]
      rfl
    | succ n =>
      have htake := h.takeFirst hblocks (k := n + 1) n.succ_pos
      unfold AdaptivePool.takeFromBlocks
      dsimp only
      by_cases hlt : n + 1 < (s.freeNodes b).length
      · have hne : (s.freeNodes b).drop (n + 1) ≠ [] := by
          intro hnil
          have := congrArg List.length hnil
          rw [List.length_drop, List.length_nil] at this
          omega
        rw [if_pos hlt]
        rw [if_neg hne, ← hblocks] at htake
        refine ⟨0, (s.freeNodes b).take (n + 1), _, rfl, ?_, htake, Nat.sub_le _ _,
          fun hne => absurd rfl hne, rfl⟩
        rw [List.length_take, Nat.min_eq_left hlt.le, Nat.add_zero]
      · have hle : (s.freeNodes b).length ≤ n + 1 := not_lt.mp hlt
        rw [if_neg hlt]
        rw [List.drop_eq_nil_of_le hle, if_pos rfl, List.take_of_length_le hle] at htake
        obtain ⟨left, taken, t, heq, hlen, hacc, htotal, hempty, hseg⟩ :=
          ih htake rfl (n + 1 - (s.freeNodes b).length) (chain ++ s.freeNodes b)
        refine ⟨left, s.freeNodes b ++ taken, t, ?_, ?_, ?_, htotal.trans (Nat.sub_le _ _),
          hempty, hseg⟩
        · rw [← List.append_assoc]
          exact heq
        · rw [List.length_append]
          omega
        · refine hacc.perm ?_
          rw [← List.append_assoc]
          exact List.perm_append_comm.append_right live

/-! ## Obtaining blocks -/

/-- The header of a block of several parts is that of its last part. -/
theorem blockInfo_eq (L : PoolLayout) (hn : L.alignOnly = false) (m : ℕ) :
    L.blockInfo m = m + (L.parts - 1) * L.realBlockAlignment := by
  rw [PoolShape.blockInfo, PoolShape.parts, hn, Nat.mul_comm]
  rfl

/-- A new block marks each of its parts. -/
theorem writeHdrOffsets_self {hdrOffset : ℕ → ℕ} {m i : ℕ} (hn : L.alignOnly = false)
    (hi : i < L.parts) :
    m + i * L.realBlockAlignment
      + writeHdrOffsets L.toPoolShape hdrOffset m (m + i * L.realBlockAlignment)
        = L.blockInfo m := by
  have hparts : L.parts = L.numSubblocks := by rw [PoolShape.parts, hn]; rfl
  have hle : m + i * L.realBlockAlignment ≤ L.blockInfo m := by
    rw [blockInfo_eq L hn]
    exact Nat.add_le_add_left (Nat.mul_le_mul_right _ (by omega)) m
  unfold writeHdrOffsets
  by_cases heq : m + i * L.realBlockAlignment = L.blockInfo m
  · rw [if_pos heq, Nat.add_zero]
    exact heq
  · have hlt : i < L.numSubblocks - 1 := by
      by_contra hnot
      obtain rfl : i = L.parts - 1 := by omega
      exact heq (blockInfo_eq L hn m).symm
    rw [if_neg heq, if_pos ⟨hn, i, List.mem_range.mpr hlt, rfl⟩]
    omega

/-- What a new block writes leaves the other blocks alone. -/
theorem writeHdrOffsets_of_notMem {hdrOffset : ℕ → ℕ} {m a : ℕ} (hn : L.alignOnly = false)
    (ha : a ∉ (L.memory m).bytes) :
    writeHdrOffsets L.toPoolShape hdrOffset m a = hdrOffset a := by
  have hpart : ∀ i < L.parts, a ≠ m + i * L.realBlockAlignment := by
    rintro i hi rfl
    exact ha ⟨Nat.le_add_right _ _, Nat.add_lt_add_left (L.part_lt hi) m⟩
  have hparts : L.parts = L.numSubblocks := by rw [PoolShape.parts, hn]; rfl
  have hpos := L.parts_pos
  unfold writeHdrOffsets
  rw [if_neg, if_neg]
  · rintro ⟨_, i, hi, he⟩
    exact hpart i (by have := List.mem_range.mp hi; omega) he
  · rw [blockInfo_eq L hn]
    exact hpart _ (by omega)

/-- A container that is empty takes a block in any of its ways. -/
theorem insertWasEmpty_of_nil {g : PoolShape} {v : ℕ} {full : Bool}
    (h : s.blockContainer = []) : s.insertWasEmpty g v full = [v] := by
  unfold insertWasEmpty
  rw [h]
  cases g.ordered <;> cases full <;> rfl

/-- What a request for one block has to find: memory apart from all the pool
owns, aligned, and within the addresses there are. -/
structure FreshMemory (L : PoolLayout) (s : AdaptivePool) (m : ℕ) : Prop where
  apart : ∀ r ∈ s.segment.map L.memory, (L.memory m).Apart r
  aligned : L.realBlockAlignment ∣ m ∧ m + L.realBlockSize ≤ 2 ^ L.bits

/-- A pool without free nodes that has obtained a block, of which some nodes
are free. -/
def addBlock (g : PoolShape) (s : AdaptivePool) (m : ℕ) (free : List ℕ) : AdaptivePool where
  blockContainer := if free = [] then [] else [g.blockInfo m]
  totallyFreeBlocks := s.totallyFreeBlocks
  freeNodes := Function.update s.freeNodes (g.blockInfo m) free
  hdrOffset := writeHdrOffsets g s.hdrOffset m
  segment := m :: s.segment

/-- **A block is obtained for at least one node**, and so is never wholly
free. -/
theorem appendBlock_eq (hempty : s.blockContainer = []) {m target : ℕ} {chain : List ℕ}
    (hlt : chain.length < target) :
    s.appendBlock L.toPoolShape target chain m
      = (chain ++ (L.slots m).take (target - chain.length),
        s.addBlock L.toPoolShape m ((L.slots m).drop (target - chain.length))) := by
  set free := (L.slots m).drop (target - chain.length) with hfree
  have hlen : free.length ≠ L.realNumNode := by
    have := L.num_pos
    rw [hfree, List.length_drop, L.length_slots]
    omega
  have hfill : (L.areas m).foldl (fillChainRemainingToBlock L.toPoolShape target) (chain, [])
      = (chain ++ (L.slots m).take (target - chain.length), free) := by
    rw [foldl_fill, List.nil_append]
    rfl
  unfold appendBlock
  rw [hfill]
  dsimp only
  set t : AdaptivePool := { s with
    freeNodes := Function.update s.freeNodes (L.blockInfo m) free
    hdrOffset := writeHdrOffsets L.toPoolShape s.hdrOffset m
    segment := m :: s.segment } with ht
  have hfull : t.isFull L.toPoolShape (L.blockInfo m) = false := by
    unfold isFull
    rw [ht]
    simp [hlen]
  have hins : t.insertWasEmpty L.toPoolShape (L.blockInfo m) false = [L.blockInfo m] :=
    insertWasEmpty_of_nil hempty
  rw [hfull, hins]
  congr 1
  unfold addBlock
  by_cases hnil : free = []
  · rw [hnil]
    cases L.alignOnly <;> simp [ht, hempty, hnil]
  · have hpos : free.length ≠ 0 := fun h => hnil (List.length_eq_zero_iff.mp h)
    rw [if_neg hnil]
    cases L.alignOnly <;> simp [hpos, hempty]

/-- **The nodes of a new block** are free, but for those that are lent at
once. -/
theorem Accounted.addBlock (h : s.Accounted L live) (hempty : s.blockContainer = [])
    {m : ℕ} (hm : s.FreshMemory L m) {k : ℕ} (hk : 0 < k) :
    (s.addBlock L.toPoolShape m ((L.slots m).drop k)).Accounted L
      ((L.slots m).take k ++ live) := by
  set free := (L.slots m).drop k with hfree
  have hpos : 0 < L.realBlockSize := by simpa using L.part_lt L.parts_pos
  have hnotin : m ∉ s.segment := fun hmem => by
    have hin : m ∈ (L.memory m).bytes := ⟨le_rfl, Nat.lt_add_of_pos_right hpos⟩
    exact Set.disjoint_left.mp (hm.apart _ (List.mem_map_of_mem hmem)) hin hin
  have hnew : ∀ c ∈ s.owned L.toPoolShape, c ≠ L.blockInfo m := by
    rintro c hc rfl
    obtain ⟨m', hm', he⟩ := mem_owned.mp hc
    exact hnotin (L.blockInfo_injective he ▸ hm')
  have hold : ∀ c ∈ s.owned L.toPoolShape,
      (s.addBlock L.toPoolShape m free).freeNodes c = s.freeNodes c :=
    fun c hc => Function.update_of_ne (hnew c hc) _ _
  have hself : (s.addBlock L.toPoolShape m free).freeNodes (L.blockInfo m) = free :=
    Function.update_self _ _ _
  have hmemo : ∀ c, c ∈ (s.addBlock L.toPoolShape m free).owned L.toPoolShape
      ↔ c = L.blockInfo m ∨ c ∈ s.owned L.toPoolShape := fun c => List.mem_cons
  have hcont : (s.addBlock L.toPoolShape m free).blockContainer
      = if free = [] then [] else [L.blockInfo m] := rfl
  refine ⟨List.pairwise_cons.mpr ⟨hm.apart, h.memory_apart⟩, fun m' hm' => ?_,
    fun hn m' hm' i hi => ?_, ?_, fun c => ?_, fun c hc => ?_, ?_, ?_, ?_⟩
  · rcases List.mem_cons.mp hm' with rfl | hm'
    · exact hm.aligned
    · exact h.memory_aligned m' hm'
  · show m' + i * L.realBlockAlignment
      + writeHdrOffsets L.toPoolShape s.hdrOffset m (m' + i * L.realBlockAlignment) = _
    rcases List.mem_cons.mp hm' with rfl | hm'
    · exact writeHdrOffsets_self hn hi
    · rw [writeHdrOffsets_of_notMem hn]
      · exact h.offsets hn m' hm' i hi
      · refine Set.disjoint_right.mp (hm.apart _ (List.mem_map_of_mem hm')) ?_
        exact ⟨Nat.le_add_right _ _, Nat.add_lt_add_left (L.part_lt hi) m'⟩
  · rw [hcont]
    split
    · exact List.nodup_nil
    · exact List.nodup_singleton _
  · rw [hcont, hmemo]
    by_cases hc : c = L.blockInfo m
    · subst hc
      rw [hself]
      by_cases hnil : free = [] <;> simp [hnil]
    · have hlhs : c ∉ (if free = [] then [] else [L.blockInfo m]) := by
        split <;> simp [hc]
      refine iff_of_false hlhs ?_
      rintro ⟨hc' | hc', hne⟩
      · exact hc hc'
      · rw [hold c hc'] at hne
        have := (h.mem_container c).mpr ⟨hc', hne⟩
        rw [hempty] at this
        cases this
  · rcases (hmemo c).mp hc with rfl | hc
    · rw [hself, PoolShape.nodesOf_blockInfo]
      exact fun x hx => List.mem_of_mem_drop hx
    · rw [hold c hc]
      exact h.free_subset c hc
  · rw [hcont]
    split
    · exact List.Pairwise.nil
    · exact List.pairwise_singleton _ _
  · show ((s.addBlock L.toPoolShape m free).freeNodes (L.blockInfo m)
        ++ (s.owned L.toPoolShape).flatMap (s.addBlock L.toPoolShape m free).freeNodes
        ++ ((L.slots m).take k ++ live)).Perm
      (L.nodesOf (L.blockInfo m) ++ (s.owned L.toPoolShape).flatMap L.nodesOf)
    rw [hself, List.flatMap_congr hold, PoolShape.nodesOf_blockInfo]
    have hslots : (free ++ (L.slots m).take k).Perm (L.slots m) := by
      refine List.perm_append_comm.trans ?_
      rw [List.take_append_drop]
    refine List.Perm.trans ?_ (hslots.append h.partition)
    rw [List.append_assoc, List.append_assoc]
    refine List.Perm.append_left free ?_
    rw [← List.append_assoc, ← List.append_assoc]
    exact List.perm_append_comm.append_right live
  · show s.totallyFreeBlocks = _
    rw [h.totallyFree_eq, hempty, hcont]
    have hfull : (s.addBlock L.toPoolShape m free).isFull L.toPoolShape (L.blockInfo m)
        = false := by
      unfold isFull
      rw [hself]
      refine decide_eq_false ?_
      have := L.num_pos
      rw [hfree, List.length_drop, L.length_slots]
      omega
    split
    · rfl
    · rw [List.countP_cons, hfull]
      rfl

/-- The memory an answer brings. -/
def Answer.address : Answer → Option ℕ
  | .memory m => some m
  | .null => none
  | .throws => none

/-- **The answers of a segment manager are fresh**: the memory they bring is
aligned, and apart from each other and from what the pool owns. -/
structure FreshAnswers (L : PoolLayout) (s : AdaptivePool) (answers : List Answer) : Prop where
  apart : ((answers.filterMap Answer.address ++ s.segment).map L.memory).Pairwise
    Region.Apart
  aligned : ∀ m ∈ answers.filterMap Answer.address,
    L.realBlockAlignment ∣ m ∧ m + L.realBlockSize ≤ 2 ^ L.bits

theorem FreshAnswers.head {m : ℕ} {answers : List Answer}
    (h : s.FreshAnswers L (.memory m :: answers)) : s.FreshMemory L m := by
  refine ⟨fun r hr => ?_, h.aligned m List.mem_cons_self⟩
  obtain ⟨m', hm', rfl⟩ := List.mem_map.mp hr
  exact (List.pairwise_cons.mp h.apart).1 _
    (List.mem_map_of_mem (List.mem_append_right _ hm'))

theorem FreshAnswers.tail {t : AdaptivePool} {m : ℕ} {answers : List Answer}
    (h : s.FreshAnswers L (.memory m :: answers)) (ht : t.segment = m :: s.segment) :
    t.FreshAnswers L answers := by
  refine ⟨?_, fun m' hm' => h.aligned m' (List.mem_cons_of_mem _ hm')⟩
  rw [ht]
  have hperm : (m :: (answers.filterMap Answer.address ++ s.segment)).Perm
      (answers.filterMap Answer.address ++ m :: s.segment) := List.perm_middle.symm
  exact ((hperm.map L.memory).pairwise_iff Region.Apart.symm).mp h.apart

/-- **What a call that adds to a chain may end in**: it returns, and the chain
has grown by the nodes wanted; or it throws, and what the chain still holds
is lent, the rest given back. -/
structure Appended (L : PoolLayout) (before : AdaptivePool) (chain : List ℕ) (wanted : ℕ)
    (live : List ℕ) (ok : Bool) (after : List ℕ) (t : AdaptivePool) : Prop where
  accounted : t.Accounted L (after ++ live)
  grown : ok = true → ∃ added, after = chain ++ added ∧ added.length = wanted
  totallyFree_le : t.totallyFreeBlocks ≤ max L.maxFreeBlocks before.totallyFreeBlocks

/-- **The loop of `priv_append_from_new_blocks`.** As many blocks are obtained
as the nodes still wanted need, so all but the last are used up. -/
theorem Accounted.appendBlocks {n : ℕ} {answers : List Answer} {chain : List ℕ}
    (h : s.Accounted L (chain ++ live)) (target : ℕ) (hempty : s.blockContainer = [])
    (hle : target - chain.length ≤ n * L.realNumNode)
    (hlt : n * L.realNumNode < target - chain.length + L.realNumNode)
    (hfresh : s.FreshAnswers L answers) (hchain : chain.length ≤ target) :
    ∃ ok after t, AdaptivePool.appendBlocks L.toPoolShape target n answers chain s
        = (ok, after, t)
      ∧ Appended L s chain (target - chain.length) live ok after t := by
  induction n generalizing s answers chain with
  | zero =>
    refine ⟨true, chain, s, by cases answers <;> rfl, h, fun _ => ⟨[], ?_, ?_⟩, le_max_right _ _⟩
    · rw [List.append_nil]
    · rw [Nat.zero_mul] at hle
      exact (Nat.le_zero.mp hle).symm
  | succ n ih =>
    rw [Nat.add_one_mul] at hle hlt
    have hpos : chain.length < target := by omega
    cases answers with
    | nil => exact ⟨false, chain, s, rfl, h, fun hok => (nomatch hok), le_max_right _ _⟩
    | cons answer answers =>
      cases answer with
      | throws => exact ⟨false, chain, s, rfl, h, fun hok => (nomatch hok), le_max_right _ _⟩
      | null =>
        obtain ⟨hacc, htotal⟩ := h.privDeallocateNodes
        exact ⟨false, [], _, rfl, hacc, fun hok => (nomatch hok), htotal⟩
      | memory m =>
        have hadd := h.addBlock hempty hfresh.head (k := target - chain.length) (by omega)
        set k := target - chain.length with hk
        set taken := (L.slots m).take k with htaken
        set t := s.addBlock L.toPoolShape m ((L.slots m).drop k) with ht
        have hlen : taken.length = min k L.realNumNode := by
          rw [htaken, List.length_take, L.length_slots]
        have hacc : t.Accounted L ((chain ++ taken) ++ live) := by
          refine hadd.perm ?_
          rw [← List.append_assoc]
          exact List.perm_append_comm.append_right live
        have hstep : AdaptivePool.appendBlocks L.toPoolShape target (n + 1)
            (.memory m :: answers) chain s
              = AdaptivePool.appendBlocks L.toPoolShape target n answers (chain ++ taken) t := by
          rw [AdaptivePool.appendBlocks, appendBlock_eq hempty hpos]
        rw [hstep]
        have hleft : target - (chain ++ taken).length = k - L.realNumNode := by
          rw [List.length_append, hlen]
          omega
        cases n with
        | zero =>
          -- the last block: it has the nodes that are still wanted
          refine ⟨true, chain ++ taken, t, by cases answers <;> rfl, hacc,
            fun _ => ⟨taken, rfl, ?_⟩, le_max_right _ _⟩
          rw [hlen]
          omega
        | succ n =>
          -- another block is wanted, so this one is used up
          rw [Nat.add_one_mul] at hle hlt
          have hused : t.blockContainer = [] := by
            refine if_pos (List.drop_eq_nil_of_le ?_)
            rw [L.length_slots]
            omega
          obtain ⟨ok, after, t', heq, happ⟩ := ih hacc hused
            (by rw [hleft, Nat.add_one_mul]; omega) (by rw [hleft, Nat.add_one_mul]; omega)
            (hfresh.tail rfl) (by rw [List.length_append, hlen]; omega)
          refine ⟨ok, after, t', heq, happ.accounted, fun hok => ?_, happ.totallyFree_le⟩
          obtain ⟨added, rfl, hadded⟩ := happ.grown hok
          refine ⟨taken ++ added, List.append_assoc _ _ _, ?_⟩
          rw [List.length_append, hlen, hadded, hleft]
          omega

/-- **`priv_append_from_new_blocks`**, for a positive number of nodes. -/
theorem Accounted.privAppendFromNewBlocks {wanted : ℕ} {answers : List Answer}
    {chain : List ℕ} (h : s.Accounted L (chain ++ live)) (hempty : s.blockContainer = [])
    (hpos : 0 < wanted) (hfresh : s.FreshAnswers L answers) :
    ∃ ok after t, s.privAppendFromNewBlocks L.toPoolShape wanted chain answers
        = (ok, after, t) ∧ Appended L s chain wanted live ok after t := by
  have hwanted : chain.length + wanted - chain.length = wanted := by omega
  have hdiv := Nat.div_mul_le_self (wanted - 1) L.realNumNode
  have hmod := Nat.lt_div_mul_add L.num_pos (a := wanted - 1)
  have happ := h.appendBlocks (n := (wanted - 1) / L.realNumNode + 1)
    (chain.length + wanted) hempty
    (by rw [hwanted, Nat.add_one_mul]; omega) (by rw [hwanted, Nat.add_one_mul]; omega)
    hfresh (Nat.le_add_right _ _)
  rwa [hwanted] at happ

/-! ## The calls -/

/-- A request for one node that throws has collected none. -/
theorem privAppendFromNewBlocks_one {answers : List Answer} {after : List ℕ}
    {t : AdaptivePool}
    (h : s.privAppendFromNewBlocks L.toPoolShape 1 [] answers = (false, after, t)) :
    after = [] := by
  unfold AdaptivePool.privAppendFromNewBlocks at h
  rw [Nat.sub_self, Nat.zero_div] at h
  cases answers with
  | nil => exact (congrArg (fun r => r.2.1) h).symm
  | cons answer answers =>
    cases answer with
    | throws => exact (congrArg (fun r => r.2.1) h).symm
    | null => exact (congrArg (fun r => r.2.1) h).symm
    | memory m =>
      rw [AdaptivePool.appendBlocks] at h
      cases answers <;> exact absurd (congrArg Prod.fst h) (by simp [AdaptivePool.appendBlocks])

/-- **`priv_allocate_node`** lends the node it returns, and nothing where it
throws. -/
theorem Sound.privAllocateNode (h : s.Sound L live) {answers : List Answer}
    (hfresh : s.FreshAnswers L answers) :
    (s.privAllocateNode L.toPoolShape answers).2.Sound L
      ((s.privAllocateNode L.toPoolShape answers).1.toList ++ live) := by
  unfold AdaptivePool.privAllocateNode
  cases hc : s.blockContainer with
  | cons b rest =>
    have htake := h.toAccounted.takeFirst hc Nat.one_pos
    obtain ⟨_, hne⟩ := (h.mem_container b).mp (hc ▸ List.mem_cons_self)
    obtain ⟨x, xs, hx⟩ := List.exists_cons_of_ne_nil hne
    rw [hx] at htake
    refine ⟨?_, (Nat.sub_le _ _).trans h.totallyFree_le⟩
    simp only [hx, List.tail_cons, List.head?_cons, Option.toList_some, List.isEmpty_iff]
    exact htake
  | nil =>
    have hnone : s.Accounted L ([] ++ live) := h.toAccounted
    obtain ⟨ok, after, t, heq, happ⟩ :=
      hnone.privAppendFromNewBlocks hc Nat.one_pos hfresh
    have hle : t.totallyFreeBlocks ≤ L.maxFreeBlocks :=
      happ.totallyFree_le.trans (max_le le_rfl h.totallyFree_le)
    simp only [heq]
    cases ok with
    | true =>
      obtain ⟨added, hafter, hadded⟩ := happ.grown rfl
      obtain ⟨x, rfl⟩ := List.length_eq_one_iff.mp hadded
      have hacc := happ.accounted
      rw [hafter] at hacc
      rw [hafter]
      exact ⟨hacc, hle⟩
    | false =>
      have hacc := happ.accounted
      rw [privAppendFromNewBlocks_one heq] at hacc
      exact ⟨hacc, hle⟩

/-- **`priv_allocate_nodes`** adds as many nodes to the chain as it was asked
for; where it throws, the chain is empty and all its nodes are free. -/
theorem Sound.privAllocateNodes {n : ℕ} {chain : List ℕ} (h : s.Sound L (chain ++ live))
    {answers : List Answer} (hfresh : s.FreshAnswers L answers) :
    ∃ ok after t, s.privAllocateNodes L.toPoolShape n chain answers = (ok, after, t)
      ∧ t.Sound L (after ++ live)
      ∧ (ok = true → ∃ added, after = chain ++ added ∧ added.length = n)
      ∧ (ok = false → after = []) := by
  obtain ⟨left, taken, t, heq, hlen, hacc, htotal, hempty, hseg⟩ :=
    h.toAccounted.takeFromBlocks rfl n chain
  have hacc' : t.Accounted L ((chain ++ taken) ++ live) := by
    refine hacc.perm ?_
    rw [← List.append_assoc]
    exact List.perm_append_comm.append_right live
  have hle := htotal.trans h.totallyFree_le
  unfold AdaptivePool.privAllocateNodes
  simp only [heq]
  by_cases hleft : left = 0
  · rw [if_pos hleft]
    exact ⟨true, chain ++ taken, t, rfl, ⟨hacc', hle⟩, fun _ => ⟨taken, rfl, by omega⟩,
      fun hok => (nomatch hok)⟩
  · rw [if_neg hleft]
    have hfresh' : t.FreshAnswers L answers := ⟨hseg ▸ hfresh.apart, hfresh.aligned⟩
    obtain ⟨ok, after, t', happeq, happ⟩ :=
      hacc'.privAppendFromNewBlocks (hempty hleft) (Nat.pos_of_ne_zero hleft) hfresh'
    have hle' : t'.totallyFreeBlocks ≤ L.maxFreeBlocks :=
      happ.totallyFree_le.trans (max_le le_rfl hle)
    simp only [happeq]
    cases ok with
    | true =>
      refine ⟨true, after, t', rfl, ⟨happ.accounted, hle'⟩, fun _ => ?_,
        fun hok => (nomatch hok)⟩
      obtain ⟨added, hafter, hadded⟩ := happ.grown rfl
      exact ⟨taken ++ added, hafter.trans (List.append_assoc _ _ _), by simp; omega⟩
    | false =>
      obtain ⟨hback, hbackle⟩ := happ.accounted.privDeallocateNodes
      exact ⟨false, [], _, rfl, ⟨hback, hbackle.trans (max_le le_rfl hle')⟩,
        fun hok => (nomatch hok), fun _ => rfl⟩

/-- A new pool has nothing to account for. -/
theorem sound_construct (L : PoolLayout) : construct.Sound L [] := by
  refine ⟨⟨List.Pairwise.nil, List.forall_mem_nil _, fun _ => List.forall_mem_nil _,
    List.nodup_nil, fun b => ?_, List.forall_mem_nil _, List.Pairwise.nil,
    List.Perm.refl _, rfl⟩, Nat.zero_le _⟩
  exact iff_of_false List.not_mem_nil (fun h => List.not_mem_nil h.1)

/-! ## Sessions -/

/-- **A session**: a pool and the nodes it has lent. -/
structure Session where
  pool : AdaptivePool
  live : List ℕ

/-- The calls a session makes. Those that may need blocks carry the answers of
the segment manager; the chain of `allocate_nodes` may hold nodes already. -/
inductive Call
  | allocateNode (answers : List Answer)
  | allocateNodes (n : ℕ) (chain : List ℕ) (answers : List Answer)
  | deallocateNode (a : ℕ)
  | deallocateNodes (nodes : List ℕ)
  | deallocateFreeBlocks

/-- The session after a call. -/
def Session.exec (g : PoolShape) (s : Session) : Call → Session
  | .allocateNode answers =>
    let (node, pool) := s.pool.privAllocateNode g answers
    ⟨pool, node.toList ++ s.live⟩
  | .allocateNodes n chain answers =>
    let (_, after, pool) := s.pool.privAllocateNodes g n chain answers
    ⟨pool, after ++ s.live.diff chain⟩
  | .deallocateNode a => ⟨s.pool.privDeallocateNode g a, s.live.erase a⟩
  | .deallocateNodes nodes => ⟨s.pool.privDeallocateNodes g nodes, s.live.diff nodes⟩
  | .deallocateFreeBlocks => ⟨s.pool.privDeallocateFreeBlocks g 0, s.live⟩

/-- **What callers and the segment manager owe**: fresh memory, and only lent
nodes in the chains that are handed in. -/
def Call.Valid (L : PoolLayout) (s : Session) : Call → Prop
  | .allocateNode answers => s.pool.FreshAnswers L answers
  | .allocateNodes _ chain answers => chain.Subperm s.live ∧ s.pool.FreshAnswers L answers
  | .deallocateNode a => a ∈ s.live
  | .deallocateNodes nodes => nodes.Subperm s.live
  | .deallocateFreeBlocks => True

/-- **The sessions of a new pool.** -/
def sessions (L : PoolLayout) : TransitionSystem Session Call where
  Init s := s = ⟨construct, []⟩
  Step s c s' := c.Valid L s ∧ s' = s.exec L.toPoolShape c

/-- **Every call keeps the invariant.** -/
theorem Session.sound_exec (s : Session) (c : Call) (h : s.pool.Sound L s.live)
    (hv : c.Valid L s) :
    (s.exec L.toPoolShape c).pool.Sound L (s.exec L.toPoolShape c).live := by
  have hperm : ∀ {l}, l.Subperm s.live → s.pool.Sound L (l ++ s.live.diff l) := fun hl =>
    ⟨h.toAccounted.perm (List.append_diff_perm hl).symm, h.totallyFree_le⟩
  cases c with
  | allocateNode answers => exact h.privAllocateNode hv
  | allocateNodes n chain answers =>
    obtain ⟨ok, after, t, heq, hsound, _⟩ := (hperm hv.1).privAllocateNodes (n := n) hv.2
    unfold Session.exec
    simp only [heq]
    exact hsound
  | deallocateNode a =>
    exact (h.toAccounted.perm (List.perm_cons_erase hv)).privDeallocateNode
  | deallocateNodes nodes =>
    obtain ⟨hacc, hle⟩ := (hperm hv).toAccounted.privDeallocateNodes
    exact ⟨hacc, hle.trans (max_le le_rfl h.totallyFree_le)⟩
  | deallocateFreeBlocks =>
    obtain ⟨hacc, hle⟩ := h.toAccounted.privDeallocateFreeBlocks 0
    exact ⟨hacc, hle.trans ((min_le_left _ _).trans (Nat.zero_le _))⟩

/-- **A session whose blocks and nodes are all accounted for.** -/
structure Session.Correct (L : PoolLayout) (s : Session) : Prop where
  /-- The container holds exactly the blocks that have a free node, once. -/
  container_nodup : s.pool.blockContainer.Nodup
  mem_container : ∀ b, b ∈ s.pool.blockContainer
    ↔ b ∈ s.pool.owned L.toPoolShape ∧ s.pool.freeNodes b ≠ []
  /-- A multiset is in the order of its comparison. -/
  sorted : L.ordered = true →
    s.pool.blockContainer.SortedBy (s.pool.Less L.toPoolShape)
  /-- A list has its wholly free blocks last. -/
  full_last : L.ordered = false → s.pool.blockContainer.Pairwise
    (fun b c => s.pool.isFull L.toPoolShape b = true →
      s.pool.isFull L.toPoolShape c = true)
  free_bounds : ∀ b ∈ s.pool.blockContainer,
    1 ≤ (s.pool.freeNodes b).length ∧ (s.pool.freeNodes b).length ≤ L.realNumNode
      ∧ s.pool.freeNodes b ⊆ L.nodesOf b
  totallyFree_eq : s.pool.totallyFreeBlocks
    = s.pool.blockContainer.countP (s.pool.isFull L.toPoolShape)
  totallyFree_le : s.pool.totallyFreeBlocks ≤ L.maxFreeBlocks
  /-- What is free and what is lent are the nodes of the owned blocks, each
  once. -/
  partition : (s.pool.blockContainer.flatMap s.pool.freeNodes ++ s.live).Perm
    ((s.pool.owned L.toPoolShape).flatMap L.nodesOf)
  nodup : ((s.pool.owned L.toPoolShape).flatMap L.nodesOf).Nodup

/-- Blocks without free nodes contribute none. -/
theorem Accounted.flatMap_container (h : s.Accounted L live) :
    (s.blockContainer.flatMap s.freeNodes).Perm
      ((s.owned L.toPoolShape).flatMap s.freeNodes) := by
  have hfilter : s.blockContainer.Perm
      ((s.owned L.toPoolShape).filter (fun b => s.freeNodes b ≠ [])) := by
    rw [List.perm_ext_iff_of_nodup h.container_nodup (h.owned_nodup.filter _)]
    intro b
    rw [h.mem_container b, List.mem_filter, decide_eq_true_iff]
  refine (hfilter.flatMap_right _).trans (List.Perm.of_eq ?_)
  induction s.owned L.toPoolShape with
  | nil => rfl
  | cons b bs ih =>
    by_cases hb : s.freeNodes b = []
    · rw [List.filter_cons_of_neg (by simpa using hb), ih, List.flatMap_cons, hb]
      rfl
    · rw [List.filter_cons_of_pos (by simpa using hb), List.flatMap_cons, ih,
        List.flatMap_cons]

theorem Session.correct_of_sound {s : Session} (h : s.pool.Sound L s.live) :
    s.Correct L := by
  refine ⟨h.container_nodup, h.mem_container, fun hg => ?_, fun hg => ?_, fun b hb => ?_,
    h.totallyFree_eq, h.totallyFree_le, ?_, h.nodup_nodes⟩
  · refine h.in_order.imp (fun {b c} hbc => ?_)
    unfold InOrder at hbc
    rwa [if_pos hg] at hbc
  · refine h.in_order.imp (fun {b c} hbc => ?_)
    unfold InOrder at hbc
    rwa [hg, if_neg (by simp)] at hbc
  · obtain ⟨hown, hne⟩ := (h.mem_container b).mp hb
    exact ⟨List.length_pos_of_ne_nil hne, h.length_le hown, h.free_subset b hown⟩
  · exact (h.flatMap_container.append_right _).trans h.partition

/-- **An adaptive pool over whole runs**, for every layout, every order of
calls and every answer of the segment manager. The blocks and nodes of every
state reached are accounted for; and `allocate_nodes` adds as many nodes to
its chain as it is asked for, or throws, and then nothing it had collected is
lent any more. -/
theorem Session.adaptivePool_correct (L : PoolLayout) (s : Session)
    (hs : (sessions L).Reachable s) :
    s.Correct L
      ∧ ∀ n chain answers, (Call.allocateNodes n chain answers).Valid L s →
        ∃ ok after t,
          s.pool.privAllocateNodes L.toPoolShape n chain answers = (ok, after, t)
            ∧ (ok = true → ∃ added, after = chain ++ added ∧ added.length = n)
            ∧ (ok = false → after = []
              ∧ Session.Correct L ⟨t, s.live.diff chain⟩) := by
  have hsound : s.pool.Sound L s.live := by
    refine hs.invariant (I := fun s => s.pool.Sound L s.live) ?_ ?_
    · rintro s rfl
      exact sound_construct L
    · rintro s c s' h ⟨hv, rfl⟩
      exact s.sound_exec c h hv
  refine ⟨correct_of_sound hsound, fun n chain answers ⟨hchain, hfresh⟩ => ?_⟩
  have hsplit : s.pool.Sound L (chain ++ s.live.diff chain) :=
    ⟨hsound.toAccounted.perm (List.append_diff_perm hchain).symm, hsound.totallyFree_le⟩
  obtain ⟨ok, after, t, heq, hnext, hok, hfail⟩ := hsplit.privAllocateNodes (n := n) hfresh
  refine ⟨ok, after, t, heq, hok, fun hno => ⟨hfail hno, ?_⟩⟩
  rw [hfail hno] at hnext
  exact correct_of_sound (s := ⟨t, s.live.diff chain⟩) hnext

/-- Blocks of two sub-blocks of 128 bytes, which hold nine nodes of 16 bytes,
on a multiset ordered by size and address. -/
def smallLayout : PoolLayout where
  alignOnly := false
  sizeOrdered := true
  addressOrdered := true
  bits := 64
  alignmentBits := 7
  realNodeSize := 16
  realNumNode := 9
  numSubblocks := 2
  hdrSize := 56
  hdrOffSize := 16
  payloadPerAllocation := 16
  maxFreeBlocks := 2
  node_pos := by decide
  num_pos := by decide
  hdr_pos := by decide
  hdrOff_pos := by decide
  hdr_fits := by decide
  hdrOff_fits := by decide
  nodes_fit := by decide
  subblocks_pos := by decide
  nodes_sum := by decide

/-- A session that has taken a chain of ten nodes, from two blocks. -/
def tenLent : Session :=
  (⟨construct, []⟩ : Session).exec smallLayout.toPoolShape
    (.allocateNodes 10 [] [.memory 1024, .memory 512])

example : tenLent.live = [1040, 1056, 1072, 1088, 1104, 1120, 1208, 1224, 1240, 528]
    ∧ tenLent.pool.blockContainer = [640] := by decide

theorem Session.correct_tenLent : tenLent.Correct smallLayout := by
  refine (Session.adaptivePool_correct smallLayout tenLent ?_).1
  refine (TransitionSystem.Reachable.of_init rfl).step
    (e := .allocateNodes 10 [] [.memory 1024, .memory 512]) ⟨⟨List.nil_subperm, ?_, ?_⟩, rfl⟩
  · show List.Pairwise _ [smallLayout.memory 1024, smallLayout.memory 512]
    decide
  · show ∀ m ∈ [1024, 512], _
    decide

end AdaptivePool
