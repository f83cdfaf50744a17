import BoostContainer.Lib.Lists
import BoostContainer.Pool.AdaptivePoolBlocks

/-!
# Every node of an adaptive pool accounted for

Every node of every block a pool owns is at any time either on the free list
of its block or lent, and the blocks that have a free node are exactly those
on the container, in its order (`AdaptivePool.Accounted`). Between two calls
the wholly free blocks are within their bound as well
(`AdaptivePool.Sound`).

Nodes come back in batches, the nodes of one block at a time. So it is enough
to say what giving some nodes back to their block does
(`Accounted.giveBack`), and what handing back wholly free blocks does
(`Accounted.privDeallocateFreeBlocks`); the loop over a chain is a sequence
of the first, and ends with the second.
-/

namespace AdaptivePool

/-- The headers of the blocks a pool owns. -/
def owned (g : PoolShape) (s : AdaptivePool) : List ℕ := s.segment.map g.blockInfo

/-- **Two blocks stand in the order of the container**: the comparison of a
multiset, or, for a list, wholly free blocks after the others. -/
def InOrder (g : PoolShape) (s : AdaptivePool) (b c : ℕ) : Prop :=
  if g.ordered then ¬ s.Less g c b
  else s.isFull g b = true → s.isFull g c = true

variable (L : PoolLayout)

/-- **Every node is accounted for.** -/
structure Accounted (s : AdaptivePool) (live : List ℕ) : Prop where
  memory_apart : (s.segment.map L.memory).Pairwise Region.Apart
  memory_aligned : ∀ m ∈ s.segment,
    L.realBlockAlignment ∣ m ∧ m + L.realBlockSize ≤ 2 ^ L.bits
  /-- Every part of a block knows its header. -/
  offsets : L.alignOnly = false → ∀ m ∈ s.segment, ∀ i < L.parts,
    m + i * L.realBlockAlignment + s.hdrOffset (m + i * L.realBlockAlignment)
      = L.blockInfo m
  container_nodup : s.blockContainer.Nodup
  mem_container : ∀ b, b ∈ s.blockContainer
    ↔ b ∈ s.owned L.toPoolShape ∧ s.freeNodes b ≠ []
  free_subset : ∀ b ∈ s.owned L.toPoolShape, s.freeNodes b ⊆ L.nodesOf b
  in_order : s.blockContainer.Pairwise (s.InOrder L.toPoolShape)
  partition : ((s.owned L.toPoolShape).flatMap s.freeNodes ++ live).Perm
    ((s.owned L.toPoolShape).flatMap L.nodesOf)
  totallyFree_eq : s.totallyFreeBlocks
    = s.blockContainer.countP (s.isFull L.toPoolShape)

/-- **The invariant between two calls.** -/
structure Sound (s : AdaptivePool) (live : List ℕ) : Prop extends Accounted L s live where
  totallyFree_le : s.totallyFreeBlocks ≤ L.maxFreeBlocks

variable {L} {s : AdaptivePool} {live : List ℕ}

/-! ## Nodes of owned blocks -/

theorem Accounted.perm (h : s.Accounted L live) {live' : List ℕ} (hp : live.Perm live') :
    s.Accounted L live' :=
  { h with partition := (hp.symm.append_left _).trans h.partition }

theorem mem_owned {g : PoolShape} {b : ℕ} :
    b ∈ s.owned g ↔ ∃ m ∈ s.segment, g.blockInfo m = b := List.mem_map

theorem Accounted.segment_nodup (h : s.Accounted L live) : s.segment.Nodup := by
  refine (List.pairwise_map.mp h.memory_apart).imp (fun {a b} hab he => ?_)
  subst he
  have hpos : 0 < L.realBlockSize := by simpa using L.part_lt L.parts_pos
  rcases Region.apart_iff.mp hab with h | h | h | h <;>
    simp only [PoolShape.memory, Region.stop_mk] at h <;> omega

theorem Accounted.owned_nodup (h : s.Accounted L live) : (s.owned L.toPoolShape).Nodup :=
  h.segment_nodup.map L.blockInfo_injective

/-- **No node belongs to two blocks.** -/
theorem Accounted.nodup_nodes (h : s.Accounted L live) :
    ((s.owned L.toPoolShape).flatMap L.nodesOf).Nodup := by
  rw [List.nodup_flatMap]
  refine ⟨fun b _ => L.slots_nodup _, ?_⟩
  unfold owned
  rw [List.pairwise_map]
  refine (List.pairwise_map.mp h.memory_apart).imp (fun {a b} hab x hx hy => ?_)
  rw [PoolShape.nodesOf_blockInfo] at hx hy
  exact Set.disjoint_left.mp hab (L.mem_memory hx) (L.mem_memory hy)

theorem Accounted.nodup (h : s.Accounted L live) :
    ((s.owned L.toPoolShape).flatMap s.freeNodes ++ live).Nodup :=
  h.partition.nodup_iff.mpr h.nodup_nodes

theorem Accounted.free_nodup (h : s.Accounted L live) {b : ℕ}
    (hb : b ∈ s.owned L.toPoolShape) : (s.freeNodes b).Nodup :=
  (List.nodup_flatMap.mp (List.nodup_append.mp h.nodup).1).1 b hb

/-- **A node knows its block.** -/
theorem Accounted.privBlockFromNode_eq (h : s.Accounted L live) {b x : ℕ}
    (hb : b ∈ s.owned L.toPoolShape) (hx : x ∈ L.nodesOf b) :
    s.privBlockFromNode L.toPoolShape x = b := by
  obtain ⟨m, hm, rfl⟩ := mem_owned.mp hb
  rw [PoolShape.nodesOf_blockInfo] at hx
  obtain ⟨i, hi, hle, hlt, hin⟩ := L.exists_part hx
  obtain ⟨hdvd, hbits⟩ := h.memory_aligned m hm
  have hmask := L.mask_eq hdvd (lt_of_lt_of_le hin hbits) hle hlt
  unfold privBlockFromNode
  dsimp only
  rw [hmask]
  cases hn : L.alignOnly with
  | true =>
    have hone : L.parts = 1 := by rw [PoolShape.parts, hn]; rfl
    obtain rfl : i = 0 := by omega
    rw [if_pos rfl, Nat.zero_mul, PoolShape.blockInfo, hn]
    rfl
  | false =>
    rw [if_neg (by simp)]
    exact h.offsets hn m hm i hi

/-- A node that is lent has a block that is owned. -/
theorem Accounted.exists_owned (h : s.Accounted L live) {x : ℕ} (hx : x ∈ live) :
    ∃ b ∈ s.owned L.toPoolShape, x ∈ L.nodesOf b :=
  List.mem_flatMap.mp (h.partition.subset (List.mem_append_right _ hx))

/-- What is free of a block and what is lent of it are not more than it has. -/
theorem Accounted.length_add_le (h : s.Accounted L live) {b : ℕ}
    (hb : b ∈ s.owned L.toPoolShape) {nodes : List ℕ} (hnodes : nodes.Sublist live)
    (hsub : nodes ⊆ L.nodesOf b) :
    (s.freeNodes b).length + nodes.length ≤ L.realNumNode := by
  have hnodup : (s.freeNodes b ++ nodes).Nodup := by
    obtain ⟨_, hlive, hdisj⟩ := List.nodup_append.mp h.nodup
    refine List.nodup_append.mpr ⟨h.free_nodup hb, hlive.sublist hnodes, ?_⟩
    exact fun x hx y hy => hdisj x (List.mem_flatMap.mpr ⟨b, hb, hx⟩) y (hnodes.subset hy)
  have hperm : (s.freeNodes b ++ nodes).Subperm (L.nodesOf b) := by
    refine hnodup.subperm (fun x hx => ?_)
    rcases List.mem_append.mp hx with hx | hx
    · exact h.free_subset b hb hx
    · exact hsub hx
  have hlen := hperm.length_le
  rwa [List.length_append, PoolShape.nodesOf, L.length_slots] at hlen

theorem Accounted.length_le (h : s.Accounted L live) {b : ℕ}
    (hb : b ∈ s.owned L.toPoolShape) : (s.freeNodes b).length ≤ L.realNumNode := by
  simpa using h.length_add_le hb (List.nil_sublist _) (List.nil_subset _)

/-- **A full list is all nodes of the block.** -/
theorem Accounted.perm_of_isFull (h : s.Accounted L live) {b : ℕ}
    (hb : b ∈ s.owned L.toPoolShape) (hfull : s.isFull L.toPoolShape b = true) :
    (s.freeNodes b).Perm (L.nodesOf b) := by
  have hlen : (s.freeNodes b).length = L.realNumNode := of_decide_eq_true hfull
  have hsub := (h.free_nodup hb).subperm (h.free_subset b hb)
  refine hsub.perm_of_length_le (le_of_eq ?_)
  rw [hlen]
  exact L.length_slots _

/-! ## Changing the free list of one block -/

/-- A pool with another free list in one block, another container and another
count. -/
def setFree (s : AdaptivePool) (b : ℕ) (free container : List ℕ) (n : ℕ) :
    AdaptivePool :=
  { s with
    freeNodes := Function.update s.freeNodes b free
    blockContainer := container
    totallyFreeBlocks := n }

section SetFree

variable {g : PoolShape} {b : ℕ} {free container : List ℕ} {n : ℕ}

@[simp] theorem setFree_freeNodes_self : (s.setFree b free container n).freeNodes b = free :=
  Function.update_self _ _ _

theorem setFree_freeNodes_of_ne {c : ℕ} (hc : c ≠ b) :
    (s.setFree b free container n).freeNodes c = s.freeNodes c :=
  Function.update_of_ne hc _ _

theorem setFree_isFull_of_ne {c : ℕ} (hc : c ≠ b) :
    (s.setFree b free container n).isFull g c = s.isFull g c := by
  unfold isFull
  rw [setFree_freeNodes_of_ne hc]

theorem setFree_inOrder_of_ne {c d : ℕ} (hc : c ≠ b) (hd : d ≠ b) :
    (s.setFree b free container n).InOrder g c d ↔ s.InOrder g c d := by
  unfold InOrder Less
  rw [setFree_isFull_of_ne hc, setFree_isFull_of_ne hd, setFree_freeNodes_of_ne hc,
    setFree_freeNodes_of_ne hd]

variable (free container n) in
/-- Blocks other than the one that changes keep their order. -/
theorem pairwise_setFree {l : List ℕ} (hl : l.Pairwise (s.InOrder g)) (hb : b ∉ l) :
    l.Pairwise ((s.setFree b free container n).InOrder g) :=
  hl.imp_of_mem (fun hc hd hcd => (setFree_inOrder_of_ne
    (ne_of_mem_of_not_mem hc hb) (ne_of_mem_of_not_mem hd hb)).mpr hcd)

end SetFree

/-- **The free list of one block changes**, between it and what is lent; the
block is on the new container where its list is not empty, and the count
changes with it. -/
theorem Accounted.setFree (h : s.Accounted L live) {b : ℕ}
    (hb : b ∈ s.owned L.toPoolShape) {free container live' : List ℕ} {n : ℕ}
    (hsub : free ⊆ L.nodesOf b) (hnodes : (free ++ live').Perm (s.freeNodes b ++ live))
    (hcontainer : container.Perm
      (if free = [] then s.blockContainer.erase b else b :: s.blockContainer.erase b))
    (hord : container.Pairwise ((s.setFree b free container n).InOrder L.toPoolShape))
    (hcount : n + (s.isFull L.toPoolShape b).toNat
      = s.totallyFreeBlocks + (decide (free.length = L.realNumNode)).toNat) :
    (s.setFree b free container n).Accounted L live' := by
  have hnotmem : b ∉ s.blockContainer.erase b := h.container_nodup.not_mem_erase
  have hmem : ∀ c, c ∈ container ↔ (c = b ∧ free ≠ []) ∨ (c ≠ b ∧ c ∈ s.blockContainer) := by
    intro c
    rw [hcontainer.mem_iff]
    by_cases hfree : free = []
    · rw [if_pos hfree, h.container_nodup.mem_erase_iff]
      simp [hfree]
    · rw [if_neg hfree, List.mem_cons, h.container_nodup.mem_erase_iff]
      simp [hfree]
  refine ⟨h.memory_apart, h.memory_aligned, h.offsets, ?_, fun c => ?_, fun c hc => ?_,
    hord, ?_, ?_⟩
  · rw [show (s.setFree b free container n).blockContainer = container from rfl,
      hcontainer.nodup_iff]
    split
    · exact h.container_nodup.erase b
    · exact List.nodup_cons.mpr ⟨hnotmem, h.container_nodup.erase b⟩
  · show c ∈ container ↔ c ∈ s.owned L.toPoolShape ∧ _
    rw [hmem c]
    by_cases hcb : c = b
    · subst hcb
      simp [hb]
    · rw [setFree_freeNodes_of_ne hcb, ← h.mem_container c]
      simp [hcb]
  · by_cases hcb : c = b
    · subst hcb
      rw [setFree_freeNodes_self]
      exact hsub
    · rw [setFree_freeNodes_of_ne hcb]
      exact h.free_subset c hc
  · obtain ⟨rest, hold, hnew⟩ :=
      List.exists_flatMap_update_perm s.freeNodes h.owned_nodup hb
    have hmove : ∀ l l' : List ℕ, (l ++ rest ++ l').Perm (rest ++ (l ++ l')) := by
      intro l l'
      rw [← List.append_assoc]
      exact List.perm_append_comm.append_right l'
    refine (((hnew free).append_right live').trans (hmove _ _)).trans ?_
    refine (hnodes.append_left rest).trans ((hmove _ _).symm.trans ?_)
    exact (hold.symm.append_right live).trans h.partition
  · -- the count of the others is the same before and after
    have hothers : (s.blockContainer.erase b).countP
          ((s.setFree b free container n).isFull L.toPoolShape)
        = (s.blockContainer.erase b).countP (s.isFull L.toPoolShape) := by
      refine List.countP_congr (fun c hc => ?_)
      rw [setFree_isFull_of_ne (ne_of_mem_of_not_mem hc hnotmem)]
    have hnil : ∀ {l : List ℕ}, l = [] → ¬ l.length = L.realNumNode := by
      rintro l rfl
      exact L.num_pos.ne
    have hold : s.totallyFreeBlocks
        = (s.blockContainer.erase b).countP (s.isFull L.toPoolShape)
          + (s.isFull L.toPoolShape b).toNat := by
      rw [h.totallyFree_eq]
      by_cases hmem : b ∈ s.blockContainer
      · rw [(List.perm_cons_erase hmem).countP_eq, List.countP_cons]
        cases s.isFull L.toPoolShape b <;> rfl
      · have hempty : s.freeNodes b = [] := by
          by_contra hne
          exact hmem ((h.mem_container b).mpr ⟨hb, hne⟩)
        have hfull : s.isFull L.toPoolShape b = false := decide_eq_false (hnil hempty)
        rw [List.erase_of_not_mem hmem, hfull]
        rfl
    have hself : (s.setFree b free container n).isFull L.toPoolShape b
        = decide (free.length = L.realNumNode) := by
      unfold isFull
      rw [setFree_freeNodes_self]
    have hnew : container.countP ((s.setFree b free container n).isFull L.toPoolShape)
        = (s.blockContainer.erase b).countP (s.isFull L.toPoolShape)
          + (decide (free.length = L.realNumNode)).toNat := by
      rw [hcontainer.countP_eq]
      by_cases hfree : free = []
      · rw [if_pos hfree, hothers, decide_eq_false (hnil hfree)]
        rfl
      · rw [if_neg hfree, List.countP_cons, hothers, hself]
        cases decide (free.length = L.realNumNode) <;> rfl
    show n = container.countP ((s.setFree b free container n).isFull L.toPoolShape)
    omega

/-! ## Giving nodes back -/

/-- **The place of a block that has gained nodes**, in either kind of
container. The block was not full before. -/
theorem privReinsertBlock_spec {g : PoolShape} {b : ℕ} (nodes : List ℕ)
    (hnodup : s.blockContainer.Nodup) (hmem : b ∈ s.blockContainer ↔ s.freeNodes b ≠ [])
    (hord : s.blockContainer.Pairwise (s.InOrder g)) (hnot : s.isFull g b = false) :
    let t := (s.pushFreeNodes b nodes).privReinsertBlock g b (s.freeNodes b).isEmpty
    t.blockContainer.Perm (b :: s.blockContainer.erase b)
      ∧ t.blockContainer.Pairwise (t.InOrder g) := by
  set s₁ := s.pushFreeNodes b nodes with hs₁
  have hothers : (s.blockContainer.erase b).Pairwise (s₁.InOrder g) :=
    pairwise_setFree _ _ _ (hord.sublist List.erase_sublist) hnodup.not_mem_erase
  have hself : s₁.freeNodes b = s.freeNodes b ++ nodes := Function.update_self _ _ _
  have hne : ∀ {c}, c ≠ b → s₁.freeNodes c = s.freeNodes c :=
    fun hc => Function.update_of_ne hc _ _
  have hfull_ne : ∀ {c}, c ≠ b → s₁.isFull g c = s.isFull g c := by
    intro c hc
    unfold isFull
    rw [hne hc]
  show (if (s.freeNodes b).isEmpty then s₁.insertWasEmpty g b (s₁.isFull g b)
      else s₁.reinsertWasUsed g b (s₁.isFull g b)).Perm _
    ∧ (if (s.freeNodes b).isEmpty then s₁.insertWasEmpty g b (s₁.isFull g b)
      else s₁.reinsertWasUsed g b (s₁.isFull g b)).Pairwise (s₁.InOrder g)
  by_cases hempty : s.freeNodes b = []
  · have hb : b ∉ s.blockContainer := fun h => hmem.mp h hempty
    rw [if_pos (List.isEmpty_iff.mpr hempty)]
    rw [List.erase_of_not_mem hb] at hothers ⊢
    unfold insertWasEmpty InOrder at *
    cases hg : g.ordered with
    | true =>
      have := isStrictWeakOrder_less hg s₁
      simp only [hg, if_true] at hothers ⊢
      exact ⟨List.insertUpper_perm b _, List.SortedBy.insertUpper hothers b⟩
    | false =>
      simp only [hg, Bool.false_eq_true, if_false] at hothers ⊢
      cases hfull : s₁.isFull g b with
      | true =>
        rw [if_pos rfl]
        refine ⟨List.perm_append_comm, List.pairwise_append.mpr
          ⟨hothers, List.pairwise_singleton _ _, fun c _ d hd _ => ?_⟩⟩
        rw [List.mem_singleton.mp hd]
        exact hfull
      | false =>
        rw [if_neg (by simp)]
        refine ⟨List.Perm.refl _, List.pairwise_cons.mpr ⟨fun c _ hc => ?_, hothers⟩⟩
        rw [hfull] at hc
        cases hc
  · have hb : b ∈ s.blockContainer := hmem.mpr hempty
    rw [if_neg (by simpa using hempty)]
    obtain ⟨pre, post, hsplit, hpre⟩ := List.eq_append_cons_of_mem hb
    unfold reinsertWasUsed
    rw [show s₁.blockContainer = s.blockContainer from rfl]
    cases hg : g.ordered with
    | true =>
      have := isStrictWeakOrder_less hg s₁
      rw [if_pos rfl]
      have herase : s.blockContainer.erase b = pre ++ post := by
        rw [hsplit, List.erase_append_right _ hpre, List.erase_cons_head]
      refine ⟨(reinsertOrdered_perm hb).trans (List.perm_cons_erase hb), ?_⟩
      unfold InOrder at hord hothers ⊢
      simp only [hg, if_true] at hord hothers ⊢
      rw [herase] at hothers
      rw [hsplit] at hord ⊢
      refine reinsertOrdered_sortedBy hpre hothers (fun x hx hlt => ?_)
      -- a block that is less now was less before it gained nodes
      have hx' : ¬ s.Less g b x := (List.pairwise_append.mp hord).2.2 x hx b List.mem_cons_self
      refine hx' ?_
      unfold Less at hlt ⊢
      rw [hself, hne (ne_of_mem_of_not_mem hx hpre)] at hlt
      exact PoolShape.less_mono_left hg (by simp) hlt
    | false =>
      rw [if_neg (by simp)]
      unfold InOrder at hord hothers ⊢
      simp only [hg, Bool.false_eq_true, if_false] at hord hothers ⊢
      cases hfull : s₁.isFull g b with
      | true =>
        rw [if_pos rfl]
        refine ⟨List.perm_append_comm, List.pairwise_append.mpr
          ⟨hothers, List.pairwise_singleton _ _, fun c _ d hd _ => ?_⟩⟩
        rw [List.mem_singleton.mp hd]
        exact hfull
      | false =>
        rw [if_neg (by simp)]
        refine ⟨List.perm_cons_erase hb, hord.imp (fun {c d} hcd hc => ?_)⟩
        -- neither before nor now is the block full
        have hcb : c ≠ b := by
          rintro rfl
          rw [hfull] at hc
          cases hc
        rw [hfull_ne hcb] at hc
        by_cases hdb : d = b
        · rw [hdb, hnot] at hcd
          exact absurd (hcd hc) Bool.false_ne_true
        · rw [hfull_ne hdb]
          exact hcd hc

/-- **Nodes of one block come back to it.** -/
theorem Accounted.giveBack {nodes : List ℕ} (h : s.Accounted L (nodes ++ live)) {b : ℕ}
    (hb : b ∈ s.owned L.toPoolShape) (hne : nodes ≠ []) (hsub : nodes ⊆ L.nodesOf b) :
    ((s.pushFreeNodes b nodes).privReinsertBlock L.toPoolShape b
      (s.freeNodes b).isEmpty).Accounted L live := by
  have hlen := h.length_add_le hb (List.sublist_append_left nodes live) hsub
  have hpos := List.length_pos_of_ne_nil hne
  have hnot : s.isFull L.toPoolShape b = false := decide_eq_false (by omega)
  have hmem : b ∈ s.blockContainer ↔ s.freeNodes b ≠ [] := by
    rw [h.mem_container b]
    simp [hb]
  obtain ⟨hperm, hord⟩ := privReinsertBlock_spec nodes h.container_nodup hmem
    h.in_order hnot
  have hfree : s.freeNodes b ++ nodes ≠ [] := by simp [hne]
  refine h.setFree hb ?_ ?_ ?_ hord ?_
  · intro x hx
    rcases List.mem_append.mp hx with hx | hx
    · exact h.free_subset b hb hx
    · exact hsub hx
  · rw [List.append_assoc]
  · rw [if_neg hfree]
    exact hperm
  · have hself : (s.pushFreeNodes b nodes).isFull L.toPoolShape b
        = decide ((s.freeNodes b ++ nodes).length = L.realNumNode) := by
      unfold isFull pushFreeNodes
      simp only [Function.update_self]
    show s.totallyFreeBlocks + ((s.pushFreeNodes b nodes).isFull L.toPoolShape b).toNat
      + (s.isFull L.toPoolShape b).toNat = _
    rw [hself, hnot]
    rfl

/-! ## Handing back free blocks -/

theorem Accounted.blockInfo_firstSubblock (_h : s.Accounted L live) {b : ℕ}
    (hb : b ∈ s.owned L.toPoolShape) : L.blockInfo (L.firstSubblockFromBlock b) = b := by
  obtain ⟨m, _, rfl⟩ := mem_owned.mp hb
  rw [PoolShape.firstSubblockFromBlock_blockInfo]

/-- In a container ordered by size the wholly free blocks come last. -/
theorem Accounted.full_last (h : s.Accounted L live) (hsize : L.sizeOrdered = true) :
    s.blockContainer.Pairwise
      (fun b c => s.isFull L.toPoolShape b = true → s.isFull L.toPoolShape c = true) := by
  refine h.in_order.imp_of_mem (fun {b c} _ hc hbc hb => ?_)
  have hg : L.ordered = true := by simp [PoolShape.ordered, hsize]
  have hle := h.length_le ((h.mem_container c).mp hc).1
  have hb' : (s.freeNodes b).length = L.realNumNode := of_decide_eq_true hb
  unfold InOrder Less PoolShape.less at hbc
  rw [if_pos hg, hsize] at hbc
  refine decide_eq_true ?_
  by_contra hne
  have hlt : (s.freeNodes c).length < (s.freeNodes b).length := by omega
  cases ha : L.addressOrdered <;> simp [ha, hlt] at hbc

/-- **Only wholly free blocks are handed back**, and no more of them are left
than allowed. -/
theorem Accounted.privDeallocateFreeBlocks (h : s.Accounted L live) (maxFree : ℕ) :
    (s.privDeallocateFreeBlocks L.toPoolShape maxFree).Accounted L live
      ∧ (s.privDeallocateFreeBlocks L.toPoolShape maxFree).totallyFreeBlocks
        ≤ min maxFree s.totallyFreeBlocks := by
  unfold AdaptivePool.privDeallocateFreeBlocks
  by_cases hgt : s.totallyFreeBlocks > maxFree
  swap
  · rw [if_neg hgt]
    exact ⟨h, le_min (not_lt.mp hgt) le_rfl⟩
  rw [if_pos hgt]
  set n := s.totallyFreeBlocks - maxFree with hn
  set taken := (s.takeFreeBlocks L.toPoolShape n).1 with htaken
  set left := (s.takeFreeBlocks L.toPoolShape n).2 with hleft
  obtain ⟨hlen, hfull, hsub, hperm⟩ := s.takeFreeBlocks_spec (g := L.toPoolShape) (n := n)
    (by rw [← h.totallyFree_eq]; omega) h.full_last
  rw [← htaken] at hlen hfull hperm
  rw [← hleft] at hsub hperm
  set segment := s.segment.diff (taken.map L.firstSubblockFromBlock) with hsegment
  have hmemc : ∀ b ∈ taken, b ∈ s.owned L.toPoolShape := fun b hb =>
    ((h.mem_container b).mp (hperm.subset (List.mem_append_left _ hb))).1
  have hback : (taken.map L.firstSubblockFromBlock).map L.blockInfo = taken := by
    rw [List.map_map]
    exact (List.map_congr_left
      (fun b hb => h.blockInfo_firstSubblock (hmemc b hb))).trans (List.map_id taken)
  have hnodup : taken.Nodup :=
    (List.nodup_append.mp (hperm.nodup_iff.mpr h.container_nodup)).1
  -- the memory of the blocks taken out is memory the pool was given
  have hsegments : (taken.map L.firstSubblockFromBlock ++ segment).Perm s.segment := by
    refine List.append_diff_perm (List.Nodup.subperm ?_ (fun m hm => ?_))
    · exact List.Nodup.of_map L.blockInfo (hback.symm ▸ hnodup)
    · obtain ⟨b, hb, rfl⟩ := List.mem_map.mp hm
      obtain ⟨m, hm, rfl⟩ := mem_owned.mp (hmemc b hb)
      rwa [PoolShape.firstSubblockFromBlock_blockInfo]
  have howned : (taken ++ segment.map L.blockInfo).Perm (s.owned L.toPoolShape) := by
    have := hsegments.map L.blockInfo
    rwa [List.map_append, hback] at this
  have hdisj : ∀ b ∈ taken, b ∉ left := fun b hb hb' =>
    (List.nodup_append.mp (hperm.nodup_iff.mpr h.container_nodup)).2.2 b hb b hb' rfl
  have hdisj' : ∀ b ∈ taken, b ∉ segment.map L.blockInfo := fun b hb hb' =>
    (List.nodup_append.mp (howned.nodup_iff.mpr h.owned_nodup)).2.2 b hb b hb' rfl
  have hsegsub : segment ⊆ s.segment := fun m hm =>
    hsegments.subset (List.mem_append_right _ hm)
  have hcount : left.countP (s.isFull L.toPoolShape) = maxFree := by
    have htotal := h.totallyFree_eq
    rw [← hperm.countP_eq, List.countP_append, List.countP_eq_length.mpr hfull] at htotal
    omega
  refine ⟨⟨?_, fun m hm => h.memory_aligned m (hsegsub hm),
    fun hn m hm => h.offsets hn m (hsegsub hm), h.container_nodup.sublist hsub,
    fun b => ?_, fun b hb => ?_, h.in_order.sublist hsub, ?_, hcount.symm⟩, ?_⟩
  · have hap := ((hsegments.map L.memory).pairwise_iff Region.Apart.symm).mpr h.memory_apart
    rw [List.map_append] at hap
    exact (List.pairwise_append.mp hap).2.1
  · show b ∈ left ↔ b ∈ segment.map L.blockInfo ∧ s.freeNodes b ≠ []
    have hc := h.mem_container b
    rw [← hperm.mem_iff, ← howned.mem_iff, List.mem_append, List.mem_append] at hc
    by_cases hb : b ∈ taken
    · exact iff_of_false (hdisj b hb) (fun h => hdisj' b hb h.1)
    · simpa [hb] using hc
  · exact h.free_subset b (howned.subset (List.mem_append_right _ hb))
  · have hpart := h.partition
    have htakenfree : (taken.flatMap s.freeNodes).Perm (taken.flatMap L.nodesOf) :=
      List.Perm.flatMap_left _ (fun b hb => h.perm_of_isFull (hmemc b hb) (hfull b hb))
    have h₁ := (howned.flatMap_right s.freeNodes).append_right live
    have h₂ := howned.flatMap_right L.nodesOf
    rw [List.flatMap_append, List.append_assoc] at h₁
    rw [List.flatMap_append] at h₂
    have h₃ := (htakenfree.symm.append_right _).trans ((h₁.trans hpart).trans h₂.symm)
    exact (List.perm_append_left_iff _).mp h₃
  · exact le_min le_rfl (le_of_lt hgt)

/-! ## Giving back one node, and many -/

/-- **`priv_deallocate_node`** takes a lent node back. -/
theorem Accounted.privDeallocateNode {a : ℕ} (h : s.Accounted L (a :: live)) :
    (s.privDeallocateNode L.toPoolShape a).Sound L live := by
  obtain ⟨b, hb, ha⟩ := h.exists_owned List.mem_cons_self
  have hblock := h.privBlockFromNode_eq hb ha
  have h' : s.Accounted L ([a] ++ live) := h
  have hgive := h'.giveBack hb (List.cons_ne_nil _ _)
    (List.cons_subset.mpr ⟨ha, List.nil_subset _⟩)
  have hempty : decide ((s.freeNodes b).length = 0) = (s.freeNodes b).isEmpty := by
    cases s.freeNodes b <;> rfl
  unfold AdaptivePool.privDeallocateNode
  dsimp only
  rw [hblock, hempty]
  obtain ⟨hacc, hle⟩ := hgive.privDeallocateFreeBlocks L.maxFreeBlocks
  exact ⟨hacc, hle.trans (min_le_left _ _)⟩

/-- **The loop of `priv_deallocate_nodes` between two nodes**: the nodes it
holds are of one block, and are still lent like those that follow. -/
structure Batch.Sound (L : PoolLayout) (w : Batch) (rest live : List ℕ) : Prop where
  accounted : w.pool.Accounted L (w.nodes ++ (rest ++ live))
  of_block : ∀ b, w.prevBlock = some b → b ∈ w.pool.owned L.toPoolShape
    ∧ w.nodes ≠ [] ∧ w.nodes ⊆ L.nodesOf b
    ∧ w.prevBlockWasEmpty = (w.pool.freeNodes b).isEmpty
  nil_of_none : w.prevBlock = none → w.nodes = []

/-- What the loop holds comes back to its block. -/
theorem Batch.Sound.flush {w : Batch} {rest : List ℕ} (h : w.Sound L rest live) :
    (w.flush L.toPoolShape).Accounted L (rest ++ live) := by
  unfold Batch.flush
  cases hprev : w.prevBlock with
  | none =>
    have := h.accounted
    rwa [h.nil_of_none hprev] at this
  | some b =>
    obtain ⟨hb, hne, hsub, hwas⟩ := h.of_block b hprev
    dsimp only
    rw [hwas]
    exact h.accounted.giveBack hb hne hsub

/-- Handing blocks in and out of the container does not change what is owned. -/
theorem Batch.flush_owned (w : Batch) :
    (w.flush L.toPoolShape).owned L.toPoolShape = w.pool.owned L.toPoolShape := by
  unfold Batch.flush
  split <;> rfl

/-- **One round**: the node joins those of its block, or starts a new batch. -/
theorem Batch.Sound.round {w : Batch} {node : ℕ} {rest : List ℕ}
    (h : w.Sound L (node :: rest) live) :
    (w.round L.toPoolShape node).Sound L rest live := by
  obtain ⟨b, hb, hnode⟩ := h.accounted.exists_owned (x := node) (by simp)
  have hblock := h.accounted.privBlockFromNode_eq hb hnode
  unfold Batch.round
  dsimp only
  rw [hblock]
  by_cases hsame : w.prevBlock = some b
  · obtain ⟨_, hne, hsub, hwas⟩ := h.of_block b hsame
    rw [if_pos hsame]
    refine ⟨?_, fun c hc => ?_, fun hc => ?_⟩
    · have := h.accounted
      rw [List.cons_append] at this
      show w.pool.Accounted L ((w.nodes ++ [node]) ++ (rest ++ live))
      rwa [List.append_assoc]
    · obtain rfl : b = c := Option.some.inj (hsame.symm.trans hc)
      refine ⟨hb, by simp, fun x hx => ?_, hwas⟩
      rcases List.mem_append.mp hx with hx | hx
      · exact hsub hx
      · exact (List.mem_singleton.mp hx) ▸ hnode
    · rw [show w.prevBlock = none from hc] at hsame
      cases hsame
  · rw [if_neg hsame]
    refine ⟨?_, fun c hc => ?_, fun hc => (nomatch hc)⟩
    · exact h.flush
    · obtain rfl : b = c := Option.some.inj hc
      refine ⟨?_, List.cons_ne_nil _ _, List.cons_subset.mpr ⟨hnode, List.nil_subset _⟩, rfl⟩
      show b ∈ (w.flush L.toPoolShape).owned L.toPoolShape
      rwa [Batch.flush_owned]

theorem Batch.Sound.foldl {w : Batch} {nodes : List ℕ} (h : w.Sound L nodes live) :
    (nodes.foldl (Batch.round L.toPoolShape) w).Sound L [] live := by
  induction nodes generalizing w with
  | nil => exact h
  | cons node nodes ih => exact ih h.round

/-- After a node there is a block before. -/
theorem round_prevBlock_ne_none (w : Batch) (node : ℕ) :
    (w.round L.toPoolShape node).prevBlock ≠ none := by
  unfold Batch.round
  dsimp only
  split
  · rename_i h
    exact fun hnone => Option.some_ne_none _ (h.symm.trans hnone)
  · exact Option.some_ne_none _

theorem foldl_prevBlock_ne_none (nodes : List ℕ) (w : Batch) (h : w.prevBlock ≠ none) :
    (nodes.foldl (Batch.round L.toPoolShape) w).prevBlock ≠ none := by
  induction nodes generalizing w with
  | nil => exact h
  | cons node nodes ih => exact ih _ (round_prevBlock_ne_none w node)

/-- **`priv_deallocate_nodes`** takes a chain of lent nodes back, in whatever
order their blocks come; and where there are any, the wholly free blocks
are within their bound. -/
theorem Accounted.privDeallocateNodes {nodes : List ℕ} (h : s.Accounted L (nodes ++ live)) :
    (s.privDeallocateNodes L.toPoolShape nodes).Accounted L live
      ∧ (s.privDeallocateNodes L.toPoolShape nodes).totallyFreeBlocks
        ≤ max L.maxFreeBlocks s.totallyFreeBlocks := by
  have hstart : Batch.Sound L ⟨none, false, [], s⟩ nodes live :=
    ⟨h, fun _ hb => (nomatch hb), fun _ => rfl⟩
  have hend := hstart.foldl
  unfold AdaptivePool.privDeallocateNodes
  cases hprev : (nodes.foldl (Batch.round L.toPoolShape) ⟨none, false, [], s⟩).prevBlock with
  | some b =>
    simp only [hprev]
    obtain ⟨hacc, hle⟩ := hend.flush.privDeallocateFreeBlocks L.maxFreeBlocks
    exact ⟨hacc, (hle.trans (min_le_left _ _)).trans (le_max_left _ _)⟩
  | none =>
    simp only [hprev]
    cases nodes with
    | nil => exact ⟨h, le_max_right _ _⟩
    | cons node rest =>
      exact absurd hprev (foldl_prevBlock_ne_none rest _ (round_prevBlock_ne_none _ _))

end AdaptivePool
