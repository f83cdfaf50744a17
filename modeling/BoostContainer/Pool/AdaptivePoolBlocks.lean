import BoostContainer.Pool.AdaptivePoolLayout

/-!
# The container of blocks

The key a block is ordered by, the number of its free nodes, changes while
the block is on the container. `priv_reinsert_block` puts it back in its
place: a block that has gained nodes can only have to move towards the end,
and most often by one place. The comparison reads the memory of the blocks,
so the order before and the order after are two different orders; they agree
on all blocks but the one that changed.

The blocks that are wholly free are found at the end of the container, or
anywhere, depending on the variant; `priv_deallocate_free_blocks_impl` takes
out as many as it is told in either (`takeFreeBlocks_spec`).
-/

namespace PoolShape

variable {g : PoolShape}

/-- A block stays greater when it gains nodes. -/
theorem less_mono_right {ls rs rs' la ra : ℕ} (hg : g.ordered = true) (h : rs ≤ rs')
    (hl : g.less ls rs la ra = true) : g.less ls rs' la ra = true := by
  unfold ordered at hg
  unfold less at hl ⊢
  cases hs : g.sizeOrdered <;> cases ha : g.addressOrdered <;> simp_all <;> omega

/-- A block stays less when it loses nodes. -/
theorem less_mono_left {ls ls' rs la ra : ℕ} (hg : g.ordered = true) (h : ls' ≤ ls)
    (hl : g.less ls rs la ra = true) : g.less ls' rs la ra = true := by
  unfold ordered at hg
  unfold less at hl ⊢
  cases hs : g.sizeOrdered <;> cases ha : g.addressOrdered <;> simp_all <;> omega

end PoolShape

namespace AdaptivePool

variable {g : PoolShape}

/-! ## Filling a block -/

/-- **The nodes of a block go to the chain first**, as many as it still wants,
and the others to the free list of the block. -/
theorem foldl_fill (target : ℕ) (areas : List (ℕ × ℕ)) (chain free : List ℕ) :
    areas.foldl (fillChainRemainingToBlock g target) (chain, free)
      = (chain ++ (areas.flatMap (fun area =>
            Region.slots g.realNodeSize area.2 area.1)).take (target - chain.length),
          free ++ (areas.flatMap (fun area =>
            Region.slots g.realNodeSize area.2 area.1)).drop (target - chain.length)) := by
  induction areas generalizing chain free with
  | nil => simp
  | cons area areas ih =>
    have hstep : fillChainRemainingToBlock g target (chain, free) area
        = (chain ++ (Region.slots g.realNodeSize area.2 area.1).take (target - chain.length),
          free ++ (Region.slots g.realNodeSize area.2 area.1).drop
            (target - chain.length)) := by
      unfold fillChainRemainingToBlock
      rw [Region.take_slots, Region.drop_slots]
      simp only [show area.2 - min area.2 (target - chain.length)
        = area.2 - (target - chain.length) by omega]
    have hleft : target - (chain
          ++ (Region.slots g.realNodeSize area.2 area.1).take (target - chain.length)).length
        = target - chain.length - (Region.slots g.realNodeSize area.2 area.1).length := by
      rw [List.length_append, List.length_take]
      omega
    rw [List.foldl_cons, hstep, ih, hleft, List.flatMap_cons, List.take_append,
      List.drop_append, List.append_assoc, List.append_assoc]

/-! ## The order of the container -/

/-- **The comparison of blocks is a strict weak order**, with either flag. -/
theorem isStrictWeakOrder_less (hg : g.ordered = true) (s : AdaptivePool) :
    IsStrictWeakOrder ℕ (s.Less g) := by
  unfold PoolShape.ordered at hg
  unfold Less PoolShape.less
  refine @IsStrictWeakOrder.mk _ _ (@IsStrictOrder.mk _ _ ⟨fun a => ?_⟩
    ⟨fun a b c hab hbc => ?_⟩) (fun a b c hab hbc => ?_)
  all_goals
    cases hs : g.sizeOrdered <;> cases ha : g.addressOrdered <;> simp_all <;> omega

section Reinsert

variable {lt : ℕ → ℕ → Prop} [DecidableRel lt] {pre post : List ℕ} {v : ℕ}

/-- What `reinsert_was_used` does to a container in which a block has been
found. -/
theorem reinsertOrdered_append (hv : v ∉ pre) :
    reinsertOrdered lt (pre ++ v :: post) v = match post with
      | [] => pre ++ [v]
      | next :: rest =>
        if lt next v then
          if rest.head?.all (fun next2 => ¬ lt next2 v) then pre ++ next :: v :: rest
          else (pre ++ next :: rest).insertUpper lt v
        else pre ++ v :: next :: rest := by
  have hpos : ∀ x ∈ pre, decide (x ≠ v) = true := fun x hx => by
    rw [decide_eq_true_iff]
    rintro rfl
    exact hv hx
  have htake : (pre ++ v :: post).takeWhile (fun b => decide (b ≠ v)) = pre := by
    rw [List.takeWhile_append_of_pos hpos]
    simp
  have hdrop : (pre ++ v :: post).dropWhile (fun b => decide (b ≠ v)) = v :: post := by
    rw [List.dropWhile_append_of_pos hpos]
    simp
  have herase : (pre ++ v :: post).erase v = pre ++ post := by
    rw [List.erase_append_right _ hv, List.erase_cons_head]
  unfold reinsertOrdered
  rw [htake, hdrop, herase, List.tail_cons]
  cases post <;> rfl

theorem reinsertOrdered_perm {l : List ℕ} (hv : v ∈ l) :
    (reinsertOrdered lt l v).Perm l := by
  obtain ⟨pre, post, rfl, hpre⟩ := List.eq_append_cons_of_mem hv
  rw [reinsertOrdered_append hpre]
  cases post with
  | nil => exact List.Perm.refl _
  | cons next rest =>
    dsimp only
    split
    · split
      · exact (List.Perm.swap v next rest).append_left pre
      · exact (List.insertUpper_perm v _).trans List.perm_middle.symm
    · exact List.Perm.refl _

/-- **A block that has only grown is put back in its place**: the others are
in order, and it is not less than any before it. -/
theorem reinsertOrdered_sortedBy [IsStrictWeakOrder ℕ lt] (hpre : v ∉ pre)
    (hrest : (pre ++ post).SortedBy lt) (hbefore : ∀ x ∈ pre, ¬ lt v x) :
    (reinsertOrdered lt (pre ++ v :: post) v).SortedBy lt := by
  obtain ⟨hsorted, hpost, hcross⟩ := List.sortedBy_append.mp hrest
  rw [reinsertOrdered_append hpre]
  cases post with
  | nil =>
    refine List.sortedBy_append.mpr ⟨hsorted, List.pairwise_singleton _ _, ?_⟩
    intro x hx y hy
    rw [List.mem_singleton] at hy
    exact hy ▸ hbefore x hx
  | cons next rest =>
    obtain ⟨hnext, hrest'⟩ := List.sortedBy_cons.mp hpost
    dsimp only
    by_cases hlt : lt next v
    · rw [if_pos hlt]
      by_cases hstop : rest.head?.all (fun next2 => ¬ lt next2 v) = true
      · -- the successor alone is less: the two change places
        rw [if_pos hstop]
        have hafter : ∀ y ∈ rest, ¬ lt y v := by
          cases rest with
          | nil => exact List.forall_mem_nil _
          | cons next2 rest =>
            have h2 : ¬ lt next2 v := by simpa using hstop
            intro y hy
            rcases List.mem_cons.mp hy with rfl | hy
            · exact h2
            · exact List.not_lt_trans h2 ((List.sortedBy_cons.mp hrest').1 y hy)
        refine List.sortedBy_append.mpr ⟨hsorted, List.sortedBy_cons.mpr
          ⟨?_, List.sortedBy_cons.mpr ⟨hafter, hrest'⟩⟩, ?_⟩
        · intro y hy
          rcases List.mem_cons.mp hy with rfl | hy
          · exact asymm hlt
          · exact hnext y hy
        · intro x hx y hy
          rcases List.mem_cons.mp hy with rfl | hy
          · exact hcross x hx y List.mem_cons_self
          · rcases List.mem_cons.mp hy with rfl | hy
            · exact hbefore x hx
            · exact hcross x hx y (List.mem_cons_of_mem _ hy)
      · rw [if_neg hstop]
        exact hrest.insertUpper v
    · -- the successor is not less: the block stays
      rw [if_neg hlt]
      refine List.sortedBy_append.mpr ⟨hsorted, List.sortedBy_cons.mpr ⟨?_, hpost⟩, ?_⟩
      · intro y hy
        rcases List.mem_cons.mp hy with rfl | hy
        · exact hlt
        · exact List.not_lt_trans hlt (hnext y hy)
      · intro x hx y hy
        rcases List.mem_cons.mp hy with rfl | hy
        · exact hbefore x hx
        · exact hcross x hx y hy

end Reinsert

/-! ## Taking out free blocks -/

/-- Blocks taken off the end of a container. -/
theorem eraseLast_eq (n : ℕ) (container chain : List ℕ) (hn : n ≤ container.length) :
    eraseLast n container chain
      = (container.drop (container.length - n) ++ chain,
        container.take (container.length - n)) := by
  induction n generalizing container chain with
  | zero => simp [eraseLast]
  | succ n ih =>
    obtain ⟨front, last, rfl⟩ : ∃ front last, container = front ++ [last] := by
      refine ⟨container.dropLast, container.getLast (fun h => ?_),
        (List.dropLast_append_getLast _).symm⟩
      rw [h] at hn
      cases hn
    rw [List.length_append, List.length_singleton] at hn ⊢
    have hle : front.length + 1 - (n + 1) ≤ front.length := by omega
    rw [eraseLast, List.getLast?_concat]
    dsimp only
    rw [List.dropLast_concat, ih _ _ (by omega), List.drop_append_of_le_length hle,
      List.take_append_of_le_length hle, Nat.add_sub_add_right, List.append_assoc]
    rfl

/-- Blocks taken out of a container read backwards. -/
theorem eraseFull_spec (s : AdaptivePool) (n : ℕ) (before chain : List ℕ)
    (hn : n ≤ before.countP (s.isFull g)) :
    ∃ taken, (s.eraseFull g n before chain).1 = taken ++ chain ∧ taken.length = n
      ∧ (∀ b ∈ taken, s.isFull g b = true)
      ∧ (s.eraseFull g n before chain).2.Sublist before
      ∧ (taken ++ (s.eraseFull g n before chain).2).Perm before := by
  induction before generalizing n chain with
  | nil =>
    cases n with
    | zero => exact ⟨[], rfl, rfl, List.forall_mem_nil _, List.Sublist.refl _, List.Perm.refl _⟩
    | succ n => cases hn
  | cons block before ih =>
    cases n with
    | zero => exact ⟨[], rfl, rfl, List.forall_mem_nil _, List.Sublist.refl _, List.Perm.refl _⟩
    | succ n =>
      rw [eraseFull]
      by_cases hfull : s.isFull g block = true
      · rw [if_pos hfull]
        rw [List.countP_cons_of_pos hfull] at hn
        obtain ⟨taken, hchain, hlen, hall, hsub, hperm⟩ := ih n (block :: chain) (by omega)
        refine ⟨taken ++ [block], by rw [hchain, List.append_assoc]; rfl, by simp [hlen], ?_,
          hsub.cons block, ?_⟩
        · intro b hb
          rcases List.mem_append.mp hb with hb | hb
          · exact hall b hb
          · rw [List.mem_singleton.mp hb]
            exact hfull
        · rw [List.append_assoc]
          exact List.perm_middle.trans (hperm.cons block)
      · rw [if_neg hfull]
        rw [List.countP_cons_of_neg hfull] at hn
        obtain ⟨taken, hchain, hlen, hall, hsub, hperm⟩ := ih (n + 1) chain hn
        exact ⟨taken, hchain, hlen, hall, hsub.cons_cons block,
          List.perm_middle.trans (hperm.cons block)⟩

/-- Where no block after a wholly free one has a node lent, the wholly free
ones are the last. -/
theorem isFull_of_mem_drop (s : AdaptivePool) {container : List ℕ} {n : ℕ}
    (hord : container.Pairwise (fun b c => s.isFull g b = true → s.isFull g c = true))
    (hn : n ≤ container.countP (s.isFull g)) :
    ∀ b ∈ container.drop (container.length - n), s.isFull g b = true := by
  induction container with
  | nil => simp
  | cons block rest ih =>
    obtain ⟨hblock, hord'⟩ := List.pairwise_cons.mp hord
    by_cases hfull : s.isFull g block = true
    · intro b hb
      rcases List.mem_cons.mp (List.mem_of_mem_drop hb) with rfl | hb
      · exact hfull
      · exact hblock b hb hfull
    · rw [List.countP_cons_of_neg hfull] at hn
      have hle : n ≤ rest.length := hn.trans List.countP_le_length
      rw [List.length_cons, Nat.succ_sub hle, List.drop_succ_cons]
      exact ih hord' hn

/-- **What is taken out are wholly free blocks**, as many as asked for, and
the others stay in their order. -/
theorem takeFreeBlocks_spec (s : AdaptivePool) {n : ℕ}
    (hn : n ≤ s.blockContainer.countP (s.isFull g))
    (hord : g.sizeOrdered = true → s.blockContainer.Pairwise
      (fun b c => s.isFull g b = true → s.isFull g c = true)) :
    (s.takeFreeBlocks g n).1.length = n
      ∧ (∀ b ∈ (s.takeFreeBlocks g n).1, s.isFull g b = true)
      ∧ (s.takeFreeBlocks g n).2.Sublist s.blockContainer
      ∧ ((s.takeFreeBlocks g n).1 ++ (s.takeFreeBlocks g n).2).Perm s.blockContainer := by
  have hlen : n ≤ s.blockContainer.length := hn.trans List.countP_le_length
  unfold takeFreeBlocks
  cases hsize : g.sizeOrdered with
  | true =>
    rw [if_pos rfl, eraseLast_eq n _ _ hlen, List.append_nil]
    refine ⟨by rw [List.length_drop]; omega, s.isFull_of_mem_drop (hord hsize) hn,
      List.take_sublist _ _, ?_⟩
    refine List.perm_append_comm.trans ?_
    rw [List.take_append_drop]
  | false =>
    rw [if_neg (by simp)]
    obtain ⟨taken, hchain, htaken, hall, hsub, hperm⟩ :=
      s.eraseFull_spec (g := g) n s.blockContainer.reverse []
        (by rwa [List.countP_reverse])
    dsimp only
    rw [hchain, List.append_nil]
    refine ⟨htaken, hall, ?_, ?_⟩
    · have hleft := hsub.reverse
      rw [List.reverse_reverse s.blockContainer] at hleft
      exact hleft
    · refine ((List.reverse_perm _).append_left taken).trans ?_
      exact hperm.trans (List.reverse_perm _)

end AdaptivePool
