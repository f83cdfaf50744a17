import BoostContainer.Pmr.PoolResourceRuns

/-!
# The pool resource is correct over whole runs

Each primitive move of the resource keeps the invariant: creating the array
of pools, replenishing a pool with a fresh chunk, lending a free block or a
new oversized one, taking either back, and releasing everything. A call is a
composition of at most three of them, so the invariant holds over every run,
and what the resource promises is read off it.
-/

namespace PoolResource

variable {pf : Platform} {math : IntrusiveMath pf.bits} {opts : PoolOptions}

/-- A request is served by the pool of its size, or by none. -/
theorem poolFor_eq_some {s : PoolResource} {bytes k : ℕ} :
    s.poolFor pf math bytes = some k
      ↔ bytes ≤ s.options.largestRequiredPoolBlock ∧ privPoolIndex pf math bytes = k := by
  unfold poolFor
  split
  · rename_i hbig
    exact iff_of_false (by simp) (fun h => by omega)
  · rename_i hsmall
    rw [Option.some_inj, and_iff_right (Nat.not_lt.mp hsmall)]

/-- **The pool a request selects exists**, and its blocks are a
`std::size_t`. -/
theorem Session.Sound.pool_bounds {s : Session} {bytes k : ℕ}
    (h : s.Sound pf math opts) (hk : s.resource.poolFor pf math bytes = some k) :
    privPoolBlock pf k ≤ pf.sizeMax ∧ k < s.resource.numPools pf math := by
  obtain ⟨hle, rfl⟩ := poolFor_eq_some.mp hk
  have hmono : privPoolIndex pf math bytes
      ≤ privPoolIndex pf math s.resource.options.largestRequiredPoolBlock :=
    privPoolIndex_mono hle
  refine ⟨?_, Nat.lt_succ_of_le hmono⟩
  obtain ⟨L, hL, hML, hLb⟩ := @largestRequiredPoolBlock_spec pf math opts
  rw [h.options_eq, hL] at hmono
  have hidx : privPoolIndex pf math (2 ^ L) = L - minimumLog2 pf := by
    rw [privPoolIndex, minimumLargestRequiredPoolBlock_eq, ceilLog2_two_pow,
      max_eq_left (Nat.pow_le_pow_right (by decide) hML), ceilLog2_two_pow]
  rw [hidx] at hmono
  rw [privPoolBlock_eq]
  have hpow : 2 ^ (minimumLog2 pf + privPoolIndex pf math bytes) ≤ 2 ^ L :=
    Nat.pow_le_pow_right (by decide) (by omega)
  have hlt : 2 ^ L < 2 ^ pf.bits := Nat.pow_lt_pow_right (by decide) hLb
  exact hpow.trans (Word.le_max_of_lt hlt)

namespace Session

/-! ## The moves -/

/-- Creating the array of pools. -/
theorem Sound.initPools {s : Session} {q n : ℕ} (h : s.Sound pf math opts)
    (hnone : s.resource.poolData = none)
    (hapart : ∀ r ∈ s.ledger, r.Apart ⟨q, n⟩) :
    (⟨{ s.resource with
          poolData := some ⟨q, n⟩
          pools := List.replicate (s.resource.numPools pf math) PoolData.init },
        s.live, ⟨q, n⟩ :: s.ledger⟩ : Session).Sound pf math opts := by
  have hnil : s.resource.pools = [] := by
    rcases h.pools_shape with ⟨_, hnil⟩ | ⟨hsome, _⟩
    · exact hnil
    · exact absurd hnone hsome
  have hinit : ∀ (k : ℕ) (p : PoolData),
      (List.replicate (s.resource.numPools pf math) PoolData.init)[k]? = some p →
        p = PoolData.init := by
    intro k p hp
    exact List.eq_of_mem_replicate (List.mem_of_getElem? hp)
  have hchunks : List.gather (fun _ p => p.chunks)
      (List.replicate (s.resource.numPools pf math) PoolData.init) = [] :=
    List.gather_eq_nil (fun k p hp => by rw [hinit k p hp]; rfl)
  have hfree : List.gather (fun k p => p.freeSlist.map
      (fun a => (⟨a, privPoolBlock pf k⟩ : Region)))
      (List.replicate (s.resource.numPools pf math) PoolData.init) = [] :=
    List.gather_eq_nil (fun k p hp => by rw [hinit k p hp]; rfl)
  have hheld : s.resource.held = s.resource.oversizedList := by
    unfold held
    rw [hnone, hnil, List.gather_nil, List.append_nil]
    rfl
  have hfb : s.resource.freeBlocks pf = [] := by
    unfold freeBlocks
    rw [hnil, List.gather_nil]
  have hheld' : ({ s.resource with
      poolData := some ⟨q, n⟩
      pools := List.replicate (s.resource.numPools pf math) PoolData.init }
        : PoolResource).held = ⟨q, n⟩ :: s.resource.held := by
    rw [hheld]
    show [(⟨q, n⟩ : Region)] ++ s.resource.oversizedList ++ List.gather _ _ = _
    rw [hchunks, List.append_nil]
    rfl
  refine ⟨h.options_eq, Or.inr ⟨by simp, List.length_replicate⟩, ?_,
    h.oversized_header, ?_, ?_, ?_, ?_, ?_⟩
  · intro p hp
    obtain rfl := List.eq_of_mem_replicate hp
    exact ⟨le_rfl, h.options_eq ▸ one_le_maxBlocksPerChunk opts⟩
  · exact hheld' ▸ h.ledger_perm.cons _
  · rw [hheld', List.pairwise_cons]
    exact ⟨fun r hr => (hapart r (h.ledger_perm.mem_iff.mpr hr)).symm, h.held_apart⟩
  · intro k p hp a ha
    rw [hinit k p hp] at ha
    cases ha
  · intro l hl
    obtain ⟨hmod, hpow, hlod⟩ := h.live_lodged l hl
    refine ⟨hmod, hpow, ?_⟩
    cases hpool : s.resource.poolFor pf math l.bytes with
    | none => exact Iff.mpr (lodged_none hpool) ((lodged_none hpool).mp hlod)
    | some k =>
      obtain ⟨p, hp, _⟩ := (lodged_some hpool).mp hlod
      rw [hnil] at hp
      cases hp
  · show (List.gather _ _ ++ s.live.map (s.resource.lent pf math)).Pairwise Region.Apart
    rw [hfree, List.nil_append]
    have hold := h.blocks_apart
    rwa [hfb, List.nil_append] at hold

/-- Replacing a pool leaves the array as long as it was. -/
theorem Sound.pools_shape_set {s : Session} {k : ℕ} {p : PoolData}
    (h : s.Sound pf math opts) (hp : s.resource.pools[k]? = some p) (p' : PoolData) :
    (s.resource.poolData = none ∧ s.resource.pools.set k p' = [])
      ∨ (s.resource.poolData ≠ none
        ∧ (s.resource.pools.set k p').length = s.resource.numPools pf math) := by
  rcases h.pools_shape with ⟨_, hnil⟩ | ⟨hsome, hlen⟩
  · rw [hnil] at hp
    cases hp
  · refine Or.inr ⟨hsome, ?_⟩
    rw [List.length_set]
    exact hlen

/-- Replacing a pool by one within bounds keeps the bounds. -/
theorem Sound.next_bounds_set {s : Session} {k : ℕ} {p' : PoolData}
    (h : s.Sound pf math opts)
    (hnext : 1 ≤ p'.nextBlocksPerChunk
      ∧ p'.nextBlocksPerChunk ≤ s.resource.options.maxBlocksPerChunk) :
    ∀ p ∈ s.resource.pools.set k p', 1 ≤ p.nextBlocksPerChunk
      ∧ p.nextBlocksPerChunk ≤ s.resource.options.maxBlocksPerChunk := by
  intro t ht
  rcases List.mem_or_eq_of_mem_set ht with ht | rfl
  · exact h.next_bounds t ht
  · exact hnext

/-- Every block, free or lent, lies in a region the resource holds. -/
theorem Sound.block_within {s : Session} (h : s.Sound pf math opts) {r : Region}
    (hr : r ∈ s.resource.freeBlocks pf ++ s.live.map (s.resource.lent pf math)) :
    ∃ t ∈ s.resource.held, r.Within t := by
  rcases List.mem_append.mp hr with hr | hr
  · obtain ⟨j, t, ht, a, ha, rfl⟩ := mem_freeBlocks.mp hr
    obtain ⟨_, c, hc, hw⟩ := h.free_lodged j t ht a ha
    exact ⟨c, mem_held.mpr (Or.inr (Or.inr ⟨j, t, ht, hc⟩)), hw⟩
  · obtain ⟨l, hl, rfl⟩ := List.mem_map.mp hr
    exact (h.live_lodged l hl).2.2.lent_within

/-- Replenishing a pool. -/
theorem Sound.replenish {s : Session} {k q n : ℕ} {p p' : PoolData}
    (h : s.Sound pf math opts) (hp : s.resource.pools[k]? = some p)
    (hal : q % pf.maxAlign = 0)
    (hapart : ∀ r ∈ s.ledger,
      r.Apart ⟨q, n * privPoolBlock pf k + PoolData.headerSize pf⟩)
    (hchunks : p'.chunks
      = ⟨q, n * privPoolBlock pf k + PoolData.headerSize pf⟩ :: p.chunks)
    (hfree : p'.freeSlist = PoolData.pushBlocks (privPoolBlock pf k) n
      (q + PoolData.headerSize pf) p.freeSlist)
    (hnext : 1 ≤ p'.nextBlocksPerChunk
      ∧ p'.nextBlocksPerChunk ≤ s.resource.options.maxBlocksPerChunk) :
    (⟨{ s.resource with pools := s.resource.pools.set k p' }, s.live,
      ⟨q, n * privPoolBlock pf k + PoolData.headerSize pf⟩ :: s.ledger⟩
        : Session).Sound pf math opts := by
  have hchunk : ∀ a ∈ Region.slots (privPoolBlock pf k) n (q + PoolData.headerSize pf),
      a % pf.maxAlign = 0 ∧ (⟨a, privPoolBlock pf k⟩ : Region).Within
        ⟨q, n * privPoolBlock pf k + PoolData.headerSize pf⟩ := by
    intro a ha
    have hw := Region.slots_within ha
    refine ⟨Region.slots_mod (Nat.dvd_add (Nat.dvd_of_mod_eq_zero hal)
      (Nat.dvd_of_mod_eq_zero (Platform.headerSize_mod pf.blockSlistHeader_fits)))
      (maxAlign_dvd_privPoolBlock k) ha, ?_⟩
    obtain ⟨hb, hs⟩ := hw
    simp only [Region.stop_mk] at hb hs
    refine ⟨?_, ?_⟩ <;> simp only [Region.stop_mk] <;> omega
  obtain ⟨restHeld, hheld, hheld'⟩ := exists_held_perm hp
  obtain ⟨restFree, hfb, hfb'⟩ := @exists_freeBlocks_perm pf _ _ _ hp
  have hheldCons : ({ s.resource with pools := s.resource.pools.set k p' }
      : PoolResource).held.Perm
        (⟨q, n * privPoolBlock pf k + PoolData.headerSize pf⟩ :: s.resource.held) := by
    refine (hheld' p').trans ?_
    rw [hchunks, List.cons_append]
    exact hheld.symm.cons _
  refine ⟨h.options_eq, h.pools_shape_set hp _, h.next_bounds_set hnext,
    h.oversized_header, ?_, ?_, ?_, ?_, ?_⟩
  · exact (h.ledger_perm.cons _).trans hheldCons.symm
  · refine apart_perm hheldCons.symm (List.pairwise_cons.mpr ⟨fun r hr => ?_, h.held_apart⟩)
    exact (hapart r (h.ledger_perm.mem_iff.mpr hr)).symm
  · intro j t ht a ha
    rcases getElem?_set_cases ht with ⟨rfl, rfl⟩ | ⟨_, ht⟩
    · rw [hfree] at ha
      rw [hchunks]
      rcases List.mem_append.mp
        ((PoolData.pushBlocks_perm _ _ _ _).mem_iff.mp ha) with ha | ha
      · exact ⟨(hchunk a ha).1, _, List.mem_cons_self, (hchunk a ha).2⟩
      · obtain ⟨hmod, c, hc, hw⟩ := h.free_lodged _ _ hp a ha
        exact ⟨hmod, c, List.mem_cons_of_mem _ hc, hw⟩
    · exact h.free_lodged j t ht a ha
  · intro l hl
    obtain ⟨hmod, hpow, hlod⟩ := h.live_lodged l hl
    refine ⟨hmod, hpow, hlod.set_pools hp ?_⟩
    rw [hchunks]
    exact List.subset_cons_self _ _
  · -- the new blocks lie in a chunk apart from everything held before
    have hsplit : (({ s.resource with pools := s.resource.pools.set k p' }
        : PoolResource).freeBlocks pf ++ s.live.map (s.resource.lent pf math)).Perm
          ((Region.slots (privPoolBlock pf k) n (q + PoolData.headerSize pf)).map
              (fun a => ⟨a, privPoolBlock pf k⟩)
            ++ (s.resource.freeBlocks pf ++ s.live.map (s.resource.lent pf math))) := by
      rw [← List.append_assoc]
      refine List.Perm.append_right _ ((hfb' p').trans ?_)
      rw [hfree]
      refine ((PoolData.pushBlocks_perm _ _ _ _).map _).append_right restFree |>.trans ?_
      rw [List.map_append, List.append_assoc]
      exact hfb.symm.append_left _
    refine apart_perm hsplit.symm (List.pairwise_append.mpr
      ⟨Region.slots_apart _ _ _, h.blocks_apart, fun r hr t ht => ?_⟩)
    obtain ⟨a, ha, rfl⟩ := List.mem_map.mp hr
    obtain ⟨u, hu, hw⟩ := h.block_within ht
    have hau := hapart u (h.ledger_perm.mem_iff.mpr hu)
    exact (hchunk a ha).2.apart (hw.apart hau).symm

/-- Lending a free block of a pool. -/
theorem Sound.lend {s : Session} {k a bytes alignment : ℕ} {rest : List ℕ}
    {p : PoolData} (h : s.Sound pf math opts) (hp : s.resource.pools[k]? = some p)
    (hfree : p.freeSlist = a :: rest)
    (hk : s.resource.poolFor pf math bytes = some k) (hpow : ∃ j, alignment = 2 ^ j) :
    (⟨{ s.resource with
          pools := s.resource.pools.set k { p with freeSlist := rest } },
        ⟨a, bytes, alignment⟩ :: s.live, s.ledger⟩ : Session).Sound pf math opts := by
  set p' : PoolData := { p with freeSlist := rest } with hp'
  obtain ⟨restHeld, hheld, hheld'⟩ := exists_held_perm hp
  obtain ⟨restFree, hfb, hfb'⟩ := @exists_freeBlocks_perm pf _ _ _ hp
  have hheldPerm : ({ s.resource with pools := s.resource.pools.set k p' }
      : PoolResource).held.Perm s.resource.held := (hheld' p').trans hheld.symm
  obtain ⟨hamod, c, hc, haw⟩ := h.free_lodged k p hp a (by rw [hfree]; exact List.mem_cons_self)
  refine ⟨h.options_eq, h.pools_shape_set hp _,
    h.next_bounds_set (h.next_bounds p (List.mem_of_getElem? hp)), h.oversized_header,
    h.ledger_perm.trans hheldPerm.symm, apart_perm hheldPerm.symm h.held_apart,
    ?_, ?_, ?_⟩
  · intro j t ht b hb
    rcases getElem?_set_cases ht with ⟨rfl, rfl⟩ | ⟨_, ht⟩
    · exact h.free_lodged _ p hp b (by rw [hfree]; exact List.mem_cons_of_mem _ hb)
    · exact h.free_lodged j t ht b hb
  · intro l hl
    rcases List.mem_cons.mp hl with rfl | hl
    · refine ⟨hamod, hpow, ?_⟩
      exact Iff.mpr (lodged_some (l := ⟨a, bytes, alignment⟩) hk)
        ⟨p', by rw [getElem?_set_of_some hp hp, if_pos rfl], c, hc, haw⟩
    · obtain ⟨hmod, hpow', hlod⟩ := h.live_lodged l hl
      exact ⟨hmod, hpow', hlod.set_pools hp (List.Subset.refl _)⟩
  · -- the block moves from the free blocks to the loans
    have hlent : s.resource.lent pf math ⟨a, bytes, alignment⟩
        = ⟨a, privPoolBlock pf k⟩ := by
      unfold lent
      simp only [hk]
    have hmove : (({ s.resource with pools := s.resource.pools.set k p' }
        : PoolResource).freeBlocks pf
          ++ (⟨a, bytes, alignment⟩ :: s.live).map (s.resource.lent pf math)).Perm
        (s.resource.freeBlocks pf ++ s.live.map (s.resource.lent pf math)) := by
      rw [List.map_cons, hlent]
      refine List.perm_middle.trans ?_
      rw [← List.cons_append]
      refine List.Perm.append_right _ ?_
      refine ((hfb' p').cons _).trans (List.Perm.trans ?_ hfb.symm)
      rw [hfree, List.map_cons, List.cons_append]
    exact apart_perm hmove.symm h.blocks_apart

/-- Taking back a loan of a pool. -/
theorem Sound.takeBack {s : Session} {k : ℕ} {l : Loan} {p : PoolData}
    (h : s.Sound pf math opts) (hl : l ∈ s.live)
    (hk : s.resource.poolFor pf math l.bytes = some k)
    (hp : s.resource.pools[k]? = some p) :
    (⟨{ s.resource with
          pools := s.resource.pools.set k (p.deallocateBlock l.addr) },
        s.live.erase l, s.ledger⟩ : Session).Sound pf math opts := by
  obtain ⟨restHeld, hheld, hheld'⟩ := exists_held_perm hp
  obtain ⟨restFree, hfb, hfb'⟩ := @exists_freeBlocks_perm pf _ _ _ hp
  have hheldPerm : ({ s.resource with
      pools := s.resource.pools.set k (p.deallocateBlock l.addr) }
        : PoolResource).held.Perm s.resource.held :=
    (hheld' (p.deallocateBlock l.addr)).trans hheld.symm
  refine ⟨h.options_eq, h.pools_shape_set hp _,
    h.next_bounds_set (h.next_bounds p (List.mem_of_getElem? hp)), h.oversized_header,
    h.ledger_perm.trans hheldPerm.symm, apart_perm hheldPerm.symm h.held_apart,
    ?_, ?_, ?_⟩
  · intro j t ht b hb
    rcases getElem?_set_cases ht with ⟨rfl, rfl⟩ | ⟨_, ht⟩
    · rcases List.mem_cons.mp hb with rfl | hb
      · obtain ⟨hmod, _, hlod⟩ := h.live_lodged l hl
        unfold Lodged at hlod
        simp only [hk] at hlod
        obtain ⟨p₀, hp₀, c, hc, hw⟩ := hlod
        obtain rfl : p₀ = p := Option.some.inj (hp₀.symm.trans hp)
        exact ⟨hmod, c, hc, hw⟩
      · exact h.free_lodged _ p hp b hb
    · exact h.free_lodged j t ht b hb
  · intro m hm
    obtain ⟨hmod, hpow, hlod⟩ := h.live_lodged m (List.mem_of_mem_erase hm)
    exact ⟨hmod, hpow, hlod.set_pools hp (List.Subset.refl _)⟩
  · -- the block moves from the loans to the free blocks
    have hlent : s.resource.lent pf math l = ⟨l.addr, privPoolBlock pf k⟩ := by
      unfold lent
      simp only [hk]
    have hmove : (({ s.resource with
        pools := s.resource.pools.set k (p.deallocateBlock l.addr) }
          : PoolResource).freeBlocks pf
          ++ (s.live.erase l).map (s.resource.lent pf math)).Perm
        (s.resource.freeBlocks pf ++ s.live.map (s.resource.lent pf math)) := by
      have hlive : (s.live.map (s.resource.lent pf math)).Perm
          (⟨l.addr, privPoolBlock pf k⟩
            :: (s.live.erase l).map (s.resource.lent pf math)) := by
        have := (List.perm_cons_erase hl).map (s.resource.lent pf math)
        rwa [List.map_cons, hlent] at this
      refine List.Perm.trans ?_ (hlive.append_left _).symm
      refine List.Perm.trans ?_ List.perm_middle.symm
      rw [← List.cons_append]
      refine List.Perm.append_right _ ?_
      refine (hfb' _).trans ?_
      rw [PoolData.deallocateBlock, List.map_cons, List.cons_append]
      exact hfb.symm.cons _
    exact apart_perm hmove.symm h.blocks_apart

/-- Lending a new oversized block. -/
theorem Sound.lendOversized {s : Session} {q bytes alignment : ℕ}
    (h : s.Sound pf math opts) (hnone : s.resource.poolFor pf math bytes = none)
    (hpow : ∃ j, alignment = 2 ^ j) (hal : q % pf.maxAlign = 0)
    (hapart : ∀ r ∈ s.ledger, r.Apart ⟨q, bytes + headerSize pf⟩) :
    (⟨{ s.resource with
          oversizedList := ⟨q, bytes + headerSize pf⟩ :: s.resource.oversizedList },
        ⟨q + headerSize pf, bytes, alignment⟩ :: s.live,
        ⟨q, bytes + headerSize pf⟩ :: s.ledger⟩ : Session).Sound pf math opts := by
  set block : Region := ⟨q, bytes + headerSize pf⟩ with hblock
  have hheld : ({ s.resource with oversizedList := block :: s.resource.oversizedList }
      : PoolResource).held.Perm (block :: s.resource.held) := by
    unfold held
    simp only
    rw [List.append_assoc, List.append_assoc]
    exact List.perm_middle
  refine ⟨h.options_eq, h.pools_shape, h.next_bounds, ?_,
    (h.ledger_perm.cons _).trans hheld.symm, ?_, h.free_lodged, ?_, ?_⟩
  · intro r hr
    rcases List.mem_cons.mp hr with rfl | hr
    · exact Nat.le_add_left _ _
    · exact h.oversized_header r hr
  · refine apart_perm hheld.symm (List.pairwise_cons.mpr ⟨fun r hr => ?_, h.held_apart⟩)
    exact (hapart r (h.ledger_perm.mem_iff.mpr hr)).symm
  · intro l hl
    rcases List.mem_cons.mp hl with rfl | hl
    · refine ⟨?_, hpow, ?_⟩
      · exact Nat.mod_eq_zero_of_dvd (Nat.dvd_add (Nat.dvd_of_mod_eq_zero hal)
          (Nat.dvd_of_mod_eq_zero (Platform.headerSize_mod pf.blockListHeader_fits)))
      · refine Iff.mpr (lodged_none (l := ⟨q + headerSize pf, bytes, alignment⟩) hnone)
          ⟨Nat.le_add_left _ _, ?_⟩
        rw [Nat.add_sub_cancel]
        exact List.mem_cons_self
    · obtain ⟨hmod, hpow', hlod⟩ := h.live_lodged l hl
      refine ⟨hmod, hpow', ?_⟩
      cases hpool : s.resource.poolFor pf math l.bytes with
      | none =>
        obtain ⟨hle, hmem⟩ := (lodged_none hpool).mp hlod
        exact Iff.mpr (lodged_none hpool) ⟨hle, List.mem_cons_of_mem _ hmem⟩
      | some k => exact Iff.mpr (lodged_some hpool) ((lodged_some hpool).mp hlod)
  · have hlent : s.resource.lent pf math ⟨q + headerSize pf, bytes, alignment⟩ = block := by
      unfold lent
      simp only [hnone]
      rw [Nat.add_sub_cancel]
    show (s.resource.freeBlocks pf
      ++ ((⟨q + headerSize pf, bytes, alignment⟩ : Loan) :: s.live).map
        (s.resource.lent pf math)).Pairwise Region.Apart
    rw [List.map_cons, hlent]
    refine apart_perm List.perm_middle.symm
      (List.pairwise_cons.mpr ⟨fun r hr => ?_, h.blocks_apart⟩)
    obtain ⟨t, ht, hw⟩ := h.block_within hr
    exact (hw.apart (hapart t (h.ledger_perm.mem_iff.mpr ht))).symm

/-- **The header before an oversized loan is the one it was given**: the
search by address finds its block and no other. -/
theorem Sound.find_oversized {s : Session} {l : Loan} (h : s.Sound pf math opts)
    (hl : l ∈ s.live) (hnone : s.resource.poolFor pf math l.bytes = none) :
    s.resource.oversizedList.find?
        (fun r => r.base + headerSize pf = l.addr)
      = some (s.resource.lent pf math l) := by
  have hpos : 0 < headerSize pf :=
    pf.blockListHeader_pos.trans_le (Platform.le_headerSize pf.blockListHeader_fits)
  obtain ⟨_, _, hlod⟩ := h.live_lodged l hl
  unfold Lodged at hlod
  simp only [hnone] at hlod
  obtain ⟨hle, hmem⟩ := hlod
  have hlent : s.resource.lent pf math l
      = ⟨l.addr - headerSize pf, l.bytes + headerSize pf⟩ := by
    unfold lent
    simp only [hnone]
  rw [hlent]
  have hover : s.resource.oversizedList.Pairwise Region.Apart :=
    (List.pairwise_append.mp (List.pairwise_append.mp h.held_apart).1).2.1
  have hsize := h.oversized_header
  generalize s.resource.oversizedList = blocks at hmem hover hsize
  induction blocks with
  | nil => cases hmem
  | cons r blocks ih =>
    rw [List.find?_cons]
    rw [List.pairwise_cons] at hover
    rcases List.mem_cons.mp hmem with heq | hmem'
    · subst heq
      simp [Nat.sub_add_cancel hle]
    · have hne : ¬ r.base + headerSize pf = l.addr := by
        intro heq
        have hr := hsize r List.mem_cons_self
        have hap := Region.apart_iff.mp (hover.1 _ hmem')
        simp only [Region.stop] at hap
        omega
      rw [decide_eq_false hne]
      exact ih hmem' hover.2 (fun t ht => hsize t (List.mem_cons_of_mem _ ht))

/-- Taking back an oversized loan. -/
theorem Sound.takeBackOversized {s : Session} {l : Loan} (h : s.Sound pf math opts)
    (hl : l ∈ s.live) (hnone : s.resource.poolFor pf math l.bytes = none) :
    s.resource.lent pf math l ∈ s.ledger
      ∧ (⟨{ s.resource with
            oversizedList := s.resource.oversizedList.erase (s.resource.lent pf math l) },
          s.live.erase l, s.ledger.erase (s.resource.lent pf math l)⟩
            : Session).Sound pf math opts := by
  have hpos : 0 < headerSize pf :=
    pf.blockListHeader_pos.trans_le (Platform.le_headerSize pf.blockListHeader_fits)
  have hlent : s.resource.lent pf math l
      = ⟨l.addr - headerSize pf, l.bytes + headerSize pf⟩ := by
    unfold lent
    simp only [hnone]
  have hmem : s.resource.lent pf math l ∈ s.resource.oversizedList := by
    have hlod := (h.live_lodged l hl).2.2
    unfold Lodged at hlod
    simp only [hnone] at hlod
    rw [hlent]
    exact hlod.2
  set block := s.resource.lent pf math l with hblock
  have hheld : s.resource.held.Perm (block :: ({ s.resource with
      oversizedList := s.resource.oversizedList.erase block } : PoolResource).held) := by
    unfold held
    simp only
    rw [List.append_assoc, List.append_assoc]
    refine List.Perm.trans ?_ List.perm_middle
    rw [← List.cons_append]
    exact ((List.perm_cons_erase hmem).append_right _).append_left _
  have hledger : block ∈ s.ledger :=
    h.ledger_perm.mem_iff.mpr (hheld.mem_iff.mpr List.mem_cons_self)
  have hmoved : (s.resource.freeBlocks pf
      ++ s.live.map (s.resource.lent pf math)).Perm
        (block :: (s.resource.freeBlocks pf
          ++ (s.live.erase l).map (s.resource.lent pf math))) := by
    refine List.Perm.trans ?_ List.perm_middle
    have := (List.perm_cons_erase hl).map (s.resource.lent pf math)
    rw [List.map_cons] at this
    exact this.append_left _
  have hrest := List.pairwise_cons.mp (apart_perm hmoved h.blocks_apart)
  refine ⟨hledger, h.options_eq, h.pools_shape, h.next_bounds, ?_, ?_, ?_,
    h.free_lodged, ?_, hrest.2⟩
  · exact fun r hr => h.oversized_header r (List.mem_of_mem_erase hr)
  · have := (List.perm_cons_erase hledger).symm.trans (h.ledger_perm.trans hheld)
    exact this.cons_inv
  · exact (List.pairwise_cons.mp (apart_perm hheld h.held_apart)).2
  · intro m hm
    obtain ⟨hmod, hpow, hlod⟩ := h.live_lodged m (List.mem_of_mem_erase hm)
    refine ⟨hmod, hpow, ?_⟩
    cases hpool : s.resource.poolFor pf math m.bytes with
    | some k => exact Iff.mpr (lodged_some hpool) ((lodged_some hpool).mp hlod)
    | none =>
      obtain ⟨hle, hmem⟩ := (lodged_none hpool).mp hlod
      refine Iff.mpr (lodged_none hpool) ⟨hle, (List.mem_erase_of_ne ?_).mpr hmem⟩
      -- another oversized loan is another block, since the two are apart
      intro heq
      have hlentm : s.resource.lent pf math m = block := by
        unfold lent
        simp only [hpool]
        exact heq
      have hap := hrest.1 (s.resource.lent pf math m)
        (List.mem_append_right _ (List.mem_map_of_mem hm))
      rw [hlentm, Region.apart_iff, hlent] at hap
      simp only [Region.stop_mk] at hap
      omega

/-- Releasing everything. -/
theorem Sound.release {s : Session} (h : s.Sound pf math opts) :
    (s.resource.release.1 ++ s.resource.poolData.toList).Perm s.ledger
      ∧ (⟨s.resource.release.2, [], s.ledger.diff s.resource.release.1⟩
          : Session).Sound pf math opts := by
  have hchunks : (s.resource.pools.map (fun p => p.release.1)).flatten
      = List.gather (fun _ p => p.chunks) s.resource.pools :=
    (List.gather_const _ _).symm
  have hreturned : (s.resource.release.1 ++ s.resource.poolData.toList).Perm
      s.ledger := by
    refine List.Perm.trans ?_ h.ledger_perm.symm
    unfold PoolResource.release held
    simp only
    rw [hchunks, List.append_assoc s.resource.poolData.toList]
    exact List.perm_append_comm
  have hnew : ∀ (k : ℕ) (p : PoolData), (s.resource.pools.map (fun p => p.release.2))[k]? = some p →
      p = PoolData.init := by
    intro k p hp
    obtain ⟨t, _, rfl⟩ := List.mem_map.mp (List.mem_of_getElem? hp)
    rfl
  have hheld : s.resource.release.2.held = s.resource.poolData.toList := by
    show s.resource.poolData.toList ++ [] ++ List.gather _ _ = _
    rw [List.gather_eq_nil (fun k p hp => by rw [hnew k p hp]; rfl),
      List.append_nil, List.append_nil]
  have hfree : s.resource.release.2.freeBlocks pf = [] :=
    List.gather_eq_nil (fun k p hp => by rw [hnew k p hp]; rfl)
  refine ⟨hreturned, h.options_eq, ?_, ?_, List.forall_mem_nil _, ?_, ?_, ?_,
    List.forall_mem_nil _, ?_⟩
  · rcases h.pools_shape with ⟨hnone, hnil⟩ | ⟨hsome, hlen⟩
    · exact Or.inl ⟨hnone, by simp [PoolResource.release, hnil]⟩
    · refine Or.inr ⟨hsome, ?_⟩
      show (s.resource.pools.map _).length = s.resource.numPools pf math
      rw [List.length_map]
      exact hlen
  · intro p hp
    obtain ⟨t, _, rfl⟩ := List.mem_map.mp hp
    refine ⟨le_rfl, ?_⟩
    show 1 ≤ s.resource.options.maxBlocksPerChunk
    exact h.options_eq ▸ one_le_maxBlocksPerChunk opts
  · rw [hheld, ← Multiset.coe_eq_coe, ← Multiset.coe_sub,
      ← Multiset.coe_eq_coe.mpr hreturned, ← Multiset.coe_add, add_tsub_cancel_left]
  · rw [hheld]
    exact h.held_apart.sublist (by
      unfold held
      rw [List.append_assoc]
      exact List.sublist_append_left _ _)
  · intro k p hp a ha
    rw [hnew k p hp] at ha
    cases ha
  · rw [hfree]
    exact List.Pairwise.nil

/-! ## One call -/

/-- **Creating the pools**, where it returns: the array exists, and apart
from it nothing changed that a caller could see. -/
theorem Sound.ensurePools {s : Session} {mrPools : Upstream} {obtained : List Region}
    {r : PoolResource} (h : s.Sound pf math opts) (hmr : mrPools.Fresh pf s.ledger)
    (hens : s.resource.ensurePools pf math mrPools = some (obtained, r)) :
    (⟨r, s.live, obtained ++ s.ledger⟩ : Session).Sound pf math opts
      ∧ r.poolData ≠ none ∧ r.oversizedList = s.resource.oversizedList
      ∧ (r.pools = s.resource.pools
        ∨ (s.resource.pools = [] ∧ ∀ p ∈ r.pools, p = PoolData.init)) := by
  unfold PoolResource.ensurePools at hens
  split at hens
  · rename_i hnone
    unfold privInitPools at hens
    simp only at hens
    split at hens
    · cases hens
    · rename_i q hq
      obtain ⟨rfl, rfl⟩ := Prod.mk.inj (Option.some.inj hens)
      refine ⟨h.initPools hnone (hmr _ _ hq).2.2, by simp, rfl, Or.inr ⟨?_, ?_⟩⟩
      · rcases h.pools_shape with ⟨_, hnil⟩ | ⟨hsome, _⟩
        · exact hnil
        · exact absurd hnone hsome
      · exact fun p hp => List.eq_of_mem_replicate hp
  · rename_i data hsome
    obtain ⟨rfl, rfl⟩ := Prod.mk.inj (Option.some.inj hens)
    exact ⟨h, by rw [hsome]; simp, rfl, Or.inl rfl⟩

/-- **Serving a request** once the pools exist: either upstream throws and
nothing changed, or a pointer is returned that is not null. -/
theorem Sound.serve {s : Session} {bytes : ℕ} (alignment : ℕ) {mr : Upstream}
    {outcome : AllocateOutcome} {obtained : List Region} {r : PoolResource}
    (h : s.Sound pf math opts) (hdata : s.resource.poolData ≠ none)
    (hpow : ∃ j, alignment = 2 ^ j) (hmr : mr.Fresh pf s.ledger)
    (hserve : s.resource.serve pf math bytes mr = (outcome, obtained, r)) :
    (outcome = .threw ∧ obtained = [] ∧ r = s.resource)
      ∨ ∃ p, outcome = .returned (some p)
        ∧ (⟨r, ⟨p, bytes, alignment⟩ :: s.live, obtained ++ s.ledger⟩
            : Session).Sound pf math opts := by
  unfold PoolResource.serve at hserve
  by_cases hbig : bytes > s.resource.options.largestRequiredPoolBlock
  · rw [if_pos hbig] at hserve
    have hnone : s.resource.poolFor pf math bytes = none := if_pos hbig
    split at hserve
    · obtain ⟨rfl, rfl, rfl⟩ : _ ∧ _ ∧ _ := by simpa using hserve
      exact Or.inl ⟨rfl, rfl, rfl⟩
    · rename_i a blocks halloc
      obtain ⟨q, _, rfl, rfl, _, hal, _, hapart⟩ := BlockList.allocate_eq_some
        (Platform.headerSize_le_sizeMax pf.blockListHeader_fits) hmr halloc
      obtain ⟨rfl, rfl, rfl⟩ : _ ∧ _ ∧ _ := by simpa using hserve
      exact Or.inr ⟨_, rfl, h.lendOversized hnone hpow hal hapart⟩
  · rw [if_neg hbig] at hserve
    have hk : s.resource.poolFor pf math bytes = some (privPoolIndex pf math bytes) :=
      if_neg hbig
    simp only at hserve
    set k := privPoolIndex pf math bytes with hkdef
    have hlt : k < s.resource.pools.length := by
      rcases h.pools_shape with ⟨hnone, _⟩ | ⟨_, hlen⟩
      · exact absurd hnone hdata
      · rw [hlen]
        exact (h.pool_bounds hk).2
    obtain ⟨p, hp⟩ : ∃ p, s.resource.pools[k]? = some p :=
      ⟨_, List.getElem?_eq_getElem hlt⟩
    simp only [hp] at hserve
    cases hfree : p.freeSlist with
    | cons a rest =>
      simp only [PoolData.allocateBlock, hfree] at hserve
      obtain ⟨rfl, rfl, rfl⟩ : _ ∧ _ ∧ _ := by simpa using hserve
      exact Or.inr ⟨a, rfl, h.lend hp hfree hk hpow⟩
    | nil =>
      have hnull : p.allocateBlock = (none, p) := by
        simp only [PoolData.allocateBlock, hfree]
      simp only [hnull] at hserve
      split at hserve
      · obtain ⟨rfl, rfl, rfl⟩ : _ ∧ _ ∧ _ := by simpa using hserve
        exact Or.inl ⟨rfl, rfl, rfl⟩
      · rename_i obtained' p' hrep
        have hbound := h.next_bounds p (List.mem_of_getElem? hp)
        obtain ⟨q, n, hn, rfl, hchunks, hfree', hnext, hal, hapart⟩ :=
          PoolData.replenish_eq_some (privPoolBlock_pos k) (h.pool_bounds hk).1 hmr
            hbound.1 (hbound.1.trans hbound.2) hrep
        have hrepl := h.replenish hp hal hapart hchunks hfree' hnext
        -- at least one block was cut, so one can be lent
        obtain ⟨a, rest, hcons⟩ : ∃ a rest, p'.freeSlist = a :: rest := by
          have hlen := (PoolData.pushBlocks_perm (privPoolBlock pf k) n
            (q + PoolData.headerSize pf) p.freeSlist).length_eq
          rw [← hfree'] at hlen
          cases hcases : p'.freeSlist with
          | cons a rest => exact ⟨a, rest, rfl⟩
          | nil =>
            rw [hcases] at hlen
            cases n with
            | zero => omega
            | succ n => simp [Region.slots] at hlen
        have hp' : (s.resource.pools.set k p')[k]? = some p' := by
          rw [getElem?_set_of_some hp hp, if_pos rfl]
        have hlend := hrepl.lend hp' hcons hk hpow
        have hset : (s.resource.pools.set k p').set k { p' with freeSlist := rest }
            = s.resource.pools.set k { p' with freeSlist := rest } := List.set_set ..
        simp only [PoolData.allocateBlock, hcons] at hserve
        obtain ⟨rfl, rfl, rfl⟩ : _ ∧ _ ∧ _ := by simpa using hserve
        simp only [hset] at hlend
        exact Or.inr ⟨a, rfl, hlend⟩

/-- What `do_allocate` does once the pools exist or could not be created. -/
theorem doAllocate_eq (r : PoolResource) (bytes alignment : ℕ) (mrPools mr : Upstream) :
    r.doAllocate pf math bytes alignment mrPools mr
      = match r.ensurePools pf math mrPools with
        | none => (.threw, [], r)
        | some (obtained, r') =>
          ((r'.serve pf math bytes mr).1, obtained ++ (r'.serve pf math bytes mr).2.1,
            (r'.serve pf math bytes mr).2.2) := rfl

/-- **An allocation**: it throws and changes nothing but the creation of the
pools, or it lends a block. -/
theorem Sound.allocate {s : Session} {bytes alignment : ℕ} {mrPools mr : Upstream}
    (h : s.Sound pf math opts)
    (hc : Call.Valid pf math s (.allocate bytes alignment mrPools mr)) :
    (s.exec pf math (.allocate bytes alignment mrPools mr)).Sound pf math opts
      ∧ (s.resource.doAllocate pf math bytes alignment mrPools mr).1 ≠ .returned none
      ∧ ((s.resource.doAllocate pf math bytes alignment mrPools mr).1 = .threw →
        (s.resource.doAllocate pf math bytes alignment mrPools mr).2.2.oversizedList
            = s.resource.oversizedList
          ∧ ((s.resource.doAllocate pf math bytes alignment mrPools mr).2.2.pools
              = s.resource.pools
            ∨ (s.resource.pools = [] ∧ ∀ p ∈ (s.resource.doAllocate pf math bytes
                alignment mrPools mr).2.2.pools, p = PoolData.init))) := by
  obtain ⟨_, hpow, hmrPools, hmr⟩ := hc
  unfold exec
  simp only [doAllocate_eq]
  cases hens : s.resource.ensurePools pf math mrPools with
  | none => exact ⟨h, by simp, fun _ => ⟨rfl, Or.inl rfl⟩⟩
  | some pair =>
    obtain ⟨obtained, r⟩ := pair
    obtain ⟨hens', hdata, hover, hpools⟩ := h.ensurePools hmrPools hens
    have hmr' : mr.Fresh pf (obtained ++ s.ledger) := by
      unfold poolsObtained at hmr
      simpa only [hens] using hmr
    rcases hserve : r.serve pf math bytes mr with ⟨outcome, obtained', r'⟩
    rcases hens'.serve alignment hdata hpow hmr' hserve
      with ⟨rfl, rfl, rfl⟩ | ⟨p, rfl, hsound⟩
    · simp only [hserve, List.append_nil]
      exact ⟨hens', by simp, fun _ => ⟨hover, hpools⟩⟩
    · simp only [hserve]
      refine ⟨?_, by simp, fun hthrew => by simp at hthrew⟩
      have hledger : (obtained' ++ (obtained ++ s.ledger)).Perm
          (obtained ++ obtained' ++ s.ledger) := by
        rw [← List.append_assoc]
        exact List.perm_append_comm.append_right _
      exact { hsound with ledger_perm := hledger.symm.trans hsound.ledger_perm }

theorem exec_deallocate (s : Session) (l : Loan) :
    s.exec pf math (.deallocate l)
      = ⟨(s.resource.doDeallocate pf math l.addr l.bytes l.alignment).2, s.live.erase l,
        s.ledger.diff
          (s.resource.doDeallocate pf math l.addr l.bytes l.alignment).1⟩ := rfl

/-- **A deallocation** goes to the pool its size selects, or hands the
oversized block back. -/
theorem Sound.deallocate {s : Session} {l : Loan} (h : s.Sound pf math opts)
    (hl : l ∈ s.live) :
    (s.exec pf math (.deallocate l)).Sound pf math opts
      ∧ match s.resource.poolFor pf math l.bytes with
        | some k => ∃ p, s.resource.pools[k]? = some p
            ∧ (∃ c ∈ p.chunks, (⟨l.addr, privPoolBlock pf k⟩ : Region).Within c)
            ∧ s.resource.doDeallocate pf math l.addr l.bytes l.alignment
              = ([], { s.resource with
                  pools := s.resource.pools.set k (p.deallocateBlock l.addr) })
        | none => s.resource.lent pf math l ∈ s.ledger
            ∧ s.resource.doDeallocate pf math l.addr l.bytes l.alignment
              = ([s.resource.lent pf math l], { s.resource with
                  oversizedList :=
                    s.resource.oversizedList.erase (s.resource.lent pf math l) }) := by
  cases hpool : s.resource.poolFor pf math l.bytes with
  | none =>
    obtain ⟨hmem, hsound⟩ := h.takeBackOversized hl hpool
    have hbig : l.bytes > s.resource.options.largestRequiredPoolBlock := by
      unfold poolFor at hpool
      split at hpool
      · assumption
      · cases hpool
    have heq : s.resource.doDeallocate pf math l.addr l.bytes l.alignment
        = ([s.resource.lent pf math l], { s.resource with
            oversizedList :=
              s.resource.oversizedList.erase (s.resource.lent pf math l) }) := by
      unfold doDeallocate deallocateOversized
      rw [if_pos hbig, h.find_oversized hl hpool]
    refine ⟨?_, hmem, heq⟩
    rw [exec_deallocate, heq]
    simpa only [List.diff_cons, List.diff_nil] using hsound
  | some k =>
    have hlod := (h.live_lodged l hl).2.2
    unfold Lodged at hlod
    simp only [hpool] at hlod
    obtain ⟨p, hp, hc⟩ := hlod
    obtain ⟨hle, hk⟩ := poolFor_eq_some.mp hpool
    have heq : s.resource.doDeallocate pf math l.addr l.bytes l.alignment
        = ([], { s.resource with
            pools := s.resource.pools.set k (p.deallocateBlock l.addr) }) := by
      unfold doDeallocate
      rw [if_neg (Nat.not_lt.mpr hle)]
      simp only [hk, hp]
    refine ⟨?_, p, hp, hc, heq⟩
    rw [exec_deallocate, heq]
    exact h.takeBack hl hpool hp

/-- **One call** keeps the invariant. -/
theorem Sound.exec {s : Session} {c : Call} (h : s.Sound pf math opts)
    (hc : c.Valid pf math s) : (s.exec pf math c).Sound pf math opts := by
  cases c with
  | allocate bytes alignment mrPools mr => exact (h.allocate hc).1
  | deallocate l => exact (h.deallocate hc).1
  | release => exact h.release.2

/-! ## Whole runs -/

variable (pf math) in
/-- **What a pool resource promises** in every state of a run. -/
structure Correct (s : Session) : Prop where
  /-- A loan is aligned to what was asked for, up to `max_align`, and the
  bytes asked for lie in a region obtained from upstream. -/
  granted : ∀ l ∈ s.live, l.addr % min l.alignment pf.maxAlign = 0
    ∧ ∃ r ∈ s.ledger, l.region.Within r
  /-- No two loans overlap. -/
  apart : (s.live.map Loan.region).Pairwise Region.Apart
  /-- A deallocation goes where its allocation came from: to the pool in
  whose chunk the block lies, or to the oversized block's own header. -/
  routed : ∀ l ∈ s.live, match s.resource.poolFor pf math l.bytes with
    | some k => ∃ p, s.resource.pools[k]? = some p
        ∧ (∃ c ∈ p.chunks, (⟨l.addr, privPoolBlock pf k⟩ : Region).Within c)
        ∧ s.resource.doDeallocate pf math l.addr l.bytes l.alignment
          = ([], { s.resource with
              pools := s.resource.pools.set k (p.deallocateBlock l.addr) })
    | none => s.resource.lent pf math l ∈ s.ledger
        ∧ s.resource.doDeallocate pf math l.addr l.bytes l.alignment
          = ([s.resource.lent pf math l], { s.resource with
              oversizedList :=
                s.resource.oversizedList.erase (s.resource.lent pf math l) })
  /-- The size of the next chunk stays within bounds. -/
  chunk_bounds : ∀ p ∈ s.resource.pools, 1 ≤ p.nextBlocksPerChunk
    ∧ p.nextBlocksPerChunk ≤ s.resource.options.maxBlocksPerChunk
  /-- An allocation that returns does not return null. -/
  not_null : ∀ bytes alignment mrPools mr,
    Call.Valid pf math s (.allocate bytes alignment mrPools mr) →
      (s.resource.doAllocate pf math bytes alignment mrPools mr).1 ≠ .returned none
  /-- An allocation that throws leaves every free list and block list as it
  was; pools it may have created are empty. -/
  throw_keeps : ∀ bytes alignment mrPools mr,
    Call.Valid pf math s (.allocate bytes alignment mrPools mr) →
      (s.resource.doAllocate pf math bytes alignment mrPools mr).1 = .threw →
        (s.resource.doAllocate pf math bytes alignment mrPools mr).2.2.oversizedList
            = s.resource.oversizedList
          ∧ ((s.resource.doAllocate pf math bytes alignment mrPools mr).2.2.pools
              = s.resource.pools
            ∨ (s.resource.pools = [] ∧ ∀ p ∈ (s.resource.doAllocate pf math bytes
                alignment mrPools mr).2.2.pools, p = PoolData.init))
  /-- What a call hands back was obtained, with that address and size, and
  not handed back before. -/
  hands_back : ∀ c, Call.Valid pf math s c →
    (s.handedBack pf math c).Subperm s.ledger
  /-- A release hands back everything but the array of pools. -/
  release_returns : (s.resource.release.1 ++ s.resource.poolData.toList).Perm s.ledger
  /-- The destructor hands back everything, once. -/
  destroy_returns : s.resource.destroy.Perm s.ledger

/-- **The invariant is what the promise rests on.** -/
theorem Sound.correct {s : Session} (h : s.Sound pf math opts) : s.Correct pf math where
  granted l hl := by
    obtain ⟨hmod, ⟨k, hk⟩, hlod⟩ := h.live_lodged l hl
    obtain ⟨r, hr, hw⟩ := hlod.lent_within
    refine ⟨?_, r, h.ledger_perm.mem_iff.mpr hr, hlod.region_within.trans hw⟩
    refine Nat.mod_eq_zero_of_dvd (Dvd.dvd.trans ?_ (Nat.dvd_of_mod_eq_zero hmod))
    rcases le_total l.alignment pf.maxAlign with hle | hle
    · rw [min_eq_left hle, hk]
      exact Platform.dvd_maxAlign (hk ▸ hle)
    · rw [min_eq_right hle]
  apart := by
    have hlent := (List.pairwise_append.mp h.blocks_apart).2.1
    rw [List.pairwise_map] at hlent ⊢
    refine hlent.imp_of_mem (fun {l m} hl hm hap => ?_)
    have hwl := (h.live_lodged l hl).2.2.region_within
    have hwm := (h.live_lodged m hm).2.2.region_within
    exact hwl.apart (hwm.apart hap.symm).symm
  routed l hl := (h.deallocate hl).2
  chunk_bounds := h.next_bounds
  not_null _ _ _ _ hc := (h.allocate hc).2.1
  throw_keeps _ _ _ _ hc := (h.allocate hc).2.2
  hands_back c hc := by
    cases c with
    | allocate => exact List.nil_subperm
    | release =>
      exact ((List.sublist_append_left _ _).subperm).trans h.release.1.subperm
    | deallocate l =>
      have hback := (h.deallocate hc).2
      show (s.resource.doDeallocate pf math l.addr l.bytes l.alignment).1.Subperm s.ledger
      cases hpool : s.resource.poolFor pf math l.bytes with
      | some k =>
        simp only [hpool] at hback
        obtain ⟨_, _, _, heq⟩ := hback
        rw [heq]
        exact List.nil_subperm
      | none =>
        simp only [hpool] at hback
        rw [hback.2]
        exact List.singleton_subperm_iff.mpr hback.1
  release_returns := h.release.1
  destroy_returns := h.release.1

/-- **The pool resource is correct over every run**, whatever the options and
whatever upstream answers, alignment being promised up to `max_align`. -/
theorem poolResource_correct {s : Session}
    (hs : (sessions pf math opts).Reachable s) : s.Correct pf math := by
  have hsound : s.Sound pf math opts := by
    refine hs.invariant (fun s₀ h₀ => ?_) ?_
    · rw [h₀]
      refine ⟨rfl, Or.inl ⟨rfl, rfl⟩, List.forall_mem_nil _, List.forall_mem_nil _,
        List.Perm.refl _, List.Pairwise.nil, ?_, List.forall_mem_nil _, List.Pairwise.nil⟩
      intro k p hp
      cases hp
    · rintro t c _ ht ⟨hvalid, rfl⟩
      exact ht.exec hvalid
  exact hsound.correct

/-- 64 bytes at alignment 32, upstream answering the array of pools with
address 4096 and the first chunk with address 65536. -/
def firstRequest : Call :=
  .allocate 64 32 (fun n => if n = 216 then some 4096 else none)
    (fun n => if n = 80 then some 65536 else none)

/-- The session of a resource with default options after that request. -/
def afterFirstRequest : Session :=
  Session.exec Platform.lp64 (IntrusiveMath.reference 64)
    ⟨construct Platform.lp64 (IntrusiveMath.reference 64) ⟨0, 0⟩, [], []⟩ firstRequest

theorem firstRequest_valid :
    Call.Valid Platform.lp64 (IntrusiveMath.reference 64)
      ⟨construct Platform.lp64 (IntrusiveMath.reference 64) ⟨0, 0⟩, [], []⟩
      firstRequest := by
  refine ⟨by decide, ⟨5, rfl⟩, ?_, ?_⟩
  · intro n q hq
    obtain ⟨rfl, rfl⟩ : n = 216 ∧ q = 4096 := by simpa [eq_comm] using hq
    decide
  · intro n q hq
    obtain ⟨rfl, rfl⟩ : n = 80 ∧ q = 65536 := by simpa [eq_comm] using hq
    decide

/-- One request of a resource with default options: the promise holds. -/
theorem correct_afterFirstRequest :
    afterFirstRequest.Correct Platform.lp64 (IntrusiveMath.reference 64) :=
  poolResource_correct (TransitionSystem.Reachable.step
    (TransitionSystem.Reachable.of_init rfl) ⟨firstRequest_valid, rfl⟩)

/-- **An alignment above `max_align` is not honoured.** The first request of
a resource with default options, for 64 bytes at alignment 32, is answered
with address 65552, which is a multiple of 16 only. -/
theorem not_aligned_afterFirstRequest :
    (sessions Platform.lp64 (IntrusiveMath.reference 64) ⟨0, 0⟩).Reachable
        afterFirstRequest
      ∧ afterFirstRequest.live = [⟨65552, 64, 32⟩] ∧ 65552 % 32 ≠ 0 :=
  ⟨TransitionSystem.Reachable.step (TransitionSystem.Reachable.of_init rfl)
    ⟨firstRequest_valid, rfl⟩, by decide, by decide⟩

end Session

end PoolResource
