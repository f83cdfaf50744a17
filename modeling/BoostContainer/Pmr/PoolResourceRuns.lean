import BoostContainer.Lib.Run
import BoostContainer.Pmr.PoolResource

/-!
# What a pool resource lends over a run

A session is a resource together with what it has lent and what it has
obtained from upstream and not handed back. Every block of a pool is at any
time either on the pool's free list or lent, and the invariant keeps the two
together: all of them, with the oversized blocks, are apart, and each lies
in a region the resource holds. Lending moves a block from one side to the
other and changes nothing else, which is why no two loans ever overlap.

What is promised about alignment is `min alignment max_align`: the alignment
argument is ignored, and a request above `max_align` gets storage aligned to
`max_align` only, as `memory_resource` allows.
-/

namespace PoolData

variable {pf : Platform}

/-- The loop pushes the blocks it cuts the chunk into. -/
theorem pushBlocks_perm (poolBlock n a : ℕ) (free : List ℕ) :
    (pushBlocks poolBlock n a free).Perm (Region.slots poolBlock n a ++ free) := by
  induction n generalizing a free with
  | zero => rfl
  | succ n ih =>
    rw [pushBlocks, Region.slots, List.cons_append]
    exact (ih _ _).trans List.perm_middle

/-- **What a replenishment that returns has done**: one fresh chunk, cut into
at least one block, and a next chunk size within bounds. -/
theorem replenish_eq_some {p p' : PoolData} {poolBlock maxBlocks : ℕ}
    {mr : Upstream} {inUse obtained : List Region} (hpos : 0 < poolBlock)
    (hfit : poolBlock ≤ pf.sizeMax) (hmr : mr.Fresh pf inUse)
    (hnext : 1 ≤ p.nextBlocksPerChunk) (hmax : 1 ≤ maxBlocks)
    (h : p.replenish pf poolBlock maxBlocks mr = some (obtained, p')) :
    ∃ q n, 1 ≤ n ∧ obtained = [⟨q, n * poolBlock + headerSize pf⟩]
      ∧ p'.chunks = ⟨q, n * poolBlock + headerSize pf⟩ :: p.chunks
      ∧ p'.freeSlist = pushBlocks poolBlock n (q + headerSize pf) p.freeSlist
      ∧ (1 ≤ p'.nextBlocksPerChunk ∧ p'.nextBlocksPerChunk ≤ maxBlocks)
      ∧ q % pf.maxAlign = 0
      ∧ ∀ r ∈ inUse, r.Apart ⟨q, n * poolBlock + headerSize pf⟩ := by
  unfold replenish at h
  set n := p.blocksPerChunk pf poolBlock maxBlocks with hn
  have hdiv : 1 ≤ pf.sizeMax / poolBlock := (Nat.one_le_div_iff hpos).mpr hfit
  have hone : 1 ≤ n := Nat.le_min.mpr ⟨Nat.le_min.mpr ⟨hmax, hnext⟩, hdiv⟩
  simp only at h
  split at h
  · cases h
  · rename_i a chunks halloc
    obtain ⟨q, _, rfl, rfl, _, hal, _, hapart⟩ := BlockList.allocate_eq_some
      (Platform.headerSize_le_sizeMax pf.blockSlistHeader_fits) hmr halloc
    obtain ⟨rfl, rfl⟩ := Prod.mk.inj (Option.some.inj h)
    refine ⟨q, n, hone, rfl, rfl, rfl, ?_, hal, hapart⟩
    simp only
    split <;> omega

end PoolData

namespace PoolResource

/-- **A loan**: the pointer, and what was asked for. -/
structure Loan where
  addr : ℕ
  bytes : ℕ
  alignment : ℕ
  deriving DecidableEq, Repr

/-- The storage a loan promises. -/
def Loan.region (l : Loan) : Region := ⟨l.addr, l.bytes⟩

/-- **A session**: a resource, what it has lent, and what upstream has given
it and not been handed back. -/
structure Session where
  resource : PoolResource
  live : List Loan
  ledger : List Region
  deriving DecidableEq, Repr

/-- The calls a session makes. An allocation carries upstream's answers, for
the array of pools and for what follows. -/
inductive Call
  | allocate (bytes alignment : ℕ) (mrPools mr : Upstream)
  | deallocate (l : Loan)
  | release

variable (pf : Platform) (math : IntrusiveMath pf.bits)

/-- **Where a loan is lodged**: in a chunk of the pool its size selects, or,
above the pooled sizes, in an oversized block of its own. -/
def Lodged (s : PoolResource) (l : Loan) : Prop :=
  match s.poolFor pf math l.bytes with
  | some k => ∃ p, s.pools[k]? = some p
      ∧ ∃ c ∈ p.chunks, (⟨l.addr, privPoolBlock pf k⟩ : Region).Within c
  | none => headerSize pf ≤ l.addr
      ∧ ⟨l.addr - headerSize pf, l.bytes + headerSize pf⟩ ∈ s.oversizedList

/-- The whole block a loan occupies. -/
def lent (s : PoolResource) (l : Loan) : Region :=
  match s.poolFor pf math l.bytes with
  | some k => ⟨l.addr, privPoolBlock pf k⟩
  | none => ⟨l.addr - headerSize pf, l.bytes + headerSize pf⟩

/-- What creating the pools obtains from upstream; nothing where they exist
or the call throws. -/
def poolsObtained (s : PoolResource) (mrPools : Upstream) : List Region :=
  match s.ensurePools pf math mrPools with
  | none => []
  | some (obtained, _) => obtained

namespace Session

/-- What a call hands back to upstream. -/
def handedBack (s : Session) : Call → List Region
  | .allocate _ _ _ _ => []
  | .deallocate l => (s.resource.doDeallocate pf math l.addr l.bytes l.alignment).1
  | .release => s.resource.release.1

/-- The session after a call. -/
def exec (s : Session) : Call → Session
  | .allocate bytes alignment mrPools mr =>
    let (outcome, obtained, r) := s.resource.doAllocate pf math bytes alignment mrPools mr
    { resource := r
      live :=
        match outcome with
        | .returned (some p) => ⟨p, bytes, alignment⟩ :: s.live
        | _ => s.live
      ledger := obtained ++ s.ledger }
  | .deallocate l =>
    { resource := (s.resource.doDeallocate pf math l.addr l.bytes l.alignment).2
      live := s.live.erase l
      ledger := s.ledger.diff (s.handedBack pf math (.deallocate l)) }
  | .release =>
    { resource := s.resource.release.2
      live := []
      ledger := s.ledger.diff (s.handedBack pf math .release) }

end Session

/-- **What callers and upstream owe**: a size that is a `std::size_t`, an
alignment that is a power of two, fresh storage, and only loans handed
back. -/
def Call.Valid (s : Session) : Call → Prop
  | .allocate bytes alignment mrPools mr =>
    bytes ≤ pf.sizeMax ∧ (∃ k, alignment = 2 ^ k)
      ∧ mrPools.Fresh pf s.ledger
      ∧ mr.Fresh pf (s.resource.poolsObtained pf math mrPools ++ s.ledger)
  | .deallocate l => l ∈ s.live
  | .release => True

/-- **The sessions of a resource** constructed with given options. -/
def sessions (opts : PoolOptions) : TransitionSystem Session Call where
  Init s := s = ⟨construct pf math opts, [], []⟩
  Step s c s' := c.Valid pf math s ∧ s' = s.exec pf math c

/-- **The invariant of a session.** -/
structure Session.Sound (opts : PoolOptions) (s : Session) : Prop where
  options_eq : s.resource.options = privFixOptions pf math opts
  /-- The pools exist together with their array. -/
  pools_shape : (s.resource.poolData = none ∧ s.resource.pools = [])
    ∨ (s.resource.poolData ≠ none
      ∧ s.resource.pools.length = s.resource.numPools pf math)
  next_bounds : ∀ p ∈ s.resource.pools, 1 ≤ p.nextBlocksPerChunk
    ∧ p.nextBlocksPerChunk ≤ s.resource.options.maxBlocksPerChunk
  /-- An oversized block has room for its header. -/
  oversized_header : ∀ r ∈ s.resource.oversizedList, headerSize pf ≤ r.size
  /-- The resource holds what upstream has given it. -/
  ledger_perm : s.ledger.Perm s.resource.held
  held_apart : s.resource.held.Pairwise Region.Apart
  /-- A block that is not lent lies in a chunk of its pool. -/
  free_lodged : ∀ k p, s.resource.pools[k]? = some p → ∀ a ∈ p.freeSlist,
    a % pf.maxAlign = 0
      ∧ ∃ c ∈ p.chunks, (⟨a, privPoolBlock pf k⟩ : Region).Within c
  /-- A loan lies where its size says. -/
  live_lodged : ∀ l ∈ s.live, l.addr % pf.maxAlign = 0
    ∧ (∃ k, l.alignment = 2 ^ k) ∧ s.resource.Lodged pf math l
  /-- What is lent and what is not are apart. -/
  blocks_apart : (s.resource.freeBlocks pf
    ++ s.live.map (s.resource.lent pf math)).Pairwise Region.Apart

variable {pf math}

/-! ## Held regions and blocks under updates -/

theorem mem_held {s : PoolResource} {r : Region} :
    r ∈ s.held ↔ s.poolData = some r ∨ r ∈ s.oversizedList
      ∨ ∃ (k : ℕ) (p : PoolData), s.pools[k]? = some p ∧ r ∈ p.chunks := by
  unfold held
  rw [List.mem_append, List.mem_append, List.mem_gather, Option.mem_toList, or_assoc]

theorem mem_freeBlocks {s : PoolResource} {r : Region} :
    r ∈ s.freeBlocks pf ↔ ∃ k p, s.pools[k]? = some p
      ∧ ∃ a ∈ p.freeSlist, ⟨a, privPoolBlock pf k⟩ = r := by
  unfold freeBlocks
  rw [List.mem_gather]
  simp only [List.mem_map]

/-- **Replacing one pool**: what the resource holds changes by the chunks of
that pool only. -/
theorem exists_held_perm {s : PoolResource} {k : ℕ} {p : PoolData}
    (hp : s.pools[k]? = some p) :
    ∃ rest, s.held.Perm (p.chunks ++ rest)
      ∧ ∀ p', ({ s with pools := s.pools.set k p' } : PoolResource).held.Perm
        (p'.chunks ++ rest) := by
  obtain ⟨rest, hold, hnew⟩ := List.exists_gather_perm (fun _ p => p.chunks) hp
  have hmove : ∀ l : List Region,
      (s.poolData.toList ++ s.oversizedList ++ (l ++ rest)).Perm
        (l ++ (s.poolData.toList ++ s.oversizedList ++ rest)) := by
    intro l
    rw [← List.append_assoc, ← List.append_assoc l]
    exact List.perm_append_comm.append_right rest
  exact ⟨_, (hold.append_left _).trans (hmove _),
    fun p' => ((hnew p').append_left _).trans (hmove _)⟩

/-- **Replacing one pool**: the free blocks change by those of that pool
only. -/
theorem exists_freeBlocks_perm {s : PoolResource} {k : ℕ} {p : PoolData}
    (hp : s.pools[k]? = some p) :
    ∃ rest, (s.freeBlocks pf).Perm
        (p.freeSlist.map (fun a => ⟨a, privPoolBlock pf k⟩) ++ rest)
      ∧ ∀ p', (({ s with pools := s.pools.set k p' } : PoolResource).freeBlocks pf).Perm
        (p'.freeSlist.map (fun a => ⟨a, privPoolBlock pf k⟩) ++ rest) :=
  List.exists_gather_perm
    (fun k p => p.freeSlist.map (fun a => (⟨a, privPoolBlock pf k⟩ : Region))) hp

/-- Being apart does not depend on the order of a list. -/
theorem apart_perm {l l' : List Region} (h : l.Perm l')
    (ha : l.Pairwise Region.Apart) : l'.Pairwise Region.Apart :=
  (h.pairwise_iff Region.Apart.symm).mp ha

theorem getElem?_set_cases {pools : List PoolData} {k j : ℕ} {p' p : PoolData}
    (h : (pools.set k p')[j]? = some p) :
    (j = k ∧ p = p') ∨ (j ≠ k ∧ pools[j]? = some p) := by
  rw [List.getElem?_set] at h
  split at h
  · rename_i hjk
    split at h
    · exact Or.inl ⟨hjk.symm, (Option.some.inj h).symm⟩
    · cases h
  · rename_i hjk
    exact Or.inr ⟨fun he => hjk he.symm, h⟩

theorem getElem?_set_of_some {pools : List PoolData} {k j : ℕ} {p p' q : PoolData}
    (hp : pools[k]? = some p) (hq : pools[j]? = some q) :
    (pools.set k p')[j]? = if j = k then some p' else some q := by
  rw [List.getElem?_set]
  by_cases hjk : j = k
  · have hlt : k < pools.length := (List.getElem?_eq_some_iff.mp hp).1
    rw [if_pos hjk.symm, if_pos hlt, if_pos hjk]
  · rw [if_neg (fun he => hjk he.symm), if_neg hjk, hq]

/-- Where a loan of a pooled size is lodged. -/
theorem lodged_some {s : PoolResource} {l : Loan} {k : ℕ}
    (hk : s.poolFor pf math l.bytes = some k) :
    s.Lodged pf math l ↔ ∃ p, s.pools[k]? = some p
      ∧ ∃ c ∈ p.chunks, (⟨l.addr, privPoolBlock pf k⟩ : Region).Within c := by
  unfold Lodged
  simp only [hk]

/-- Where a larger loan is lodged. -/
theorem lodged_none {s : PoolResource} {l : Loan}
    (hnone : s.poolFor pf math l.bytes = none) :
    s.Lodged pf math l ↔ headerSize pf ≤ l.addr
      ∧ ⟨l.addr - headerSize pf, l.bytes + headerSize pf⟩ ∈ s.oversizedList := by
  unfold Lodged
  simp only [hnone]

/-- A loan stays lodged when its pool keeps its chunks. -/
theorem Lodged.set_pools {s : PoolResource} {l : Loan} {k : ℕ} {p p' : PoolData}
    (h : s.Lodged pf math l) (hp : s.pools[k]? = some p)
    (hsub : p.chunks ⊆ p'.chunks) :
    ({ s with pools := s.pools.set k p' } : PoolResource).Lodged pf math l := by
  cases hpool : s.poolFor pf math l.bytes with
  | none => exact Iff.mpr (lodged_none hpool) ((lodged_none hpool).mp h)
  | some j =>
    obtain ⟨q, hq, c, hc, hw⟩ := (lodged_some hpool).mp h
    refine Iff.mpr (lodged_some hpool) ?_
    rw [getElem?_set_of_some hp hq]
    by_cases hjk : j = k
    · subst hjk
      obtain rfl : q = p := Option.some.inj (hq.symm.trans hp)
      exact ⟨p', by simp, c, hsub hc, hw⟩
    · exact ⟨q, by simp [hjk], c, hc, hw⟩

/-- The block of a lodged loan lies in a region the resource holds. -/
theorem Lodged.lent_within {s : PoolResource} {l : Loan}
    (h : s.Lodged pf math l) :
    ∃ r ∈ s.held, (s.lent pf math l).Within r := by
  unfold Lodged at h
  unfold lent
  cases hpool : s.poolFor pf math l.bytes with
  | none =>
    simp only [hpool] at h ⊢
    exact ⟨_, mem_held.mpr (Or.inr (Or.inl h.2)), Region.Within.refl _⟩
  | some k =>
    simp only [hpool] at h ⊢
    obtain ⟨p, hp, c, hc, hw⟩ := h
    exact ⟨c, mem_held.mpr (Or.inr (Or.inr ⟨k, p, hp, hc⟩)), hw⟩

/-- **The storage a loan promises lies in its block.** -/
theorem Lodged.region_within {s : PoolResource} {l : Loan}
    (h : s.Lodged pf math l) : l.region.Within (s.lent pf math l) := by
  unfold Lodged at h
  unfold lent
  cases hpool : s.poolFor pf math l.bytes with
  | none =>
    simp only [hpool] at h ⊢
    refine ⟨Nat.sub_le _ _, ?_⟩
    simp only [Loan.region, Region.stop_mk]
    omega
  | some k =>
    simp only [hpool] at h ⊢
    have hk : privPoolIndex pf math l.bytes = k := by
      unfold poolFor at hpool
      split at hpool
      · cases hpool
      · exact Option.some.inj hpool
    have hle : l.bytes ≤ privPoolBlock pf (privPoolIndex pf math l.bytes) :=
      le_privPoolBlock_privPoolIndex _
    rw [hk] at hle
    exact ⟨le_rfl, Nat.add_le_add_left hle _⟩

end PoolResource
