import BoostContainer.Hub.HubEraseRange
import BoostContainer.Hub.HubStep

/-!
# Splicing hubs

The active blocks of one hub are moved to the back of the active blocks of another, one
after the other, from the first on. A block with room is moved to the front of the
blocks with room as well, so that the reserved blocks stay behind them. No element
is touched, and the reserved blocks of the hub that is emptied stay with it.
-/

open Function

namespace Hub

variable {α : Type}

section Splice

variable (h g : ℕ)

/-- The loop over the blocks of the hub `g`, each of them linked to the hub `h`. -/
def spliceLoop : ℕ → ℕ → Prog (State α) Unit
  | 0, _ => Prog.undefined
  | rounds + 1, pb =>
    if pb = g then pure ()
    else do
      let pbb ← nextOf pb
      if (← maskOf pb) ≠ full then
        unlinkAvailable pb
        linkAvailableAtFront h pb
      unlink pb
      linkAtBack h pb
      dropBlocks g
      growBlocks h
      let s := Mask.popcount (← maskOf pb)
      dropSize g s
      growSize h s
      spliceLoop rounds pbb

/-- **`splice`** -/
def splice : Prog (State α) Unit := do
  let rounds ← Prog.gets fun s => s.rounds g
  let pbb ← nextOf g
  spliceLoop h g rounds pbb

end Splice

variable {s t : State α} {h g b : ℕ} {L M : Lists} {bs : List ℕ}

/-! ## One block -/

/-- Memory after a block was moved. -/
def splicedState (s : State α) (h g b : ℕ) : State α :=
  { s with
    list := (s.list.unlink b).linkBefore b h
    available := if s.mask b = full then s.available else (s.available.unlink b).linkAfter b h
    numBlocks := update (update s.numBlocks g (s.numBlocks g - 1)) h
      (update s.numBlocks g (s.numBlocks g - 1) h + 1)
    size := update (update s.size g (s.size g - Mask.popcount (s.mask b))) h
      (update s.size g (s.size g - Mask.popcount (s.mask b)) h + Mask.popcount (s.mask b)) }

theorem spliceLoop_succ (hb : b ≠ g) (rounds : ℕ) :
    spliceLoop h g (rounds + 1) b s
      = spliceLoop h g rounds (s.list.next b) (splicedState s h g b) := by
  rw [spliceLoop, if_neg hb]
  unfold nextOf maskOf splicedState
  rw [Prog.gets_bind, Prog.gets_bind]
  by_cases hfull : s.mask b = full
  · simp [hfull, unlink, linkAtBack, dropBlocks, growBlocks, dropSize, growSize]
  · simp [hfull, unlinkAvailable, linkAvailableAtFront, unlink, linkAtBack, dropBlocks, growBlocks,
      dropSize, growSize]

/-- The lists of the hub that gets a block. -/
def Lists.gets (L : Lists) (s : State α) (b : ℕ) : Lists :=
  ⟨L.active ++ [b], if s.mask b = full then L.partly else b :: L.partly, L.reserved⟩

/-- The lists of the hub that loses it. -/
def Lists.loses (M : Lists) (bs : List ℕ) (b : ℕ) : Lists :=
  ⟨bs, M.partly.filter (· ≠ b), M.reserved⟩

theorem Stored.subset {l : List ℕ} (hs : Stored s bs) (hl : ∀ b ∈ l, b ∈ bs) : Stored s l where
  block b hb := hs.block b (hl b hb)
  chunk b hb := hs.chunk b (hl b hb)
  data_inj b hb b' hb' := hs.data_inj b (hl b hb) b' (hl b' hb')
  isSome b hb := hs.isSome b (hl b hb)

/-- Blocks from two hubs. -/
theorem Stored.append {bs' : List ℕ} (hs : Stored s bs) (hs' : Stored s bs')
    (hdata : ∀ b ∈ bs', ∀ a ∈ bs, s.data a ≠ s.data b) : Stored s (bs ++ bs') where
  block b hb := (List.mem_append.mp hb).elim (hs.block b) (hs'.block b)
  chunk b hb := (List.mem_append.mp hb).elim (hs.chunk b) (hs'.chunk b)
  data_inj b hb b' hb' heq := by
    rcases List.mem_append.mp hb with hb | hb <;> rcases List.mem_append.mp hb' with hb' | hb'
    · exact hs.data_inj b hb b' hb' heq
    · exact absurd heq (hdata b' hb' b hb)
    · exact absurd heq.symm (hdata b hb b' hb')
    · exact hs'.data_inj b hb b' hb' heq
  isSome b hb := (List.mem_append.mp hb).elim (hs.isSome b) (hs'.isSome b)

namespace Shape

theorem splice_linked (hx : Shape s h L) (hy : Shape s g M) (ha : Apart s h L g M)
    (hactive : M.active = b :: bs) :
    Linked (splicedState s h g b) h (L.gets s b)
      ∧ Linked (splicedState s h g b) g (M.loses bs b)
      ∧ Links.AgreeOn (others s h L ∩ others s g M) s.list (splicedState s h g b).list
      ∧ Links.AgreeOn (others s h L ∩ others s g M) s.available
        (splicedState s h g b).available := by
  have hb : b ∈ M.active := hactive ▸ List.mem_cons_self
  have hbM : b ∈ M.blocks := List.mem_append_left _ hb
  have hbg : b ∈ g :: M.blocks := List.mem_cons_of_mem g hbM
  have hbh : b ∉ h :: L.blocks := ha.blocks b hbg
  have hmask : (splicedState s h g b).mask = s.mask := rfl
  -- The two rings of active blocks.
  have hring := hy.ring
  rw [hactive] at hring
  have hfirst : Circular s.list g ([] ++ b :: bs) := hring
  have hL : ∀ c ∈ h :: L.active, c ∈ h :: L.blocks := fun c hc =>
    (List.Sublist.cons_cons h (List.sublist_append_left _ _)).subset hc
  have hM : ∀ c ∈ g :: b :: bs, c ∈ g :: M.blocks := fun c hc => by
    rw [← hactive] at hc
    exact (List.Sublist.cons_cons g (List.sublist_append_left _ _)).subset hc
  have htaken : Circular (s.list.unlink b) h L.active :=
    hx.ring.congr (hfirst.unlink_agree fun c hc hm => ha.blocks c (hM c hm) (hL c hc))
  have hnot : b ∉ h :: L.active := fun hm => hbh (hL b hm)
  have hleft : Circular ((s.list.unlink b).linkBefore b h) g bs := by
    refine (hfirst.unlink : Circular _ g ([] ++ bs)).congr
      (htaken.linkBefore_back_agree hnot fun c hc => ⟨fun heq => ?_, fun hm => ?_⟩)
    · have hnd := hring.nodup
      have hcb : b ∈ g :: bs := heq ▸ hc
      exact (List.nodup_middle.mp (show ([g] ++ b :: bs).Nodup from hnd)).notMem hcb
    · refine ha.blocks c (hM c ?_) (hL c hm)
      exact (List.Sublist.cons_cons g (List.sublist_cons_self b bs)).subset hc
  -- And those of available ones.
  obtain ⟨hwithdrawn, hagree⟩ := hy.withdraw hb
  have havailM : ∀ c ∈ g :: (M.partly.filter (· ≠ b) ++ M.reserved), c ≠ b ∧ c ∈ g :: M.blocks := by
    intro c hc
    rcases List.mem_cons.mp hc with rfl | hc
    · exact ⟨hy.ne_header hb, List.mem_cons_self⟩
    · refine ⟨fun heq => ?_, List.mem_cons_of_mem g (hy.toLinked.mem_blocks_of_available
        ((List.filter_sublist.append_right M.reserved).subset hc))⟩
      rcases List.mem_append.mp hc with hc | hc
      · exact of_decide_eq_true (List.mem_filter.mp hc).2 heq
      · exact hy.notMem_reserved hb (heq ▸ hc)
  have havailL : ∀ c ∈ h :: (L.partly ++ L.reserved), c ∈ h :: L.blocks := fun c hc => by
    rcases List.mem_cons.mp hc with rfl | hc
    · exact List.mem_cons_self
    · exact List.mem_cons_of_mem h (hx.toLinked.mem_blocks_of_available hc)
  have hkept : Circular (Linked.withdrawn s b) h (L.partly ++ L.reserved) :=
    hx.ringAvailable.congr fun c hc => hagree c (hx.mem_others ha.symm (havailL c hc))
  have hnot' : b ∉ h :: (L.partly ++ L.reserved) := fun hm => hbh (havailL b hm)
  have hlist : (splicedState s h g b).list = (s.list.unlink b).linkBefore b h := rfl
  have havail : (splicedState s h g b).available = if s.mask b = full then Linked.withdrawn s b
      else (Linked.withdrawn s b).linkAfter b h := by
    unfold splicedState Linked.withdrawn
    dsimp only
    split <;> rfl
  have hsplit : ∀ c, c ∈ M.active ↔ c = b ∨ c ∈ bs := fun c => by rw [hactive, List.mem_cons]
  have hnd := hring.nodup_members
  refine ⟨⟨?_, ?_, hx.mask_header, ?_, fun c => ?_, hx.mask_reserved⟩,
    ⟨hleft, ?_, hy.mask_header, ?_, fun c => ?_, hy.mask_reserved⟩, ?_, ?_⟩
  · exact htaken.linkBefore_back hnot
  · rw [havail]
    unfold Lists.gets
    dsimp only
    by_cases hfull : s.mask b = full
    · rw [if_pos hfull, if_pos hfull]
      exact hkept
    · rw [if_neg hfull, if_neg hfull]
      exact hkept.linkAfter_front hnot'
  · intro c hc
    rcases List.mem_append.mp hc with hc | hc
    · exact hx.mask_active c hc
    · rw [List.mem_singleton.mp hc]
      exact hy.mask_active b hb
  · have hmem : c ∈ (L.gets s b).partly ↔ c ∈ L.partly ∨ c = b ∧ s.mask b ≠ full := by
      unfold Lists.gets
      by_cases hfull : s.mask b = full
      · rw [if_pos hfull, or_iff_left fun hc => hc.2 hfull]
      · rw [if_neg hfull, List.mem_cons, or_comm, and_iff_left hfull]
    rw [hmem, hx.mem_partly, hmask]
    show _ ↔ c ∈ L.active ++ [b] ∧ _
    rw [List.mem_append, List.mem_singleton, or_and_right]
    exact or_congr_right (and_congr_right fun hc => by rw [hc])
  · rw [havail]
    by_cases hfull : s.mask b = full
    · rw [if_pos hfull]
      exact hwithdrawn
    · rw [if_neg hfull]
      refine hwithdrawn.congr (hkept.linkAfter_front_agree hnot' fun c hc => ?_)
      obtain ⟨hcb, hcM⟩ := havailM c hc
      exact ⟨hcb, fun hm => ha.blocks c hcM (havailL c hm)⟩
  · exact fun c hc => hy.mask_active c ((hsplit c).mpr (Or.inr hc))
  · show c ∈ M.partly.filter (· ≠ b) ↔ c ∈ bs ∧ s.mask c ≠ full
    rw [List.mem_filter, hy.mem_partly, hsplit, decide_eq_true_iff]
    constructor
    · rintro ⟨⟨hc, hne⟩, hcb⟩
      exact ⟨hc.resolve_left hcb, hne⟩
    · rintro ⟨hc, hne⟩
      exact ⟨⟨Or.inr hc, hne⟩, fun heq => (List.nodup_cons.mp hnd).1 (heq ▸ hc)⟩
  · refine (hfirst.unlink_agree fun c hc hm => hc.2.2 (hM c hm)).trans
      (htaken.linkBefore_back_agree hnot fun c hc => ⟨fun heq => hc.2.2 (heq ▸ hbg), fun hm => ?_⟩)
    exact hc.1.2 (hL c hm)
  · rw [havail]
    have hfirst' : Links.AgreeOn (others s h L ∩ others s g M) s.available (Linked.withdrawn s b) :=
      fun c hc => hagree c hc.2
    by_cases hfull : s.mask b = full
    · rw [if_pos hfull]
      exact hfirst'
    · rw [if_neg hfull]
      exact hfirst'.trans (hkept.linkAfter_front_agree hnot' fun c hc =>
        ⟨fun heq => hc.2.2 (heq ▸ hbg), fun hm => hc.1.2 (havailL c hm)⟩)

/-- **A block is handed over.** -/
theorem splice_step (hx : Shape s h L) (hy : Shape s g M) (ha : Apart s h L g M)
    (hactive : M.active = b :: bs) :
    Handed s h L g M (splicedState s h g b) (L.gets s b) (M.loses bs b) := by
  obtain ⟨hlx, hly, hlist, havail⟩ := hx.splice_linked hy ha hactive
  have hbM : b ∈ M.blocks := List.mem_append_left _ (hactive ▸ List.mem_cons_self)
  have hgh : g ≠ h := fun heq => ha.blocks g List.mem_cons_self (heq ▸ List.mem_cons_self)
  have hnd := hy.nodup_blocks
  have hcons : M.blocks = b :: (bs ++ M.reserved) := by
    rw [Lists.blocks, hactive, List.cons_append]
  have hgets : ∀ c, c ∈ (L.gets s b).blocks ↔ c ∈ L.blocks ∨ c = b := fun c => by
    show c ∈ L.active ++ [b] ++ L.reserved ↔ c ∈ L.active ++ L.reserved ∨ c = b
    simp only [List.mem_append, List.mem_singleton]
    tauto
  have hloses : ∀ c, c ∈ (M.loses bs b).blocks ↔ c ∈ M.blocks ∧ c ≠ b := fun c => by
    show c ∈ bs ++ M.reserved ↔ _
    rw [hcons] at hnd ⊢
    rw [List.mem_cons]
    constructor
    · exact fun hc => ⟨Or.inr hc, fun heq => (List.nodup_cons.mp hnd).1 (heq ▸ hc)⟩
    · exact fun hc => hc.1.resolve_left hc.2
  have hstored : Stored s (L.gets s b).blocks :=
    (hx.stored.append hy.stored ha.data).subset fun c hc => List.mem_append.mpr
      (((hgets c).mp hc).imp_right fun heq : c = b => heq ▸ hbM)
  have hstored' : Stored s (M.loses bs b).blocks :=
    hy.stored.subset fun c hc => ((hloses c).mp hc).1
  have hpop : Mask.popcount (s.mask b) = (s.positions [b]).length := by
    rw [State.length_positions, List.map_singleton, List.sum_singleton]
  refine ⟨⟨hlx, ⟨hstored.block, hstored.chunk, hstored.data_inj, hstored.isSome⟩, hx.header, ?_, ?_⟩,
    ⟨hly, ⟨hstored'.block, hstored'.chunk, hstored'.data_inj, hstored'.isSome⟩, hy.header, ?_, ?_⟩,
    ?_, fun _ _ => rfl, fun _ _ => rfl, rfl, rfl, rfl, rfl, hlist, havail, fun k hk hk' => ?_⟩
  · show _ = (L.active ++ [b] ++ L.reserved).length
    simp only [splicedState, update_self, update_of_ne hgh.symm, hx.numBlocks, Lists.blocks,
      List.length_append, List.length_singleton]
    omega
  · show _ = (s.positions (L.active ++ [b])).length
    simp only [splicedState, update_self, update_of_ne hgh.symm]
    rw [hx.size, hpop, State.positions_append, List.length_append]
  · show _ = (bs ++ M.reserved).length
    simp only [splicedState, update_self, update_of_ne hgh]
    rw [hy.numBlocks, hcons]
    rfl
  · show _ = (s.positions bs).length
    have hpos : s.positions M.active = s.positions [b] ++ s.positions bs := by
      rw [hactive, ← State.positions_append]
      rfl
    simp only [splicedState, update_self, update_of_ne hgh]
    rw [hy.size, hpos, hpop, List.length_append, Nat.add_sub_cancel_left]
  · show ((L.active ++ [b] ++ L.reserved) ++ (bs ++ M.reserved)).Perm
      (L.active ++ L.reserved ++ (M.active ++ M.reserved))
    rw [hactive, List.perm_iff_count]
    intro c
    simp only [List.count_append, List.count_cons, List.count_nil]
    omega
  · exact ⟨(update_of_ne hk _ _).trans (update_of_ne hk' _ _),
      (update_of_ne hk _ _).trans (update_of_ne hk' _ _)⟩

end Shape

/-! ## All of them -/

/-- **What `splice` promises**: the elements of the one hub follow those of the other, none is
touched, and the hub that is emptied keeps its reserved blocks. Both are hubs. -/
structure Spliced (s : State α) (h : ℕ) (L : Lists) (g : ℕ) (M : Lists) (t : State α) : Prop where
  shape : ∃ L', Shape t h L' ∧ L'.active = L.active ++ M.active ∧ L'.reserved = L.reserved
    ∧ Apart t h L' g ⟨[], [], M.reserved⟩
  emptied : Shape t g ⟨[], [], M.reserved⟩
  positions : t.positions (L.active ++ M.active) = s.positions L.active ++ s.positions M.active
  contents : t.contents (L.active ++ M.active) = s.contents L.active ++ s.contents M.active
  slot : t.slot = s.slot
  data : t.data = s.data
  log : t.log = s.log

/-- The blocks that are left are moved, and nothing else changes. -/
theorem spliceLoop_run {rounds : ℕ} (hx : Shape s h L) (hy : Shape s g M) (ha : Apart s h L g M)
    (hlen : M.active.length < rounds) :
    ∃ t L', spliceLoop h g rounds (M.active.headD g) s = .done () t
      ∧ Handed s h L g M t L' ⟨[], [], M.reserved⟩
      ∧ L'.active = L.active ++ M.active ∧ L'.reserved = L.reserved
      ∧ t.mask = s.mask ∧ t.data = s.data := by
  obtain ⟨bs, hbs⟩ : ∃ bs, M.active = bs := ⟨_, rfl⟩
  induction bs generalizing s L M rounds with
  | nil =>
    obtain ⟨rounds, rfl⟩ : ∃ r, rounds = r + 1 := ⟨rounds - 1, by omega⟩
    have hpartly : M.partly = [] := List.eq_nil_iff_forall_not_mem.mpr fun b hb => by
      have hmem := ((hy.mem_partly b).mp hb).1
      rw [hbs] at hmem
      exact List.not_mem_nil hmem
    have hM : M = ⟨[], [], M.reserved⟩ := by
      cases M
      exact congrArg₂ (Lists.mk · · _) hbs hpartly
    refine ⟨s, L, ?_, hM ▸ Handed.refl hx hy, by rw [hbs, List.append_nil], rfl, rfl, rfl⟩
    rw [hbs, List.headD_nil, spliceLoop, if_pos rfl]
    rfl
  | cons b bs ih =>
    obtain ⟨rounds, rfl⟩ : ∃ r, rounds = r + 1 := ⟨rounds - 1, by omega⟩
    have hbg : b ≠ g := (hy.ne_header (hbs ▸ List.mem_cons_self)).symm
    have hstep := hx.splice_step hy ha hbs
    have hring := hy.ring
    rw [hbs] at hring hlen
    have hfirst : Circular s.list g ([] ++ b :: bs) := hring
    obtain ⟨t, L', hrun, hhanded, hactive, hreserved, hmask, hdata⟩ :=
      ih hstep.left hstep.right (hstep.apart hx hy ha) (Nat.lt_of_succ_lt_succ hlen) rfl
    refine ⟨t, L', ?_, hstep.trans hhanded, ?_, hreserved, hmask, hdata⟩
    · rw [hbs, List.headD_cons, spliceLoop_succ hbg, hfirst.next_member]
      exact hrun
    · rw [hactive, hbs]
      exact List.append_assoc L.active [b] bs

/-- **A hub is spliced into another.** -/
theorem splice_run (hx : Shape s h L) (hy : Shape s g M) (ha : Apart s h L g M) :
    ∃ t L', splice h g s = .done () t ∧ Handed s h L g M t L' ⟨[], [], M.reserved⟩
      ∧ L'.active = L.active ++ M.active ∧ L'.reserved = L.reserved
      ∧ t.mask = s.mask ∧ t.data = s.data := by
  have hlen : M.active.length < s.rounds g := by
    have hblocks : M.active.length ≤ s.numBlocks g := by
      rw [hy.numBlocks, Lists.blocks, List.length_append]
      omega
    unfold State.rounds N
    omega
  obtain ⟨t, L', hrun, hhanded⟩ := spliceLoop_run hx hy ha hlen
  refine ⟨t, L', ?_, hhanded⟩
  unfold splice nextOf
  rw [Prog.gets_bind, Prog.gets_bind, hy.ring.next_header]
  exact hrun

/-- **Splicing joins two hubs**, whatever their blocks are. -/
theorem splice_joins (hx : Shape s h L) (hy : Shape s g M) (ha : Apart s h L g M) :
    ∃ t, splice h g s = .done () t ∧ Spliced s h L g M t := by
  obtain ⟨t, L', hrun, hhanded, hactive, hreserved, hmask, hdata⟩ := splice_run hx hy ha
  have hpos : ∀ bs, t.positions bs = s.positions bs := fun bs =>
    State.positions_congr fun b _ => by rw [hmask]
  have hcontents : ∀ bs, t.contents bs = s.contents bs := fun bs => by
    unfold State.contents State.slotAt
    rw [hpos, hhanded.slot, hdata]
  refine ⟨t, hrun, ⟨L', hhanded.left, hactive, hreserved, hhanded.apart hx hy ha⟩, hhanded.right, ?_,
    ?_, hhanded.slot, hdata, hhanded.log⟩
  · rw [hpos, State.positions_append]
  · rw [hcontents, State.contents, State.positions_append, List.filterMap_append]
    rfl

/-- **Two hubs**: one of two elements with a hole between them, and one of a single
element. -/
def twoHubs : State ℕ where
  list := ⟨fun b => if b = 1 then 2 else if b = 2 then 1 else if b = 4 then 5 else 4,
    fun b => if b = 1 then 2 else if b = 2 then 1 else if b = 4 then 5 else 4⟩
  available := ⟨fun b => if b = 1 then 2 else if b = 2 then 1 else if b = 4 then 5 else 4,
    fun b => if b = 1 then 2 else if b = 2 then 1 else if b = 4 then 5 else 4⟩
  mask b := if b = 2 then 5 else 1
  data b := b
  slot p := if p = (2, 0) ∨ p = (2, 2) ∨ p = (5, 0) then some 7 else none
  blocks b := decide (b ∈ [1, 2, 4, 5])
  chunks c := decide (c ∈ [2, 5])
  numBlocks _ := 1
  size g := if g = 1 then 2 else 1
  ops := 0
  log := []

theorem shape_twoHubs : Shape twoHubs 1 ⟨[2], [2], []⟩ ∧ Shape twoHubs 4 ⟨[5], [5], []⟩ := by
  have hpartly : ∀ {c : ℕ}, twoHubs.mask c ≠ full → ∀ b, b ∈ [c] ↔ b ∈ [c] ∧ twoHubs.mask b ≠ full :=
    fun hc b => ⟨fun hb => ⟨hb, List.mem_singleton.mp hb ▸ hc⟩, And.left⟩
  refine ⟨⟨⟨?_, ?_, rfl, ?_, hpartly ?_, ?_⟩, ⟨?_, ?_, ?_, ?_⟩, rfl, rfl, ?_⟩,
    ⟨⟨?_, ?_, rfl, ?_, hpartly ?_, ?_⟩, ⟨?_, ?_, ?_, ?_⟩, rfl, rfl, ?_⟩⟩
  all_goals first
    | exact ⟨by decide, ⟨rfl, rfl⟩, ⟨rfl, rfl⟩⟩
    | decide

theorem splice_joins_twoHubs : ∃ t, splice 1 4 twoHubs = .done () t
    ∧ Spliced twoHubs 1 ⟨[2], [2], []⟩ 4 ⟨[5], [5], []⟩ t :=
  splice_joins shape_twoHubs.1 shape_twoHubs.2 ⟨by decide, by decide⟩

end Hub
