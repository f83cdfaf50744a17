import BoostContainer.Hub.HubAssign

/-!
# The capacity of a hub

`reserve` allocates blocks until there is room enough. They are reserved, behind all
others. `trim_capacity` takes them back from the end, as long as what is left is enough for
what it was asked to keep. The destructor takes all blocks back: the reserved ones first, then the active
ones, each after its elements, and the links between them are not touched while it
does.
-/

open Function

namespace Hub

variable {α : Type}

section Programs

variable (e : Env α) (h : ℕ)

/-- The loop of `reserve`. -/
def reserveLoop (n : ℕ) : ℕ → Prog (State α) Unit
  | 0 => Prog.undefined
  | rounds + 1 => do
    let blocks ← Prog.gets fun s => s.numBlocks h
    if blocks * N < n then do
      let _ ← createNewAvailableBlock e h
      reserveLoop n rounds
    else pure ()

/-- **`reserve`** throws what is more than `max_size()`. -/
def reserve (maxSize n : ℕ) : Prog (State α) Unit :=
  if maxSize < n then Prog.throw else reserveLoop e h n (n + 1)

/-- The loop of `trim_capacity`. -/
def trimLoop (n : ℕ) : ℕ → ℕ → Prog (State α) Unit
  | 0, _ => Prog.undefined
  | rounds + 1, pbb => do
    let blocks ← Prog.gets fun s => s.numBlocks h
    let mask ← maskOf pbb
    if N ≤ blocks * N - n ∧ pbb ≠ h ∧ mask = 0 then do
      let prev ← Prog.gets fun s => s.available.prev pbb
      unlinkAvailable pbb
      deleteBlock pbb
      dropBlocks h
      trimLoop n rounds prev
    else pure ()

/-- **`trim_capacity`** -/
def trimCapacity (n : ℕ) : Prog (State α) Unit := do
  let blocks ← Prog.gets fun s => s.numBlocks h
  if blocks * N ≤ n then pure ()
  else do
    let pbb ← Prog.gets fun s => s.available.prev h
    trimLoop h n (blocks + 1) pbb

/-- `destroy_all_in_full_block`, from a slot on. -/
def destroyAllFrom (pd : ℕ) : ℕ → ℕ → Prog (State α) Unit
  | 0, _ => pure ()
  | left + 1, n => do
    destroy (pd, n)
    destroyAllFrom pd left (n + 1)

/-- `destroy_all_in_full_block` -/
def destroyAllInFullBlock (pb : ℕ) : Prog (State α) ℕ := do
  destroyAllFrom (← dataOf pb) N 0
  pure N

/-- The loop of `reset` over the blocks without elements. -/
def resetReserved : ℕ → ℕ → Prog (State α) Unit
  | 0, _ => Prog.undefined
  | rounds + 1, pbb => do
    let mask ← maskOf pbb
    if pbb ≠ h ∧ mask = 0 then do
      let prev ← Prog.gets fun s => s.available.prev pbb
      deleteBlock pbb
      resetReserved rounds prev
    else pure ()

/-- The loop of `reset` over the blocks with elements. -/
def resetActive : ℕ → ℕ → Prog (State α) Unit
  | 0, _ => Prog.undefined
  | rounds + 1, pbb =>
    if pbb ≠ h then do
      let next ← nextOf pbb
      let mask ← maskOf pbb
      let _ ← (if mask = full then destroyAllInFullBlock pbb else destroyAllInNonemptyBlock e pbb)
      deleteBlock pbb
      resetActive rounds next
    else pure ()

/-- **`reset`** -/
def reset : Prog (State α) Unit := do
  let rounds ← Prog.gets fun s => s.numBlocks h + 1
  let pbb ← Prog.gets fun s => s.available.prev h
  resetReserved h rounds pbb
  let pbb ← nextOf h
  resetActive e h rounds pbb
  Prog.modify fun s => { s with
    list := s.list.reset h
    available := s.available.reset h
    numBlocks := update s.numBlocks h 0
    size := update s.size h 0 }

end Programs

variable {e : Env α} {s t : State α} {h b n rounds : ℕ} {L L' : Lists} {bs gone : List ℕ}

/-! ## Reserving -/

/-- **Blocks are reserved**, behind all others. -/
structure Reserved (s : State α) (h : ℕ) (L : Lists) (t : State α) (L' : Lists) : Prop where
  inserts : Inserts s h L [] t L'
  lists : ∃ more, L' = ⟨L.active, L.partly, L.reserved ++ more⟩

namespace Reserved

theorem refl (hs : Shape s h L) : Reserved s h L s L where
  inserts := Inserts.refl hs
  lists := ⟨[], by rw [List.append_nil]⟩

theorem trans {u : State α} {L'' : Lists} (k : Reserved s h L t L') (k' : Reserved t h L' u L'') :
    Reserved s h L u L'' where
  inserts := k.inserts.trans k'.inserts
  lists := by
    obtain ⟨more, rfl⟩ := k.lists
    obtain ⟨more', rfl⟩ := k'.lists
    exact ⟨more ++ more', by rw [List.append_assoc]⟩

end Reserved

/-- **The loop of `reserve`** ends as soon as there is room, or where there is no memory. -/
theorem reserveLoop_run (e : Env α) (n rounds : ℕ) : ∀ {s : State α} {L : Lists}, Shape s h L →
    0 < rounds → n < rounds + s.numBlocks h * N →
    (reserveLoop e h n rounds s).Meets
      (fun _ t => ∃ L', Reserved s h L t L' ∧ n ≤ t.numBlocks h * N
        ∧ t.numBlocks h ≤ max (s.numBlocks h) ((n + N - 1) / N))
      (fun t => ∃ L', Reserved s h L t L') := by
  induction rounds with
  | zero =>
    intro s L _ hpos _
    exact absurd hpos (Nat.lt_irrefl 0)
  | succ rounds ih =>
    intro s L hs _ hlt
    unfold reserveLoop
    rw [Prog.gets_bind]
    by_cases hroom : s.numBlocks h * N < n
    · rw [if_pos hroom]
      rcases createNewAvailableBlock_cases e s h with ⟨pb, c, hpb, hc, hrun⟩ | ⟨t, hrun, hun, hslot⟩
      · have hgrows : Reserved s h L (freshState s h pb c) (L.grows pb) :=
          ⟨Inserts.of_fresh hs hpb hc, [pb], rfl⟩
        have hnum : (freshState s h pb c).numBlocks h = s.numBlocks h + 1 := update_self _ _ _
        rw [Prog.bind_of_done hrun]
        have hpos : 0 < N := by decide
        have hmul : (s.numBlocks h + 1) * N = s.numBlocks h * N + N := Nat.succ_mul _ _
        refine (ih hgrows.inserts.shape (by omega) (by rw [hnum]; omega)).imp
          (fun _ u ⟨L', hr, hle, hmax⟩ => ⟨L', hgrows.trans hr, hle, ?_⟩)
          fun u ⟨L', hr⟩ => ⟨L', hgrows.trans hr⟩
        rw [hnum] at hmax
        refine hmax.trans (max_le ?_ (le_max_right _ _))
        refine (Nat.le_div_iff_mul_le (by decide)).mpr ?_ |>.trans (le_max_right _ _)
        omega
      · refine Prog.bind_meets_of_throws ?_
        rw [hrun]
        exact ⟨L, Inserts.of_unchanged hun hs hslot, [], by rw [List.append_nil]⟩
    · rw [if_neg hroom]
      exact ⟨L, Reserved.refl hs, Nat.le_of_not_lt hroom, le_max_left _ _⟩

/-- **`reserve`** makes room, with no block more than it takes. -/
theorem reserve_run (e : Env α) (hs : Shape s h L) (maxSize n : ℕ) :
    (reserve e h maxSize n s).Meets
      (fun _ t => ∃ L', Reserved s h L t L' ∧ n ≤ maxSize
        ∧ t.numBlocks h = max (s.numBlocks h) ((n + N - 1) / N))
      (fun t => ∃ L', Reserved s h L t L' ∧ (maxSize < n → t = s)) := by
  unfold reserve
  by_cases hmax : maxSize < n
  · rw [if_pos hmax]
    exact ⟨L, Reserved.refl hs, fun _ => rfl⟩
  · rw [if_neg hmax]
    refine (reserveLoop_run e n (n + 1) hs (Nat.succ_pos n) (by omega)).imp
      (fun _ t ⟨L', hr, hle, hnum⟩ => ⟨L', hr, Nat.le_of_not_lt hmax, le_antisymm hnum ?_⟩)
      fun t ⟨L', hr⟩ => ⟨L', hr, fun hlt => absurd hlt hmax⟩
    refine max_le ?_ ?_
    · obtain ⟨more, heq⟩ := hr.lists
      rw [hr.inserts.shape.numBlocks, hs.numBlocks, heq, Lists.blocks, Lists.blocks]
      dsimp only
      rw [List.length_append, List.length_append, List.length_append]
      omega
    · refine (Nat.div_le_iff_le_mul_add_pred (by decide)).mpr ?_
      have hcomm : N * t.numBlocks h = t.numBlocks h * N := Nat.mul_comm _ _
      omega

/-! ## Giving blocks back -/

/-- **Blocks are given back**: a hub becomes what the others are. -/
theorem Shape.given_back (hs : Shape s h L) (hl : Linked t h L')
    (hperm : (L'.blocks ++ gone).Perm L.blocks) (hmask : t.mask = s.mask) (hdata : t.data = s.data)
    (hblocks : ∀ b, t.blocks b = (s.blocks b && decide (b ∉ gone)))
    (hchunks : ∀ c, t.chunks c = (s.chunks c && decide (c ∉ gone.map s.data)))
    (hkept : ∀ c n, c ∉ gone.map s.data → t.slot (c, n) = s.slot (c, n))
    (hgone : ∀ b ∈ gone, ∀ n < N, t.slot (s.data b, n) = none)
    (hnum : t.numBlocks = update s.numBlocks h L'.blocks.length)
    (hsize : t.size = update s.size h (s.positions L'.active).length)
    (hlist : Links.AgreeOn (others s h L) s.list t.list)
    (havail : Links.AgreeOn (others s h L) s.available t.available) : Becomes s h L t L' := by
  have hnd := hperm.nodup_iff.mpr hs.nodup_blocks
  have hin : ∀ b ∈ L'.blocks, b ∈ L.blocks := fun b hb =>
    hperm.mem_iff.mp (List.mem_append_left gone hb)
  have hout : ∀ b ∈ gone, b ∈ L.blocks := fun b hb =>
    hperm.mem_iff.mp (List.mem_append_right _ hb)
  have hstays : ∀ b ∈ L'.blocks, b ∉ gone := fun b hb hmem =>
    (List.nodup_append.mp hnd).2.2 b hb b hmem rfl
  have hleft : ∀ b ∈ L.blocks, b ∉ gone → b ∈ L'.blocks := fun b hb hnot =>
    (List.mem_append.mp (hperm.mem_iff.mpr hb)).resolve_right hnot
  have hdatas : ∀ b ∈ L.blocks, b ∉ gone → s.data b ∉ gone.map s.data := fun b hb hnot hmem => by
    obtain ⟨a, ha, heq⟩ := List.mem_map.mp hmem
    exact hnot (hs.stored.data_inj a (hout a ha) b hb heq ▸ ha)
  have hheader : h ∉ gone := fun hmem => hs.header_notMem (hout h hmem)
  have hshape : Shape t h L' :=
    { toLinked := hl
      stored :=
        { block := fun b hb => by
            rw [hblocks, hs.stored.block b (hin b hb), decide_eq_true (hstays b hb)]
            rfl
          chunk := fun b hb => by
            rw [hchunks, hdata, hs.stored.chunk b (hin b hb),
              decide_eq_true (hdatas b (hin b hb) (hstays b hb))]
            rfl
          data_inj := fun b hb b' hb' heq => by
            rw [hdata] at heq
            exact hs.stored.data_inj b (hin b hb) b' (hin b' hb') heq
          isSome := fun b hb n hn => by
            rw [hdata, hmask, hkept _ n (hdatas b (hin b hb) (hstays b hb))]
            exact hs.stored.isSome b (hin b hb) n hn }
      header := by
        rw [hblocks, hs.header, decide_eq_true hheader]
        rfl
      numBlocks := by rw [hnum, update_self]
      size := by
        rw [hsize, update_self, State.positions, State.positions, hmask] }
  refine ⟨hshape, ?_, fun b hb => ?_, fun c hc => ?_, fun c n hn hlive => ?_⟩
  · exact
      { list := hlist
        available := havail
        block := fun b hb => by
          have hnot : b ∉ gone := fun hmem => hb.2 (List.mem_cons_of_mem h (hout b hmem))
          rw [hblocks, hmask, hdata, hb.1, decide_eq_true hnot]
          exact ⟨rfl, rfl, rfl⟩
        slot := fun c hc hnot => by
          have hnot' : c ∉ gone.map s.data := fun hmem => by
            obtain ⟨a, ha, heq⟩ := List.mem_map.mp hmem
            exact hnot a (hout a ha) heq
          rw [hchunks, hc, decide_eq_true hnot']
          exact ⟨rfl, fun n => hkept c n hnot'⟩
        counters := fun g hg => by
          rw [hnum, hsize, update_of_ne hg, update_of_ne hg]
          exact ⟨rfl, rfl⟩
        header := fun hh => by
          rw [hblocks, hh, decide_eq_true hheader]
          rfl
        grown := fun b hb => Or.inl (hin b hb)
        data := fun b hb => Or.inl ⟨b, hin b hb, by rw [hdata]⟩ }
  · rw [hblocks, Bool.and_eq_true, decide_eq_true_iff] at hb
    by_cases hmem : b ∈ L.blocks
    · exact Or.inr (hleft b hmem hb.2)
    · exact Or.inl ⟨hb.1, hmem⟩
  · rw [hchunks, Bool.and_eq_true, decide_eq_true_iff] at hc
    refine or_iff_not_imp_right.mpr fun hnot => ⟨hc.1, fun a ha heq => hnot ⟨a, ?_, ?_⟩⟩
    · exact hleft a ha fun hmem => hc.2 (List.mem_map.mpr ⟨a, hmem, heq⟩)
    · exact (congrFun hdata a).trans heq
  · have hc : c ∉ gone.map s.data := fun hmem => by
      obtain ⟨a, ha, rfl⟩ := List.mem_map.mp hmem
      rw [hgone a ha n hn] at hlive
      cases hlive
    rw [hkept c n hc] at hlive
    refine or_iff_not_imp_right.mpr fun hnot => ⟨hlive, fun a ha heq => hnot ⟨a, ?_, ?_⟩⟩
    · exact hleft a ha fun hmem => hc (List.mem_map.mpr ⟨a, hmem, heq⟩)
    · exact (congrFun hdata a).trans heq

/-- **Reserved blocks are given back**, from the end. -/
structure Trimmed (s : State α) (h : ℕ) (L : Lists) (t : State α) (L' : Lists) : Prop where
  becomes : Becomes s h L t L'
  lists : ∃ r, L' = ⟨L.active, L.partly, r⟩ ∧ r <+: L.reserved
  mask : t.mask = s.mask
  data : t.data = s.data
  slot : t.slot = s.slot
  log : t.log = s.log

namespace Trimmed

theorem refl (hs : Shape s h L) : Trimmed s h L s L :=
  ⟨Becomes.refl hs, ⟨L.reserved, rfl, List.prefix_rfl⟩, rfl, rfl, rfl, rfl⟩

theorem trans {u : State α} {L'' : Lists} (k : Trimmed s h L t L') (k' : Trimmed t h L' u L'') :
    Trimmed s h L u L'' where
  becomes := k.becomes.trans k'.becomes
  lists := by
    obtain ⟨r, rfl, hr⟩ := k.lists
    obtain ⟨r', rfl, hr'⟩ := k'.lists
    exact ⟨r', rfl, hr'.trans hr⟩
  mask := k'.mask.trans k.mask
  data := k'.data.trans k.data
  slot := k'.slot.trans k.slot
  log := k'.log.trans k.log

/-- The elements are where they were. -/
theorem contents (k : Trimmed s h L t L') : t.contents L'.active = s.contents L.active := by
  obtain ⟨r, rfl, -⟩ := k.lists
  unfold State.contents State.positions State.slotAt
  rw [k.mask, k.data, k.slot]

end Trimmed

/-- Memory without a reserved block. -/
def trimmedState (s : State α) (h b : ℕ) : State α :=
  { s with
    available := s.available.unlink b
    chunks := update s.chunks (s.data b) false
    blocks := update s.blocks b false
    numBlocks := update s.numBlocks h (s.numBlocks h - 1) }

theorem update_false {p : ℕ → Bool} (a : ℕ) :
    ∀ b, update p a false b = (p b && decide (b ∉ [a])) := fun b => by
  by_cases hb : b = a
  · rw [hb, update_self, decide_eq_false (not_not_intro (List.mem_singleton.mpr rfl)), Bool.and_false]
  · rw [update_of_ne hb, decide_eq_true (List.mem_singleton.not.mpr hb), Bool.and_true]

/-- **The last reserved block is given back.** -/
theorem Shape.trimmed {r : List ℕ} (hs : Shape s h L) (hlast : L.reserved = r ++ [b]) :
    Trimmed s h L (trimmedState s h b) ⟨L.active, L.partly, r⟩ := by
  have hb : b ∈ L.reserved := hlast ▸ List.mem_append_right r List.mem_cons_self
  have hblock : b ∈ L.blocks := List.mem_append_right _ hb
  have hring := hs.ringAvailable
  rw [hlast, ← List.append_assoc] at hring
  have hlen : L.blocks.length = (L.active ++ r).length + 1 := by
    rw [Lists.blocks, hlast, ← List.append_assoc, List.length_append, List.length_singleton]
  refine ⟨?_, ⟨r, rfl, hlast ▸ List.prefix_append _ _⟩, rfl, rfl, rfl, rfl⟩
  refine hs.given_back ?_ ?_ rfl rfl (update_false b) (update_false (s.data b))
    (fun _ _ _ => rfl) ?_ ?_ ?_ (fun _ _ => ⟨rfl, rfl⟩) ?_
  · exact
      { ring := hs.ring
        ringAvailable := by
          have hgone := hring.unlink
          rwa [List.append_nil] at hgone
        mask_header := hs.mask_header
        mask_active := hs.mask_active
        mem_partly := hs.mem_partly
        mask_reserved := fun c hc => hs.mask_reserved c (hlast ▸ List.mem_append_left [b] hc) }
  · exact List.Perm.of_eq (by rw [Lists.blocks, Lists.blocks, hlast, List.append_assoc])
  · intro c hc n hn
    obtain rfl := List.mem_singleton.mp hc
    have hraw := hs.stored.isSome c hblock n hn
    rw [hs.mask_reserved c hb, show (0 : BitVec 64).getLsbD n = false from BitVec.getLsbD_zero] at hraw
    exact Option.isNone_iff_eq_none.mp (Option.isSome_eq_false_iff.mp hraw)
  · show update s.numBlocks h (s.numBlocks h - 1) = _
    rw [hs.numBlocks, hlen]
    rfl
  · show s.size = _
    rw [← hs.size, update_eq_self]
  · refine hring.unlink_agree fun c hc hmem => hc.2 ?_
    refine (List.mem_cons.mp hmem).elim (fun heq => heq ▸ List.mem_cons_self) fun hmem => ?_
    refine List.mem_cons_of_mem h (hs.mem_blocks_of_available ?_)
    rw [hlast, ← List.append_assoc]
    exact hmem

/-- What the loop does with the last block. -/
theorem trim_block_run (hs : Shape s h L) (hb : b ∈ L.blocks) {k : Prog (State α) Unit} :
    (do unlinkAvailable b
        deleteBlock b
        dropBlocks h
        k) s = k (trimmedState s h b) := by
  have hchunk : deallocateData (s.data b) { s with available := s.available.unlink b }
      = .done () _ := deallocateData_of (hs.stored.chunk b hb)
  have hblock : deallocateBlock b
      { s with available := s.available.unlink b, chunks := update s.chunks (s.data b) false }
      = .done () _ := deallocateBlock_of (hs.stored.block b hb)
  unfold unlinkAvailable deleteBlock dataOf dropBlocks
  rw [Prog.modify_bind, Prog.bind_assoc, Prog.gets_bind, Prog.bind_assoc]
  dsimp only
  rw [Prog.bind_of_done hchunk, Prog.bind_of_done hblock]
  rfl

/-- **The loop of `trim_capacity`** gives back what is not asked for, and no block with
elements. -/
theorem trimLoop_run (n rounds : ℕ) : ∀ {s : State α} {L : Lists}, Shape s h L →
    L.reserved.length < rounds → (n + N - 1) / N ≤ s.numBlocks h →
    ∃ t L', trimLoop h n rounds ((L.partly ++ L.reserved).getLastD h) s = .done () t
      ∧ Trimmed s h L t L' ∧ t.numBlocks h = max L.active.length ((n + N - 1) / N) := by
  induction rounds with
  | zero =>
    intro s L _ hlt _
    exact absurd hlt (Nat.not_lt_zero _)
  | succ rounds ih =>
    intro s L hs hlt hle
    have hnum := hs.numBlocks
    have hpos : 0 < N := by decide
    rw [Lists.blocks, List.length_append] at hnum
    unfold trimLoop maskOf
    rw [Prog.gets_bind, Prog.gets_bind]
    rcases List.eq_nil_or_concat L.reserved with hnil | ⟨r, b, hlast⟩
    · have hstop : ¬ (N ≤ s.numBlocks h * N - n ∧ (L.partly ++ L.reserved).getLastD h ≠ h
          ∧ s.mask ((L.partly ++ L.reserved).getLastD h) = 0) := by
        rintro ⟨-, hne, hzero⟩
        rw [hnil, List.append_nil] at hne hzero
        rcases List.mem_cons.mp (List.getLastD_mem_cons (l := L.partly) (a := h)) with heq | hmem
        · exact hne heq
        · exact hs.mask_active _ ((hs.mem_partly _).mp hmem).1 hzero
      rw [if_neg hstop]
      rw [hnil, List.length_nil, Nat.add_zero] at hnum
      exact ⟨s, L, rfl, Trimmed.refl hs, by rw [hnum] at hle ⊢; exact (max_eq_left hle).symm⟩
    · rw [List.concat_eq_append] at hlast
      have hb : b ∈ L.reserved := hlast ▸ List.mem_append_right r List.mem_cons_self
      have hpbb : (L.partly ++ L.reserved).getLastD h = b := by
        rw [hlast, ← List.append_assoc, List.getLastD_concat]
      have hbh : b ≠ h := fun heq => hs.header_notMem (heq ▸ List.mem_append_right _ hb)
      rw [hpbb]
      rw [hlast, List.length_append, List.length_singleton] at hnum hlt
      by_cases hmore : N ≤ s.numBlocks h * N - n
      · have hstep := hs.trimmed hlast
        have hprev : s.available.prev b = (L.partly ++ r).getLastD h := by
          have hring := hs.ringAvailable
          rw [hlast, ← List.append_assoc] at hring
          exact hring.prev_member
        have hnum' : (trimmedState s h b).numBlocks h = s.numBlocks h - 1 := update_self _ _ _
        obtain ⟨t, L', hrun, htrim, hcount⟩ := ih hstep.becomes.shape (Nat.lt_of_succ_lt_succ hlt) (by
          rw [hnum']
          refine Nat.le_sub_one_of_lt ((Nat.div_lt_iff_lt_mul (by decide)).mpr ?_)
          omega)
        refine ⟨t, L', ?_, hstep.trans htrim, hcount⟩
        rw [if_pos ⟨hmore, hbh, hs.mask_reserved b hb⟩, Prog.gets_bind, hprev,
          trim_block_run hs (List.mem_append_right _ hb)]
        exact hrun
      · rw [if_neg fun hc => hmore hc.1]
        refine ⟨s, L, rfl, Trimmed.refl hs, ?_⟩
        have hceil : s.numBlocks h ≤ (n + N - 1) / N := by
          refine (Nat.le_div_iff_mul_le hpos).mpr ?_
          omega
        omega

/-- **`trim_capacity`** leaves room for what it was asked to keep, or as many blocks as
have elements. -/
theorem trimCapacity_run (hs : Shape s h L) (n : ℕ) :
    ∃ t L', trimCapacity h n s = .done () t ∧ Trimmed s h L t L'
      ∧ t.numBlocks h = min (s.numBlocks h) (max L.active.length ((n + N - 1) / N)) := by
  have hpos : 0 < N := by decide
  have hactive : L.active.length ≤ s.numBlocks h := by
    rw [hs.numBlocks, Lists.blocks, List.length_append]
    omega
  unfold trimCapacity
  rw [Prog.gets_bind]
  by_cases henough : s.numBlocks h * N ≤ n
  · have hceil : s.numBlocks h ≤ (n + N - 1) / N := by
      refine (Nat.le_div_iff_mul_le hpos).mpr ?_
      omega
    rw [if_pos henough]
    exact ⟨s, L, rfl, Trimmed.refl hs, (min_eq_left (hceil.trans (le_max_right _ _))).symm⟩
  · have hceil : (n + N - 1) / N ≤ s.numBlocks h := by
      refine (Nat.div_le_iff_le_mul_add_pred hpos).mpr ?_
      have hcomm : N * s.numBlocks h = s.numBlocks h * N := Nat.mul_comm _ _
      omega
    have hrounds : L.reserved.length < s.numBlocks h + 1 := by
      rw [hs.numBlocks, Lists.blocks, List.length_append]
      omega
    obtain ⟨t, L', hrun, htrim, hcount⟩ := trimLoop_run n (s.numBlocks h + 1) hs hrounds hceil
    rw [if_neg henough, Prog.gets_bind, hs.ringAvailable.prev_header]
    exact ⟨t, L', hrun, htrim, hcount.trans (min_eq_right (max_le hactive hceil)).symm⟩

/-! ## The end of a hub -/

attribute [local instance] lawfulBEq_slot in
/-- Memory without some blocks and what was in them. -/
def freedState (s : State α) (bs : List ℕ) : State α :=
  { s with
    slot := fun p => if p ∈ (s.positions bs).map s.slotAt then none else s.slot p
    blocks := fun b => s.blocks b && decide (b ∉ bs)
    chunks := fun c => s.chunks c && decide (c ∉ bs.map s.data)
    log := s.log ++ (s.positions bs).map fun x => .destroy (s.slotAt x) }

theorem freedState_nil (s : State α) : freedState s [] = s := by
  unfold freedState
  simp

theorem decide_notMem_append (a : ℕ) (l l' : List ℕ) :
    (decide (a ∉ l) && decide (a ∉ l')) = decide (a ∉ l ++ l') := by
  rw [← Bool.decide_and]
  exact decide_eq_decide.mpr (by rw [List.mem_append, not_or])

theorem freedState_append (s : State α) (bs bs' : List ℕ) :
    freedState (freedState s bs) bs' = freedState s (bs ++ bs') := by
  have hslot : (freedState (freedState s bs) bs').slot = (freedState s (bs ++ bs')).slot := by
    funext p
    show (if p ∈ (s.positions bs').map s.slotAt then none
      else if p ∈ (s.positions bs).map s.slotAt then none else s.slot p)
      = if p ∈ (s.positions (bs ++ bs')).map s.slotAt then none else s.slot p
    rw [State.positions_append, List.map_append]
    by_cases hp : p ∈ (s.positions bs').map s.slotAt
    · rw [if_pos hp, if_pos (List.mem_append_right _ hp)]
    · rw [if_neg hp]
      exact if_congr (by rw [List.mem_append, or_iff_left hp]) rfl rfl
  have hblocks : (freedState (freedState s bs) bs').blocks = (freedState s (bs ++ bs')).blocks := by
    funext b
    show (s.blocks b && decide (b ∉ bs) && decide (b ∉ bs')) = (s.blocks b && decide (b ∉ bs ++ bs'))
    rw [Bool.and_assoc, decide_notMem_append]
  have hchunks : (freedState (freedState s bs) bs').chunks = (freedState s (bs ++ bs')).chunks := by
    funext c
    show (s.chunks c && decide (c ∉ bs.map s.data) && decide (c ∉ bs'.map s.data))
      = (s.chunks c && decide (c ∉ (bs ++ bs').map s.data))
    rw [Bool.and_assoc, decide_notMem_append, List.map_append]
  have hlog : (freedState (freedState s bs) bs').log = (freedState s (bs ++ bs')).log := by
    show s.log ++ (s.positions bs).map _ ++ (s.positions bs').map _ = s.log ++ _
    rw [State.positions_append, List.map_append, List.append_assoc]
    rfl
  show { s with
    slot := (freedState (freedState s bs) bs').slot
    blocks := (freedState (freedState s bs) bs').blocks
    chunks := (freedState (freedState s bs) bs').chunks
    log := (freedState (freedState s bs) bs').log } = _
  rw [hslot, hblocks, hchunks, hlog]
  rfl

/-- What is still there when other blocks were given back. -/
theorem Shape.freed (hs : Shape s h L) (hb : b ∈ L.blocks) (hdone : ∀ c ∈ bs, c ∈ L.blocks)
    (hnot : b ∉ bs) :
    (freedState s bs).blocks b = true ∧ (freedState s bs).chunks (s.data b) = true
      ∧ ∀ n ∈ Mask.bits (s.mask b), ((freedState s bs).slot (s.data b, n)).isSome = true := by
  have hdata : s.data b ∉ bs.map s.data := fun hmem => by
    obtain ⟨a, ha, heq⟩ := List.mem_map.mp hmem
    exact hnot (hs.stored.data_inj a (hdone a ha) b hb heq ▸ ha)
  refine ⟨?_, ?_, fun n hn => ?_⟩
  · show (s.blocks b && decide (b ∉ bs)) = true
    rw [hs.stored.block b hb, decide_eq_true hnot]
    rfl
  · show (s.chunks (s.data b) && decide _) = true
    rw [hs.stored.chunk b hb, decide_eq_true hdata]
    rfl
  · have hlive : (s.slot (s.data b, n)).isSome = true := by
      rw [hs.stored.isSome b hb n (Mask.lt_of_mem_bits hn)]
      exact Mask.mem_bits.mp hn
    show (if _ then none else s.slot (s.data b, n)).isSome = true
    rw [if_neg, hlive]
    intro hmem
    obtain ⟨x, hx, heq⟩ := List.mem_map.mp hmem
    exact hdata (List.mem_map.mpr ⟨x.pbb, (State.mem_positions.mp hx).1, congrArg Prod.fst heq⟩)

theorem deleteBlock_run (hblock : s.blocks b = true) (hchunk : s.chunks (s.data b) = true) :
    deleteBlock b s = .done () { s with
      blocks := update s.blocks b false
      chunks := update s.chunks (s.data b) false } := by
  have hdata := deallocateData_of hchunk
  unfold deleteBlock dataOf
  rw [Prog.gets_bind, Prog.bind_of_done hdata]
  exact deallocateBlock_of hblock

/-- A block goes when its elements are gone. -/
theorem freedState_single (s : State α) (b : ℕ) :
    freedState s [b] = { clearedSlots s (s.data b) (Mask.bits (s.mask b)) with
      blocks := update s.blocks b false
      chunks := update s.chunks (s.data b) false } := by
  have hpos : (s.positions [b]).map s.slotAt = (Mask.bits (s.mask b)).map (s.data b, ·) := by
    rw [State.positions_cons, State.positions_nil, List.append_nil, List.map_map]
    rfl
  have hlog : (s.positions [b]).map (fun x => Event.destroy (s.slotAt x))
      = (Mask.bits (s.mask b)).map fun n => .destroy (s.data b, n) := by
    rw [State.positions_cons, State.positions_nil, List.append_nil, List.map_map]
    rfl
  unfold freedState clearedSlots
  rw [hpos, hlog]
  congr 1
  · exact (funext (update_false b)).symm
  · exact (funext (update_false (s.data b))).symm

/-- A block without elements just goes. -/
theorem freedState_single_of_zero (hzero : s.mask b = 0) :
    freedState s [b] = { s with
      blocks := update s.blocks b false
      chunks := update s.chunks (s.data b) false } := by
  rw [freedState_single, hzero, Mask.bits_zero]
  unfold clearedSlots
  simp only [List.map_nil, List.not_mem_nil, if_false, List.append_nil]

/-- All slots of a chunk are cleared, from one on. -/
theorem destroyAllFrom_run {pd : ℕ} (left : ℕ) : ∀ {s : State α} {n : ℕ},
    (∀ i ∈ List.range' n left, (s.slot (pd, i)).isSome = true) →
    destroyAllFrom pd left n s = .done () (clearedSlots s pd (List.range' n left)) := by
  induction left with
  | zero =>
    intro s n _
    unfold clearedSlots
    simp only [List.range'_zero, List.map_nil, List.not_mem_nil, if_false, List.append_nil]
    rfl
  | succ left ih =>
    intro s n hsome
    rw [List.range'_succ] at hsome
    have hdestroy : destroy (pd, n) s = .done () { s with
        slot := update s.slot (pd, n) none
        log := s.log ++ [.destroy (pd, n)] } := if_pos (hsome n List.mem_cons_self)
    rw [destroyAllFrom, Prog.bind_of_done hdestroy, List.range'_succ, ← clearedSlots_cons]
    refine ih fun i hi => ?_
    have hne : (pd, i) ≠ (pd, n) := fun heq => by
      have hin := (Prod.mk.inj heq).2
      have hle := (List.mem_range'_1.mp hi).1
      omega
    show (update s.slot _ none (pd, i)).isSome = true
    rw [update_of_ne hne]
    exact hsome i (List.mem_cons_of_mem n hi)

/-- **A block with elements is given back**, whichever way they are destroyed. -/
theorem destroy_delete_run (e : Env α) (hm : s.mask b ≠ 0) (hblock : s.blocks b = true)
    (hchunk : s.chunks (s.data b) = true)
    (hsome : ∀ n ∈ Mask.bits (s.mask b), (s.slot (s.data b, n)).isSome = true)
    {k : Prog (State α) Unit} :
    (do let _ ← (if s.mask b = full then destroyAllInFullBlock b else destroyAllInNonemptyBlock e b)
        deleteBlock b
        k) s = k (freedState s [b]) := by
  have hdestroyed : ∃ n, (if s.mask b = full then destroyAllInFullBlock b
      else destroyAllInNonemptyBlock e b) s
      = .done n (clearedSlots s (s.data b) (Mask.bits (s.mask b))) := by
    by_cases hfull : s.mask b = full
    · rw [if_pos hfull, hfull, Mask.bits_full, List.range_eq_range']
      rw [hfull, Mask.bits_full, List.range_eq_range'] at hsome
      refine ⟨N, ?_⟩
      unfold destroyAllInFullBlock dataOf
      rw [Prog.gets_bind, Prog.bind_of_done (destroyAllFrom_run N hsome)]
      rfl
    · rw [if_neg hfull]
      exact ⟨_, destroyAllInNonemptyBlock_run e hm hsome⟩
  obtain ⟨n, hrun⟩ := hdestroyed
  have hdelete : deleteBlock b (clearedSlots s (s.data b) (Mask.bits (s.mask b)))
      = .done () _ := deleteBlock_run hblock hchunk
  rw [Prog.bind_of_done hrun, Prog.bind_of_done hdelete, freedState_single]
  rfl

/-- **The first loop of `reset`** gives the reserved blocks back. -/
theorem resetReserved_run (hs : Shape s h L) (r : List ℕ) : ∀ {after : List ℕ} {rounds : ℕ},
    L.reserved = r ++ after → r.length < rounds →
    resetReserved h rounds ((L.partly ++ r).getLastD h) (freedState s after.reverse)
      = .done () (freedState s L.reserved.reverse) := by
  induction r using List.reverseRecOn with
  | nil =>
    intro after rounds hsplit hlen
    obtain ⟨rounds, rfl⟩ : ∃ k, rounds = k + 1 := ⟨rounds - 1, by omega⟩
    have hstop : ¬ ((L.partly ++ []).getLastD h ≠ h
        ∧ s.mask ((L.partly ++ []).getLastD h) = 0) := by
      rintro ⟨hne, hzero⟩
      rw [List.append_nil] at hne hzero
      rcases List.mem_cons.mp (List.getLastD_mem_cons (l := L.partly) (a := h)) with heq | hmem
      · exact hne heq
      · exact hs.mask_active _ ((hs.mem_partly _).mp hmem).1 hzero
    unfold resetReserved maskOf
    rw [Prog.gets_bind]
    rw [List.nil_append] at hsplit
    rw [hsplit]
    exact congrFun (if_neg hstop) _
  | append_singleton r b ih =>
    intro after rounds hsplit hlen
    obtain ⟨rounds, rfl⟩ : ∃ k, rounds = k + 1 := ⟨rounds - 1, by omega⟩
    rw [List.length_append, List.length_singleton] at hlen
    have hall : L.reserved = r ++ b :: after := by rw [hsplit, List.append_assoc]; rfl
    have hb : b ∈ L.reserved := hall ▸ List.mem_append_right r List.mem_cons_self
    have hblock : b ∈ L.blocks := List.mem_append_right _ hb
    have hnd := hs.nodup_blocks
    rw [Lists.blocks, hall, ← List.append_assoc] at hnd
    have hnot : b ∉ after.reverse := fun hmem =>
      (List.nodup_cons.mp (List.nodup_append.mp hnd).2.1).1 (List.mem_reverse.mp hmem)
    have hpbb : (L.partly ++ (r ++ [b])).getLastD h = b := by
      rw [← List.append_assoc, List.getLastD_concat]
    have hprev : s.available.prev b = (L.partly ++ r).getLastD h := by
      have hring := hs.ringAvailable
      rw [hall, ← List.append_assoc] at hring
      exact hring.prev_member
    have hzero := hs.mask_reserved b hb
    have hdone : ∀ c ∈ after.reverse, c ∈ L.blocks := fun c hc => by
      refine List.mem_append_right _ (hall ▸ List.mem_append_right r (List.mem_cons_of_mem b ?_))
      exact List.mem_reverse.mp hc
    obtain ⟨hused, hchunk, -⟩ := hs.freed hblock hdone hnot
    have hgo : b ≠ h ∧ s.mask b = 0 := ⟨fun heq => hs.header_notMem (heq ▸ hblock), hzero⟩
    have hdelete : deleteBlock b (freedState s after.reverse)
        = .done () (freedState s (b :: after).reverse) := by
      rw [deleteBlock_run hused hchunk, List.reverse_cons, ← freedState_append,
        freedState_single_of_zero (s := freedState s after.reverse) hzero]
    unfold resetReserved maskOf
    rw [Prog.gets_bind, hpbb]
    refine (congrFun (if_pos hgo) _).trans ?_
    rw [Prog.gets_bind, Prog.bind_of_done hdelete]
    show resetReserved h rounds (s.available.prev b) _ = _
    rw [hprev]
    exact ih hall (by omega)

/-- **The second loop of `reset`** gives the active blocks back, with their elements. -/
theorem resetActive_run (e : Env α) (hs : Shape s h L) (bs : List ℕ) :
    ∀ {a : List ℕ} {rounds : ℕ}, L.active = a ++ bs → bs.length < rounds →
    resetActive e h rounds (bs.headD h) (freedState s (L.reserved.reverse ++ a))
      = .done () (freedState s (L.reserved.reverse ++ L.active)) := by
  induction bs with
  | nil =>
    intro a rounds hsplit hlen
    obtain ⟨rounds, rfl⟩ : ∃ k, rounds = k + 1 := ⟨rounds - 1, by omega⟩
    rw [List.append_nil] at hsplit
    rw [resetActive, List.headD_nil, if_neg (not_not_intro rfl), hsplit]
    rfl
  | cons b bs ih =>
    intro a rounds hsplit hlen
    obtain ⟨rounds, rfl⟩ : ∃ k, rounds = k + 1 := ⟨rounds - 1, by omega⟩
    have hb : b ∈ L.active := hsplit ▸ List.mem_append_right a List.mem_cons_self
    have hblock : b ∈ L.blocks := List.mem_append_left _ hb
    have hring := hs.ring
    rw [hsplit] at hring
    have hnot : b ∉ L.reserved.reverse ++ a := fun hmem => by
      rcases List.mem_append.mp hmem with hres | ha
      · exact hs.mask_active b hb (hs.mask_reserved b (List.mem_reverse.mp hres))
      · exact (List.nodup_append.mp hring.nodup_members).2.2 b ha b List.mem_cons_self rfl
    have hdone : ∀ c ∈ L.reserved.reverse ++ a, c ∈ L.blocks := fun c hc => by
      rcases List.mem_append.mp hc with hres | ha
      · exact List.mem_append_right _ (List.mem_reverse.mp hres)
      · exact List.mem_append_left _ (hsplit ▸ List.mem_append_left _ ha)
    obtain ⟨hused, hchunk, hsome⟩ := hs.freed hblock hdone hnot
    have hne : b ≠ h := fun heq => hs.header_notMem (heq ▸ hblock)
    rw [resetActive, List.headD_cons, if_pos hne, nextOf, Prog.gets_bind, maskOf, Prog.gets_bind]
    refine (destroy_delete_run (s := freedState s (L.reserved.reverse ++ a)) e
      (hs.mask_active b hb) hused hchunk hsome).trans ?_
    have hnext : s.list.next b = bs.headD h := hring.next_member
    rw [freedState_append, List.append_assoc]
    show resetActive e h rounds (s.list.next b) _ = _
    rw [hnext]
    exact ih (by rw [hsplit, List.append_assoc]; rfl) (Nat.lt_of_succ_lt_succ hlen)

/-- **`reset`** destroys every element and gives every block back, once. -/
theorem reset_run (e : Env α) (hs : Shape s h L) :
    ∃ t, reset e h s = .done () t ∧ Becomes s h L t ⟨[], [], []⟩
      ∧ t.log = s.log ++ (s.positions L.active).map fun x => .destroy (s.slotAt x) := by
  have hnum := hs.numBlocks
  rw [Lists.blocks, List.length_append] at hnum
  have hzero : s.positions L.reserved.reverse = [] :=
    List.flatMap_eq_nil_iff.mpr fun b hb => by
      rw [hs.mask_reserved b (List.mem_reverse.mp hb), Mask.bits_zero]
      rfl
  have hpos : s.positions (L.reserved.reverse ++ L.active) = s.positions L.active := by
    rw [State.positions_append, hzero, List.nil_append]
  have hperm : (L.reserved.reverse ++ L.active).Perm L.blocks :=
    List.perm_append_comm.trans ((List.reverse_perm _).append_left _)
  have hfirst : resetReserved h (s.numBlocks h + 1) ((L.partly ++ L.reserved).getLastD h)
      (freedState s ([] : List ℕ).reverse) = .done () (freedState s L.reserved.reverse) :=
    resetReserved_run hs L.reserved (List.append_nil _).symm (by omega)
  have hsecond : resetActive e h (s.numBlocks h + 1) (L.active.headD h)
      (freedState s (L.reserved.reverse ++ []))
        = .done () (freedState s (L.reserved.reverse ++ L.active)) :=
    resetActive_run e hs L.active rfl (by omega)
  rw [List.reverse_nil, freedState_nil] at hfirst
  rw [List.append_nil] at hsecond
  refine ⟨{ freedState s (L.reserved.reverse ++ L.active) with
      list := s.list.reset h
      available := s.available.reset h
      numBlocks := update s.numBlocks h 0
      size := update s.size h 0 }, ?_, ?_, ?_⟩
  · unfold reset nextOf
    rw [Prog.gets_bind, Prog.gets_bind, hs.ringAvailable.prev_header, Prog.bind_of_done hfirst,
      Prog.gets_bind]
    show ((resetActive e h (s.numBlocks h + 1) (s.list.next h)) >>= _) _ = _
    rw [hs.ring.next_header, Prog.bind_of_done hsecond]
    rfl
  · have hother : ∀ k : Links ℕ, Links.AgreeOn (others s h L) k (k.reset h) := fun k =>
      Circular.reset_agree k fun c hc heq => hc.2 (heq ▸ List.mem_cons_self)
    refine hs.given_back ?_ hperm rfl rfl (fun _ => rfl) (fun _ => rfl) (fun c n hc => ?_)
      (fun b hb n hn => ?_) rfl rfl (hother _) (hother _)
    · exact
        { ring := Circular.reset s.list h
          ringAvailable := Circular.reset s.available h
          mask_header := hs.mask_header
          mask_active := fun b hb => absurd hb List.not_mem_nil
          mem_partly := fun b =>
            ⟨fun hb => absurd hb List.not_mem_nil, fun hb => absurd hb.1 List.not_mem_nil⟩
          mask_reserved := fun b hb => absurd hb List.not_mem_nil }
    · refine if_neg fun hmem => hc ?_
      obtain ⟨x, hx, heq⟩ := List.mem_map.mp hmem
      exact List.mem_map.mpr ⟨x.pbb, (State.mem_positions.mp hx).1, congrArg Prod.fst heq⟩
    · show (if (s.data b, n) ∈ (s.positions (L.reserved.reverse ++ L.active)).map s.slotAt then none
        else s.slot (s.data b, n)) = none
      by_cases hbit : (s.mask b).getLsbD n = true
      · exact if_pos (List.mem_map.mpr ⟨⟨b, n⟩, State.mem_positions.mpr ⟨hb, hbit⟩, rfl⟩)
      · have hraw := hs.stored.isSome b (hperm.mem_iff.mp hb) n hn
        rw [Bool.eq_false_of_not_eq_true hbit] at hraw
        rw [Option.isNone_iff_eq_none.mp (Option.isSome_eq_false_iff.mp hraw), ite_self]
  · show s.log ++ (s.positions (L.reserved.reverse ++ L.active)).map _ = _
    rw [hpos]

/-! ## What is promised -/

end Hub
