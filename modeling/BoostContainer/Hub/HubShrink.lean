import BoostContainer.Hub.HubCompact

/-!
# Compacting a hub

`compact` goes over the active blocks. A block that is not full is filled from those that
follow: past the full ones it is moved, from each other one it takes what it has room
for, and a block that is left with nothing is reserved. What follows is then shorter, so that the loops
end. Where nothing follows, the last block is compacted within itself.

What the callback is given is kept in a list: the data of the blocks, each when it is as
it will be. That list is the list of the active blocks, in their new order, and so an
index tells the block and the slot of an element.
-/

open Function

namespace Hub

variable {α : Type}

section Programs

variable (e : Env α) (h : ℕ)

/-- The loop of `compact` over the full blocks that come next. -/
def skipFull : ℕ → ℕ → List ℕ → Prog (State α) (ℕ × List ℕ)
  | 0, _, _ => Prog.undefined
  | rounds + 1, pbby, tracked => do
    let data ← dataOf pbby
    let pbby ← nextOf pbby
    let mask ← maskOf pbby
    if mask = full then skipFull rounds pbby (tracked ++ [data])
    else pure (pbby, tracked ++ [data])

/-- A block without elements is reserved, and what followed it comes next. -/
def releaseEmpty (pby : ℕ) : Prog (State α) ℕ := do
  let mask ← maskOf pby
  if mask = 0 then do
    let pbby ← nextOf pby
    unlink pby
    unlinkAvailable pby
    linkAvailableAtBack h pby
    pure pbby
  else pure pby

/-- The loop of `compact` in which a block is filled. It says which block comes next, or
that all is done. -/
def fillFrom (total pbx : ℕ) : ℕ → ℕ → List ℕ → Prog (State α) (Option ℕ × List ℕ)
  | 0, _, _ => Prog.undefined
  | rounds + 1, pbby, tracked => do
    let mask ← maskOf pbby
    let (pbby, tracked) ← (if mask = full then do
        let (pbby, tracked) ← skipFull total pbby tracked
        unlink pbx
        linkBefore pbx pbby
        pure (pbby, tracked)
      else pure (pbby, tracked))
    if pbby = h then do
      compactBlock e pbx (N + 1)
      let data ← dataOf pbx
      pure (none, tracked ++ [data])
    else do
      compactPair e pbx pbby
      let pbby ← releaseEmpty h pbby
      let mask ← maskOf pbx
      if mask ≠ full then fillFrom total pbx rounds pbby tracked
      else pure (some pbby, tracked)

/-- The loop of `compact` over the blocks. -/
def compactLoop (total : ℕ) : ℕ → ℕ → List ℕ → Prog (State α) (List ℕ)
  | 0, _, _ => Prog.undefined
  | rounds + 1, pbbx, tracked =>
    if pbbx = h then pure tracked
    else do
      let pbby ← nextOf pbbx
      let mask ← maskOf pbbx
      if mask ≠ full then do
        let (after, tracked) ← fillFrom e h total pbbx total pbby tracked
        match after with
        | none => pure tracked
        | some pbby => do
          unlinkAvailable pbbx
          let data ← dataOf pbbx
          compactLoop total rounds pbby (tracked ++ [data])
      else do
        let data ← dataOf pbbx
        compactLoop total rounds pbby (tracked ++ [data])

/-- **`compact`**, with the data that its callback is given. -/
def compact : Prog (State α) (List ℕ) := do
  let total ← Prog.gets fun s => s.rounds h
  let pbbx ← nextOf h
  compactLoop e h total total pbbx []

/-- **`shrink_to_fit`** -/
def shrinkToFit : Prog (State α) Unit := do
  let _ ← compact e h
  trimCapacity h 0

end Programs

variable {e : Env α} {s t u : State α} {h x y total : ℕ} {L L' L'' : Lists} {a bs rest : List ℕ}

/-! ## What stays -/

/-- **The elements are moved together**: they are those that were there, in the blocks that
were there. -/
structure Compacted (s : State α) (h : ℕ) (L : Lists) (t : State α) (L' : Lists) : Prop where
  becomes : Becomes s h L t L'
  perm : (t.contents L'.active).Perm (s.contents L.active)
  blocks : L'.blocks.Perm L.blocks
  size : t.size h = s.size h
  /-- Each move constructs an element and destroys the one it came from. -/
  log : ∃ moves : List ((ℕ × ℕ) × ℕ × ℕ),
    t.log = s.log ++ moves.flatMap fun p => [.construct p.2, .destroy p.1]

namespace Compacted

theorem refl (hs : Shape s h L) : Compacted s h L s L where
  becomes := Becomes.refl hs
  perm := List.Perm.refl _
  blocks := List.Perm.refl _
  size := rfl
  log := ⟨[], (List.append_nil _).symm⟩

theorem trans (k : Compacted s h L t L') (k' : Compacted t h L' u L'') :
    Compacted s h L u L'' where
  becomes := k.becomes.trans k'.becomes
  perm := k'.perm.trans k.perm
  blocks := k'.blocks.trans k.blocks
  size := k'.size.trans k.size
  log := by
    obtain ⟨moves, hlog⟩ := k.log
    obtain ⟨moves', hlog'⟩ := k'.log
    exact ⟨moves ++ moves', by rw [hlog', hlog, List.flatMap_append, List.append_assoc]⟩

theorem shape (k : Compacted s h L t L') : Shape t h L' := k.becomes.shape

end Compacted

/-- Blocks without elements have none. -/
theorem Linked.contents_blocks (hl : Linked s h L) : s.contents L.blocks = s.contents L.active := by
  have hzero : s.positions L.reserved = [] := List.flatMap_eq_nil_iff.mpr fun b hb => by
    rw [hl.mask_reserved b hb, Mask.bits_zero]
    rfl
  rw [State.contents, State.contents, Lists.blocks, State.positions_append, hzero, List.append_nil]

/-- Nothing but links and masks is read. -/
theorem Linked.of_eq (hl : Linked s h L) (hlist : t.list = s.list)
    (havail : t.available = s.available) (hmask : t.mask = s.mask) : Linked t h L where
  ring := hlist ▸ hl.ring
  ringAvailable := havail ▸ hl.ringAvailable
  mask_header := hmask ▸ hl.mask_header
  mask_active := hmask ▸ hl.mask_active
  mem_partly := hmask ▸ hl.mem_partly
  mask_reserved := hmask ▸ hl.mask_reserved

/-- **Elements are moved within a hub**, and its blocks are linked as their masks say. -/
theorem Shape.shifted (hs : Shape s h L) (k : Shifted s L.blocks t) {list available : Links ℕ}
    (hl : Linked { t with list := list, available := available } h L')
    (hperm : L'.blocks.Perm L.blocks) (hlist : Links.AgreeOn (others s h L) s.list list)
    (havail : Links.AgreeOn (others s h L) s.available available) :
    Compacted s h L { t with list := list, available := available } L' := by
  have hstored : Stored { t with list := list, available := available } L'.blocks :=
    ⟨fun b hb => k.stored.block b (hperm.mem_iff.mp hb),
      fun b hb => k.stored.chunk b (hperm.mem_iff.mp hb),
      fun b hb b' hb' => k.stored.data_inj b (hperm.mem_iff.mp hb) b' (hperm.mem_iff.mp hb'),
      fun b hb => k.stored.isSome b (hperm.mem_iff.mp hb)⟩
  have hcontents : (State.contents { t with list := list, available := available }
      L'.active).Perm (s.contents L.active) := by
    rw [← hl.contents_blocks, ← hs.contents_blocks]
    refine List.Perm.trans ?_ k.perm
    exact (hperm.flatMap_right _).filterMap _
  have hcount : ∀ {v : State α} {bs : List ℕ}, Stored v bs →
      (v.contents bs).length = (v.positions bs).length := fun {v bs} hv => by
    rw [State.contents, List.length_filterMap_eq_countP]
    refine List.countP_eq_length.mpr fun p hp => ?_
    obtain ⟨hb, hn⟩ := State.mem_positions.mp hp
    exact (hv.isSome p.pbb hb p.n (BitVec.lt_of_getLsbD hn)).trans hn
  have hactive : ∀ {M : Lists} {v : State α}, Stored v M.blocks → Stored v M.active :=
    fun hv => ⟨fun b hb => hv.block b (List.mem_append_left _ hb),
      fun b hb => hv.chunk b (List.mem_append_left _ hb),
      fun b hb b' hb' => hv.data_inj b (List.mem_append_left _ hb) b' (List.mem_append_left _ hb'),
      fun b hb => hv.isSome b (List.mem_append_left _ hb)⟩
  have hsize : t.size h = (State.positions { t with list := list, available := available }
      L'.active).length :=
    (congrFun k.size h).trans (hs.size.trans ((hcount (hactive hs.stored)).symm.trans
      (hcontents.symm.length_eq.trans (hcount (hactive hstored)))))
  have hshape : Shape { t with list := list, available := available } h L' :=
    ⟨hl, hstored, (congrFun k.blocks h).trans hs.header, by
      show t.numBlocks h = _
      rw [k.numBlocks, hs.numBlocks, hperm.length_eq], hsize⟩
  have hback : ∀ c, (¬ ∃ b ∈ L'.blocks, t.data b = c) → ∀ b ∈ L.blocks, s.data b ≠ c :=
    fun c hnot b hb heq => by
      obtain ⟨b', hb', heq'⟩ := k.dataOut b hb
      exact hnot ⟨b', hperm.mem_iff.mpr hb', heq'.trans heq⟩
  refine ⟨⟨hshape, ?_, fun b hb => ?_, fun c hc => ?_, fun c n _ hlive => ?_⟩, hcontents, hperm,
    congrFun k.size h, k.log⟩
  · exact
      { list := hlist
        available := havail
        block := fun b hb => by
          have hnot : b ∉ L.blocks := fun hm => hb.2 (List.mem_cons_of_mem h hm)
          exact ⟨(congrFun k.blocks b).trans hb.1, k.mask b hnot, k.data b hnot⟩
        slot := fun c hc hnot => ⟨(congrFun k.chunks c).trans hc, fun n => k.slot c n hnot⟩
        counters := fun g _ => ⟨congrFun k.numBlocks g, congrFun k.size g⟩
        header := fun hh => (congrFun k.blocks h).trans hh
        grown := fun b hb => Or.inl (hperm.mem_iff.mp hb)
        data := fun b hb => Or.inl (k.dataIn b (hperm.mem_iff.mp hb)) }
  · exact or_iff_not_imp_right.mpr fun hnot =>
      ⟨(congrFun k.blocks b).symm.trans hb, fun hm => hnot (hperm.mem_iff.mpr hm)⟩
  · exact or_iff_not_imp_right.mpr fun hnot =>
      ⟨(congrFun k.chunks c).symm.trans hc, hback c hnot⟩
  · exact or_iff_not_imp_right.mpr fun hnot =>
      ⟨(congrArg Option.isSome (k.slot c n (hback c hnot))).symm.trans hlive, hback c hnot⟩

/-! ## Past the full blocks -/

/-- **The full blocks that come next** are passed over. -/
theorem skipFull_run (tracked : List ℕ) (hring : Circular s.list h (a ++ bs)) (hheader : s.mask h ≠ full) :
    ∀ {b : ℕ} {rounds : ℕ}, bs = b :: rest → s.mask b = full → bs.length < rounds →
      ∃ skipped after, bs = skipped ++ after ∧ skipped ≠ [] ∧ (∀ c ∈ skipped, s.mask c = full)
        ∧ s.mask (after.headD h) ≠ full
        ∧ skipFull rounds b tracked s
          = .done (after.headD h, tracked ++ skipped.map s.data) s := by
  induction bs generalizing a rest tracked with
  | nil => exact fun heq => absurd heq (List.cons_ne_nil _ _).symm
  | cons b' bs ih =>
    rintro b rounds heq hfull hlen
    obtain ⟨rfl, rfl⟩ := List.cons.inj heq
    obtain ⟨rounds, rfl⟩ : ∃ r, rounds = r + 1 := ⟨rounds - 1, by omega⟩
    unfold skipFull dataOf nextOf maskOf
    rw [Prog.gets_bind, Prog.gets_bind, hring.next_member, Prog.gets_bind]
    by_cases hnext : s.mask (bs.headD h) = full
    · rw [if_pos hnext]
      cases bs with
      | nil => exact absurd hnext hheader
      | cons c bs =>
        rw [← List.singleton_append, ← List.append_assoc] at hring
        obtain ⟨skipped, after, hsplit, -, hall, hafter, hrun⟩ :=
          ih (tracked ++ [s.data b']) hring rfl hnext (Nat.lt_of_succ_lt_succ hlen)
        refine ⟨b' :: skipped, after, congrArg (b' :: ·) hsplit, List.cons_ne_nil _ _, ?_, hafter, ?_⟩
        · exact List.forall_mem_cons.mpr ⟨hfull, hall⟩
        · rw [List.headD_cons, hrun, List.append_assoc]
          rfl
    · refine ⟨[b'], bs, rfl, List.cons_ne_nil _ _, ?_, hnext, ?_⟩
      · exact fun c hc => List.mem_singleton.mp hc ▸ hfull
      · rw [if_neg hnext]
        rfl

/-- **A block is moved past others.** -/
theorem Shape.passed (hs : Shape s h L) {skipped after : List ℕ}
    (hactive : L.active = a ++ x :: (skipped ++ after)) :
    Compacted s h L
      { s with list := (s.list.unlink x).linkBefore x (after.headD h) }
      ⟨a ++ skipped ++ x :: after, L.partly, L.reserved⟩ := by
  have hring := hs.ring
  have hnd := hring.nodup
  rw [hactive] at hring hnd
  have hgone := hring.unlink
  rw [← List.append_assoc] at hgone
  have hx : x ∉ h :: (a ++ skipped ++ after) := by
    rw [List.append_assoc]
    have hmoved := (List.perm_middle.cons h).nodup_iff.mp hnd
    exact (List.nodup_cons.mp ((List.Perm.swap x h _).nodup_iff.mp hmoved)).1
  have hmem : (a ++ skipped ++ x :: after).Perm L.active := by
    rw [hactive]
    refine List.perm_middle.trans (List.Perm.trans ?_ List.perm_middle.symm)
    rw [List.append_assoc]
  refine hs.shifted (Shifted.refl hs.stored) ?_ (hmem.append_right L.reserved) ?_
    (fun _ _ => ⟨rfl, rfl⟩)
  · exact
      { ring := hgone.linkBefore hx
        ringAvailable := hs.ringAvailable
        mask_header := hs.mask_header
        mask_active := fun b hb => hs.mask_active b (hmem.mem_iff.mp hb)
        mem_partly := fun b => (hs.mem_partly b).trans (and_congr_left' hmem.mem_iff.symm)
        mask_reserved := hs.mask_reserved }
  · have hout : ∀ b ∈ others s h L, b ∉ h :: (a ++ x :: (skipped ++ after)) := fun b hb hm => by
      rw [← hactive] at hm
      exact hb.2 (Linked.active_subset hm)
    refine (hring.unlink_agree hout).trans (hgone.linkBefore_agree hx fun b hb => ?_)
    refine ⟨fun heq => hout b hb (List.mem_cons_of_mem h ?_), fun hm => hout b hb ?_⟩
    · exact heq ▸ List.mem_append_right a List.mem_cons_self
    · rw [List.append_assoc] at hm
      exact (((List.sublist_cons_self x _).append_left a).cons_cons h).subset hm

/-! ## Two blocks, linked -/

/-- Memory after `compact` of two blocks, when the one that is empty is reserved and the one
that is full is withdrawn. -/
def pairedState (t : State α) (h x y : ℕ) : State α :=
  let list := if t.mask y = 0 then t.list.unlink y else t.list
  let available := if t.mask y = 0 then (t.available.unlink y).linkBefore y h else t.available
  { t with
    list := list
    available := if t.mask x = full then available.unlink x else available }

/-- **A block that takes from the next one**: both are linked as their masks say. -/
theorem Shape.paired (hs : Shape s h L) (hactive : L.active = a ++ x :: y :: rest)
    (hx₁ : s.mask x ≠ full) (hy₁ : s.mask y ≠ full) (p : Paired s L.blocks x y t) :
    ∃ L', Compacted s h L (pairedState t h x y) L'
      ∧ L'.active = a ++ x :: (if t.mask y = 0 then rest else y :: rest) := by
  have hring := hs.ring.nodup_members
  rw [hactive] at hring
  have hxy : x ≠ y := fun heq => by
    have hcons := (List.nodup_append.mp hring).2.1
    exact (List.nodup_cons.mp hcons).1 (heq ▸ List.mem_cons_self)
  have hx : x ∈ L.active := hactive ▸ List.mem_append_right a List.mem_cons_self
  have hy : y ∈ L.active :=
    hactive ▸ List.mem_append_right a (List.mem_cons_of_mem x List.mem_cons_self)
  have htlist : t.list = s.list := p.shifted.list
  have htavail : t.available = s.available := p.shifted.available
  -- First the block that gives.
  obtain ⟨v, L₁, hvblocks, hv, hl₁, hperm₁, hlist₁, havail₁, hactive₁, hvmask, hvlist, hvavail⟩ :
      ∃ (v : State α) (L₁ : Lists), v.blocks = s.blocks ∧ v.mask = update s.mask y (t.mask y)
        ∧ Linked v h L₁
        ∧ L₁.blocks.Perm L.blocks
        ∧ Links.AgreeOn (others s h L) s.list v.list
        ∧ Links.AgreeOn (others s h L) s.available v.available
        ∧ L₁.active = a ++ x :: (if t.mask y = 0 then rest else y :: rest)
        ∧ v.mask x = s.mask x
        ∧ v.list = (if t.mask y = 0 then t.list.unlink y else t.list)
        ∧ v.available
          = (if t.mask y = 0 then (t.available.unlink y).linkBefore y h else t.available) := by
    by_cases hzero : t.mask y = 0
    · have hsplit : L.active = (a ++ [x]) ++ y :: rest := by
        rw [hactive, List.append_assoc]
        rfl
      obtain ⟨v, hv⟩ : ∃ v : State α, v = { s with
          list := s.list.unlink y
          available := (s.available.unlink y).linkBefore y h
          mask := update s.mask y 0 } := ⟨_, rfl⟩
      have hwith : Linked.withdrawn s y = s.available.unlink y := if_neg hy₁
      obtain ⟨hl, hlist, havail⟩ := hs.toLinked.release (t := v) hsplit (by rw [hv])
        (by rw [hv, hwith]) (by rw [hv])
      refine ⟨v, _, by rw [hv], by rw [hv, hzero], hl, ?_, hlist, havail, ?_, ?_, ?_, ?_⟩
      · show (a ++ [x] ++ rest ++ (L.reserved ++ [y])).Perm (L.active ++ L.reserved)
        rw [hsplit, ← List.append_assoc]
        refine (List.perm_append_singleton y _).trans ?_
        rw [← List.cons_append]
        exact List.perm_middle.symm.append_right L.reserved
      · rw [if_pos hzero]
        show a ++ [x] ++ rest = _
        rw [List.append_assoc]
        rfl
      · rw [hv]
        exact update_of_ne hxy _ _
      · rw [if_pos hzero, hv, htlist]
      · rw [if_pos hzero, hv, htavail]
    · obtain ⟨v, hv⟩ : ∃ v : State α, v = { s with mask := update s.mask y (t.mask y) } :=
        ⟨_, rfl⟩
      have hpartly : ∀ c, c ∈ L.partly ↔ c ∈ L.active ∧ v.mask c ≠ full := fun c => by
        rw [hs.mem_partly c, hv]
        refine and_congr_right fun _ => ?_
        rcases eq_or_ne c y with rfl | hcy
        · show s.mask c ≠ full ↔ update s.mask c (t.mask c) c ≠ full
          rw [update_self]
          exact iff_of_true hy₁ p.right
        · show s.mask c ≠ full ↔ update s.mask y (t.mask y) c ≠ full
          rw [update_of_ne hcy]
      refine ⟨v, _, by rw [hv], by rw [hv], hs.toLinked.write (t := v) hy hzero (by rw [hv])
        (by rw [hv]) (by rw [hv]; exact hs.ringAvailable) hpartly, List.Perm.refl _, ?_, ?_, ?_, ?_,
        ?_, ?_⟩
      · rw [hv]
        exact fun _ _ => ⟨rfl, rfl⟩
      · rw [hv]
        exact fun _ _ => ⟨rfl, rfl⟩
      · rw [if_neg hzero]
        exact hactive
      · rw [hv]
        exact update_of_ne hxy _ _
      · rw [if_neg hzero, hv, htlist]
      · rw [if_neg hzero, hv, htavail]
  -- Then the one that takes.
  have hx₁' : x ∈ L₁.active := hactive₁ ▸ List.mem_append_right a List.mem_cons_self
  have hmask : t.mask = update v.mask x (t.mask x) := by
    rw [hv]
    funext b
    rcases eq_or_ne b x with rfl | hbx
    · rw [update_self]
    · rw [update_of_ne hbx]
      rcases eq_or_ne b y with rfl | hby
      · rw [update_self]
      · rw [update_of_ne hby, p.rest b hbx hby]
  have hothers : ∀ {b}, b ∈ others s h L → b ∉ h :: L₁.blocks := fun {b} hb hm =>
    hb.2 ((hperm₁.cons h).mem_iff.mp hm)
  have hplist : (pairedState t h x y).list = v.list := hvlist.symm
  have hpmask : (pairedState t h x y).mask = update v.mask x (t.mask x) := hmask
  by_cases hfull : t.mask x = full
  · obtain ⟨hcirc, hagree⟩ := hl₁.withdraw hx₁'
    have hwith : Linked.withdrawn v x = v.available.unlink x :=
      if_neg (hvmask.symm ▸ hx₁)
    have hpavail : (pairedState t h x y).available = Linked.withdrawn v x := by
      rw [hwith, hvavail]
      exact if_pos hfull
    have hl₂ : Linked (pairedState t h x y) h
        ⟨L₁.active, L₁.partly.filter (· ≠ x), L₁.reserved⟩ := by
      refine hl₁.write hx₁' p.left hpmask hplist (hpavail ▸ hcirc) fun c => ?_
      rw [List.mem_filter, hl₁.mem_partly c, hpmask]
      rcases eq_or_ne c x with rfl | hcx
      · simp [hfull]
      · simp [hcx]
    refine ⟨_, hs.shifted p.shifted hl₂ hperm₁ (hvlist ▸ hlist₁) ?_, hactive₁⟩
    show Links.AgreeOn _ _ (pairedState t h x y).available
    rw [hpavail]
    exact havail₁.trans fun b hb => hagree b ⟨hvblocks ▸ hb.1, hothers hb⟩
  · have hpavail : (pairedState t h x y).available = v.available := by
      rw [hvavail]
      exact if_neg hfull
    have hl₂ : Linked (pairedState t h x y) h ⟨L₁.active, L₁.partly, L₁.reserved⟩ := by
      refine hl₁.write hx₁' p.left hpmask hplist (hpavail ▸ hl₁.ringAvailable) fun c => ?_
      rw [hl₁.mem_partly c, hpmask]
      refine and_congr_right fun _ => ?_
      rcases eq_or_ne c x with rfl | hcx
      · rw [update_self]
        exact iff_of_true (hvmask.symm ▸ hx₁) hfull
      · rw [update_of_ne hcx]
    refine ⟨_, hs.shifted p.shifted hl₂ hperm₁ (hvlist ▸ hlist₁) ?_, hactive₁⟩
    show Links.AgreeOn _ _ (pairedState t h x y).available
    rw [hpavail]
    exact havail₁

/-- **Within one block**: its links stay. -/
theorem Shape.within (hs : Shape s h L) (hx : x ∈ L.active) (hx₁ : s.mask x ≠ full)
    (k : Shifted s L.blocks t) (hrest : ∀ b, b ≠ x → t.mask b = s.mask b) (h₀ : t.mask x ≠ 0)
    (h₁ : t.mask x ≠ full) : Compacted s h L t L := by
  have hmask : t.mask = update s.mask x (t.mask x) := by
    funext b
    rcases eq_or_ne b x with rfl | hbx
    · rw [update_self]
    · rw [update_of_ne hbx, hrest b hbx]
  have hl : Linked t h ⟨L.active, L.partly, L.reserved⟩ := by
    refine hs.toLinked.write hx h₀ hmask k.list (k.available ▸ hs.ringAvailable) fun c => ?_
    rw [hs.mem_partly c]
    refine and_congr_right fun _ => ?_
    rcases eq_or_ne c x with rfl | hcx
    · exact iff_of_true hx₁ h₁
    · rw [hrest c hcx]
  show Compacted s h L { t with list := t.list, available := t.available } L
  refine hs.shifted k hl (List.Perm.refl _) ?_ ?_
  · rw [k.list]
    exact fun _ _ => ⟨rfl, rfl⟩
  · rw [k.available]
    exact fun _ _ => ⟨rfl, rfl⟩

/-! ## The loops -/

/-- The part of the loop that passes the full blocks. -/
theorem passFull_run (hs : Shape s h L) (hactive : L.active = a ++ x :: rest)
    (hall : ∀ b ∈ a, s.mask b = full) (hlen : rest.length < total) :
    ∃ s₁ L₁ a₁ rest₁, (if s.mask (rest.headD h) = full then do
          let (pbby, tracked) ← skipFull total (rest.headD h) (a.map s.data)
          unlink x
          linkBefore x pbby
          pure (pbby, tracked)
        else pure (rest.headD h, a.map s.data) : Prog (State α) (ℕ × List ℕ)) s
        = .done (rest₁.headD h, a₁.map s₁.data) s₁
      ∧ Compacted s h L s₁ L₁ ∧ L₁.active = a₁ ++ x :: rest₁ ∧ (∀ b ∈ a₁, s₁.mask b = full)
      ∧ s₁.mask x = s.mask x ∧ s₁.mask (rest₁.headD h) ≠ full ∧ rest₁.length ≤ rest.length := by
  have hheader : s.mask h ≠ full := by
    rw [hs.mask_header]
    decide
  by_cases hfull : s.mask (rest.headD h) = full
  · cases rest with
    | nil => exact absurd hfull hheader
    | cons y rest =>
      have hring := hs.ring
      rw [hactive, ← List.singleton_append, ← List.append_assoc] at hring
      obtain ⟨skipped, after, hsplit, -, hskip, hafter, hrun⟩ :=
        skipFull_run (a.map s.data) hring hheader rfl hfull hlen
      rw [hsplit] at hactive
      refine ⟨_, _, a ++ skipped, after, ?_, hs.passed hactive, rfl, fun b hb => ?_, rfl, hafter, ?_⟩
      · rw [if_pos hfull, List.headD_cons, Prog.bind_of_done hrun]
        dsimp only
        unfold unlink linkBefore
        rw [Prog.modify_bind, Prog.modify_bind, List.map_append]
        rfl
      · exact (List.mem_append.mp hb).elim (hall b) (hskip b)
      · rw [hsplit, List.length_append]
        omega
  · refine ⟨s, L, a, rest, ?_, Compacted.refl hs, hactive, hall, rfl, hfull, le_rfl⟩
    rw [if_neg hfull]
    rfl

/-- **A block without elements is reserved.** -/
theorem releaseEmpty_run {y : ℕ} (hring : Circular t.list h (a ++ y :: rest)) :
    releaseEmpty h y t = .done ((if t.mask y = 0 then rest else y :: rest).headD h)
      { t with
        list := if t.mask y = 0 then t.list.unlink y else t.list
        available := if t.mask y = 0 then (t.available.unlink y).linkBefore y h
          else t.available } := by
  unfold releaseEmpty maskOf
  rw [Prog.gets_bind]
  by_cases hzero : t.mask y = 0
  · rw [if_pos hzero, if_pos hzero, if_pos hzero, if_pos hzero]
    unfold nextOf unlink unlinkAvailable linkAvailableAtBack
    rw [Prog.gets_bind, Prog.modify_bind, Prog.modify_bind, Prog.modify_bind, hring.next_member]
    rfl
  · rw [if_neg hzero, if_neg hzero, if_neg hzero, if_neg hzero]
    rfl

/-- **The loop that fills a block** ends with the block full, or with nothing behind it. -/
theorem fillFrom_run (e : Env α) (x total rounds : ℕ) : ∀ {s : State α} {L : Lists}
    {a rest : List ℕ}, Shape s h L → L.active = a ++ x :: rest → s.mask x ≠ full →
    (∀ b ∈ a, s.mask b = full) → rest.length < rounds → rest.length < total →
    (fillFrom e h total x rounds (rest.headD h) (a.map s.data) s).Meets
      (fun r t =>
        (r.1 = none ∧ ∃ L' a' k, Compacted s h L t L' ∧ L'.active = a' ++ [x]
          ∧ (∀ b ∈ a', t.mask b = full) ∧ t.mask x ≠ full ∧ Mask.bits (t.mask x) = List.range k
          ∧ r.2 = L'.active.map t.data)
        ∨ ∃ L' a' rest', r.1 = some (rest'.headD h)
          ∧ Compacted s h L { t with available := t.available.unlink x } L'
          ∧ L'.active = a' ++ x :: rest' ∧ (∀ b ∈ a', t.mask b = full) ∧ t.mask x = full
          ∧ rest'.length ≤ rest.length ∧ r.2 = a'.map t.data)
      (fun t => ∃ L', Compacted s h L t L') := by
  induction rounds with
  | zero => exact fun _ _ _ _ hlen => absurd hlen (Nat.not_lt_zero _)
  | succ rounds ih =>
    intro s L a rest hs hactive hx₁ hall hlen htotal
    obtain ⟨s₁, L₁, a₁, rest₁, hrun, hpassed, hactive₁, hall₁, hmask, hnext, hlen₁⟩ :=
      passFull_run hs hactive hall htotal
    have hs₁ := hpassed.shape
    have hx₂ : s₁.mask x ≠ full := hmask.symm ▸ hx₁
    have hnd := hs₁.nodup_blocks
    have hxa : x ∈ L₁.active := hactive₁ ▸ List.mem_append_right a₁ List.mem_cons_self
    have hxb : x ∈ L₁.blocks := List.mem_append_left _ hxa
    have hx₀ := hs₁.mask_active x hxa
    have hdisj := hs₁.ring.nodup_members
    rw [hactive₁] at hdisj
    have hxnot : ∀ b ∈ a₁, b ≠ x := fun b hb heq =>
      (List.nodup_append.mp hdisj).2.2 b hb x List.mem_cons_self heq
    unfold fillFrom maskOf
    rw [Prog.gets_bind]
    refine (congrArg (Outcome.Meets _ _) (Prog.bind_of_done hrun)).mpr ?_
    dsimp only
    cases rest₁ with
    | nil =>
      rw [List.headD_nil, if_pos rfl]
      refine Prog.bind_meets ((compactBlock_run e hnd hxb (N + 1) hs₁.stored hx₀ hx₂ (by omega)).imp
        (fun _ _ k => k) fun t ⟨k, hrest, _, h₀, h₁⟩ =>
          ⟨L₁, hpassed.trans (hs₁.within hxa hx₂ k hrest h₀ h₁)⟩) ?_
      rintro - t ⟨k, hrest, hdata, h₀, h₁, n, hbits⟩
      refine Or.inl ⟨rfl, L₁, a₁, n, hpassed.trans (hs₁.within hxa hx₂ k hrest h₀ h₁), hactive₁,
        fun b hb => (hrest b (hxnot b hb)).trans (hall₁ b hb), h₁, hbits, ?_⟩
      show a₁.map s₁.data ++ [t.data x] = _
      rw [hactive₁, List.map_append, hdata]
      rfl
    | cons y rest₂ =>
      have hya : y ∈ L₁.active :=
        hactive₁ ▸ List.mem_append_right a₁ (List.mem_cons_of_mem x List.mem_cons_self)
      have hyb : y ∈ L₁.blocks := List.mem_append_left _ hya
      have hcons := (List.nodup_append.mp hdisj).2.1
      have hxy : x ≠ y := fun heq => (List.nodup_cons.mp hcons).1 (heq ▸ List.mem_cons_self)
      have hynot : ∀ b ∈ a₁, b ≠ y := fun b hb heq =>
        (List.nodup_append.mp hdisj).2.2 b hb y (List.mem_cons_of_mem x List.mem_cons_self) heq
      have hyh : y ≠ h := (hs₁.ne_header hya).symm
      rw [List.headD_cons] at hnext ⊢
      rw [if_neg hyh]
      have hpair := compactPair_run e hs₁.stored hnd hxb hyb hxy hx₀ hx₂ (hs₁.mask_active y hya) hnext
      refine Prog.bind_meets (hpair.imp (fun _ _ k => k) fun t ⟨p, h₁, h₀⟩ => ?_) ?_
      · obtain ⟨L', hk, -⟩ := hs₁.paired hactive₁ hx₂ hnext p
        have hsame : pairedState t h x y = t := by
          unfold pairedState
          dsimp only
          rw [if_neg h₀, if_neg h₀, if_neg h₁]
        exact ⟨L', hpassed.trans (hsame ▸ hk)⟩
      · rintro - t ⟨p, hdone⟩
        obtain ⟨L', hk, hactive'⟩ := hs₁.paired hactive₁ hx₂ hnext p
        have hring : Circular t.list h ((a₁ ++ [x]) ++ y :: rest₂) := by
          have hold := hs₁.ring
          rw [hactive₁] at hold
          rw [p.shifted.list, List.append_assoc]
          exact hold
        have hdata : a₁.map s₁.data = a₁.map t.data := List.map_congr_left fun b hb =>
          (p.data b (hxnot b hb) (hynot b hb)).symm
        have hfull : ∀ b ∈ a₁, t.mask b = full := fun b hb =>
          (p.rest b (hxnot b hb) (hynot b hb)).trans (hall₁ b hb)
        rw [Prog.bind_of_done (releaseEmpty_run hring), Prog.gets_bind]
        by_cases hx₃ : t.mask x = full
        · rw [if_neg (not_not_intro hx₃)]
          refine Or.inr ⟨L', a₁, _, rfl, hpassed.trans ?_, hactive', hfull, hx₃, ?_, hdata⟩
          · unfold pairedState at hk
            dsimp only at hk
            rwa [if_pos hx₃] at hk
          · refine le_trans ?_ hlen₁
            split
            · exact Nat.le_succ _
            · exact le_rfl
        · rw [if_pos hx₃]
          have hzero := hdone.resolve_left hx₃
          unfold pairedState at hk
          dsimp only at hk
          rw [if_neg hx₃] at hk
          rw [if_pos hzero] at hactive'
          rw [hdata, if_pos hzero]
          have hshort : rest₂.length < rest.length := lt_of_lt_of_le (Nat.lt_succ_self _) hlen₁
          refine (ih hk.shape hactive' hx₃ hfull (by omega) (by omega)).imp (fun r w hr => ?_)
            fun w ⟨M, hM⟩ => ⟨M, hpassed.trans (hk.trans hM)⟩
          refine hr.imp (fun ⟨hnone, M, a', n, hM, hrest⟩ => ⟨hnone, M, a', n,
            hpassed.trans (hk.trans hM), hrest⟩) fun ⟨M, a', rest', hsome, hM, hact, hfl, hxf, hle,
              htr⟩ => ⟨M, a', rest', hsome, hpassed.trans (hk.trans hM), hact, hfl, hxf, ?_, htr⟩
          omega

/-- **The blocks are packed**: all of them are full, but for the last one, and that has its
elements in its lowest slots. -/
def Tight (t : State α) (L : Lists) : Prop :=
  ∃ a, (∀ b ∈ a, t.mask b = full) ∧ (L.active = a ∨ ∃ b k, L.active = a ++ [b]
    ∧ t.mask b ≠ full ∧ Mask.bits (t.mask b) = List.range k)

/-- **The loop of `compact`** packs the blocks that are left. -/
theorem compactLoop_run (e : Env α) (total rounds : ℕ) : ∀ {s : State α} {L : Lists}
    {a rest : List ℕ}, Shape s h L → L.active = a ++ rest → (∀ b ∈ a, s.mask b = full) →
    rest.length < rounds → rest.length < total →
    (compactLoop e h total rounds (rest.headD h) (a.map s.data) s).Meets
      (fun r t => ∃ L', Compacted s h L t L' ∧ Tight t L' ∧ r = L'.active.map t.data)
      (fun t => ∃ L', Compacted s h L t L') := by
  induction rounds with
  | zero => exact fun _ _ _ hlen => absurd hlen (Nat.not_lt_zero _)
  | succ rounds ih =>
    intro s L a rest hs hactive hall hlen htotal
    cases rest with
    | nil =>
      rw [List.append_nil] at hactive
      rw [List.headD_nil, compactLoop, if_pos rfl]
      exact ⟨L, Compacted.refl hs, ⟨a, hall, Or.inl hactive⟩, by rw [hactive]⟩
    | cons x rest =>
      have hx : x ∈ L.active := hactive ▸ List.mem_append_right a List.mem_cons_self
      have hring := hs.ring
      rw [hactive] at hring
      rw [List.length_cons] at hlen htotal
      have hlt := Nat.lt_of_succ_lt_succ hlen
      have hgo : ∀ {u : State α} {M : Lists} {a' rest' : List ℕ}, Compacted s h L u M →
          M.active = a' ++ x :: rest' → (∀ b ∈ a', u.mask b = full) → u.mask x = full →
          rest'.length ≤ rest.length →
          (compactLoop e h total rounds (rest'.headD h) (a'.map u.data ++ [u.data x]) u).Meets
            (fun r t => ∃ L', Compacted s h L t L' ∧ Tight t L' ∧ r = L'.active.map t.data)
            (fun t => ∃ L', Compacted s h L t L') := by
        intro u M a' rest' hM hact hfl hxf hle
        have hact' : M.active = (a' ++ [x]) ++ rest' := by
          rw [hact, List.append_assoc]
          rfl
        have hfl' : ∀ b ∈ a' ++ [x], u.mask b = full := fun b hb =>
          (List.mem_append.mp hb).elim (hfl b) fun hb => List.mem_singleton.mp hb ▸ hxf
        have hmore := ih hM.shape hact' hfl' (by omega) (by omega)
        rw [List.map_append] at hmore
        exact hmore.imp (fun r w ⟨K, hK, hrest⟩ => ⟨K, hM.trans hK, hrest⟩)
          fun w ⟨K, hK⟩ => ⟨K, hM.trans hK⟩
      rw [List.headD_cons, compactLoop, if_neg (hs.ne_header hx).symm]
      unfold nextOf maskOf
      rw [Prog.gets_bind, Prog.gets_bind, hring.next_member]
      by_cases hfull : s.mask x = full
      · rw [if_neg (not_not_intro hfull)]
        exact hgo (Compacted.refl hs) hactive hall hfull le_rfl
      · rw [if_pos hfull]
        refine Prog.bind_meets (fillFrom_run e x total total hs hactive hfull hall (by omega)
          (by omega)) ?_
        rintro ⟨after, tracked⟩ t (⟨hnone, L', a', k, hk, hact, hfl, hx₁, hbits, htr⟩
          | ⟨L', a', rest', hsome, hk, hact, hfl, hxf, hle, htr⟩)
        · dsimp only at hnone htr ⊢
          rw [hnone]
          exact ⟨L', hk, ⟨a', hfl, Or.inr ⟨x, k, hact, hx₁, hbits⟩⟩, htr⟩
        · dsimp only at hsome htr ⊢
          rw [hsome, htr]
          exact hgo hk hact hfl hxf hle

/-- **`compact`** packs the blocks and keeps the elements; where a construction throws, all
of them are still there. -/
theorem compact_run (e : Env α) (hs : Shape s h L) :
    (compact e h s).Meets
      (fun r t => ∃ L', Compacted s h L t L' ∧ Tight t L' ∧ r = L'.active.map t.data)
      (fun t => ∃ L', Compacted s h L t L') := by
  have hlen := (hs.rounds_enough hs.range_all).2
  unfold compact nextOf
  rw [Prog.gets_bind, Prog.gets_bind, hs.ring.next_header]
  exact compactLoop_run e _ _ hs (List.nil_append L.active).symm
    (fun b hb => absurd hb List.not_mem_nil) hlen hlen

/-! ## Packed blocks -/

theorem positions_of_full (hall : ∀ b ∈ a, s.mask b = full) : s.positions a = grid a :=
  List.flatMap_congr fun b hb => by rw [hall b hb, Mask.bits_full]

theorem length_grid (bs : List ℕ) : (grid bs).length = bs.length * N := by
  induction bs with
  | nil => rfl
  | cons b bs ih =>
    have hcons : grid (b :: bs) = (List.range N).map (Iterator.mk b) ++ grid bs := rfl
    rw [hcons, List.length_append, List.length_map, List.length_range, ih, List.length_cons,
      Nat.succ_mul, Nat.add_comm]

namespace Tight

/-- The elements are in the first slots, block after block. -/
theorem prefix_grid (k : Tight s L) : s.positions L.active <+: grid L.active := by
  obtain ⟨a, hall, hactive | ⟨b, n, hactive, -, hbits⟩⟩ := k
  · rw [hactive, positions_of_full hall]
  · have hgrid : grid (a ++ [b]) = grid a ++ (List.range N).map (Iterator.mk b) := by
      rw [grid, List.flatMap_append, List.flatMap_singleton]
      rfl
    have hle : n ≤ N := by
      have hlen := congrArg List.length hbits
      rw [List.length_range, ← Mask.popcount_eq] at hlen
      exact hlen ▸ Mask.popcount_le
    obtain ⟨d, hd⟩ := Nat.exists_eq_add_of_le hle
    rw [hactive, State.positions_append, positions_of_full hall, State.positions_cons,
      State.positions_nil, List.append_nil, hbits, hgrid, hd, List.range_add, List.map_append,
      ← List.append_assoc]
    exact List.prefix_append _ _

/-- There are as many blocks as it takes. -/
theorem length_active (k : Tight s L) (hs : Shape s h L) :
    L.active.length = (s.size h + N - 1) / N := by
  have hN : N = 64 := rfl
  rw [hs.size]
  obtain ⟨a, hall, hactive | ⟨b, n, hactive, hfull, hbits⟩⟩ := k
  · rw [hactive, positions_of_full hall, length_grid, hN]
    omega
  · have hb := hs.mask_active b (hactive ▸ List.mem_append_right a List.mem_cons_self)
    have hlen := congrArg List.length hbits
    rw [List.length_range, ← Mask.popcount_eq] at hlen
    have hpos := popcount_pos_iff.mpr hb
    have hlt := popcount_lt_iff.mpr hfull
    have hcount : (s.positions (a ++ [b])).length = a.length * N + n := by
      rw [State.positions_append, positions_of_full hall, List.length_append, length_grid,
        State.positions_cons, State.positions_nil, List.append_nil, List.length_map, hbits,
        List.length_range]
    rw [hactive, hcount, List.length_append, List.length_singleton, hN]
    omega

/-- **An index tells the slot**: element `i` is in block `i / N`, at `i % N`. -/
theorem getElem?_positions (k : Tight s L) {i : ℕ} (hi : i < (s.positions L.active).length) :
    (s.positions L.active)[i]? = L.active[i / N]?.map fun b => ⟨b, i % N⟩ := by
  have hgrid : ∀ (bs : List ℕ) (i : ℕ), i < bs.length * N →
      (grid bs)[i]? = bs[i / N]?.map fun b => (⟨b, i % N⟩ : Iterator) := by
    intro bs
    induction bs with
    | nil => exact fun i hi => absurd hi (by simp)
    | cons b bs ih =>
      intro i hi
      have hcons : grid (b :: bs) = (List.range N).map (Iterator.mk b) ++ grid bs := rfl
      rw [hcons]
      by_cases hlt : i < N
      · rw [List.getElem?_append_left (by simpa using hlt), List.getElem?_map,
          List.getElem?_range hlt, Nat.div_eq_of_lt hlt, Nat.mod_eq_of_lt hlt]
        rfl
      · have hlen : ((List.range N).map (Iterator.mk b)).length = N := by
          rw [List.length_map, List.length_range]
        rw [List.length_cons, Nat.succ_mul] at hi
        rw [List.getElem?_append_right (hlen.symm ▸ Nat.le_of_not_lt hlt), hlen, ih (i - N) (by omega)]
        rw [Nat.div_eq_sub_div (by decide) (Nat.le_of_not_lt hlt),
          Nat.mod_eq_sub_mod (Nat.le_of_not_lt hlt), List.getElem?_cons_succ]
  obtain ⟨more, hmore⟩ := k.prefix_grid
  have hlen : i < L.active.length * N := by
    rw [← length_grid, ← hmore, List.length_append]
    omega
  rw [← hgrid L.active i hlen, ← hmore, List.getElem?_append_left hi]

end Tight

/-! ## What is promised -/

/-- **`shrink_to_fit`** leaves the elements, in blocks that are packed, and no other block;
where a construction throws, it leaves the elements and the blocks. -/
theorem shrinkToFit_run (e : Env α) (hs : Shape s h L) :
    (shrinkToFit e h s).Meets
      (fun _ t => ∃ L', Becomes s h L t L' ∧ (t.contents L'.active).Perm (s.contents L.active)
        ∧ Tight t L' ∧ L'.reserved = [] ∧ t.numBlocks h = (s.size h + N - 1) / N)
      (fun t => ∃ L', Compacted s h L t L') := by
  unfold shrinkToFit
  refine Prog.bind_meets (compact_run e hs) ?_
  rintro tracked t ⟨L₁, hk, htight, -⟩
  obtain ⟨u, L₂, hrun, htrim, hnum⟩ := trimCapacity_run hk.shape 0
  obtain ⟨r, hlists, -⟩ := htrim.lists
  have hactive : L₂.active = L₁.active := by rw [hlists]
  rw [hrun]
  have hlen := htight.length_active hk.shape
  rw [hk.size] at hlen
  have hcount : u.numBlocks h = (s.size h + N - 1) / N := by
    have hall := hk.shape.numBlocks
    rw [Lists.blocks, List.length_append] at hall
    have hzero : (0 + N - 1) / N = 0 := by decide
    rw [hnum, hzero, Nat.max_eq_left (Nat.zero_le _), Nat.min_eq_right (by omega), hlen]
  refine ⟨L₂, hk.becomes.trans htrim.becomes, ?_, ?_, ?_, hcount⟩
  · rw [hactive]
    have hsame : u.contents L₁.active = t.contents L₁.active := by
      unfold State.contents State.positions State.slotAt
      rw [htrim.mask, htrim.data, htrim.slot]
    exact hsame ▸ hk.perm
  · obtain ⟨a, hall, hcase⟩ := htight
    refine ⟨a, fun b hb => htrim.mask ▸ hall b hb, ?_⟩
    rw [hactive, htrim.mask]
    exact hcase
  · have hblocks := htrim.becomes.shape.numBlocks
    rw [hcount, Lists.blocks, List.length_append, hactive, hlen] at hblocks
    exact List.eq_nil_of_length_eq_zero (by omega)

/-- **Compaction keeps the elements and packs the blocks**: all are full, but for the last,
the data that the callback is given are those of the active blocks in their order, an index
tells the slot of an element, and `shrink_to_fit` leaves no block more than it takes. Where a
construction throws, all elements are still there, and the hub is whole. -/
theorem shrinking_packs (e : Env α) (hs : Shape s h L) :
    (compact e h s).Meets
      (fun r t => ∃ L', Compacted s h L t L' ∧ Tight t L' ∧ r = L'.active.map t.data
        ∧ ∀ i < s.size h, (t.positions L'.active)[i]? = L'.active[i / N]?.map fun b => ⟨b, i % N⟩)
      (fun t => ∃ L', Compacted s h L t L')
    ∧ (shrinkToFit e h s).Meets
      (fun _ t => ∃ L', Becomes s h L t L' ∧ (t.contents L'.active).Perm (s.contents L.active)
        ∧ Tight t L' ∧ L'.reserved = [] ∧ t.numBlocks h = (s.size h + N - 1) / N)
      (fun t => ∃ L', Compacted s h L t L') := by
  refine ⟨(compact_run e hs).imp (fun r t ⟨L', hk, htight, hr⟩ =>
    ⟨L', hk, htight, hr, fun i hi => htight.getElem?_positions ?_⟩) fun _ k => k,
    shrinkToFit_run e hs⟩
  rw [← hk.shape.size, hk.size]
  exact hi

theorem shrinking_packs_sample :
    (compact throwing 1 sample).Meets
      (fun r t => ∃ L', Compacted sample 1 sampleLists t L' ∧ Tight t L'
        ∧ r = L'.active.map t.data ∧ ∀ i < sample.size 1,
          (t.positions L'.active)[i]? = L'.active[i / N]?.map fun b => ⟨b, i % N⟩)
      (fun t => ∃ L', Compacted sample 1 sampleLists t L')
    ∧ (shrinkToFit throwing 1 sample).Meets
      (fun _ t => ∃ L', Becomes sample 1 sampleLists t L'
        ∧ (t.contents L'.active).Perm (sample.contents sampleLists.active)
        ∧ Tight t L' ∧ L'.reserved = [] ∧ t.numBlocks 1 = (sample.size 1 + N - 1) / N)
      (fun t => ∃ L', Compacted sample 1 sampleLists t L') :=
  shrinking_packs throwing shape_sample

end Hub
