import BoostContainer.Hub.HubCapacity

/-!
# Handing the blocks of a hub over

The header of a hub is part of it, and its first and last blocks are linked to it. So
a hub that is moved from, or swapped, hands its blocks over: the new header is linked to them, and the old one
to itself. No block is visited but the two at the ends, and no element is touched. `std::swap`
moves three times, by way of a header that is gone afterwards.
-/

open Function

namespace Hub

variable {α : Type}

section Programs

variable (e : Env α) (h x : ℕ)

/-- `block_list::reset` -/
def resetBlockList : Prog (State α) Unit :=
  Prog.modify fun s => { s with list := s.list.reset h, available := s.available.reset h }

/-- What both moves of a `block_list` do, with a header that is linked to itself. -/
def takeBlocks : Prog (State α) Unit := do
  let nextAvailable ← Prog.gets fun s => s.available.next x
  if nextAvailable ≠ x then
    Prog.modify fun s => { s with available := s.available.transfer x h }
  let prev ← Prog.gets fun s => s.list.prev x
  if prev ≠ x then
    Prog.modify fun s => { s with list := s.list.transfer x h }
  resetBlockList x

/-- `block_list()`, whose sentinel has one element and no data. -/
def initBlockList : Prog (State α) Unit := do
  resetBlockList h
  setMask h 1
  setData h 0

/-- `block_list(block_list&&)` -/
def constructBlockList : Prog (State α) Unit := do
  initBlockList h
  takeBlocks h x

/-- `block_list::operator=(block_list&&)` -/
def moveBlockList : Prog (State α) Unit := do
  resetBlockList h
  takeBlocks h x

/-- **`swap`**, by way of a header at `tmp`. -/
def swap (tmp g : ℕ) : Prog (State α) Unit := do
  constructBlockList tmp h
  moveBlockList h g
  moveBlockList g tmp
  Prog.modify fun s => { s with
    numBlocks := update (update s.numBlocks h (s.numBlocks g)) g (s.numBlocks h) }
  Prog.modify fun s => { s with size := update (update s.size h (s.size g)) g (s.size h) }

/-- What a hub that is moved from hands over. -/
def takeHub : Prog (State α) Unit := do
  Prog.modify fun s => { s with numBlocks := update s.numBlocks h (s.numBlocks x) }
  Prog.modify fun s => { s with size := update s.size h (s.size x) }
  Prog.modify fun s => { s with numBlocks := update s.numBlocks x 0 }
  Prog.modify fun s => { s with size := update s.size x 0 }

/-- `move_assign`, where the blocks can be taken over. -/
def moveAssign : Prog (State α) Unit := do
  reset e h
  moveBlockList h x
  takeHub h x

/-- `hub()`, at an address that is not used. -/
def newHub : Prog (State α) Unit := do
  Prog.modify fun s => { s with blocks := update s.blocks h true }
  initBlockList h
  Prog.modify fun s => { s with numBlocks := update s.numBlocks h 0 }
  Prog.modify fun s => { s with size := update s.size h 0 }

/-- `hub(hub&&)`, where the blocks can be taken over. -/
def moveConstruct : Prog (State α) Unit := do
  Prog.modify fun s => { s with blocks := update s.blocks h true }
  constructBlockList h x
  takeHub h x

/-- `~hub()`, after which the address is not used. -/
def endHub : Prog (State α) Unit := do
  reset e h
  Prog.modify fun s => { s with blocks := update s.blocks h false }

end Programs

variable {e : Env α} {s t : State α} {h g x tmp : ℕ} {L L' M : Lists}

/-! ## Moving a list of blocks -/

/-- Memory with other links. -/
def relinked (s : State α) (list available : Links ℕ) : State α :=
  { s with list := list, available := available }

/-- **A list of blocks is taken over**, and only links are written. -/
theorem moveBlockList_run {l m : List ℕ} (r : Circular s.list x l) (ra : Circular s.available x m)
    (hl : h ∉ x :: l) (hm : h ∉ x :: m) :
    ∃ list available, moveBlockList h x s = .done () (relinked s list available)
      ∧ Circular.Taken s.list x l h list ∧ Circular.Taken s.available x m h available := by
  have hxh : x ≠ h := fun heq => hl (heq ▸ List.mem_cons_self)
  have hnext : (s.available.reset h).next x = m.headD x :=
    (update_of_ne hxh _ _).trans ra.next_header
  have hprev : (s.list.reset h).prev x = l.getLastD x := (update_of_ne hxh _ _).trans r.prev_header
  have hsome : decide ((s.available.reset h).next x ≠ x) = true ↔ m ≠ [] := by
    rw [decide_eq_true_iff, hnext]
    cases m with
    | nil => exact iff_of_false (not_not_intro rfl) (not_not_intro rfl)
    | cons b m =>
      refine iff_of_true (fun heq => ?_) (List.cons_ne_nil b m)
      exact ra.header_notMem (heq ▸ List.mem_cons_self)
  have hsome' : decide ((s.list.reset h).prev x ≠ x) = true ↔ l ≠ [] := by
    rw [decide_eq_true_iff, hprev]
    cases l with
    | nil => exact iff_of_false (not_not_intro rfl) (not_not_intro rfl)
    | cons b l =>
      refine iff_of_true (fun heq => r.header_notMem ?_) (List.cons_ne_nil b l)
      rw [List.getLastD_cons] at heq
      exact heq ▸ List.getLastD_mem_cons
  refine ⟨_, _, ?_, r.taken hl hsome', ra.taken hm hsome⟩
  unfold moveBlockList takeBlocks resetBlockList relinked
  rw [Prog.modify_bind, Prog.gets_bind]
  dsimp only
  by_cases hn : (s.available.reset h).next x ≠ x <;> by_cases hp : (s.list.reset h).prev x ≠ x
  · rw [if_pos hn, if_pos (decide_eq_true hn), if_pos (decide_eq_true hp), Prog.modify_bind,
      Prog.gets_bind]
    dsimp only
    rw [if_pos hp]
    rfl
  · rw [if_pos hn, if_pos (decide_eq_true hn), if_neg fun hd => hp (of_decide_eq_true hd),
      Prog.modify_bind, Prog.gets_bind]
    dsimp only
    rw [if_neg hp]
    rfl
  · rw [if_neg hn, if_neg fun hd => hn (of_decide_eq_true hd), if_pos (decide_eq_true hp),
      Prog.gets_bind]
    dsimp only
    rw [if_pos hp]
    rfl
  · rw [if_neg hn, if_neg fun hd => hn (of_decide_eq_true hd),
      if_neg fun hd => hp (of_decide_eq_true hd), Prog.gets_bind]
    dsimp only
    rw [if_neg hp]
    rfl

/-- **The blocks of a hub, with another header.** -/
theorem Shape.rehomed (hy : Shape s g M) (hring : Circular t.list h M.active)
    (havail : Circular t.available h (M.partly ++ M.reserved)) (hheader : t.mask h = 1)
    (hmask : ∀ b ∈ M.blocks, t.mask b = s.mask b) (hdata : ∀ b ∈ M.blocks, t.data b = s.data b)
    (hslot : t.slot = s.slot) (hblocks : t.blocks = s.blocks) (hchunks : t.chunks = s.chunks)
    (hused : s.blocks h = true) (hnum : t.numBlocks h = s.numBlocks g)
    (hsize : t.size h = s.size g) : Shape t h M := by
  have hactive : ∀ b ∈ M.active, b ∈ M.blocks := fun b hb => List.mem_append_left _ hb
  exact
    { ring := hring
      ringAvailable := havail
      mask_header := hheader
      mask_active := fun b hb => hmask b (hactive b hb) ▸ hy.mask_active b hb
      mem_partly := fun b => (hy.mem_partly b).trans
        (and_congr_right fun hb => by rw [hmask b (hactive b hb)])
      mask_reserved := fun b hb =>
        (hmask b (List.mem_append_right _ hb)).trans (hy.mask_reserved b hb)
      stored :=
        { block := fun b hb => hblocks ▸ hy.stored.block b hb
          chunk := fun b hb => by
            rw [hchunks, hdata b hb]
            exact hy.stored.chunk b hb
          data_inj := fun b hb b' hb' heq => by
            rw [hdata b hb, hdata b' hb'] at heq
            exact hy.stored.data_inj b hb b' hb' heq
          isSome := fun b hb n hn => by
            rw [hdata b hb, hmask b hb, hslot]
            exact hy.stored.isSome b hb n hn }
      header := hblocks ▸ hused
      numBlocks := hnum.trans hy.numBlocks
      size := by
        rw [hsize, hy.size, State.positions_congr fun b hb => hmask b (hactive b hb)] }

/-- What is in the ring of the available blocks. -/
theorem Linked.available_subset (hl : Linked s h L) {c : ℕ} (hc : c ∈ h :: (L.partly ++ L.reserved)) :
    c ∈ h :: L.blocks :=
  (List.mem_cons.mp hc).elim (fun heq => heq ▸ List.mem_cons_self)
    fun hc => List.mem_cons_of_mem h (hl.mem_blocks_of_available hc)

theorem Linked.active_subset {c : ℕ} (hc : c ∈ h :: L.active) : c ∈ h :: L.blocks :=
  (List.Sublist.cons_cons h (List.sublist_append_left _ _)).subset hc

/-! ## Swapping -/

/-- **`swap`** exchanges the blocks, whatever the two hubs have. -/
theorem swap_run (hx : Shape s h L) (hy : Shape s g M) (ha : Apart s h L g M)
    (htmp : s.blocks tmp = false) :
    ∃ t, swap h tmp g s = .done () t ∧ Handed s h L g M t M L := by
  have hgh : g ≠ h := fun heq => ha.blocks g List.mem_cons_self (heq ▸ List.mem_cons_self)
  have hq : tmp ∉ h :: L.blocks := fun hm => by
    have hused : s.blocks tmp = true := (List.mem_cons.mp hm).elim (fun heq => heq ▸ hx.header)
      (hx.stored.block tmp)
    rw [htmp] at hused
    cases hused
  have hq' : tmp ∉ g :: M.blocks := fun hm => by
    have hused : s.blocks tmp = true := (List.mem_cons.mp hm).elim (fun heq => heq ▸ hy.header)
      (hy.stored.block tmp)
    rw [htmp] at hused
    cases hused
  have hne : ∀ b, s.blocks b = true → b ≠ tmp := fun b hb heq => by
    rw [heq, htmp] at hb
    cases hb
  -- The first move, whose header gets a mask and data.
  obtain ⟨s₀, hs₀⟩ : ∃ u, u = { s with mask := update s.mask tmp 1, data := update s.data tmp 0 } :=
    ⟨_, rfl⟩
  have hfirst : constructBlockList tmp h s = moveBlockList tmp h s₀ := by rw [hs₀]; rfl
  have hlist₀ : s₀.list = s.list := by rw [hs₀]
  have havail₀ : s₀.available = s.available := by rw [hs₀]
  obtain ⟨k₁, a₁, hrun₁, ht₁, hta₁⟩ := moveBlockList_run (s := s₀) (h := tmp) (hlist₀ ▸ hx.ring)
    (havail₀ ▸ hx.ringAvailable) (fun hm => hq (Linked.active_subset hm))
    (fun hm => hq (hx.available_subset hm))
  have hdisj : ∀ y ∈ g :: M.active, y ∉ h :: L.active := fun y hm hm' =>
    ha.blocks y (Linked.active_subset hm) (Linked.active_subset hm')
  have hdisj' : ∀ y ∈ g :: (M.partly ++ M.reserved), y ∉ h :: (L.partly ++ L.reserved) :=
    fun y hm hm' => ha.blocks y (hy.available_subset hm) (hx.available_subset hm')
  obtain ⟨k₂, a₂, hrun₂, ht₂, hta₂⟩ := moveBlockList_run (s := relinked s₀ k₁ a₁) (x := g) (h := h)
    (ht₁.ring (hlist₀ ▸ hy.ring) (fun hm => hq' (Linked.active_subset hm)) hdisj)
    (hta₁.ring (havail₀ ▸ hy.ringAvailable) (fun hm => hq' (hy.available_subset hm)) hdisj')
    (fun hm => ha.symm.blocks h List.mem_cons_self (Linked.active_subset hm))
    (fun hm => ha.symm.blocks h List.mem_cons_self (hy.available_subset hm))
  obtain ⟨k₃, a₃, hrun₃, ht₃, hta₃⟩ := moveBlockList_run (s := relinked s₀ k₂ a₂) (x := tmp) (h := g)
    (ht₁.kept (hlist₀ ▸ hx.ring) ht₂ hdisj (fun hm => hq (Linked.active_subset hm))
      fun hm => hq' (Linked.active_subset hm))
    (hta₁.kept (havail₀ ▸ hx.ringAvailable) hta₂ hdisj' (fun hm => hq (hx.available_subset hm))
      fun hm => hq' (hy.available_subset hm))
    (fun hm => (List.mem_cons.mp hm).elim (hne g hy.header) fun hl =>
      hdisj g List.mem_cons_self (List.mem_cons_of_mem h hl))
    (fun hm => (List.mem_cons.mp hm).elim (hne g hy.header) fun hl =>
      hdisj' g List.mem_cons_self (List.mem_cons_of_mem h hl))
  obtain ⟨hring, hring', hagree⟩ := Circular.Taken.exchange (hlist₀ ▸ hx.ring) (hlist₀ ▸ hy.ring)
    ht₁ ht₂ ht₃ hdisj (fun hm => hq (Linked.active_subset hm)) fun hm => hq' (Linked.active_subset hm)
  obtain ⟨havail, havail', hagree'⟩ := Circular.Taken.exchange (havail₀ ▸ hx.ringAvailable)
    (havail₀ ▸ hy.ringAvailable) hta₁ hta₂ hta₃ hdisj' (fun hm => hq (hx.available_subset hm))
    fun hm => hq' (hy.available_subset hm)
  refine ⟨{ relinked s₀ k₃ a₃ with
      numBlocks := update (update s.numBlocks h (s.numBlocks g)) g (s.numBlocks h)
      size := update (update s.size h (s.size g)) g (s.size h) }, ?_, ?_⟩
  · unfold swap
    rw [Prog.bind_of_done (hfirst.trans hrun₁), Prog.bind_of_done hrun₂]
    refine (Prog.bind_of_done hrun₃).trans ?_
    rw [hs₀]
    rfl
  · have hmask : ∀ b, s.blocks b = true → s₀.mask b = s.mask b := fun b hb => by
      rw [hs₀]
      exact update_of_ne (hne b hb) _ _
    have hdata : ∀ b, s.blocks b = true → s₀.data b = s.data b := fun b hb => by
      rw [hs₀]
      exact update_of_ne (hne b hb) _ _
    have hslot : s₀.slot = s.slot ∧ s₀.blocks = s.blocks ∧ s₀.chunks = s.chunks ∧ s₀.log = s.log := by
      rw [hs₀]
      exact ⟨rfl, rfl, rfl, rfl⟩
    exact
      { left := hy.rehomed hring havail ((hmask h hx.header).trans hx.mask_header)
          (fun b hb => hmask b (hy.stored.block b hb)) (fun b hb => hdata b (hy.stored.block b hb))
          hslot.1 hslot.2.1 hslot.2.2.1 hx.header ((update_of_ne hgh.symm _ _).trans
            (update_self _ _ _)) ((update_of_ne hgh.symm _ _).trans (update_self _ _ _))
        right := hx.rehomed hring' havail' ((hmask g hy.header).trans hy.mask_header)
          (fun b hb => hmask b (hx.stored.block b hb)) (fun b hb => hdata b (hx.stored.block b hb))
          hslot.1 hslot.2.1 hslot.2.2.1 hy.header (update_self _ _ _) (update_self _ _ _)
        perm := List.perm_append_comm
        mask := hmask
        data := hdata
        slot := hslot.1
        blocks := hslot.2.1
        chunks := hslot.2.2.1
        log := hslot.2.2.2
        list := fun b hb => by
          rw [← hlist₀]
          exact hagree b ⟨hne b hb.1.1, fun hm => hb.1.2 (Linked.active_subset hm),
            fun hm => hb.2.2 (Linked.active_subset hm)⟩
        available := fun b hb => by
          rw [← havail₀]
          exact hagree' b ⟨hne b hb.1.1, fun hm => hb.1.2 (hx.available_subset hm),
            fun hm => hb.2.2 (hy.available_subset hm)⟩
        counters := fun k hk hk' => ⟨(update_of_ne hk' _ _).trans (update_of_ne hk _ _),
          (update_of_ne hk' _ _).trans (update_of_ne hk _ _)⟩ }

/-! ## Moving -/

/-- A hub without blocks. -/
theorem shape_nil (hring : Circular t.list h []) (havail : Circular t.available h [])
    (hmask : t.mask h = 1) (hused : t.blocks h = true) (hnum : t.numBlocks h = 0)
    (hsize : t.size h = 0) : Shape t h ⟨[], [], []⟩ where
  ring := hring
  ringAvailable := havail
  mask_header := hmask
  mask_active _ hb := absurd hb List.not_mem_nil
  mem_partly _ := ⟨fun hb => absurd hb List.not_mem_nil, fun hb => absurd hb.1 List.not_mem_nil⟩
  mask_reserved _ hb := absurd hb List.not_mem_nil
  stored := ⟨fun _ hb => absurd hb List.not_mem_nil, fun _ hb => absurd hb List.not_mem_nil,
    fun _ hb => absurd hb List.not_mem_nil, fun _ hb => absurd hb List.not_mem_nil⟩
  header := hused
  numBlocks := hnum
  size := hsize

/-- **The blocks of a hub are taken over** by one without any. -/
theorem takeHub_run (hx : Shape s h ⟨[], [], []⟩) (hy : Shape s g M) (ha : Apart s h ⟨[], [], []⟩ g M) :
    ∃ t, (do moveBlockList h g; takeHub h g) s = .done () t
      ∧ Handed s h ⟨[], [], []⟩ g M t M ⟨[], [], []⟩ := by
  have hgh : g ≠ h := fun heq => ha.blocks g List.mem_cons_self (heq ▸ List.mem_cons_self)
  have hnot : h ∉ g :: M.blocks := fun hm => ha.blocks h hm List.mem_cons_self
  obtain ⟨k, a, hrun, ht, hta⟩ := moveBlockList_run (s := s) hy.ring hy.ringAvailable
    (fun hm => hnot (Linked.active_subset hm)) (fun hm => hnot (hy.available_subset hm))
  refine ⟨_, Prog.bind_of_done hrun, ?_⟩
  exact
    { left := hy.rehomed ht.gets hta.gets hx.mask_header (fun _ _ => rfl) (fun _ _ => rfl) rfl rfl
        rfl hx.header ((update_of_ne hgh.symm _ _).trans (update_self _ _ _))
        ((update_of_ne hgh.symm _ _).trans (update_self _ _ _))
      right := shape_nil ht.emptied hta.emptied hy.mask_header hy.header (update_self _ _ _)
        (update_self _ _ _)
      perm := List.perm_append_comm
      mask := fun _ _ => rfl
      data := fun _ _ => rfl
      slot := rfl
      blocks := rfl
      chunks := rfl
      log := rfl
      list := fun b hb => ht.agree b ⟨fun heq => hb.1.2 (heq ▸ List.mem_cons_self), fun hm =>
        hb.2.2 (Linked.active_subset hm)⟩
      available := fun b hb => hta.agree b ⟨fun heq => hb.1.2 (heq ▸ List.mem_cons_self), fun hm =>
        hb.2.2 (hy.available_subset hm)⟩
      counters := fun i hi hi' => ⟨(update_of_ne hi' _ _).trans (update_of_ne hi _ _),
        (update_of_ne hi' _ _).trans (update_of_ne hi _ _)⟩ }

/-- **Move assignment**: the elements are destroyed, and the blocks of the other hub taken
over. -/
theorem moveAssign_run (e : Env α) (hx : Shape s h L) (hy : Shape s g M) (ha : Apart s h L g M) :
    ∃ u t, moveAssign e h g s = .done () t ∧ Becomes s h L u ⟨[], [], []⟩
      ∧ u.log = s.log ++ (s.positions L.active).map (fun y => .destroy (s.slotAt y))
      ∧ Handed u h ⟨[], [], []⟩ g M t M ⟨[], [], []⟩ := by
  obtain ⟨u, hrun, hreset, hlog⟩ := reset_run e hx
  obtain ⟨t, hrun', hhanded⟩ := takeHub_run hreset.shape (hy.frame ha hreset.frame)
    (hreset.frame.apart hy ha)
  refine ⟨u, t, ?_, hreset, hlog, hhanded⟩
  unfold moveAssign
  rw [Prog.bind_of_done hrun]
  exact hrun'

/-- Memory with a new hub. -/
def newState (s : State α) (h : ℕ) : State α :=
  { s with
    list := s.list.reset h
    available := s.available.reset h
    mask := update s.mask h 1
    data := update s.data h 0
    blocks := update s.blocks h true
    numBlocks := update s.numBlocks h 0
    size := update s.size h 0 }

theorem newHub_run (s : State α) (h : ℕ) : newHub h s = .done () (newState s h) := rfl

theorem shape_new (s : State α) (h : ℕ) : Shape (newState s h) h ⟨[], [], []⟩ :=
  shape_nil (Circular.reset _ _) (Circular.reset _ _) (update_self _ _ _) (update_self _ _ _)
    (update_self _ _ _) (update_self _ _ _)

/-- Other hubs do not notice a new one. -/
theorem Shape.new (hy : Shape s g M) (hh : s.blocks h = false) :
    Shape (newState s h) g M ∧ Apart (newState s h) h ⟨[], [], []⟩ g M := by
  have hne : ∀ b ∈ g :: M.blocks, b ≠ h := fun b hb heq => by
    have hused : s.blocks b = true := (List.mem_cons.mp hb).elim (fun hg => hg ▸ hy.header)
      (hy.stored.block b)
    rw [heq, hh] at hused
    cases hused
  refine ⟨hy.congr (Circular.reset_agree _ hne) (Circular.reset_agree _ hne)
    (fun b hb => update_of_ne (hne b hb) _ _) (fun b hb => update_of_ne (hne b hb) _ _)
    (fun b hb => update_of_ne (hne b hb) _ _) (fun _ _ => rfl) (fun _ _ _ => rfl)
    (update_of_ne (hne g List.mem_cons_self) _ _) (update_of_ne (hne g List.mem_cons_self) _ _),
    fun b hb hm => hne b hb ?_, fun b hb a hm => absurd hm List.not_mem_nil⟩
  exact (List.mem_cons.mp hm).resolve_right List.not_mem_nil

/-- **Move construction** takes the blocks over into a new hub. -/
theorem moveConstruct_run (hy : Shape s g M) (hh : s.blocks h = false) :
    ∃ t, moveConstruct h g s = .done () t
      ∧ Handed (newState s h) h ⟨[], [], []⟩ g M t M ⟨[], [], []⟩ := by
  have hne : ∀ b ∈ g :: M.blocks, b ≠ h := fun b hb heq => by
    have hused : s.blocks b = true := (List.mem_cons.mp hb).elim (fun hg => hg ▸ hy.header)
      (hy.stored.block b)
    rw [heq, hh] at hused
    cases hused
  have hnot : h ∉ g :: M.blocks := fun hm => hne h hm rfl
  have hgh : g ≠ h := hne g List.mem_cons_self
  obtain ⟨s₀, hs₀⟩ : ∃ u, u = { s with
    blocks := update s.blocks h true
    mask := update s.mask h 1
    data := update s.data h 0 } := ⟨_, rfl⟩
  have hfirst : constructBlockList h g { s with blocks := update s.blocks h true }
      = moveBlockList h g s₀ := by rw [hs₀]; rfl
  have hlist₀ : s₀.list = s.list := by rw [hs₀]
  have havail₀ : s₀.available = s.available := by rw [hs₀]
  obtain ⟨k, a, hrun, ht, hta⟩ := moveBlockList_run (s := s₀) (h := h) (hlist₀ ▸ hy.ring)
    (havail₀ ▸ hy.ringAvailable) (fun hm => hnot (Linked.active_subset hm))
    (fun hm => hnot (hy.available_subset hm))
  refine ⟨{ relinked s₀ k a with
      numBlocks := update (update s.numBlocks h (s.numBlocks g)) g 0
      size := update (update s.size h (s.size g)) g 0 }, ?_, ?_⟩
  · unfold moveConstruct takeHub
    rw [Prog.modify_bind]
    refine (Prog.bind_of_done (hfirst.trans hrun)).trans ?_
    rw [hs₀]
    rfl
  · have hsame : s₀.mask = (newState s h).mask ∧ s₀.data = (newState s h).data
        ∧ s₀.slot = s.slot ∧ s₀.blocks = (newState s h).blocks ∧ s₀.chunks = s.chunks
        ∧ s₀.log = s.log := by
      rw [hs₀]
      exact ⟨rfl, rfl, rfl, rfl, rfl, rfl⟩
    obtain ⟨hmask, hdata, hslot, hblocks, hchunks, hlog⟩ := hsame
    have hnew := (hy.new hh).1
    have hfresh := shape_new s h
    exact
      { left := hnew.rehomed ht.gets hta.gets ((congrFun hmask h).trans hfresh.mask_header)
          (fun b _ => congrFun hmask b) (fun b _ => congrFun hdata b) hslot hblocks hchunks
          hfresh.header ((update_of_ne hgh.symm _ _).trans ((update_self _ _ _).trans
            (update_of_ne hgh _ _).symm)) ((update_of_ne hgh.symm _ _).trans
              ((update_self _ _ _).trans (update_of_ne hgh _ _).symm))
        right := shape_nil ht.emptied hta.emptied ((congrFun hmask g).trans hnew.mask_header)
          ((congrFun hblocks g).trans hnew.header) (update_self _ _ _) (update_self _ _ _)
        perm := List.perm_append_comm
        mask := fun b _ => congrFun hmask b
        data := fun b _ => congrFun hdata b
        slot := hslot
        blocks := hblocks
        chunks := hchunks
        log := hlog
        list := fun b hb => by
          have hbh : b ≠ h := fun heq => hb.1.2 (heq ▸ List.mem_cons_self)
          have hagree := ht.agree b ⟨hbh, fun hm => hb.2.2 (Linked.active_subset hm)⟩
          rw [hlist₀] at hagree
          exact ⟨hagree.1.trans (update_of_ne hbh _ _).symm,
            hagree.2.trans (update_of_ne hbh _ _).symm⟩
        available := fun b hb => by
          have hbh : b ≠ h := fun heq => hb.1.2 (heq ▸ List.mem_cons_self)
          have hagree := hta.agree b ⟨hbh, fun hm => hb.2.2 (hy.available_subset hm)⟩
          rw [havail₀] at hagree
          exact ⟨hagree.1.trans (update_of_ne hbh _ _).symm,
            hagree.2.trans (update_of_ne hbh _ _).symm⟩
        counters := fun i hi hi' => ⟨(update_of_ne hi' _ _).trans ((update_of_ne hi _ _).trans
            (update_of_ne hi _ _).symm), (update_of_ne hi' _ _).trans ((update_of_ne hi _ _).trans
            (update_of_ne hi _ _).symm)⟩ }

/-! ## The first and the last of a hub -/

namespace Hubs

variable {hubs : ℕ → Option Lists}

/-- **A hub comes to be.** -/
theorem create (k : Hubs s hubs) (hh : s.blocks h = false) :
    Hubs (newState s h) (Function.update hubs h (some ⟨[], [], []⟩)) := by
  have hself : Function.update hubs h (some ⟨[], [], []⟩) h = some ⟨[], [], []⟩ := update_self _ _ _
  have hcases : ∀ j K, Function.update hubs h (some ⟨[], [], []⟩) j = some K →
      j = h ∧ K = ⟨[], [], []⟩ ∨ j ≠ h ∧ hubs j = some K := fun j K hj => by
    by_cases hjh : j = h
    · exact Or.inl ⟨hjh, Option.some.inj ((hjh ▸ hj).symm.trans hself)⟩
    · rw [update_of_ne hjh] at hj
      exact Or.inr ⟨hjh, hj⟩
  have hused : ∀ j K, hubs j = some K → ∀ b ∈ j :: K.blocks, b ≠ h := fun j K hj b hb heq => by
    have hlive : s.blocks b = true := (List.mem_cons.mp hb).elim
      (fun hbj => hbj ▸ (k.shape j K hj).header) ((k.shape j K hj).stored.block b)
    rw [heq, hh] at hlive
    cases hlive
  have hkept : ∀ j K, hubs j = some K →
      Function.update hubs h (some ⟨[], [], []⟩) j = some K := fun j K hj => by
    rw [update_of_ne (hused j K hj j List.mem_cons_self), hj]
  have hchunk : ∀ c, (∃ j K, hubs j = some K ∧ ∃ b ∈ K.blocks, s.data b = c) → ∃ j K,
      Function.update hubs h (some ⟨[], [], []⟩) j = some K
        ∧ ∃ b ∈ K.blocks, (newState s h).data b = c := by
    rintro c ⟨j, K, hj, b, hb, hc⟩
    exact ⟨j, K, hkept j K hj, b, hb,
      (update_of_ne (hused j K hj b (List.mem_cons_of_mem j hb)) _ _).trans hc⟩
  refine ⟨fun j K hj => ?_, fun j K j' K' hj hj' hjj => ?_, fun b hb => ?_,
    fun c hc => hchunk c (k.chunks c hc), fun c n hn hlive => hchunk c (k.live c n hn hlive)⟩
  · rcases hcases j K hj with ⟨rfl, rfl⟩ | ⟨-, hold⟩
    · exact shape_new s j
    · exact ((k.shape j K hold).new hh).1
  · rcases hcases j K hj with ⟨rfl, rfl⟩ | ⟨-, hold⟩ <;>
      rcases hcases j' K' hj' with ⟨rfl, rfl⟩ | ⟨-, hold'⟩
    · exact absurd rfl hjj
    · exact ((k.shape j' K' hold').new hh).2
    · exact ((k.shape j K hold).new hh).2.symm
    · have hapart := k.apart j K j' K' hold hold' hjj
      refine ⟨hapart.blocks, fun b hb a hm => ?_⟩
      show Function.update s.data h 0 a ≠ Function.update s.data h 0 b
      rw [update_of_ne (hused j K hold a (List.mem_cons_of_mem j hm)),
        update_of_ne (hused j' K' hold' b (List.mem_cons_of_mem j' hb))]
      exact hapart.data b hb a hm
  · by_cases hbh : b = h
    · exact ⟨h, _, hself, hbh ▸ List.mem_cons_self⟩
    · have hold : s.blocks b = true := (update_of_ne hbh _ _).symm.trans hb
      obtain ⟨j, K, hj, hmem⟩ := k.blocks b hold
      exact ⟨j, K, hkept j K hj, hmem⟩

/-- **A hub without blocks goes.** -/
theorem remove (k : Hubs s hubs) (hh : hubs h = some ⟨[], [], []⟩) :
    Hubs { s with blocks := Function.update s.blocks h false } (Function.update hubs h none) := by
  have hcases : ∀ j K, Function.update hubs h none j = some K → j ≠ h ∧ hubs j = some K :=
    fun j K hj => by
      by_cases hjh : j = h
      · rw [hjh, update_self] at hj
        cases hj
      · rw [update_of_ne hjh] at hj
        exact ⟨hjh, hj⟩
  have hused : ∀ j K, j ≠ h → hubs j = some K → ∀ b ∈ j :: K.blocks, b ≠ h :=
    fun j K hjh hj b hb heq =>
      (k.apart h _ j K hh hj (Ne.symm hjh)).blocks b hb (heq ▸ List.mem_cons_self)
  have hkept : ∀ j K b, hubs j = some K → b ∈ K.blocks → Function.update hubs h none j = some K :=
    fun j K b hj hb => by
      have hjh : j ≠ h := fun heq => by
        have hnil := Option.some.inj ((heq ▸ hj).symm.trans hh)
        rw [hnil] at hb
        exact List.not_mem_nil hb
      rw [update_of_ne hjh, hj]
  refine ⟨fun j K hj => ?_, fun j K j' K' hj hj' hjj => ?_, fun b hb => ?_, fun c hc => ?_,
    fun c n hn hlive => ?_⟩
  · obtain ⟨hjh, hold⟩ := hcases j K hj
    exact (k.shape j K hold).congr (fun _ _ => ⟨rfl, rfl⟩) (fun _ _ => ⟨rfl, rfl⟩) (fun _ _ => rfl)
      (fun _ _ => rfl) (fun b hb => update_of_ne (hused j K hjh hold b hb) _ _) (fun _ _ => rfl)
      (fun _ _ _ => rfl) rfl rfl
  · have hapart := k.apart j K j' K' (hcases j K hj).2 (hcases j' K' hj').2 hjj
    exact ⟨hapart.blocks, hapart.data⟩
  · have hbh : b ≠ h := fun heq => by
      have hb' : Function.update s.blocks h false b = true := hb
      rw [heq, update_self] at hb'
      cases hb'
    obtain ⟨j, K, hj, hmem⟩ := k.blocks b ((update_of_ne hbh _ _).symm.trans hb)
    rcases List.mem_cons.mp hmem with rfl | hmem
    · exact ⟨b, K, by rw [update_of_ne hbh, hj], List.mem_cons_self⟩
    · exact ⟨j, K, hkept j K b hj hmem, List.mem_cons_of_mem j hmem⟩
  · obtain ⟨j, K, hj, b, hb, hc⟩ := k.chunks c hc
    exact ⟨j, K, hkept j K b hj hb, b, hb, hc⟩
  · obtain ⟨j, K, hj, b, hb, hc⟩ := k.live c n hn hlive
    exact ⟨j, K, hkept j K b hj hb, b, hb, hc⟩

end Hubs

/-- **Destruction** destroys every element, and no address of the hub is used afterwards. -/
theorem endHub_run (e : Env α) (hs : Shape s h L) :
    ∃ u, endHub e h s = .done () { u with blocks := update u.blocks h false }
      ∧ Becomes s h L u ⟨[], [], []⟩
      ∧ u.log = s.log ++ (s.positions L.active).map (fun y => .destroy (s.slotAt y)) := by
  obtain ⟨u, hrun, hreset, hlog⟩ := reset_run e hs
  refine ⟨u, ?_, hreset, hlog⟩
  unfold endHub
  rw [Prog.bind_of_done hrun]
  rfl

/-! ## What is promised -/

/-- **Blocks are handed over**, by `swap`, by move assignment and by move construction:
whatever the two hubs have, an element stays in its slot, and the log of the elements tells
of nothing but those that were assigned to. -/
theorem hands_over (e : Env α) (hx : Shape s h L) (hy : Shape s g M) (ha : Apart s h L g M) :
    (∀ tmp, s.blocks tmp = false → ∃ t, swap h tmp g s = .done () t ∧ Handed s h L g M t M L)
    ∧ (∃ u t, moveAssign e h g s = .done () t ∧ Becomes s h L u ⟨[], [], []⟩
      ∧ u.log = s.log ++ (s.positions L.active).map (fun y => .destroy (s.slotAt y))
      ∧ Handed u h ⟨[], [], []⟩ g M t M ⟨[], [], []⟩)
    ∧ ∀ new, s.blocks new = false → ∃ t, moveConstruct new g s = .done () t
      ∧ Handed (newState s new) new ⟨[], [], []⟩ g M t M ⟨[], [], []⟩ :=
  ⟨fun _ htmp => swap_run hx hy ha htmp, moveAssign_run e hx hy ha,
    fun _ hnew => moveConstruct_run hy hnew⟩

theorem hands_over_twoHubs :
    (∀ tmp, twoHubs.blocks tmp = false → ∃ t, swap 1 tmp 4 twoHubs = .done () t
      ∧ Handed twoHubs 1 ⟨[2], [2], []⟩ 4 ⟨[5], [5], []⟩ t ⟨[5], [5], []⟩ ⟨[2], [2], []⟩)
    ∧ (∃ u t, moveAssign throwing 1 4 twoHubs = .done () t
      ∧ Becomes twoHubs 1 ⟨[2], [2], []⟩ u ⟨[], [], []⟩
      ∧ u.log = twoHubs.log ++ (twoHubs.positions [2]).map
        (fun y => .destroy (twoHubs.slotAt y))
      ∧ Handed u 1 ⟨[], [], []⟩ 4 ⟨[5], [5], []⟩ t ⟨[5], [5], []⟩ ⟨[], [], []⟩)
    ∧ ∀ new, twoHubs.blocks new = false → ∃ t, moveConstruct new 4 twoHubs = .done () t
      ∧ Handed (newState twoHubs new) new ⟨[], [], []⟩ 4 ⟨[5], [5], []⟩ t ⟨[5], [5], []⟩
        ⟨[], [], []⟩ :=
  hands_over throwing shape_twoHubs.1 shape_twoHubs.2 ⟨by decide, by decide⟩

end Hub
