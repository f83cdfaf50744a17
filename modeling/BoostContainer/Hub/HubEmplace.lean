import BoostContainer.Hub.HubLayout

/-!
# Putting an element into a hub

An element goes into the first slot without one of the first available block. Where
no block is available one is allocated, and linked before anything is constructed
in it; where the construction throws, it has to go again. The handler compares
the first available block with what it was when the call began. They differ
exactly if the block is new, because an available block is never unlinked before its
element is there.
-/

open Function

namespace Hub

variable {α : Type}

section Emplace

variable (e : Env α) (h : ℕ)

/-- `block_alloc_traits::allocate`, of one block. -/
def allocateBlock : Prog (State α) ℕ := fun s =>
  match e.block s.blocks with
  | some b => .done b.1 { s with blocks := update s.blocks b.1 true }
  | none => .threw s

/-- `value_alloc_traits::allocate`, of the slots of a block. They are raw. -/
def allocateData : Prog (State α) ℕ := fun s =>
  match e.chunk s.chunks with
  | some c => .done c.1 { s with
      chunks := update s.chunks c.1 true
      slot := fun p => if p.1 = c.1 then none else s.slot p }
  | none => .threw s

/-- `block_alloc_traits::deallocate` -/
def deallocateBlock (pb : ℕ) : Prog (State α) Unit := fun s =>
  if s.blocks pb then .done () { s with blocks := update s.blocks pb false } else .undefined

/-- `value_alloc_traits::deallocate` -/
def deallocateData (pd : ℕ) : Prog (State α) Unit := fun s =>
  if s.chunks pd then .done () { s with chunks := update s.chunks pd false } else .undefined

/-- `pb->data_ = data` -/
def setData (pb data : ℕ) : Prog (State α) Unit :=
  Prog.modify fun s => { s with data := update s.data pb data }

/-- `++num_blocks` -/
def growBlocks : Prog (State α) Unit :=
  Prog.modify fun s => { s with numBlocks := update s.numBlocks h (s.numBlocks h + 1) }

/-- `--num_blocks` -/
def dropBlocks : Prog (State α) Unit :=
  Prog.modify fun s => { s with numBlocks := update s.numBlocks h (s.numBlocks h - 1) }

/-- `blist.next_available` -/
def nextAvailable : Prog (State α) ℕ := Prog.gets fun s => s.available.next h

/-- `create_new_available_block` -/
def createNewAvailableBlock : Prog (State α) ℕ := do
  let pb ← allocateBlock e
  setMask pb 0
  let data ← (allocateData e).onThrow (deallocateBlock pb)
  setData pb data
  linkAvailableAtBack h pb
  growBlocks h
  pure pb

/-- `delete_block` -/
def deleteBlock (pb : ℕ) : Prog (State α) Unit := do
  deallocateData (← dataOf pb)
  deallocateBlock pb

/-- `retrieve_available_block`: the block, and the slot. -/
def retrieveAvailableBlock : Prog (State α) (ℕ × ℕ) := do
  let pb ← nextAvailable h
  if pb ≠ h then do
    let mask ← maskOf pb
    pure (pb, Mask.countrOne mask)
  else do
    let pb ← createNewAvailableBlock e h
    pure (pb, 0)

/-- `restore_capacity_on_throw` -/
def restoreCapacityOnThrow (pbb : ℕ) : Prog (State α) Unit := do
  let pb ← nextAvailable h
  if pb ≠ pbb then do
    unlinkAvailable pb
    deleteBlock pb
    dropBlocks h
  else pure ()

/-- `construct_or_restore_capacity` -/
def constructOrRestoreCapacity (p : ℕ × ℕ) (pbb : ℕ) (v : α) : Prog (State α) Unit :=
  (construct e p v).onThrow (restoreCapacityOnThrow h pbb)

/-- The part of `emplace` that cannot throw: the slot has an element. -/
def commitElement (pb : ℕ) (mask : BitVec 64) : Prog (State α) Unit := do
  let mask := mask ||| (mask + 1)
  setMask pb mask
  let maskPlusOne := mask + 1
  (if maskPlusOne.ule 2 then
    if maskPlusOne = 0 then unlinkAvailable pb else linkAtBack h pb
  else pure ())
  growSize h 1

/-- **`emplace`** -/
def emplace (v : α) : Prog (State α) Iterator := do
  let pbb ← nextAvailable h
  let (pb, n) ← retrieveAvailableBlock e h
  let mask ← maskOf pb
  constructOrRestoreCapacity e h (← dataOf pb, n) pbb v
  commitElement h pb mask
  pure ⟨pb, n⟩

end Emplace

/-! ## Nothing happened -/

/-- **Memory as it was**: what is allocated, all that is in it, and the counters. -/
structure Unchanged (s t : State α) : Prop where
  list : t.list = s.list
  available : Links.AgreeOn {b | s.blocks b = true} s.available t.available
  mask : ∀ b, s.blocks b = true → t.mask b = s.mask b
  data : ∀ b, s.blocks b = true → t.data b = s.data b
  slot : ∀ c, s.chunks c = true → ∀ n, t.slot (c, n) = s.slot (c, n)
  blocks : t.blocks = s.blocks
  chunks : t.chunks = s.chunks
  numBlocks : t.numBlocks = s.numBlocks
  size : t.size = s.size
  log : t.log = s.log

variable {e : Env α} {s t : State α} {h : ℕ} {L : Lists} {v : α}

/-- **Every hub is what it was.** -/
theorem Unchanged.shape (u : Unchanged s t) (hs : Shape s h L) : Shape t h L := by
  have hmem : ∀ b ∈ h :: L.blocks, s.blocks b = true := fun b hb =>
    (List.mem_cons.mp hb).elim (fun heq => heq ▸ hs.header) (hs.stored.block b)
  have hactive : ∀ b ∈ L.active, b ∈ L.blocks := fun b hb => List.mem_append_left _ hb
  have hmask : ∀ b ∈ L.blocks, t.mask b = s.mask b := fun b hb =>
    u.mask b (hs.stored.block b hb)
  have hdata : ∀ b ∈ L.blocks, t.data b = s.data b := fun b hb =>
    u.data b (hs.stored.block b hb)
  exact
    { ring := u.list.symm ▸ hs.ring
      ringAvailable := hs.ringAvailable.congr fun b hb => u.available b (hmem b (by
        rcases List.mem_cons.mp hb with rfl | hb
        · exact List.mem_cons_self
        · refine List.mem_cons_of_mem h ?_
          rcases List.mem_append.mp hb with hb | hb
          · exact hactive b ((hs.mem_partly b).mp hb).1
          · exact List.mem_append_right _ hb))
      mask_header := (u.mask h hs.header).trans hs.mask_header
      mask_active := fun b hb => hmask b (hactive b hb) ▸ hs.mask_active b hb
      mem_partly := fun b => (hs.mem_partly b).trans
        (and_congr_right fun hb => by rw [hmask b (hactive b hb)])
      mask_reserved := fun b hb =>
        (hmask b (List.mem_append_right _ hb)).trans (hs.mask_reserved b hb)
      stored :=
        { block := fun b hb => u.blocks ▸ hs.stored.block b hb
          chunk := fun b hb => by
            rw [u.chunks, hdata b hb]
            exact hs.stored.chunk b hb
          data_inj := fun b hb b' hb' heq => by
            rw [hdata b hb, hdata b' hb'] at heq
            exact hs.stored.data_inj b hb b' hb' heq
          isSome := fun b hb n hn => by
            rw [hdata b hb, hmask b hb, u.slot _ (hs.stored.chunk b hb) n]
            exact hs.stored.isSome b hb n hn }
      header := u.blocks ▸ hs.header
      numBlocks := u.numBlocks ▸ hs.numBlocks
      size := by
        rw [u.size, hs.size, State.positions_congr fun b hb => hmask b (hactive b hb)] }

/-- **The elements are what they were**, in the same order. -/
theorem Unchanged.contents (u : Unchanged s t) (hs : Shape s h L) :
    t.contents L.active = s.contents L.active := by
  have hactive : ∀ b ∈ L.active, b ∈ L.blocks := fun b hb => List.mem_append_left _ hb
  have hpos : t.positions L.active = s.positions L.active :=
    State.positions_congr fun b hb => u.mask b (hs.stored.block b (hactive b hb))
  unfold State.contents
  rw [hpos]
  refine List.filterMap_congr fun x hx => ?_
  have hb := hactive _ (State.mem_positions.mp hx).1
  rw [State.slotAt, u.data _ (hs.stored.block _ hb)]
  exact u.slot _ (hs.stored.chunk _ hb) x.n

/-! ## A new block, and back -/

/-- **Memory with a new block** that is available and has no elements. -/
def freshState (s : State α) (h pb c : ℕ) : State α :=
  { s with
    available := s.available.linkBefore pb h
    mask := update s.mask pb 0
    data := update s.data pb c
    slot := fun p => if p.1 = c then none else s.slot p
    blocks := update s.blocks pb true
    chunks := update s.chunks c true
    numBlocks := update s.numBlocks h (s.numBlocks h + 1) }

theorem update_back {β : Type*} (f : ℕ → β) (a : ℕ) (x : β) :
    update (update f a x) a (f a) = f := by
  rw [update_idem, update_eq_self]

/-- **A new block is allocated, or nothing is.** -/
theorem createNewAvailableBlock_meets (e : Env α) (s : State α) (h : ℕ) :
    Prog.Meets (fun t => t = s) (createNewAvailableBlock e h)
      (fun pb t => ∃ c, s.blocks pb = false ∧ s.chunks c = false ∧ t = freshState s h pb c)
      (Unchanged s) := by
  rintro t rfl
  unfold createNewAvailableBlock
  rcases hblock : e.block t.blocks with - | ⟨pb, hpb⟩
  · have hthrow : allocateBlock e t = .threw t := by rw [allocateBlock, hblock]
    refine Prog.bind_meets (Q := fun _ _ => False) ?_ fun _ _ hf => hf.elim
    rw [hthrow]
    exact ⟨rfl, fun _ _ => ⟨rfl, rfl⟩, fun _ _ => rfl, fun _ _ => rfl, fun _ _ _ => rfl, rfl, rfl,
      rfl, rfl, rfl⟩
  · have hdone : allocateBlock e t = .done pb { t with blocks := update t.blocks pb true } := by
      rw [allocateBlock, hblock]
    rw [Prog.bind_of_done hdone, setMask, Prog.modify_bind]
    rcases hchunk : e.chunk t.chunks with - | ⟨c, hc⟩
    -- The slots cannot be allocated, and the block is given back.
    · have hback : update (update t.blocks pb true) pb false = t.blocks := by
        have := update_back t.blocks pb true
        rwa [hpb] at this
      have hthrow : ((allocateData e).onThrow (deallocateBlock pb))
          { t with blocks := update t.blocks pb true, mask := update t.mask pb 0 }
          = .threw { t with mask := update t.mask pb 0 } := by
        rw [Prog.onThrow, allocateData, hchunk]
        simp only [deallocateBlock, update_self, if_true, hback]
      refine Prog.bind_meets (Q := fun _ _ => False) ?_ fun _ _ hf => hf.elim
      rw [hthrow]
      refine ⟨rfl, fun _ _ => ⟨rfl, rfl⟩, fun b hb => update_of_ne (fun heq => ?_) _ _,
        fun _ _ => rfl, fun _ _ _ => rfl, rfl, rfl, rfl, rfl, rfl⟩
      rw [heq, hpb] at hb
      cases hb
    · have hdata : ((allocateData e).onThrow (deallocateBlock pb))
          { t with blocks := update t.blocks pb true, mask := update t.mask pb 0 }
          = .done c { t with
              blocks := update t.blocks pb true
              mask := update t.mask pb 0
              chunks := update t.chunks c true
              slot := fun p => if p.1 = c then none else t.slot p } := by
        rw [Prog.onThrow, allocateData, hchunk]
      rw [Prog.bind_of_done hdata]
      exact ⟨c, hpb, hc, rfl⟩

theorem deallocateData_of {pd : ℕ} (h : t.chunks pd = true) :
    deallocateData pd t = .done () { t with chunks := update t.chunks pd false } := if_pos h

theorem deallocateBlock_of {pb : ℕ} (h : t.blocks pb = true) :
    deallocateBlock pb t = .done () { t with blocks := update t.blocks pb false } := if_pos h

/-- **A new block is taken back**, where no other was available. -/
theorem restoreCapacityOnThrow_fresh (hs : Shape s h L) (hnone : s.available.next h = h) {pb c : ℕ}
    (hpb : s.blocks pb = false) (hc : s.chunks c = false) (n : ℕ) :
    (restoreCapacityOnThrow h h { freshState s h pb c with ops := n }).Meets
      (fun _ => Unchanged s) (fun _ => False) := by
  have hne : pb ≠ h := by
    rintro rfl
    rw [hs.header] at hpb
    cases hpb
  have hring : Circular s.available h [] := by
    have hempty : L.partly ++ L.reserved = [] := by
      have hhead := hs.ringAvailable.next_header
      rw [hnone] at hhead
      cases hl : L.partly ++ L.reserved with
      | nil => rfl
      | cons b rest =>
        rw [hl] at hhead
        have hnot := hs.ringAvailable.header_notMem
        rw [hl] at hnot
        exact absurd (hhead ▸ List.mem_cons_self : h ∈ b :: rest) hnot
    exact hempty ▸ hs.ringAvailable
  have hprev : s.available.prev h = h := hring.prev_header
  have hnext : (s.available.linkBefore pb h).next h = pb := by
    have hlinked := hring.linkBefore_back (b := pb) (by rw [List.mem_singleton]; exact hne)
    exact hlinked.next_header
  have hagree := s.available.linkBefore_unlink_agree (b := pb) (p := h) hne.symm
    (hprev.symm ▸ hne.symm) (hprev.symm ▸ hnone)
  have hpd : update s.data pb c pb = c := update_self _ _ _
  have hold : ∀ b, s.blocks b = true → b ≠ pb := by
    rintro b hb rfl
    rw [hpb] at hb
    cases hb
  have hrun : restoreCapacityOnThrow h h { freshState s h pb c with ops := n }
      = .done () { freshState s h pb c with
          ops := n
          available := (s.available.linkBefore pb h).unlink pb
          chunks := update (update s.chunks c true) c false
          blocks := update (update s.blocks pb true) pb false
          numBlocks := update (update s.numBlocks h (s.numBlocks h + 1)) h
            (update s.numBlocks h (s.numBlocks h + 1) h - 1) } := by
    have hfirst : nextAvailable h { freshState s h pb c with ops := n }
        = .done pb { freshState s h pb c with ops := n } := by
      show Outcome.done ((s.available.linkBefore pb h).next h) _ = _
      rw [hnext]
    rw [restoreCapacityOnThrow, Prog.bind_of_done hfirst, if_pos hne, unlinkAvailable,
      Prog.modify_bind]
    have hdelete : deleteBlock pb { freshState s h pb c with
          ops := n
          available := (s.available.linkBefore pb h).unlink pb }
        = .done () { freshState s h pb c with
          ops := n
          available := (s.available.linkBefore pb h).unlink pb
          chunks := update (update s.chunks c true) c false
          blocks := update (update s.blocks pb true) pb false } := by
      unfold deleteBlock dataOf
      rw [Prog.gets_bind]
      show (deallocateData (update s.data pb c pb) >>= _) _ = _
      rw [hpd, Prog.bind_of_done (deallocateData_of (update_self c true s.chunks))]
      have hone : update s.blocks pb true pb = true := update_self _ _ _
      exact deallocateBlock_of hone
    exact Prog.bind_of_done hdelete
  rw [hrun]
  have hblocks : update (update s.blocks pb true) pb false = s.blocks := by
    have := update_back s.blocks pb true
    rwa [hpb] at this
  have hchunks : update (update s.chunks c true) c false = s.chunks := by
    have := update_back s.chunks c true
    rwa [hc] at this
  have hnum : update (update s.numBlocks h (s.numBlocks h + 1)) h
      (update s.numBlocks h (s.numBlocks h + 1) h - 1) = s.numBlocks := by
    rw [update_self, Nat.add_sub_cancel, update_back]
  refine ⟨rfl, fun b hb => hagree b (hold b hb), fun b hb => update_of_ne (hold b hb) _ _,
    fun b hb => update_of_ne (hold b hb) _ _, fun c' hc' m => if_neg fun heq => ?_, hblocks,
    hchunks, hnum, rfl, rfl⟩
  have heq' : c' = c := heq
  rw [heq', hc] at hc'
  cases hc'

/-! ## Constructing -/

/-- **A construction that throws** changes nothing but the count of operations. -/
theorem construct_meets {p : ℕ × ℕ} (e : Env α) (v : α) (hchunk : t.chunks p.1 = true)
    (hn : p.2 < N) (hraw : t.slot p = none) :
    Prog.Meets (fun u => u = t) (construct e p v) (fun _ _ => True)
      (fun u => u = { t with ops := t.ops + 1 }) := by
  rintro _ rfl
  unfold construct
  rw [if_pos ⟨hchunk, hn, hraw⟩]
  split
  · exact rfl
  · trivial

/-- What follows a construction cannot throw. -/
theorem commitElement_meets (h pb : ℕ) (mask : BitVec 64) (E : State α → Prop) :
    Prog.Meets (fun _ => True) (commitElement h pb mask : Prog (State α) Unit)
      (fun _ _ => True) E := by
  unfold commitElement
  refine Prog.Meets.bind (R := fun _ _ => True) (fun _ _ => trivial) fun _ => ?_
  refine Prog.Meets.bind (R := fun _ _ => True) ?_ fun _ _ _ => trivial
  refine Prog.Meets.ite (fun _ => ?_) fun _ _ _ => trivial
  exact Prog.Meets.ite (fun _ _ _ => trivial) fun _ _ _ => trivial

/-- The first available block has room, and the slot it offers is raw. -/
theorem slot_available (hs : Shape s h L) (hsome : s.available.next h ≠ h) :
    let b := s.available.next h
    s.chunks (s.data b) = true ∧ Mask.countrOne (s.mask b) < N
      ∧ s.slot (s.data b, Mask.countrOne (s.mask b)) = none := by
  intro b
  have hmem : b ∈ L.partly ++ L.reserved := by
    have hhead := hs.ringAvailable.next_header
    have hin := Circular.headD_mem h (L.partly ++ L.reserved)
    rw [← hhead] at hin
    exact (List.mem_cons.mp hin).resolve_left hsome
  have hblock : b ∈ L.blocks ∧ s.mask b ≠ full := by
    rcases List.mem_append.mp hmem with hb | hb
    · have hpart := (hs.mem_partly b).mp hb
      exact ⟨List.mem_append_left _ hpart.1, hpart.2⟩
    · refine ⟨List.mem_append_right _ hb, ?_⟩
      rw [hs.mask_reserved b hb]
      decide
  have hlt := Mask.countrOne_lt hblock.2
  refine ⟨hs.stored.chunk b hblock.1, hlt, ?_⟩
  have hsome' := hs.stored.isSome b hblock.1 _ hlt
  rw [Mask.getLsbD_countrOne hblock.2] at hsome'
  exact Option.isNone_iff_eq_none.mp (Option.isSome_eq_false_iff.mp hsome')

theorem Unchanged.of_ops (s : State α) (n : ℕ) : Unchanged s { s with ops := n } :=
  ⟨rfl, fun _ _ => ⟨rfl, rfl⟩, fun _ _ => rfl, fun _ _ => rfl, fun _ _ _ => rfl, rfl, rfl, rfl, rfl,
    rfl⟩

/-- **`emplace` has no effects if it throws.** -/
theorem emplace_meets (e : Env α) (hs : Shape s h L) (v : α) :
    (emplace e h v s).Meets (fun _ _ => True) (Unchanged s) := by
  have htail : ∀ pb n mask, Prog.Meets (fun _ : State α => True)
      (do commitElement h pb mask; pure (Iterator.mk pb n)) (fun _ _ => True) (Unchanged s) :=
    fun pb n mask => Prog.Meets.bind (commitElement_meets h pb mask _) fun _ _ _ => trivial
  unfold emplace nextAvailable
  rw [Prog.gets_bind]
  by_cases hnone : s.available.next h = h
  -- A new block is allocated.
  · have hretrieve : retrieveAvailableBlock e h s
        = (createNewAvailableBlock e h >>= fun pb => pure (pb, 0)) s := by
      unfold retrieveAvailableBlock nextAvailable
      rw [Prog.gets_bind, if_neg (not_not_intro hnone)]
    rw [Prog.bind_congr_left hretrieve, Prog.bind_assoc, hnone]
    refine Prog.bind_meets (createNewAvailableBlock_meets e s h s rfl)
      fun pb t ⟨c, hpb, hc, ht⟩ => ?_
    subst ht
    rw [Prog.pure_bind]
    have hdata : (freshState s h pb c).data pb = c := update_self _ _ _
    unfold maskOf dataOf
    dsimp only
    rw [Prog.gets_bind, Prog.gets_bind, hdata]
    refine Prog.bind_meets (Q := fun _ _ => True) ?_ fun _ u _ => htail pb 0 _ u trivial
    have hchunk : (freshState s h pb c).chunks (c, 0).1 = true := update_self _ _ _
    have hlt : 0 < N := by decide
    have hconstruct := construct_meets (p := (c, 0)) e v hchunk hlt (if_pos rfl)
    refine hconstruct.onThrow (fun u hu => ?_) (freshState s h pb c) rfl
    subst hu
    exact restoreCapacityOnThrow_fresh hs hnone hpb hc _
  -- The first available block takes the element.
  · obtain ⟨hchunk, hlt, hraw⟩ := slot_available hs hnone
    have hretrieve : retrieveAvailableBlock e h s
        = .done (s.available.next h, Mask.countrOne (s.mask (s.available.next h))) s := by
      unfold retrieveAvailableBlock nextAvailable
      rw [Prog.gets_bind, if_pos hnone]
      rfl
    rw [Prog.bind_of_done hretrieve]
    unfold maskOf dataOf
    dsimp only
    rw [Prog.gets_bind, Prog.gets_bind]
    refine Prog.bind_meets (Q := fun _ _ => True) ?_ fun _ u _ => htail _ _ _ u trivial
    have hconstruct := construct_meets e v hchunk hlt hraw
    refine hconstruct.onThrow (fun u hu => ?_) s rfl
    have hkept : restoreCapacityOnThrow h (s.available.next h) u = .done () u := by
      unfold restoreCapacityOnThrow nextAvailable
      rw [Prog.gets_bind, hu, if_neg (not_not_intro rfl)]
      rfl
    rw [hkept, hu]
    exact Unchanged.of_ops s _

/-- **The strong guarantee of `emplace`.** Where the construction or an allocation throws, the
elements and their order are what they were, and so are the size, the capacity and all
that is allocated. -/
theorem emplace_strong (e : Env α) (hs : Shape s h L) (v : α) :
    Prog.Meets (fun t => t = s) (emplace e h v) (fun _ _ => True) (fun t => Shape t h L
      ∧ t.contents L.active = s.contents L.active ∧ t.positions L.active = s.positions L.active
      ∧ t.size h = s.size h ∧ t.numBlocks h * N = s.numBlocks h * N ∧ Unchanged s t) := by
  intro u hu
  rw [hu]
  refine (emplace_meets e hs v).imp (fun _ _ => id) fun t u => ?_
  have hpos : t.positions L.active = s.positions L.active :=
    State.positions_congr fun b hb =>
      u.mask b (hs.stored.block b (List.mem_append_left _ hb))
  exact ⟨u.shape hs, u.contents hs, hpos, congrFun u.size h,
    congrArg (· * N) (congrFun u.numBlocks h), u⟩

/-- Elements whose construction throws, and no memory for a block. -/
def throwing : Env ℕ := ⟨some 0, fun _ => none, fun _ => none, id, false⟩

/-- A hub with room, and an element that throws. -/
theorem emplace_strong_sample :
    Prog.Meets (fun t => t = sample) (emplace throwing 1 7) (fun _ _ => True) (fun t =>
      Shape t 1 sampleLists ∧ t.contents sampleLists.active = sample.contents sampleLists.active
      ∧ t.positions sampleLists.active = sample.positions sampleLists.active
      ∧ t.size 1 = sample.size 1 ∧ t.numBlocks 1 * N = sample.numBlocks 1 * N
      ∧ Unchanged sample t) :=
  emplace_strong throwing shape_sample 7

end Hub
