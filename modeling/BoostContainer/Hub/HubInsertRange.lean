import BoostContainer.Hub.HubInsert

/-!
# Inserting a range into a hub

The first available block is filled from its lowest raw slot on, until it is full or the
range ends; then the next is asked for. There is no handler: where a construction throws,
or there is no memory for a block, what was inserted before stays, and a block that
was allocated for an element that was never made is reserved.
-/

open Function

namespace Hub

variable {α : Type}

section Programs

variable (e : Env α) (h : ℕ)

/-- One pass of the loop over the slots of a block, and whether the block is full. -/
def insertOne (pb n : ℕ) (v : α) : Prog (State α) Bool := do
  construct e (← dataOf pb, n) v
  growSize h 1
  if (← maskOf pb) = 0 then linkAtBack h pb
  let mask ← maskOf pb
  setMask pb (mask ||| (mask + 1))
  if (← maskOf pb) = full then do
    unlinkAvailable pb
    pure true
  else pure false

/-- The loop over the slots of a block, and what is left of the range. -/
def fillBlock (pb : ℕ) : List α → ℕ → Prog (State α) (List α)
  | [], _ => pure []
  | v :: vs, n => do
    let filled ← insertOne e h pb n v
    if filled = true then pure vs
    else if vs.isEmpty = true then pure []
    else do
      let mask ← maskOf pb
      fillBlock pb vs (Mask.countrOne mask)

/-- The loop over the blocks. -/
def rangeInsertLoop : ℕ → List α → Prog (State α) Unit
  | 0, _ => Prog.undefined
  | rounds + 1, vs =>
    if vs.isEmpty = true then pure ()
    else do
      let (pb, n) ← retrieveAvailableBlock e h
      let rest ← fillBlock e h pb vs n
      rangeInsertLoop rounds rest

/-- **`range_insert_impl`** -/
def rangeInsertImpl (vs : List α) : Prog (State α) Unit := rangeInsertLoop e h (vs.length + 1) vs

end Programs

variable {e : Env α} {s t : State α} {h b : ℕ} {L L' : Lists} {vs : List α} {v : α}

/-- **One pass** adds its element, or the construction throws. -/
theorem insertOne_cases (hs : Shape s h L) (hne : s.mask b ≠ full)
    (r : Room s L b (Mask.countrOne (s.mask b))) (v : α) :
    insertOne e h b (Mask.countrOne (s.mask b)) v s
        = .done (decide (s.mask b ||| Mask.bit (Mask.countrOne (s.mask b)) = full))
          (addedState s h b (Mask.countrOne (s.mask b)) v)
      ∨ insertOne e h b (Mask.countrOne (s.mask b)) v s = .threw { s with ops := s.ops + 1 } := by
  have hb := r.mem_blocks hs
  have hsome := hs.stored.isSome b hb _ r.lt
  rw [r.clear] at hsome
  have hraw := Option.isNone_iff_eq_none.mp (Option.isSome_eq_false_iff.mp hsome)
  have hset := Mask.or_add_one hne
  unfold insertOne dataOf
  rw [Prog.gets_bind]
  rcases construct_cases e v (hs.stored.chunk b hb) r.lt hraw with hrun | hrun
  · refine Or.inl ?_
    rw [Prog.bind_of_done hrun]
    unfold growSize maskOf linkAtBack setMask unlinkAvailable addedState constructedState
    dsimp only
    rw [Prog.modify_bind, Prog.gets_bind]
    dsimp only
    by_cases hzero : s.mask b = 0
    all_goals
      first
        | rw [if_pos hzero, if_pos hzero, Prog.modify_bind]
        | rw [if_neg hzero, if_neg hzero]
      rw [Prog.gets_bind]
      dsimp only
      rw [Prog.modify_bind, Prog.gets_bind, hset]
      dsimp only
      simp only [update_self]
      by_cases hfull : s.mask b ||| Mask.bit (Mask.countrOne (s.mask b)) = full
      · rw [if_pos hfull, if_pos hfull, decide_eq_true hfull]
        rfl
      · rw [if_neg hfull, if_neg hfull, decide_eq_false hfull]
        rfl
  · refine Or.inr ?_
    show Prog.bind _ _ _ = _
    unfold Prog.bind
    dsimp only
    rw [hrun]

/-- Nothing was inserted by a construction that throws. -/
theorem Inserts.of_ops (hs : Shape s h L) (n : ℕ) : Inserts s h L [] { s with ops := n } L :=
  Inserts.of_unchanged (Unchanged.of_ops s n) hs rfl

theorem Inserts.shape (k : Inserts s h L vs t L') : Shape t h L' :=
  k.choose_spec.2.1.becomes.shape

/-- Nothing is inserted into a new block. -/
theorem Inserts.of_fresh {pb c : ℕ} (hs : Shape s h L) (hpb : s.blocks pb = false)
    (hc : s.chunks c = false) : Inserts s h L [] (freshState s h pb c) (L.grows pb) := by
  have hmask : ∀ b ∈ L.active, (freshState s h pb c).mask b = s.mask b := fun b hb => by
    refine update_of_ne (fun heq => ?_) _ _
    have hused := hs.stored.block b (List.mem_append_left _ hb)
    rw [heq, hpb] at hused
    cases hused
  have hpos : (freshState s h pb c).positions L.active = s.positions L.active :=
    State.positions_congr hmask
  refine ⟨[], rfl, hs.fresh_added hpb hc, fun hp => ⟨fun b hb => ?_, ?_⟩⟩
  · rw [hmask b ((hs.mem_partly b).mp hb).1]
    exact hp b hb
  · exact hpos.trans (List.append_nil _).symm

/-- A reserved block is first only where no other has room. -/
theorem Shape.partly_nil_of_first (hs : Shape s h L) (hzero : s.mask (s.available.next h) = 0) :
    L.partly = [] := by
  have hhead := hs.ringAvailable.next_header
  cases hl : L.partly with
  | nil => rfl
  | cons b rest =>
    rw [hl, List.cons_append, List.headD_cons] at hhead
    have hb : b ∈ L.partly := hl ▸ List.mem_cons_self
    exact absurd (hhead ▸ hzero) (hs.mask_active b ((hs.mem_partly b).mp hb).1)

/-- A block that is not full has room for the next element too. -/
theorem Room.next (r : Room s L b (Mask.countrOne (s.mask b))) (hs : Shape s h L)
    (hne : (addedState s h b (Mask.countrOne (s.mask b)) v).mask b ≠ full) :
    Room (addedState s h b (Mask.countrOne (s.mask b)) v)
      (L.fills s b (Mask.countrOne (s.mask b))) b
      (Mask.countrOne ((addedState s h b (Mask.countrOne (s.mask b)) v).mask b)) := by
  have hself : (addedState s h b (Mask.countrOne (s.mask b)) v).mask b
      = s.mask b ||| Mask.bit (Mask.countrOne (s.mask b)) := update_self _ _ _
  refine ⟨Or.inl ?_, Mask.countrOne_lt hne, Mask.getLsbD_countrOne hne⟩
  rw [hself] at hne
  unfold Lists.fills
  by_cases hzero : s.mask b = 0
  · rw [if_pos hzero]
    exact List.mem_append_right _ (List.mem_singleton.mpr rfl)
  · rw [if_neg hzero, if_neg hne]
    exact r.of_nonempty hs hzero

/-- **A block is filled**, from its lowest clear bit on. -/
theorem fillBlock_run (vs : List α) : ∀ {s : State α} {L : Lists}, Shape s h L →
    s.mask b ≠ full → Room s L b (Mask.countrOne (s.mask b)) → (s.mask b = 0 → L.partly = []) →
    (fillBlock e h b vs (Mask.countrOne (s.mask b)) s).Meets
      (fun rest t => ∃ new L', vs = new ++ rest ∧ (vs ≠ [] → new ≠ []) ∧ Inserts s h L new t L')
      (fun t => ∃ k L', k < vs.length ∧ Inserts s h L (vs.take k) t L') := by
  induction vs with
  | nil =>
    intro s L hs _ _ _
    exact ⟨[], L, rfl, fun h => h, Inserts.refl hs⟩
  | cons v vs ih =>
    intro s L hs hne r hfirst
    have hone := Inserts.of_room hs r hfirst v
    have hset := r.set_ne_zero
    have hself : (addedState s h b (Mask.countrOne (s.mask b)) v).mask b
        = s.mask b ||| Mask.bit (Mask.countrOne (s.mask b)) := update_self _ _ _
    unfold fillBlock
    rcases insertOne_cases (e := e) hs hne r v with hrun | hrun
    · rw [Prog.bind_of_done hrun]
      by_cases hfull : s.mask b ||| Mask.bit (Mask.countrOne (s.mask b)) = full
      · rw [if_pos (decide_eq_true hfull)]
        exact ⟨[v], _, rfl, fun _ => List.cons_ne_nil v [], hone⟩
      · rw [if_neg fun hd => hfull (of_decide_eq_true hd)]
        cases hvs : vs.isEmpty with
        | true =>
          rw [if_pos rfl, List.isEmpty_iff.mp hvs]
          exact ⟨[v], _, rfl, fun _ => List.cons_ne_nil v [], hone⟩
        | false =>
          rw [if_neg Bool.false_ne_true, maskOf, Prog.gets_bind]
          have hadded := r.added hs v
          rw [← hself] at hfull hset
          refine (ih hadded.becomes.shape hfull (r.next hs hfull) fun hz => absurd hz hset).imp
            (fun rest t ⟨new, L', heq, _, hnew⟩ => ?_) fun t ⟨k, L', hk, hnew⟩ => ?_
          · exact ⟨v :: new, L', by rw [heq, List.cons_append], fun _ => List.cons_ne_nil v new,
              hone.trans hnew⟩
          · exact ⟨k + 1, L', Nat.succ_lt_succ hk, hone.trans hnew⟩
    · refine Prog.bind_meets_of_throws ?_
      rw [hrun]
      exact ⟨0, L, Nat.succ_pos _, Inserts.of_ops hs _⟩

/-- **A block to insert into**: the first with room, or a new one. -/
theorem retrieveAvailableBlock_run (e : Env α) (hs : Shape s h L) :
    (retrieveAvailableBlock e h s).Meets
      (fun r t => ∃ L', Inserts s h L [] t L' ∧ t.mask r.1 ≠ full
        ∧ r.2 = Mask.countrOne (t.mask r.1) ∧ Room t L' r.1 (Mask.countrOne (t.mask r.1))
        ∧ (t.mask r.1 = 0 → L'.partly = []))
      (fun t => Inserts s h L [] t L) := by
  unfold retrieveAvailableBlock nextAvailable
  rw [Prog.gets_bind]
  by_cases hnone : s.available.next h = h
  · obtain ⟨hpartly, hreserved⟩ := hs.none_available hnone
    rw [if_neg (not_not_intro hnone)]
    rcases createNewAvailableBlock_cases e s h with ⟨pb, c, hpb, hc, hrun⟩ | ⟨t, hrun, hun, hslot⟩
    · have hzero : (freshState s h pb c).mask pb = 0 := update_self _ _ _
      have hne : (freshState s h pb c).mask pb ≠ full := by
        rw [hzero]
        decide
      rw [Prog.bind_of_done hrun]
      refine ⟨L.grows pb, Inserts.of_fresh hs hpb hc, hne, ?_, ?_, fun _ => hpartly⟩
      · rw [hzero]
        show 0 = Mask.countrOne 0
        decide +kernel
      · refine ⟨Or.inr ⟨[], ?_⟩, Mask.countrOne_lt hne, Mask.getLsbD_countrOne hne⟩
        show L.reserved ++ [pb] = [pb]
        rw [hreserved, List.nil_append]
    · refine Prog.bind_meets_of_throws ?_
      rw [hrun]
      exact Inserts.of_unchanged hun hs hslot
  · obtain ⟨hne, hroom⟩ := hs.room_of_available hnone
    rw [if_pos hnone]
    exact ⟨L, Inserts.refl hs, hne, rfl, hroom, hs.partly_nil_of_first⟩

/-- **The loop over the blocks** ends, because every block takes an element. -/
theorem rangeInsertLoop_run (e : Env α) (rounds : ℕ) : ∀ {s : State α} {L : Lists} (vs : List α),
    Shape s h L → vs.length < rounds →
    (rangeInsertLoop e h rounds vs s).Meets (fun _ t => ∃ L', Inserts s h L vs t L')
      (fun t => ∃ k L', k < vs.length ∧ Inserts s h L (vs.take k) t L') := by
  induction rounds with
  | zero =>
    intro s L vs _ hlt
    exact absurd hlt (Nat.not_lt_zero _)
  | succ rounds ih =>
    intro s L vs hs hlt
    unfold rangeInsertLoop
    cases hvs : vs.isEmpty with
    | true =>
      rw [if_pos rfl, List.isEmpty_iff.mp hvs]
      exact ⟨L, Inserts.refl hs⟩
    | false =>
      have hnil : vs ≠ [] := fun heq => by
        rw [heq] at hvs
        cases hvs
      rw [if_neg Bool.false_ne_true]
      refine Prog.bind_meets ((retrieveAvailableBlock_run e hs).imp (fun _ _ h => h)
        fun t ht => ⟨0, L, List.length_pos_iff.mpr hnil, ht⟩) ?_
      rintro ⟨pb, n⟩ t ⟨L₁, h₁, hne, hn, hroom, hfirst⟩
      dsimp only at hn hne hroom hfirst ⊢
      rw [hn]
      refine Prog.bind_meets ((fillBlock_run (e := e) vs h₁.shape hne hroom hfirst).imp
        (fun _ _ h => h) fun u ⟨k, L', hk, hnew⟩ => ⟨k, L', hk, h₁.trans hnew⟩) ?_
      rintro rest u ⟨new, L₂, heq, hnew, h₂⟩
      have hpos := List.length_pos_iff.mpr (hnew hnil)
      have hlen : vs.length = new.length + rest.length := by rw [heq, List.length_append]
      refine (ih rest h₂.shape (by omega)).imp (fun _ w ⟨L', h₃⟩ => ⟨L', ?_⟩)
        fun w ⟨k, L', hk, h₃⟩ => ⟨new.length + k, L', by omega, ?_⟩
      · rw [heq]
        exact h₁.trans (h₂.trans h₃)
      · rw [heq, List.take_length_add_append]
        exact h₁.trans (h₂.trans h₃)

/-- **A range is inserted**, or a part of it, up to where a construction throws. -/
theorem rangeInsertImpl_run (e : Env α) (hs : Shape s h L) (vs : List α) :
    (rangeInsertImpl e h vs s).Meets (fun _ t => ∃ L', Inserts s h L vs t L')
      (fun t => ∃ k L', k < vs.length ∧ Inserts s h L (vs.take k) t L') :=
  rangeInsertLoop_run e _ vs hs (Nat.lt_succ_self _)

/-! ## What is promised -/

end Hub
