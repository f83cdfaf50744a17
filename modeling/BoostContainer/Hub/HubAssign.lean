import BoostContainer.Hub.HubInsertRange
import BoostContainer.Hub.HubUnique

/-!
# Assigning to a hub

`assign` goes through all slots of the active blocks, in the order of iteration. A slot with
an element is assigned to, and in a raw one an element is constructed, so that the
blocks that it leaves behind are full. Where the range ends before the blocks do, the elements that follow
are erased; where the blocks end, the rest of the range is inserted, and comes last
because no block before has room.
-/

open Function

namespace Hub

variable {α : Type}

section Programs

variable (e : Env α) (h : ℕ)

/-- One pass of the loop over the slots of a block. -/
def assignOne (pb n : ℕ) (v : α) : Prog (State α) Unit := do
  if (← maskOf pb).getLsbD n = true then assign e (← dataOf pb, n) v
  else do
    construct e (← dataOf pb, n) v
    growSize h 1
    setMask pb ((← maskOf pb) ||| Mask.bit n)
    if (← maskOf pb) = full then unlinkAvailable pb else pure ()

/-- The loop over the slots of a block: what is left of the range, and the last slot. -/
def assignBlock (pb : ℕ) : ℕ → ℕ → List α → Prog (State α) (List α × ℕ)
  | 0, n, vs => pure (vs, n)
  | _ + 1, _, [] => Prog.undefined
  | left + 1, n, v :: vs => do
    assignOne e h pb n v
    if vs.isEmpty = true then pure ([], n) else assignBlock pb left (n + 1) vs

/-- The loop over the active blocks. -/
def assignBlocks : ℕ → ℕ → List α → Prog (State α) (List α × Iterator)
  | 0, _, _ => Prog.undefined
  | rounds + 1, pbb, vs =>
    if pbb = h then pure (vs, endOf h)
    else do
      let (rest, n) ← assignBlock e h pbb N 0 vs
      if rest.isEmpty = true then pure ([], ⟨pbb, n⟩)
      else do
        let next ← nextOf pbb
        assignBlocks rounds next rest

/-- **`range_assign_impl`** -/
def rangeAssignImpl (vs : List α) : Prog (State α) Unit := do
  let rounds ← Prog.gets fun s => s.rounds h
  let pbb ← nextOf h
  if vs.isEmpty = true then do
    let it ← Prog.gets fun s => s.atBlock pbb
    let _ ← eraseRange e h it (endOf h)
    pure ()
  else do
    let (rest, last) ← assignBlocks e h rounds pbb vs
    if rest.isEmpty = true then do
      let it ← Prog.gets fun s => s.increment last
      let _ ← eraseRange e h it (endOf h)
      pure ()
    else rangeInsertImpl e h rest

end Programs

variable {e : Env α} {s t u : State α} {h b n : ℕ} {L L' L'' : Lists} {vs : List α} {v : α}
  {new new' : List (Iterator × α)}

/-! ## What is written -/

/-- **Slots of active blocks are written**: an element that is there is assigned to, and
in a raw slot one is constructed. -/
structure Written (s : State α) (h : ℕ) (L : Lists) (new : List (Iterator × α)) (t : State α)
    (L' : Lists) : Prop where
  becomes : Becomes s h L t L'
  active : L'.active = L.active
  data : t.data = s.data
  mem : ∀ x, x ∈ t.positions L.active ↔ x ∈ s.positions L.active ∨ x ∈ new.map Prod.fst
  kept : ∀ x ∈ s.positions L.active, x ∉ new.map Prod.fst →
    t.slot (s.slotAt x) = s.slot (s.slotAt x)
  values : ∀ x ∈ new, t.slot (s.slotAt x.1) = some x.2
  log : t.log = s.log ++ new.map fun x =>
    if x.1 ∈ s.positions L.active then .assign (s.slotAt x.1) else .construct (s.slotAt x.1)

namespace Written

theorem refl (hs : Shape s h L) : Written s h L [] s L where
  becomes := Becomes.refl hs
  active := rfl
  data := rfl
  mem _ := (or_iff_left List.not_mem_nil).symm
  kept _ _ _ := rfl
  values _ hx := absurd hx List.not_mem_nil
  log := (List.append_nil _).symm

theorem slotAt_eq (k : Written s h L new t L') : t.slotAt = s.slotAt := by
  funext x
  rw [State.slotAt, State.slotAt, k.data]

/-- Slots are written one after the other, each of them once. -/
theorem trans (k : Written s h L new t L') (k' : Written t h L' new' u L'')
    (hnew : ∀ x ∈ new.map Prod.fst, x ∉ new'.map Prod.fst) :
    Written s h L (new ++ new') u L'' where
  becomes := k.becomes.trans k'.becomes
  active := k'.active.trans k.active
  data := k'.data.trans k.data
  mem x := by
    have hmem := k'.mem x
    rw [k.active] at hmem
    rw [hmem, k.mem, List.map_append, List.mem_append, or_assoc]
  kept x hx hnot := by
    rw [List.map_append, List.mem_append, not_or] at hnot
    have hkept := k'.kept x (k.active ▸ (k.mem x).mpr (Or.inl hx)) hnot.2
    rw [k.slotAt_eq] at hkept
    exact hkept.trans (k.kept x hx hnot.1)
  values x hx := by
    rcases List.mem_append.mp hx with hx | hx
    · have hfst := List.mem_map_of_mem (f := Prod.fst) hx
      have hkept := k'.kept x.1 (k.active ▸ (k.mem x.1).mpr (Or.inr hfst)) (hnew x.1 hfst)
      rw [k.slotAt_eq] at hkept
      exact hkept.trans (k.values x hx)
    · exact k.slotAt_eq ▸ k'.values x hx
  log := by
    rw [k'.log, k.log, List.map_append, List.append_assoc, k.active, k.slotAt_eq]
    refine congrArg (s.log ++ ·) (congrArg _ (List.map_congr_left fun x hx => ?_))
    have hfst := List.mem_map_of_mem (f := Prod.fst) hx
    have hnot : x.1 ∉ new.map Prod.fst := fun hmem => hnew x.1 hmem hfst
    exact if_congr ((k.mem x.1).trans (or_iff_left hnot)) rfl rfl

end Written

/-- Memory after an element was assigned to. -/
def assignedState (s : State α) (p : ℕ × ℕ) (v : α) : State α :=
  { s with
    slot := update s.slot p (some v)
    ops := s.ops + 1
    log := s.log ++ [.assign p] }

/-- **An element is assigned to.** -/
theorem Shape.assigned_written (hs : Shape s h L) {x : Iterator} (hx : x ∈ s.positions L.active)
    (v : α) : Written s h L [(x, v)] (assignedState s (s.slotAt x) v) L := by
  have hlive := hs.isSome_slotAt hx
  have hsome : ∀ p, (update s.slot (s.slotAt x) (some v) p).isSome = (s.slot p).isSome := by
    intro p
    by_cases hp : p = s.slotAt x
    · rw [hp, update_self, hlive]
      rfl
    · rw [update_of_ne hp]
  have hshape : Shape (assignedState s (s.slotAt x) v) h L :=
    { ring := hs.ring
      ringAvailable := hs.ringAvailable
      mask_header := hs.mask_header
      mask_active := hs.mask_active
      mem_partly := hs.mem_partly
      mask_reserved := hs.mask_reserved
      stored := ⟨hs.stored.block, hs.stored.chunk, hs.stored.data_inj, fun b hb n hn =>
        (hsome _).trans (hs.stored.isSome b hb n hn)⟩
      header := hs.header
      numBlocks := hs.numBlocks
      size := hs.size }
  refine ⟨⟨hshape, ?_, fun b hb => ?_, fun c hc => ?_, fun c n _ hl => ?_⟩, rfl, rfl, fun y => ?_,
    fun y hy hnot => ?_, fun y hy => ?_, ?_⟩
  · exact
      { list := fun _ _ => ⟨rfl, rfl⟩
        available := fun _ _ => ⟨rfl, rfl⟩
        block := fun b hb => ⟨hb.1, rfl, rfl⟩
        slot := fun c hc hnot => ⟨hc, fun n => update_of_ne (fun heq =>
          hnot x.pbb (Shape.mem_blocks hx) (congrArg Prod.fst heq).symm) _ _⟩
        counters := fun _ _ => ⟨rfl, rfl⟩
        header := id
        grown := fun b hb => Or.inl hb
        data := fun b hb => Or.inl ⟨b, hb, rfl⟩ }
  · exact or_iff_not_imp_right.mpr fun hnot => ⟨hb, hnot⟩
  · exact or_iff_not_imp_right.mpr fun hnot => ⟨hc, fun a ha heq => hnot ⟨a, ha, heq⟩⟩
  · exact or_iff_not_imp_right.mpr fun hnot =>
      ⟨(hsome _).symm.trans hl, fun a ha heq => hnot ⟨a, ha, heq⟩⟩
  · refine (or_iff_left_of_imp fun hy => ?_).symm
    rw [List.mem_singleton.mp hy]
    exact hx
  · refine update_of_ne (fun heq => hnot ?_) _ _
    rw [hs.slotAt_inj (Shape.mem_blocks hy) (Shape.mem_blocks hx) heq]
    exact List.mem_singleton.mpr rfl
  · rw [List.mem_singleton.mp hy]
    exact update_self _ _ _
  · rw [List.map_singleton, if_pos hx]
    rfl

/-- **An element is constructed** in a raw slot of an active block. -/
theorem Room.written (r : Room s L b n) (hs : Shape s h L) (hne : s.mask b ≠ 0) (v : α) :
    Written s h L [(⟨b, n⟩, v)] (addedState s h b n v) (L.fills s b n) := by
  have hadded := r.added hs v
  have hactive : (L.fills s b n).active = L.active := by
    unfold Lists.fills
    rw [if_neg hne]
    split <;> rfl
  have hnot : (⟨b, n⟩ : Iterator) ∉ s.positions L.active := fun hmem => by
    have hset := (State.mem_positions.mp hmem).2
    rw [r.clear] at hset
    cases hset
  refine ⟨hadded.becomes, hactive, rfl, fun x => ?_, fun x hx _ => (hadded.kept x hx).2, fun x hx => ?_,
    ?_⟩
  · rw [← hactive, hadded.perm.mem_iff, List.mem_append, hactive]
  · exact hadded.values x hx
  · rw [List.map_singleton, if_neg hnot]
    exact hadded.log

/-- **One pass** writes its slot, or throws. -/
theorem assignOne_run (hs : Shape s h L) (hb : b ∈ L.active) (hn : n < N) (v : α) :
    (assignOne e h b n v s).Meets (fun _ t => ∃ L', Written s h L [(⟨b, n⟩, v)] t L')
      (fun t => t = { s with ops := s.ops + 1 }) := by
  have hne := hs.mask_active b hb
  have hblock : b ∈ L.blocks := List.mem_append_left _ hb
  unfold assignOne maskOf dataOf
  rw [Prog.gets_bind]
  by_cases hbit : (s.mask b).getLsbD n = true
  · have hx : (⟨b, n⟩ : Iterator) ∈ s.positions L.active := State.mem_positions.mpr ⟨hb, hbit⟩
    rw [if_pos hbit, Prog.gets_bind]
    have hlive : (s.slot (s.data b, n)).isSome = true := hs.isSome_slotAt hx
    unfold assign
    rw [if_pos hlive]
    split
    · exact rfl
    · exact ⟨L, hs.assigned_written hx v⟩
  · have hclear := Bool.eq_false_of_not_eq_true hbit
    have hroom : s.mask b ≠ full := fun heq => hbit (Mask.eq_full_iff.mp heq n hn)
    have r : Room s L b n := ⟨Or.inl ((hs.mem_partly b).mpr ⟨hb, hroom⟩), hn, hclear⟩
    have hsome := hs.stored.isSome b hblock n hn
    rw [hclear] at hsome
    have hraw := Option.isNone_iff_eq_none.mp (Option.isSome_eq_false_iff.mp hsome)
    rw [if_neg hbit, Prog.gets_bind]
    rcases construct_cases e v (hs.stored.chunk b hblock) hn hraw with hrun | hrun
    · have hstate : (do growSize h 1
                        setMask b ((← maskOf b) ||| Mask.bit n)
                        if (← maskOf b) = full then unlinkAvailable b else pure ())
          (constructedState s (s.data b, n) v) = .done () (addedState s h b n v) := by
        unfold growSize maskOf setMask unlinkAvailable addedState constructedState
        dsimp only
        rw [Prog.modify_bind, Prog.gets_bind]
        dsimp only
        rw [Prog.modify_bind, Prog.gets_bind]
        simp only [update_self, if_neg hne]
        by_cases hfull : s.mask b ||| Mask.bit n = full
        · rw [if_pos hfull, if_pos hfull]
          rfl
        · rw [if_neg hfull, if_neg hfull]
          rfl
      rw [Prog.bind_of_done hrun]
      exact hstate ▸ ⟨_, r.written hs hne v⟩
    · refine Prog.bind_meets_of_throws ?_
      rw [hrun]
      exact rfl

theorem Written.of_ops (hs : Shape s h L) (m : ℕ) : Written s h L [] { s with ops := m } L where
  becomes := (Unchanged.of_ops s m).becomes hs fun _ hp => hp
  active := rfl
  data := rfl
  mem _ := (or_iff_left List.not_mem_nil).symm
  kept _ _ _ := rfl
  values _ hx := absurd hx List.not_mem_nil
  log := (List.append_nil _).symm

/-! ## The loops -/

/-- **The loop over the slots of a block** writes them as long as there are values. -/
theorem assignBlock_run (left : ℕ) : ∀ {s : State α} {L : Lists} {n : ℕ} {vs : List α},
    Shape s h L → b ∈ L.active → n + left = N → vs ≠ [] →
    (assignBlock e h b left n vs s).Meets
      (fun r t => ∃ L', Written s h L (((List.range' n left).map (Iterator.mk b)).zip vs) t L'
        ∧ r.1 = vs.drop left ∧ (r.1 = [] → r.2 + 1 = n + vs.length))
      (fun t => ∃ k L', k < (((List.range' n left).map (Iterator.mk b)).zip vs).length
        ∧ Written s h L ((((List.range' n left).map (Iterator.mk b)).zip vs).take k) t L') := by
  induction left with
  | zero =>
    intro s L n vs hs _ _ hvs
    exact ⟨L, Written.refl hs, rfl, fun hnil => absurd hnil hvs⟩
  | succ left ih =>
    intro s L n vs hs hb hn hvs
    obtain ⟨v, vs, rfl⟩ := List.exists_cons_of_ne_nil hvs
    have hlt : n < N := by omega
    have hfresh : ∀ k, ∀ x ∈ [((⟨b, n⟩ : Iterator), v)].map Prod.fst,
        x ∉ ((((List.range' (n + 1) left).map (Iterator.mk b)).zip vs).take k).map Prod.fst := by
      intro k x hx hmem
      obtain ⟨y, hy, rfl⟩ := List.mem_map.mp hmem
      obtain ⟨i, hi, heq⟩ := List.mem_map.mp (List.of_mem_zip (List.mem_of_mem_take hy)).1
      have hin : i = n := congrArg Iterator.n (heq.trans (List.mem_singleton.mp hx))
      exact absurd (List.mem_range'_1.mp hi).1 (by omega)
    unfold assignBlock
    refine Prog.bind_meets ((assignOne_run hs hb hlt v).imp (fun _ _ h => h) ?_) ?_
    · rintro t rfl
      refine ⟨0, L, ?_, Written.of_ops hs _⟩
      rw [List.range'_succ]
      exact Nat.succ_pos _
    · rintro - t ⟨L₁, h₁⟩
      rw [List.range'_succ, List.map_cons, List.zip_cons_cons]
      cases hempty : vs.isEmpty with
      | true =>
        obtain rfl := List.isEmpty_iff.mp hempty
        rw [if_pos rfl, List.zip_nil_right]
        exact ⟨L₁, h₁, List.drop_nil.symm, fun _ => rfl⟩
      | false =>
        have hne : vs ≠ [] := fun heq => by
          rw [heq] at hempty
          cases hempty
        rw [if_neg Bool.false_ne_true]
        have hall := hfresh (((List.range' (n + 1) left).map (Iterator.mk b)).zip vs).length
        rw [List.take_length] at hall
        refine (ih h₁.becomes.shape (h₁.active ▸ hb) (by omega) hne).imp
          (fun r t ⟨L', h₂, hrest, hlast⟩ => ⟨L', h₁.trans h₂ hall, hrest, fun hnil => ?_⟩)
          fun t ⟨k, L', hk, h₂⟩ => ⟨k + 1, L', Nat.succ_lt_succ hk, h₁.trans h₂ (hfresh k)⟩
        rw [hlast hnil, List.length_cons]
        omega

/-- All slots of some blocks, in the order of iteration. -/
def grid (bs : List ℕ) : List Iterator := bs.flatMap fun b => (List.range N).map (Iterator.mk b)

theorem mem_grid {bs : List ℕ} {x : Iterator} : x ∈ grid bs ↔ x.pbb ∈ bs ∧ x.n < N := by
  rw [grid, List.mem_flatMap]
  constructor
  · rintro ⟨b, hb, hx⟩
    obtain ⟨n, hn, rfl⟩ := List.mem_map.mp hx
    exact ⟨hb, List.mem_range.mp hn⟩
  · rintro ⟨hb, hx⟩
    exact ⟨x.pbb, hb, List.mem_map.mpr ⟨x.n, List.mem_range.mpr hx, rfl⟩⟩

/-- **The positions** are the slots with a bit. -/
theorem State.positions_eq_filter (s : State α) (bs : List ℕ) :
    s.positions bs = (grid bs).filter fun x => (s.mask x.pbb).getLsbD x.n := by
  induction bs with
  | nil => rfl
  | cons b bs ih =>
    rw [State.positions_cons, ih, grid, grid, List.flatMap_cons, List.filter_append, List.filter_map]
    rfl

theorem nodup_grid {bs : List ℕ} (hnd : bs.Nodup) : (grid bs).Nodup := by
  refine List.nodup_flatMap.mpr ⟨fun b _ => ?_, hnd.imp fun {b b'} hne => ?_⟩
  · exact List.nodup_range.map fun n n' heq => congrArg Iterator.n heq
  · intro x hx hx'
    obtain ⟨n, -, rfl⟩ := List.mem_map.mp hx
    obtain ⟨n', -, heq⟩ := List.mem_map.mp hx'
    exact hne (congrArg Iterator.pbb heq).symm

theorem zip_append_drop {β γ : Type} (l₁ l₂ : List β) (cs : List γ) :
    (l₁ ++ l₂).zip cs = l₁.zip cs ++ l₂.zip (cs.drop l₁.length) := by
  induction l₁ generalizing cs with
  | nil => rfl
  | cons x l₁ ih =>
    cases cs with
    | nil => simp
    | cons c cs => rw [List.cons_append, List.zip_cons_cons, ih, List.zip_cons_cons]; rfl

/-- **The loop over the blocks** writes all slots, as long as there are values. -/
theorem assignBlocks_run (bs : List ℕ) : ∀ {s : State α} {L : Lists} {a : List ℕ} {vs : List α}
    {rounds : ℕ}, Shape s h L → L.active = a ++ bs → bs.length < rounds → vs ≠ [] →
    (assignBlocks e h rounds (bs.headD h) vs s).Meets
      (fun r t => ∃ L', Written s h L ((grid bs).zip vs) t L' ∧ r.1 = vs.drop (grid bs).length
        ∧ (r.1 = [] → (grid bs)[vs.length - 1]? = some r.2))
      (fun t => ∃ k L', k < ((grid bs).zip vs).length
        ∧ Written s h L (((grid bs).zip vs).take k) t L') := by
  induction bs with
  | nil =>
    intro s L a vs rounds hs _ hlen hvs
    obtain ⟨rounds, rfl⟩ : ∃ r, rounds = r + 1 := ⟨rounds - 1, by omega⟩
    unfold assignBlocks
    rw [List.headD_nil, if_pos rfl]
    exact ⟨L, Written.refl hs, rfl, fun hnil => absurd hnil hvs⟩
  | cons b bs ih =>
    intro s L a vs rounds hs hactive hlen hvs
    obtain ⟨rounds, rfl⟩ : ∃ r, rounds = r + 1 := ⟨rounds - 1, by omega⟩
    have hb : b ∈ L.active := hactive ▸ List.mem_append_right a List.mem_cons_self
    have hnd := hs.ring.nodup_members
    rw [hactive] at hnd
    obtain ⟨slots, hslots⟩ : ∃ l, (List.range' 0 N).map (Iterator.mk b) = l := ⟨_, rfl⟩
    have hfresh : ∀ k, ∀ x ∈ (slots.zip vs).map Prod.fst,
        x ∉ (((grid bs).zip (vs.drop N)).take k).map Prod.fst := by
      intro k x hx hx'
      obtain ⟨y, hy, rfl⟩ := List.mem_map.mp hx
      obtain ⟨z, hz, heq⟩ := List.mem_map.mp hx'
      have hin := (List.of_mem_zip hy).1
      rw [← hslots] at hin
      obtain ⟨i, -, hi⟩ := List.mem_map.mp hin
      have hmem := (mem_grid.mp (List.of_mem_zip (List.mem_of_mem_take hz)).1).1
      rw [heq, ← hi] at hmem
      exact (List.nodup_cons.mp (List.nodup_append.mp hnd).2.1).1 hmem
    have hgrid : grid (b :: bs) = slots ++ grid bs := by
      rw [← hslots, ← List.range_eq_range']
      rfl
    have hlen' : slots.length = N := by rw [← hslots, List.length_map, List.length_range']
    have hrun := assignBlock_run (e := e) N hs hb (Nat.zero_add N) hvs
    rw [hslots] at hrun
    unfold assignBlocks
    rw [List.headD_cons, if_neg fun heq => hs.toLinked.ne_header hb heq.symm, hgrid,
      zip_append_drop, hlen']
    refine Prog.bind_meets (hrun.imp (fun _ _ h => h) ?_) ?_
    · rintro t ⟨k, L', hk, h₁⟩
      refine ⟨k, L', ?_, ?_⟩
      · rw [List.length_append]
        exact Nat.lt_add_right _ hk
      · rw [List.take_append_of_le_length hk.le]
        exact h₁
    · rintro ⟨rest, n⟩ t ⟨L₁, h₁, hrest, hlast⟩
      dsimp only at hrest hlast ⊢
      cases hempty : rest.isEmpty with
      | true =>
        obtain rfl := List.isEmpty_iff.mp hempty
        have hle := List.drop_eq_nil_iff.mp hrest.symm
        rw [if_pos rfl, ← hrest, List.zip_nil_right, List.append_nil]
        refine ⟨L₁, h₁, (List.drop_eq_nil_iff.mpr ?_).symm, fun _ => ?_⟩
        · rw [List.length_append, hlen']
          omega
        · have hpos := List.length_pos_iff.mpr hvs
          have hn : vs.length - 1 = n := by
            have heq := hlast rfl
            omega
          rw [hn, List.getElem?_append_left (by omega), ← hslots, List.getElem?_map,
            List.getElem?_range' (by omega)]
          simp
      | false =>
        have hne : rest ≠ [] := fun heq => by
          rw [heq] at hempty
          cases hempty
        have hactive' : L₁.active = (a ++ [b]) ++ bs := by
          rw [h₁.active, hactive, List.append_assoc, List.singleton_append]
        have hnext : t.list.next b = bs.headD h := by
          have hring := h₁.becomes.shape.ring
          rw [h₁.active, hactive] at hring
          exact hring.next_member
        have hall := hfresh ((grid bs).zip (vs.drop N)).length
        rw [List.take_length] at hall
        have hvslen : (slots.zip vs).length = N := by
          have hlt : N < vs.length := Nat.lt_of_not_le fun hle =>
            hne (hrest.trans (List.drop_eq_nil_iff.mpr hle))
          rw [List.length_zip, hlen']
          omega
        rw [if_neg Bool.false_ne_true, nextOf, Prog.gets_bind, hnext]
        refine (ih h₁.becomes.shape hactive' (Nat.lt_of_succ_lt_succ hlen) hne).imp
          (fun r u ⟨L', h₂, hrest', hlast'⟩ => ?_) fun u ⟨k, L', hk, h₂⟩ => ?_
        · rw [hrest] at h₂ hrest' hlast'
          refine ⟨L', h₁.trans h₂ hall, ?_, fun hnil => ?_⟩
          · rw [hrest', List.drop_drop, List.length_append, hlen']
          · have hlt : N < vs.length := Nat.lt_of_not_le fun hle =>
              hne (hrest.trans (List.drop_eq_nil_iff.mpr hle))
            rw [List.getElem?_append_right (by omega), hlen', ← hlast' hnil, List.length_drop]
            congr 1
        · rw [hrest] at hk h₂
          refine ⟨N + k, L', ?_, ?_⟩
          · rw [List.length_append, hvslen]
            omega
          · have htake : (slots.zip vs ++ (grid bs).zip (vs.drop N)).take ((slots.zip vs).length + k)
                = slots.zip vs ++ ((grid bs).zip (vs.drop N)).take k :=
              List.take_length_add_append k
            rw [hvslen] at htake
            exact htake ▸ h₁.trans h₂ (hfresh k)

/-! ## What an assignment does -/

/-- The slot whose element ends: it is overwritten, or destroyed. -/
def Event.ended : Event → Option (ℕ × ℕ)
  | .construct _ => none
  | .assign p => some p
  | .destroy p => some p

/-- **A hub is assigned to**: it has the values, in order, and every element that it had
was overwritten or destroyed, once. -/
structure Assigned (s : State α) (h : ℕ) (L : Lists) (vs : List α) (t : State α) (L' : Lists) :
    Prop where
  becomes : Becomes s h L t L'
  contents : t.contents L'.active = vs
  ended : ∃ events, t.log = s.log ++ events
    ∧ events.filterMap Event.ended = (s.positions L.active).map s.slotAt

section

variable {g₁ g₂ : List Iterator} {it : Iterator}

namespace Written

/-- The elements that were there, among those that were written. -/
theorem ended_eq (s : State α) (ps : List Iterator) (new : List (Iterator × α)) :
    (new.map fun x => if x.1 ∈ ps then Event.assign (s.slotAt x.1)
        else Event.construct (s.slotAt x.1)).filterMap Event.ended
      = ((new.map Prod.fst).filter (· ∈ ps)).map s.slotAt := by
  induction new with
  | nil => rfl
  | cons x new ih =>
    rw [List.map_cons, List.map_cons]
    by_cases hx : x.1 ∈ ps
    · rw [if_pos hx, List.filter_cons_of_pos (by simpa using hx), List.map_cons, ← ih]
      rfl
    · rw [if_neg hx, List.filter_cons_of_neg (by simpa using hx), ← ih]
      rfl

/-- **The positions afterwards**, where the first slots were written. -/
theorem positions_eq (k : Written s h L new t L') (hs : Shape s h L)
    (hgrid : grid L.active = g₁ ++ g₂) (hfst : new.map Prod.fst = g₁) :
    t.positions L.active = g₁ ++ g₂.filter (· ∈ s.positions L.active)
      ∧ s.positions L.active
        = g₁.filter (· ∈ s.positions L.active) ++ g₂.filter (· ∈ s.positions L.active) := by
  have hnd := nodup_grid hs.ring.nodup_members
  rw [hgrid] at hnd
  have hlive : ∀ {s : State α} {x}, x ∈ grid L.active →
      (s.mask x.pbb).getLsbD x.n = decide (x ∈ s.positions L.active) := fun {s x} hx => by
    refine Bool.eq_iff_iff.mpr ?_
    rw [decide_eq_true_iff, State.mem_positions]
    exact (and_iff_right (mem_grid.mp hx).1).symm
  refine ⟨?_, ?_⟩
  · rw [State.positions_eq_filter, hgrid, List.filter_append]
    refine congrArg₂ (· ++ ·) (List.filter_eq_self.mpr fun x hx => ?_)
      (List.filter_congr fun x hx => ?_)
    · rw [hlive (hgrid ▸ List.mem_append_left g₂ hx), decide_eq_true_iff, k.mem, hfst]
      exact Or.inr hx
    · rw [hlive (hgrid ▸ List.mem_append_right g₁ hx), decide_eq_decide, k.mem, hfst]
      exact or_iff_left fun hx' => (List.nodup_append.mp hnd).2.2 x hx' x hx rfl
  · rw [← List.filter_append, ← hgrid]
    exact (s.positions_eq_filter L.active).trans (List.filter_congr fun x hx => hlive hx)

theorem values_eq (k : Written s h L new t L') : t.Values (new.map Prod.fst) (new.map Prod.snd) := by
  rw [State.Values, List.map_map, List.map_map, k.slotAt_eq]
  exact List.map_congr_left fun x hx => k.values x hx

/-- **The values that were written come first.** -/
theorem contents_eq (k : Written s h L new t L') (hs : Shape s h L)
    (hgrid : grid L.active = g₁ ++ g₂) (hfst : new.map Prod.fst = g₁) :
    new.map Prod.snd <+: t.contents L'.active := by
  have hpos := (k.positions_eq hs hgrid hfst).1
  rw [k.active]
  obtain ⟨ws, hws⟩ : ∃ ws, t.Values (g₂.filter (· ∈ s.positions L.active)) ws :=
    k.becomes.shape.exists_values fun x hx =>
      k.active.symm ▸ hpos ▸ List.mem_append_right g₁ hx
  have hall : t.Values (t.positions L.active) (new.map Prod.snd ++ ws) := by
    rw [hpos, ← hfst, State.Values, List.map_append, List.map_append]
    exact congrArg₂ (· ++ ·) k.values_eq hws
  rw [hall.contents]
  exact List.prefix_append _ _

/-- **What follows is erased.** -/
theorem erase_rest (k : Written s h L new t L') (e : Env α) (hs : Shape s h L)
    (hgrid : grid L.active = g₁ ++ g₂) (hfst : new.map Prod.fst = g₁)
    (hit : it = (g₂.filter (· ∈ s.positions L.active)).headD (endOf h)) :
    ∃ u L'', eraseRange e h it (endOf h) t = .done (endOf h) u
      ∧ Assigned s h L (new.map Prod.snd) u L'' := by
  obtain ⟨hpos, hold⟩ := k.positions_eq hs hgrid hfst
  have hpos' : t.positions L'.active = g₁ ++ g₂.filter (· ∈ s.positions L.active) :=
    (congrArg t.positions k.active).trans hpos
  have hrange : Range t h L' it (endOf h) (g₂.filter (· ∈ s.positions L.active)) :=
    ⟨g₁, [], by rw [hpos', List.append_nil], by rw [List.append_nil, hit], rfl⟩
  obtain ⟨u, L'', hrun, hremoved⟩ := eraseRange_run e k.becomes.shape hrange
  have hleft : u.positions L''.active = g₁ := by
    have hmiddle : u.positions L''.active = g₁ ++ [] :=
      hremoved.positions_middle k.becomes.shape (by rw [hpos', List.append_nil])
    rw [hmiddle, List.append_nil]
  have hlog := hremoved.log
  rw [k.log, List.append_assoc] at hlog
  refine ⟨u, L'', hrun, k.becomes.trans hremoved.becomes, ?_, _, hlog, ?_⟩
  · refine State.Values.contents ?_
    rw [hleft, ← hfst]
    refine hremoved.values k.becomes.shape (fun x hx => ?_) (fun x hx => ?_) k.values_eq
    · rw [hpos']
      exact List.mem_append_right g₁ hx
    · rw [hleft, ← hfst]
      exact hx
  · have hdestroyed : ∀ l : List Iterator,
        (l.map fun x => Event.destroy (t.slotAt x)).filterMap Event.ended = l.map s.slotAt := by
      intro l
      rw [List.filterMap_map, k.slotAt_eq, ← List.filterMap_eq_map]
      rfl
    rw [List.filterMap_append, ended_eq, hdestroyed, hfst, ← List.map_append, ← hold]

/-- **The rest of the range is inserted** behind full blocks. -/
theorem insert_rest (k : Written s h L new t L') (hs : Shape s h L)
    (hfst : new.map Prod.fst = grid L.active) {ws : List α} (i : Inserts t h L' ws u L'') :
    Assigned s h L (new.map Prod.snd ++ ws) u L'' := by
  obtain ⟨hpos, hold⟩ := k.positions_eq hs (List.append_nil _).symm hfst
  rw [List.filter_nil, List.append_nil] at hpos hold
  replace hpos := (congrArg t.positions k.active).trans hpos
  have hpacked : Packed t L' := fun b hb => by
    obtain ⟨hb, hne⟩ := (k.becomes.shape.mem_partly b).mp hb
    refine absurd (Mask.eq_full_iff.mpr fun n hn => ?_) hne
    have hmem : (⟨b, n⟩ : Iterator) ∈ t.positions L'.active := by
      rw [hpos]
      exact mem_grid.mpr ⟨k.active ▸ hb, hn⟩
    exact (State.mem_positions.mp hmem).2
  obtain ⟨its, hlen, hadded, hend⟩ := i
  have hleft := (hend hpacked).2
  have hlog := hadded.log
  rw [k.log, List.append_assoc] at hlog
  refine ⟨k.becomes.trans hadded.becomes, State.Values.contents ?_, _, hlog, ?_⟩
  · rw [hleft, State.Values, List.map_append, List.map_append, hpos, ← hfst]
    refine congrArg₂ (· ++ ·) ?_ ?_
    · refine (List.map_congr_left fun x hx => ?_).trans k.values_eq
      exact (hadded.kept x (by rw [hpos, ← hfst]; exact hx)).2
    · have hzip : its = (its.zip ws).map Prod.fst := (List.map_fst_zip hlen.le).symm
      have hzip' : ws = (its.zip ws).map Prod.snd := (List.map_snd_zip hlen.ge).symm
      rw [hzip, List.map_map]
      conv_rhs => rw [hzip', List.map_map]
      exact List.map_congr_left fun x hx => hadded.values x hx
  · have hconstructed : ∀ l : List (Iterator × α),
        (l.map fun x => Event.construct (u.slotAt x.1)).filterMap Event.ended = [] := by
      intro l
      rw [List.filterMap_map]
      exact List.filterMap_eq_nil_iff.mpr fun _ _ => rfl
    rw [List.filterMap_append, ended_eq, hconstructed, List.append_nil, hfst, ← hold]

end Written

/-- **`assign`** leaves the values, in order, or a part of them before what is left of
the elements. -/
theorem rangeAssignImpl_run (e : Env α) (hs : Shape s h L) (vs : List α) :
    (rangeAssignImpl e h vs s).Meets (fun _ t => ∃ L', Assigned s h L vs t L')
      (fun t => ∃ k L', k < vs.length ∧ Becomes s h L t L' ∧ vs.take k <+: t.contents L'.active) := by
  have hrounds : L.active.length < s.rounds h := (hs.rounds_enough hs.range_all).2
  unfold rangeAssignImpl nextOf
  rw [Prog.gets_bind, Prog.gets_bind, hs.ring.next_header]
  cases hempty : vs.isEmpty with
  | true =>
    obtain rfl := List.isEmpty_iff.mp hempty
    have hfirst : s.atBlock (L.active.headD h)
        = ((grid L.active).filter (· ∈ s.positions L.active)).headD (endOf h) := by
      have hhead := hs.headD_positions hs.mask_active
      rw [((Written.refl hs).positions_eq hs (List.nil_append _).symm rfl).1] at hhead
      exact hhead.symm
    obtain ⟨u, L', hrun, hassigned⟩ :=
      (Written.refl hs).erase_rest e hs (List.nil_append _).symm rfl hfirst
    rw [if_pos rfl, Prog.gets_bind, Prog.bind_of_done hrun]
    exact ⟨L', hassigned⟩
  | false =>
    have hne : vs ≠ [] := fun heq => by
      rw [heq] at hempty
      cases hempty
    rw [if_neg Bool.false_ne_true]
    refine Prog.bind_meets ((assignBlocks_run (e := e) L.active (a := []) hs rfl hrounds hne).imp
      (fun _ _ h => h) ?_) ?_
    · rintro t ⟨k, L', hk, h₁⟩
      rw [List.length_zip] at hk
      have htake : ((grid L.active).zip vs).take k = ((grid L.active).take k).zip (vs.take k) :=
        List.take_zipWith
      have hlen : ((grid L.active).take k).length = (vs.take k).length := by
        rw [List.length_take, List.length_take]
        omega
      rw [htake] at h₁
      refine ⟨k, L', by omega, h₁.becomes, ?_⟩
      have hprefix := h₁.contents_eq hs (List.take_append_drop k _).symm
        (List.map_fst_zip hlen.le)
      rw [List.map_snd_zip hlen.ge] at hprefix
      exact hprefix
    · rintro ⟨rest, last⟩ t ⟨L₁, h₁, hrest, hlast⟩
      dsimp only at hrest hlast ⊢
      have hmin : (grid L.active).zip vs = _ := List.zip_eq_zip_take_min
      cases hrestempty : rest.isEmpty with
      | true =>
        obtain rfl := List.isEmpty_iff.mp hrestempty
        have hle := List.drop_eq_nil_iff.mp hrest.symm
        have hlen : ((grid L.active).take vs.length).length = vs.length := by
          rw [List.length_take, Nat.min_eq_left hle]
        rw [Nat.min_eq_right hle, List.take_length] at hmin
        rw [hmin] at h₁
        have hfst := List.map_fst_zip hlen.le
        have hgrid := (List.take_append_drop vs.length (grid L.active)).symm
        obtain ⟨hpos, -⟩ := h₁.positions_eq hs hgrid hfst
        have hsplit : (grid L.active).take vs.length
            = (grid L.active).take (vs.length - 1) ++ [last] := by
          have hsucc : vs.length = vs.length - 1 + 1 :=
            (Nat.succ_pred_eq_of_pos (List.length_pos_iff.mpr hne)).symm
          conv_lhs => rw [hsucc]
          rw [List.take_add_one, hlast rfl]
          rfl
        have hinc : t.increment last
            = (((grid L.active).drop vs.length).filter (· ∈ s.positions L.active)).headD
              (endOf h) := by
          have hring := h₁.becomes.shape.iterators
          rw [h₁.active, hpos, hsplit, List.append_assoc] at hring
          exact hring.next_member
        obtain ⟨u, L', hrun, hassigned⟩ := h₁.erase_rest e hs hgrid hfst hinc
        rw [List.map_snd_zip hlen.ge] at hassigned
        rw [if_pos rfl, Prog.gets_bind, Prog.bind_of_done hrun]
        exact ⟨L', hassigned⟩
      | false =>
        have hlt : (grid L.active).length < vs.length := Nat.lt_of_not_le fun hle => by
          rw [hrest, List.drop_eq_nil_iff.mpr hle] at hrestempty
          cases hrestempty
        have hlen : (grid L.active).length = (vs.take (grid L.active).length).length := by
          rw [List.length_take, Nat.min_eq_left hlt.le]
        rw [Nat.min_eq_left hlt.le, List.take_length] at hmin
        rw [hmin] at h₁
        have hsnd := List.map_snd_zip hlen.ge
        rw [if_neg Bool.false_ne_true, hrest]
        refine (rangeInsertImpl_run e h₁.becomes.shape _).imp (fun _ u ⟨L', h₂⟩ => ⟨L', ?_⟩)
          fun u ⟨k, L', hk, h₂⟩ => ?_
        · have hassigned := h₁.insert_rest hs (List.map_fst_zip hlen.le) h₂
          rw [hsnd, List.take_append_drop] at hassigned
          exact hassigned
        · have hassigned := h₁.insert_rest hs (List.map_fst_zip hlen.le) h₂
          rw [hsnd] at hassigned
          rw [List.length_drop] at hk
          refine ⟨(grid L.active).length + k, L', by omega, hassigned.becomes, ?_⟩
          rw [hassigned.contents, ← List.take_add]

end

end Hub
