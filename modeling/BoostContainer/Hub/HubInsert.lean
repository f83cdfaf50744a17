import BoostContainer.Hub.HubEraseRange
import BoostContainer.Hub.HubStep

/-!
# Putting elements into a hub

An element is constructed in a raw slot of a block with room, and the bit of the slot is
set. A block that had no elements becomes the last of the active blocks; one that is full
now is no longer available. All other elements stay where they are, so that the new one
comes somewhere between them.

A range is inserted block by block: the first available block is filled, from its lowest
raw slot on, before the next is asked for. Where a construction throws, the elements that
were made before it stay, and so does a block that was allocated for it.
-/

open Function

namespace Hub

variable {α : Type}

/-! ## What is added -/

/-- **Elements are added**, and nothing else: each of them in a slot that was raw, in the
order in which they were constructed. -/
structure Added (s : State α) (h : ℕ) (L : Lists) (new : List (Iterator × α)) (t : State α)
    (L' : Lists) : Prop where
  becomes : Becomes s h L t L'
  active : ∃ more, L'.active = L.active ++ more
  perm : (t.positions L'.active).Perm (s.positions L.active ++ new.map Prod.fst)
  sublist : (s.positions L.active).Sublist (t.positions L'.active)
  kept : ∀ x ∈ s.positions L.active,
    t.slotAt x = s.slotAt x ∧ t.slot (t.slotAt x) = s.slot (s.slotAt x)
  values : ∀ x ∈ new, t.slot (t.slotAt x.1) = some x.2
  log : t.log = s.log ++ new.map fun x => .construct (t.slotAt x.1)

section

variable {s t u : State α} {h b n : ℕ} {L L' L'' : Lists} {new new' : List (Iterator × α)}

namespace Added

theorem refl (hs : Shape s h L) : Added s h L [] s L where
  becomes := Becomes.refl hs
  active := ⟨[], (List.append_nil _).symm⟩
  perm := by rw [List.map_nil, List.append_nil]
  sublist := List.Sublist.refl _
  kept _ _ := ⟨rfl, rfl⟩
  values x hx := absurd hx List.not_mem_nil
  log := (List.append_nil _).symm

theorem mem_new (k : Added s h L new t L') {x : Iterator × α} (hx : x ∈ new) :
    x.1 ∈ t.positions L'.active :=
  k.perm.mem_iff.mpr (List.mem_append_right _ (List.mem_map_of_mem hx))

theorem trans (k : Added s h L new t L') (k' : Added t h L' new' u L'') :
    Added s h L (new ++ new') u L'' where
  becomes := k.becomes.trans k'.becomes
  active := by
    obtain ⟨more, hmore⟩ := k.active
    obtain ⟨more', hmore'⟩ := k'.active
    exact ⟨more ++ more', by rw [hmore', hmore, List.append_assoc]⟩
  perm := by
    rw [List.map_append, ← List.append_assoc]
    exact k'.perm.trans (k.perm.append_right _)
  sublist := k.sublist.trans k'.sublist
  kept x hx := by
    obtain ⟨hslot, hvalue⟩ := k.kept x hx
    obtain ⟨hslot', hvalue'⟩ := k'.kept x (k.sublist.subset hx)
    exact ⟨hslot'.trans hslot, hvalue'.trans hvalue⟩
  values x hx := by
    rcases List.mem_append.mp hx with hx | hx
    · exact ((k'.kept x.1 (k.mem_new hx)).2).trans (k.values x hx)
    · exact k'.values x hx
  log := by
    have hsame : new.map (fun x => Event.construct (u.slotAt x.1))
        = new.map fun x => Event.construct (t.slotAt x.1) := List.map_congr_left fun x hx =>
      congrArg Event.construct (k'.kept x.1 (k.mem_new hx)).1
    rw [k'.log, k.log, List.map_append, hsame, List.append_assoc]

end Added

/-! ## One element -/

/-- Memory after an element was put into a raw slot. -/
def addedState (s : State α) (h b n : ℕ) (v : α) : State α :=
  let mask := s.mask b ||| Mask.bit n
  { s with
    list := if s.mask b = 0 then s.list.linkBefore b h else s.list
    available := if mask = full then s.available.unlink b else s.available
    mask := update s.mask b mask
    slot := update s.slot (s.data b, n) (some v)
    size := update s.size h (s.size h + 1)
    ops := s.ops + 1
    log := s.log ++ [.construct (s.data b, n)] }

/-- The lists afterwards. -/
def Lists.fills (L : Lists) (s : State α) (b n : ℕ) : Lists :=
  if s.mask b = 0 then ⟨L.active ++ [b], L.partly ++ [b], L.reserved.drop 1⟩
  else if s.mask b ||| Mask.bit n = full then ⟨L.active, L.partly.filter (· ≠ b), L.reserved⟩
  else L

/-- **Where an element may be put**: a raw slot of a block with room, or of the first
reserved block. -/
structure Room (s : State α) (L : Lists) (b n : ℕ) : Prop where
  block : b ∈ L.partly ∨ ∃ rest, L.reserved = b :: rest
  lt : n < N
  clear : (s.mask b).getLsbD n = false

namespace Room

theorem mem_blocks (r : Room s L b n) (hs : Shape s h L) : b ∈ L.blocks := by
  rcases r.block with hb | ⟨rest, hrest⟩
  · exact List.mem_append_left _ ((hs.mem_partly b).mp hb).1
  · exact List.mem_append_right _ (hrest ▸ List.mem_cons_self)

/-- A block without elements is the first reserved one. -/
theorem of_empty (r : Room s L b n) (hs : Shape s h L) (hzero : s.mask b = 0) :
    ∃ rest, L.reserved = b :: rest :=
  r.block.resolve_left fun hb => hs.mask_active b ((hs.mem_partly b).mp hb).1 hzero

/-- And one with elements is active. -/
theorem of_nonempty (r : Room s L b n) (hs : Shape s h L) (hne : s.mask b ≠ 0) : b ∈ L.partly :=
  r.block.resolve_right fun ⟨_, hrest⟩ =>
    hne (hs.mask_reserved b (hrest ▸ List.mem_cons_self))

theorem bit_ne_full (n : ℕ) : (Mask.bit n : BitVec 64) ≠ full := fun heq => by
  have h0 := Mask.eq_full_iff.mp heq 0 (by decide)
  have h1 := Mask.eq_full_iff.mp heq 1 (by decide)
  rw [Mask.getLsbD_bit, Bool.and_eq_true, decide_eq_true_iff, decide_eq_true_iff] at h0 h1
  omega

theorem set_ne_zero (r : Room s L b n) : s.mask b ||| Mask.bit n ≠ 0 := fun heq => by
  have hset := Mask.getLsbD_set (m := s.mask b) (n := n) (i := n)
  rw [heq, decide_eq_true r.lt, decide_eq_true rfl, Bool.and_true, Bool.or_true,
    show (0 : BitVec 64).getLsbD n = false from BitVec.getLsbD_zero] at hset
  cases hset

theorem mask_ne_full (r : Room s L b n) : s.mask b ≠ full := fun heq => by
  have hset := Mask.eq_full_iff.mp heq n r.lt
  rw [r.clear] at hset
  cases hset

/-- **The lists afterwards are linked**, and those of other hubs are as they were. -/
theorem linked (r : Room s L b n) (hs : Shape s h L) (v : α) :
    Linked (addedState s h b n v) h (L.fills s b n)
      ∧ Links.AgreeOn (others s h L) s.list (addedState s h b n v).list
      ∧ Links.AgreeOn (others s h L) s.available (addedState s h b n v).available := by
  have hblock := r.mem_blocks hs
  have hmask : (addedState s h b n v).mask = update s.mask b (s.mask b ||| Mask.bit n) := rfl
  unfold Lists.fills
  by_cases hzero : s.mask b = 0
  -- The block was reserved.
  · obtain ⟨rest, hrest⟩ := r.of_empty hs hzero
    have hset : s.mask b ||| Mask.bit n = Mask.bit n := by
      rw [hzero]
      exact BitVec.zero_or
    have hlist : (addedState s h b n v).list = s.list.linkBefore b h := if_pos hzero
    have havail : (addedState s h b n v).available = s.available := by
      refine if_neg ?_
      rw [hset]
      exact bit_ne_full n
    have hnot : b ∉ L.active := fun hmem => hs.mask_active b hmem hzero
    have hring : b ∉ h :: L.active := fun hmem =>
      (List.mem_cons.mp hmem).elim (fun heq => hs.header_notMem (heq ▸ hblock)) hnot
    have hnd := hs.nodup_blocks
    rw [Lists.blocks, hrest] at hnd
    have hothers : ∀ c, c ≠ b → (addedState s h b n v).mask c = s.mask c := fun c hc => by
      rw [hmask, update_of_ne hc]
    have hself : (addedState s h b n v).mask b = Mask.bit n := by rw [hmask, update_self, hset]
    rw [if_pos hzero, hlist, havail, hrest, List.drop_one, List.tail_cons]
    refine ⟨⟨?_, ?_, ?_, fun c hc => ?_, fun c => ?_, fun c hc => ?_⟩, ?_, fun _ _ => ⟨rfl, rfl⟩⟩
    · rw [hlist]
      exact hs.ring.linkBefore_back hring
    · have havailable := hs.ringAvailable
      rw [hrest] at havailable
      rw [havail, List.append_assoc]
      exact havailable
    · rw [hothers h fun heq => hs.header_notMem (heq ▸ hblock), hs.mask_header]
    · by_cases hcb : c = b
      · rw [hcb, hself, ← hset]
        exact r.set_ne_zero
      · rw [hothers c hcb]
        refine hs.mask_active c ((List.mem_append.mp hc).resolve_right fun hlast => hcb ?_)
        exact List.mem_singleton.mp hlast
    · show c ∈ L.partly ++ [b] ↔ c ∈ L.active ++ [b] ∧ _
      rw [List.mem_append, List.mem_append, List.mem_singleton, hs.mem_partly]
      by_cases hcb : c = b
      · rw [hcb, hself]
        exact ⟨fun _ => ⟨Or.inr rfl, bit_ne_full n⟩, fun _ => Or.inr rfl⟩
      · rw [hothers c hcb, or_iff_left hcb, or_iff_left hcb]
    · have hcb : c ≠ b := fun heq => (List.nodup_cons.mp (List.nodup_append.mp hnd).2.1).1
        (heq ▸ hc)
      rw [hothers c hcb]
      exact hs.mask_reserved c (hrest ▸ List.mem_cons_of_mem b hc)
    · refine hs.ring.linkBefore_back_agree hring fun c hc => ⟨fun heq => hc.2 ?_, fun hmem =>
        hc.2 ?_⟩
      · exact List.mem_cons_of_mem h (heq ▸ hblock)
      · exact (List.Sublist.cons_cons h (List.sublist_append_left _ _)).subset hmem
  -- The block was active.
  · have hpart := r.of_nonempty hs hzero
    have hb := ((hs.mem_partly b).mp hpart).1
    have hlist : (addedState s h b n v).list = s.list := if_neg hzero
    rw [if_neg hzero, hlist]
    by_cases hfull : s.mask b ||| Mask.bit n = full
    · have havail : (addedState s h b n v).available = Linked.withdrawn s b := by
        unfold addedState Linked.withdrawn
        simp only [if_pos hfull, if_neg r.mask_ne_full]
      obtain ⟨hring, hagree⟩ := hs.withdraw hb
      rw [if_pos hfull, havail]
      refine ⟨hs.write hb r.set_ne_zero hmask hlist (havail ▸ hring) fun c => ?_,
        fun _ _ => ⟨rfl, rfl⟩, hagree⟩
      rw [List.mem_filter, decide_eq_true_iff, hs.mem_partly, hmask]
      by_cases hcb : c = b
      · rw [hcb, update_self]
        exact ⟨fun hc => absurd rfl hc.2, fun hc => absurd hfull hc.2⟩
      · rw [update_of_ne hcb, and_iff_left hcb]
    · have havail : (addedState s h b n v).available = s.available := if_neg hfull
      rw [if_neg hfull, havail]
      refine ⟨hs.write hb r.set_ne_zero hmask hlist (havail ▸ hs.ringAvailable) fun c => ?_,
        fun _ _ => ⟨rfl, rfl⟩, fun _ _ => ⟨rfl, rfl⟩⟩
      rw [hs.mem_partly, hmask]
      by_cases hcb : c = b
      · rw [hcb, update_self]
        exact ⟨fun _ => ⟨hb, hfull⟩, fun _ => ⟨hb, r.mask_ne_full⟩⟩
      · rw [update_of_ne hcb]

theorem blocks_eq (r : Room s L b n) (hs : Shape s h L) : (L.fills s b n).blocks = L.blocks := by
  unfold Lists.fills
  by_cases hzero : s.mask b = 0
  · obtain ⟨rest, hrest⟩ := r.of_empty hs hzero
    rw [if_pos hzero, Lists.blocks, Lists.blocks, hrest, List.drop_one, List.tail_cons,
      List.append_assoc, List.singleton_append]
  · rw [if_neg hzero]
    split <;> rfl

/-- **The new position** comes somewhere between the others. -/
theorem positions_split (r : Room s L b n) (hs : Shape s h L) (v : α) :
    ∃ p₁ p₂, s.positions L.active = p₁ ++ p₂
      ∧ (addedState s h b n v).positions (L.fills s b n).active = p₁ ++ ⟨b, n⟩ :: p₂ := by
  have hmask : (addedState s h b n v).mask = update s.mask b (s.mask b ||| Mask.bit n) := rfl
  have hkept : ∀ bs : List ℕ, b ∉ bs → (addedState s h b n v).positions bs = s.positions bs :=
    fun bs hbs => State.positions_congr fun c hc => by
      have hcb : c ≠ b := fun heq => hbs (heq ▸ hc)
      rw [hmask, update_of_ne hcb]
  obtain ⟨n₁, n₂, hbits, hbits'⟩ := Mask.bits_set r.lt r.clear
  have hself : (addedState s h b n v).positions [b] = (n₁ ++ n :: n₂).map (Iterator.mk b) := by
    rw [State.positions_cons, State.positions_nil, List.append_nil, hmask, update_self, hbits']
  unfold Lists.fills
  by_cases hzero : s.mask b = 0
  · rw [hzero, Mask.bits_zero] at hbits
    obtain ⟨rfl, rfl⟩ := List.append_eq_nil_iff.mp hbits.symm
    refine ⟨s.positions L.active, [], (List.append_nil _).symm, ?_⟩
    rw [if_pos hzero]
    show (addedState s h b n v).positions (L.active ++ [b]) = _
    rw [State.positions_append, hself, hkept _ fun hmem => hs.mask_active b hmem hzero]
    rfl
  · obtain ⟨a₁, a₂, hsplit⟩ := List.append_of_mem
      ((hs.mem_partly b).mp (r.of_nonempty hs hzero)).1
    have hnd := hs.ring.nodup_members
    rw [hsplit] at hnd
    have hnot := (List.nodup_middle.mp hnd).notMem
    have hactive : (if s.mask b ||| Mask.bit n = full then
        (⟨L.active, L.partly.filter (· ≠ b), L.reserved⟩ : Lists) else L).active
        = a₁ ++ ([b] ++ a₂) := by
      split <;> exact hsplit
    refine ⟨s.positions a₁ ++ n₁.map (Iterator.mk b), n₂.map (Iterator.mk b) ++ s.positions a₂,
      ?_, ?_⟩
    · rw [hsplit, State.positions_append, State.positions_cons, hbits, List.map_append]
      simp only [List.append_assoc]
    · rw [if_neg hzero, hactive, State.positions_append, State.positions_append, hself,
        hkept a₁ fun hmem => hnot (List.mem_append_left _ hmem),
        hkept a₂ fun hmem => hnot (List.mem_append_right _ hmem)]
      simp only [List.map_append, List.map_cons, List.append_assoc, List.cons_append]

/-- **An element is added.** -/
theorem added (r : Room s L b n) (hs : Shape s h L) (v : α) :
    Added s h L [(⟨b, n⟩, v)] (addedState s h b n v) (L.fills s b n) := by
  obtain ⟨hl, hlist, havail⟩ := r.linked hs v
  obtain ⟨p₁, p₂, hold, hnew⟩ := r.positions_split hs v
  have hblock := r.mem_blocks hs
  have heq := r.blocks_eq hs
  have hmask : (addedState s h b n v).mask = update s.mask b (s.mask b ||| Mask.bit n) := rfl
  have hother : ∀ c i, (c, i) ≠ (s.data b, n) →
      (addedState s h b n v).slot (c, i) = s.slot (c, i) := fun c i hne => update_of_ne hne _ _
  have hshape : Shape (addedState s h b n v) h (L.fills s b n) :=
    { toLinked := hl
      stored :=
        { block := heq ▸ hs.stored.block
          chunk := heq ▸ hs.stored.chunk
          data_inj := heq ▸ hs.stored.data_inj
          isSome := fun c hc i hi => by
            rw [heq] at hc
            rw [hmask]
            show (update s.slot (s.data b, n) (some v) (s.data c, i)).isSome = _
            by_cases hcb : c = b
            · rw [hcb, update_self, Mask.getLsbD_set, decide_eq_true hi, Bool.true_and]
              by_cases hin : i = n
              · rw [hin, update_self, decide_eq_true rfl, Bool.or_true]
                rfl
              · rw [update_of_ne fun h => hin (Prod.mk.inj h).2, decide_eq_false hin,
                  Bool.or_false, hs.stored.isSome b hblock i hi]
            · rw [update_of_ne fun h => hcb (hs.stored.data_inj c hc b hblock (Prod.mk.inj h).1),
                update_of_ne hcb, hs.stored.isSome c hc i hi] }
      header := hs.header
      numBlocks := heq ▸ hs.numBlocks
      size := by
        show update s.size h (s.size h + 1) h = _
        rw [update_self, hs.size, hold, hnew, List.length_append, List.length_append,
          List.length_cons]
        rfl }
  have hraw : s.slot (s.data b, n) = none := by
    have hsome := hs.stored.isSome b hblock n r.lt
    rw [r.clear] at hsome
    exact Option.isNone_iff_eq_none.mp (Option.isSome_eq_false_iff.mp hsome)
  refine ⟨⟨hshape, ?_, fun c hc => ?_, fun c hc => ?_, fun c i _ hlive => ?_⟩, ?_, ?_, ?_,
    fun x hx => ⟨rfl, ?_⟩, fun x hx => ?_, rfl⟩
  · exact
      { list := hlist
        available := havail
        block := fun c hc => by
          have hcb : c ≠ b := fun heq => hc.2 (List.mem_cons_of_mem h (heq ▸ hblock))
          exact ⟨hc.1, by rw [hmask, update_of_ne hcb], rfl⟩
        slot := fun c hc hnot => ⟨hc, fun i => hother c i fun h =>
          hnot b hblock (Prod.mk.inj h).1.symm⟩
        counters := fun g hg => ⟨rfl, update_of_ne hg _ _⟩
        header := id
        grown := fun c hc => Or.inl (heq ▸ hc)
        data := fun c hc => Or.inl ⟨c, heq ▸ hc, rfl⟩ }
  · rw [heq]
    exact or_iff_not_imp_right.mpr fun hnot => ⟨hc, hnot⟩
  · rw [heq]
    exact or_iff_not_imp_right.mpr fun hnot => ⟨hc, fun a ha h => hnot ⟨a, ha, h⟩⟩
  · rw [heq]
    refine or_iff_not_imp_right.mpr fun hnot => ?_
    have hne : (c, i) ≠ (s.data b, n) := fun h => hnot ⟨b, hblock, (Prod.mk.inj h).1.symm⟩
    rw [hother c i hne] at hlive
    exact ⟨hlive, fun a ha h => hnot ⟨a, ha, h⟩⟩
  · unfold Lists.fills
    split
    · exact ⟨[b], rfl⟩
    · split <;> exact ⟨[], (List.append_nil _).symm⟩
  · rw [hnew, hold]
    have hperm : (p₁ ++ ⟨b, n⟩ :: p₂).Perm (⟨b, n⟩ :: (p₁ ++ p₂)) := List.perm_middle
    exact hperm.trans (List.perm_append_singleton _ _).symm
  · rw [hold, hnew]
    exact (List.sublist_cons_self _ _).append_left p₁
  · refine hother _ _ fun hslot => ?_
    have hsome := hs.isSome_slotAt hx
    have hsame : s.slotAt x = (s.data b, n) := hslot
    rw [hsame, hraw] at hsome
    cases hsome
  · obtain rfl := List.mem_singleton.mp hx
    exact update_self _ _ _

end Room

/-! ## A new block -/

/-- The lists with a new block. -/
def Lists.grows (L : Lists) (b : ℕ) : Lists := ⟨L.active, L.partly, L.reserved ++ [b]⟩

/-- **A new block is reserved**, and nothing else changes. -/
theorem Shape.fresh_added {pb c : ℕ} (hs : Shape s h L) (hpb : s.blocks pb = false)
    (hc : s.chunks c = false) : Added s h L [] (freshState s h pb c) (L.grows pb) := by
  have hold : ∀ b, s.blocks b = true → b ≠ pb := by
    rintro b hb rfl
    rw [hpb] at hb
    cases hb
  have hused : ∀ b ∈ L.blocks, b ≠ pb := fun b hb => hold b (hs.stored.block b hb)
  have hheader : h ≠ pb := hold h hs.header
  have hblocks : (L.grows pb).blocks = L.blocks ++ [pb] := (List.append_assoc _ _ _).symm
  have hmem : ∀ b, b ∈ (L.grows pb).blocks ↔ b ∈ L.blocks ∨ b = pb := fun b => by
    rw [hblocks, List.mem_append, List.mem_singleton]
  have hmask : ∀ b, b ≠ pb → (freshState s h pb c).mask b = s.mask b := fun b hb =>
    update_of_ne hb _ _
  have hzero : (freshState s h pb c).mask pb = 0 := update_self _ _ _
  have hdata : ∀ b, b ≠ pb → (freshState s h pb c).data b = s.data b := fun b hb =>
    update_of_ne hb _ _
  have hdata' : (freshState s h pb c).data pb = c := update_self _ _ _
  have hchunk : ∀ b ∈ L.blocks, s.data b ≠ c := fun b hb heq => by
    have hin := hs.stored.chunk b hb
    rw [heq, hc] at hin
    cases hin
  have hslot : ∀ c' i, c' ≠ c → (freshState s h pb c).slot (c', i) = s.slot (c', i) :=
    fun c' i hne => if_neg hne
  have hring : pb ∉ h :: (L.partly ++ L.reserved) := fun hin => by
    rcases List.mem_cons.mp hin with heq | hin
    · exact hheader heq.symm
    · exact hused pb (hs.mem_blocks_of_available hin) rfl
  have hactive : ∀ b ∈ L.active, b ≠ pb := fun b hb => hused b (List.mem_append_left _ hb)
  have hpos : (freshState s h pb c).positions L.active = s.positions L.active :=
    State.positions_congr fun b hb => hmask b (hactive b hb)
  have hlinked : Linked (freshState s h pb c) h (L.grows pb) :=
    { ring := hs.ring
      ringAvailable := by
        have hlast := hs.ringAvailable.linkBefore_back hring
        rwa [List.append_assoc] at hlast
      mask_header := (hmask h hheader).trans hs.mask_header
      mask_active := fun b hb => hmask b (hactive b hb) ▸ hs.mask_active b hb
      mem_partly := fun b => (hs.mem_partly b).trans
        (and_congr_right fun hb => by rw [hmask b (hactive b hb)])
      mask_reserved := fun b hb => by
        rcases List.mem_append.mp hb with hb | hb
        · rw [hmask b (hused b (List.mem_append_right _ hb))]
          exact hs.mask_reserved b hb
        · rw [List.mem_singleton.mp hb, hzero] }
  have hstored : Stored (freshState s h pb c) (L.grows pb).blocks :=
    { block := fun b hb => by
        show update s.blocks pb true b = true
        rcases (hmem b).mp hb with hb | rfl
        · rw [update_of_ne (hused b hb), hs.stored.block b hb]
        · exact update_self _ _ _
      chunk := fun b hb => by
        show update s.chunks c true _ = true
        rcases (hmem b).mp hb with hb | rfl
        · rw [hdata b (hused b hb), update_of_ne (hchunk b hb), hs.stored.chunk b hb]
        · rw [hdata', update_self]
      data_inj := fun b hb b' hb' heq => by
        rcases (hmem b).mp hb with hin | hnew <;> rcases (hmem b').mp hb' with hin' | hnew'
        · rw [hdata b (hused b hin), hdata b' (hused b' hin')] at heq
          exact hs.stored.data_inj b hin b' hin' heq
        · rw [hdata b (hused b hin), hnew', hdata'] at heq
          exact absurd heq (hchunk b hin)
        · rw [hnew, hdata', hdata b' (hused b' hin')] at heq
          exact absurd heq.symm (hchunk b' hin')
        · exact hnew.trans hnew'.symm
      isSome := fun b hb i hi => by
        rcases (hmem b).mp hb with hb | rfl
        · rw [hdata b (hused b hb), hslot _ _ (hchunk b hb), hmask b (hused b hb),
            hs.stored.isSome b hb i hi]
        · rw [hdata', hzero]
          show (if c = c then none else s.slot (c, i)).isSome = _
          rw [if_pos rfl, show (0 : BitVec 64).getLsbD i = false from BitVec.getLsbD_zero]
          rfl }
  have hshape : Shape (freshState s h pb c) h (L.grows pb) :=
    { toLinked := hlinked
      stored := hstored
      header := by
        show update s.blocks pb true h = true
        rw [update_of_ne hheader, hs.header]
      numBlocks := by
        show update s.numBlocks h (s.numBlocks h + 1) h = _
        rw [update_self, hs.numBlocks, hblocks, List.length_append, List.length_singleton]
      size := hs.size.trans (congrArg List.length hpos).symm }
  refine ⟨⟨hshape, ?_, fun b hb => ?_, fun c' hc' => ?_, fun c' i hi hlive => ?_⟩,
    ⟨[], (List.append_nil _).symm⟩, ?_, ?_, fun x hx => ?_, fun x hx => absurd hx List.not_mem_nil,
    (List.append_nil _).symm⟩
  · exact
      { list := fun _ _ => ⟨rfl, rfl⟩
        available := hs.ringAvailable.linkBefore_back_agree hring fun b hb =>
          ⟨hold b hb.1, fun hin => hb.2 ((List.mem_cons.mp hin).elim
            (fun heq => heq ▸ List.mem_cons_self)
            fun hin => List.mem_cons_of_mem h (hs.mem_blocks_of_available hin))⟩
        block := fun b hb => by
          refine ⟨?_, hmask b (hold b hb.1), hdata b (hold b hb.1)⟩
          show update s.blocks pb true b = true
          rw [update_of_ne (hold b hb.1), hb.1]
        slot := fun c' hc' _ => by
          have hne : c' ≠ c := fun heq => by
            rw [heq, hc] at hc'
            cases hc'
          refine ⟨?_, fun i => hslot c' i hne⟩
          show update s.chunks c true c' = true
          rw [update_of_ne hne, hc']
        counters := fun g hg => ⟨update_of_ne hg _ _, rfl⟩
        header := fun hh => by
          show update s.blocks pb true h = true
          rw [update_of_ne hheader, hh]
        grown := fun b hb => ((hmem b).mp hb).imp_right fun heq : b = pb => heq ▸ hpb
        data := fun b hb => by
          rcases (hmem b).mp hb with hb | rfl
          · exact Or.inl ⟨b, hb, hdata b (hused b hb)⟩
          · exact Or.inr (hdata'.symm ▸ hc) }
  · have hb' : update s.blocks pb true b = true := hb
    by_cases hbp : b = pb
    · exact Or.inr ((hmem b).mpr (Or.inr hbp))
    · rw [update_of_ne hbp] at hb'
      rw [hmem]
      exact or_iff_not_imp_right.mpr fun hnot => ⟨hb', fun hin => hnot (Or.inl hin)⟩
  · have hc'' : update s.chunks c true c' = true := hc'
    by_cases hcc : c' = c
    · exact Or.inr ⟨pb, (hmem pb).mpr (Or.inr rfl), hdata'.trans hcc.symm⟩
    · rw [update_of_ne hcc] at hc''
      exact or_iff_not_imp_right.mpr fun hnot => ⟨hc'', fun a ha heq =>
        hnot ⟨a, (hmem a).mpr (Or.inl ha), (hdata a (hused a ha)).trans heq⟩⟩
  · by_cases hcc : c' = c
    · exact Or.inr ⟨pb, (hmem pb).mpr (Or.inr rfl), hdata'.trans hcc.symm⟩
    · rw [hslot c' i hcc] at hlive
      exact or_iff_not_imp_right.mpr fun hnot => ⟨hlive, fun a ha heq =>
        hnot ⟨a, (hmem a).mpr (Or.inl ha), (hdata a (hused a ha)).trans heq⟩⟩
  · rw [List.map_nil, List.append_nil]
    exact List.Perm.of_eq hpos
  · exact hpos ▸ List.Sublist.refl _
  · have hb := (State.mem_positions.mp hx).1
    have hd := hdata x.pbb (hactive _ hb)
    refine ⟨by rw [State.slotAt, State.slotAt, hd], ?_⟩
    rw [State.slotAt, hd]
    exact hslot _ _ (hchunk _ (List.mem_append_left _ hb))

/-- A call without elements to add may come first. -/
theorem Added.nil_trans (k : Added s h L [] t L') (k' : Added t h L' new u L'') :
    Added s h L new u L'' := k.trans k'

/-! ## `emplace` -/

section Emplace

variable {e : Env α} {v : α} {m : BitVec 64}

/-- The test for the two masks that need more than a write. -/
theorem add_one_ule_two : (m + 1).ule 2 = true ↔ m = full ∨ m = 0 ∨ m = 1 := by
  show _ ↔ m = BitVec.allOnes 64 ∨ _
  rw [BitVec.ule_eq_decide, decide_eq_true_iff]
  constructor
  · intro hle
    by_contra hne
    push Not at hne
    obtain ⟨hfull, hzero, hone⟩ := hne
    have hfull' : m.toNat ≠ 2 ^ 64 - 1 := fun heq =>
      hfull (BitVec.eq_of_toNat_eq (by simpa using heq))
    have hzero' : m.toNat ≠ 0 := fun heq => hzero (BitVec.eq_of_toNat_eq (by simpa using heq))
    have hone' : m.toNat ≠ 1 := fun heq => hone (BitVec.eq_of_toNat_eq (by simpa using heq))
    have hlt := m.isLt
    have hone'' : (1 : BitVec 64).toNat = 1 := rfl
    have htwo : (2 : BitVec 64).toNat = 2 := rfl
    rw [BitVec.toNat_add, hone'', htwo] at hle
    omega
  · rintro (rfl | rfl | rfl) <;> decide +kernel

/-- Only the first element of a block makes its mask 1. -/
theorem set_eq_one_iff (hne : m ≠ full) : m ||| Mask.bit (Mask.countrOne m) = 1 ↔ m = 0 := by
  constructor
  · intro heq
    have hlt := Mask.countrOne_lt hne
    have hbit : ∀ i < 64, (m ||| Mask.bit (Mask.countrOne m)).getLsbD i = decide (i = 0) := by
      intro i hi
      rw [heq]
      exact BitVec.getLsbD_one.trans (by simp)
    have hself := hbit _ hlt
    rw [Mask.getLsbD_set, decide_eq_true hlt, decide_eq_true rfl, Bool.and_true, Bool.or_true] at hself
    have hzero : Mask.countrOne m = 0 := of_decide_eq_true hself.symm
    refine Mask.eq_of_bits fun i hi => ?_
    rw [show (0 : BitVec 64).getLsbD i = false from BitVec.getLsbD_zero]
    by_cases hi0 : i = 0
    · rw [hi0, ← hzero]
      exact Mask.getLsbD_countrOne hne
    · have hbi := hbit i hi
      rw [Mask.getLsbD_set, decide_eq_false hi0, Bool.or_eq_false_iff] at hbi
      exact hbi.1
  · rintro rfl
    decide +kernel

/-- Memory after an element was constructed. -/
def constructedState (s : State α) (p : ℕ × ℕ) (v : α) : State α :=
  { s with
    slot := update s.slot p (some v)
    ops := s.ops + 1
    log := s.log ++ [.construct p] }

theorem construct_cases (e : Env α) (v : α) {p : ℕ × ℕ} (hchunk : s.chunks p.1 = true)
    (hn : p.2 < N) (hraw : s.slot p = none) :
    construct e p v s = .done () (constructedState s p v)
      ∨ construct e p v s = .threw { s with ops := s.ops + 1 } := by
  unfold construct
  rw [if_pos ⟨hchunk, hn, hraw⟩]
  split
  · exact Or.inr rfl
  · exact Or.inl rfl

/-- **What follows the construction** links the block as its new mask says. -/
theorem commitElement_run (h : ℕ) (v : α) (hne : s.mask b ≠ full) :
    commitElement h b (s.mask b)
        (constructedState s (s.data b, Mask.countrOne (s.mask b)) v)
      = .done () (addedState s h b (Mask.countrOne (s.mask b)) v) := by
  have hset := Mask.or_add_one hne
  have hone := set_eq_one_iff hne
  have hnz : s.mask b ||| Mask.bit (Mask.countrOne (s.mask b)) ≠ 0 := fun heq => by
    have hbit := Mask.getLsbD_set (m := s.mask b) (n := Mask.countrOne (s.mask b))
      (i := Mask.countrOne (s.mask b))
    rw [heq, decide_eq_true (Mask.countrOne_lt hne), decide_eq_true rfl, Bool.and_true, Bool.or_true,
      show (0 : BitVec 64).getLsbD _ = false from BitVec.getLsbD_zero] at hbit
    cases hbit
  unfold commitElement addedState
  dsimp only
  rw [hset]
  generalize s.mask b ||| Mask.bit (Mask.countrOne (s.mask b)) = m' at hone hnz ⊢
  have hzero : m' + 1 = 0 ↔ m' = full := by
    constructor
    · intro heq
      have hle : (m' + 1).ule 2 = true := by rw [heq]; decide
      rcases add_one_ule_two.mp hle with hm | hm | hm
      · exact hm
      · exact absurd hm hnz
      · rw [hm] at heq
        exact absurd heq (by decide)
    · rintro rfl
      decide
  by_cases hfull : m' = full
  · have hle := add_one_ule_two.mpr (Or.inl hfull)
    have hb : s.mask b ≠ 0 := fun heq => by
      rw [hone.mpr heq] at hfull
      exact absurd hfull (by decide)
    rw [if_pos hle, if_pos (hzero.mpr hfull), if_pos hfull, if_neg hb]
    rfl
  · by_cases hb : s.mask b = 0
    · have hle := add_one_ule_two.mpr (Or.inr (Or.inr (hone.mpr hb)))
      rw [if_pos hle, if_neg (hzero.not.mpr hfull), if_neg hfull, if_pos hb]
      rfl
    · have hle : ¬ (m' + 1).ule 2 = true := fun hle => by
        rcases add_one_ule_two.mp hle with hm | hm | hm
        · exact hfull hm
        · exact hnz hm
        · exact hb (hone.mp hm)
      rw [if_neg hle, if_neg hfull, if_neg hb]
      rfl

/-- What is available has room at its lowest clear bit. -/
theorem Shape.room_of_available (hs : Shape s h L) (hsome : s.available.next h ≠ h) :
    s.mask (s.available.next h) ≠ full
      ∧ Room s L (s.available.next h) (Mask.countrOne (s.mask (s.available.next h))) := by
  have hhead := hs.ringAvailable.next_header
  rcases hpartly : L.partly with - | ⟨b, p⟩
  · rw [hpartly, List.nil_append] at hhead
    rcases hreserved : L.reserved with - | ⟨b, r⟩
    · rw [hreserved] at hhead
      exact absurd hhead hsome
    · rw [hreserved, List.headD_cons] at hhead
      have hzero := hs.mask_reserved b (hreserved ▸ List.mem_cons_self)
      have hne : s.mask b ≠ full := by
        rw [hzero]
        decide
      rw [hhead]
      exact ⟨hne, Or.inr ⟨r, hreserved⟩, Mask.countrOne_lt hne, Mask.getLsbD_countrOne hne⟩
  · rw [hpartly, List.cons_append, List.headD_cons] at hhead
    have hb : b ∈ L.partly := hpartly ▸ List.mem_cons_self
    have hne := ((hs.mem_partly b).mp hb).2
    rw [hhead]
    exact ⟨hne, Or.inl hb, Mask.countrOne_lt hne, Mask.getLsbD_countrOne hne⟩

/-- Where nothing is available there are neither blocks with room nor reserved ones. -/
theorem Shape.none_available (hs : Shape s h L) (hnone : s.available.next h = h) :
    L.partly = [] ∧ L.reserved = [] := by
  have hhead := hs.ringAvailable.next_header
  rw [hnone] at hhead
  refine List.append_eq_nil_iff.mp ?_
  cases hl : L.partly ++ L.reserved with
  | nil => rfl
  | cons b rest =>
    rw [hl] at hhead
    have hnot := hs.ringAvailable.header_notMem
    rw [hl, hhead] at hnot
    exact absurd List.mem_cons_self hnot

/-- A block is created, or nothing is left of the attempt. -/
theorem createNewAvailableBlock_cases (e : Env α) (s : State α) (h : ℕ) :
    (∃ pb c, s.blocks pb = false ∧ s.chunks c = false
      ∧ createNewAvailableBlock e h s = .done pb (freshState s h pb c))
    ∨ ∃ t, createNewAvailableBlock e h s = .threw t ∧ Unchanged s t ∧ t.slot = s.slot := by
  have hmeets := createNewAvailableBlock_meets e s h s rfl
  have hslot : (createNewAvailableBlock e h s).Permits (fun _ _ => True)
      (fun t => t.slot = s.slot) := by
    unfold createNewAvailableBlock
    have hblock : (allocateBlock e s).Permits (fun _ t => t.slot = s.slot)
        (fun t => t.slot = s.slot) := by
      unfold allocateBlock
      cases e.block s.blocks <;> exact rfl
    refine Prog.bind_permits hblock fun pb t ht => ?_
    rw [setMask, Prog.modify_bind]
    refine Prog.bind_permits (Q := fun _ _ => True) ?_ fun _ _ _ => trivial
    refine Prog.onThrow_permits (F := fun u => u.slot = s.slot) ?_ fun u hu => ?_
    · unfold allocateData
      cases e.chunk _
      · exact ht
      · trivial
    · unfold deallocateBlock
      split
      · exact hu
      · trivial
  cases hrun : createNewAvailableBlock e h s with
  | done pb t =>
    rw [hrun] at hmeets
    obtain ⟨c, hpb, hc, rfl⟩ := hmeets
    exact Or.inl ⟨pb, c, hpb, hc, rfl⟩
  | threw t =>
    rw [hrun] at hmeets hslot
    exact Or.inr ⟨t, rfl, hmeets, hslot⟩
  | undefined =>
    rw [hrun] at hmeets
    exact hmeets.elim

theorem deleteBlock_keeps (pb : ℕ) : Prog.Keeps State.slot (deleteBlock pb : Prog (State α) Unit) := by
  unfold deleteBlock dataOf
  refine (Prog.keeps_gets _).bind fun pd => Prog.Keeps.bind ?_ fun _ => ?_
  · intro s
    unfold deallocateData
    split
    · exact rfl
    · trivial
  · intro s
    unfold deallocateBlock
    split
    · exact rfl
    · trivial

/-- The handler touches no element. -/
theorem restoreCapacityOnThrow_keeps (h pbb : ℕ) :
    Prog.Keeps State.slot (restoreCapacityOnThrow h pbb : Prog (State α) Unit) := by
  unfold restoreCapacityOnThrow nextAvailable unlinkAvailable dropBlocks
  refine (Prog.keeps_gets _).bind fun pb => Prog.Keeps.ite ?_ (Prog.keeps_pure _)
  refine Prog.Keeps.bind ?_ fun _ => Prog.Keeps.bind (deleteBlock_keeps pb) fun _ => ?_
  · exact Prog.keeps_modify fun _ => rfl
  · exact Prog.keeps_modify fun _ => rfl

/-- **`emplace`** adds its element, or changes nothing. -/
theorem emplace_run (e : Env α) (hs : Shape s h L) (v : α) :
    (emplace e h v s).Meets (fun it t => ∃ L', Added s h L [(it, v)] t L'
        ∧ ∃ p₁ p₂, s.positions L.active = p₁ ++ p₂ ∧ t.positions L'.active = p₁ ++ it :: p₂)
      (fun t => Unchanged s t ∧ Becomes s h L t L) := by
  -- From where the slot is known on.
  have htail : ∀ {u M} (pbb b : ℕ), Added s h L [] u M →
      u.positions M.active = s.positions L.active → u.mask b ≠ full →
      Room u M b (Mask.countrOne (u.mask b)) →
      (∀ p, (u.slot p).isSome = true → (s.slot p).isSome = true) →
      ((do let mask ← maskOf b
           constructOrRestoreCapacity e h (← dataOf b, Mask.countrOne (u.mask b)) pbb v
           commitElement h b mask
           pure (Iterator.mk b (Mask.countrOne (u.mask b)))) u).Permits
        (fun it t => ∃ L', Added s h L [(it, v)] t L'
          ∧ ∃ p₁ p₂, s.positions L.active = p₁ ++ p₂ ∧ t.positions L'.active = p₁ ++ it :: p₂)
        (fun t => ∀ p, (t.slot p).isSome = true → (s.slot p).isSome = true) := by
    intro u M pbb b hu hpos hne hroom hlive
    have hshape := hu.becomes.shape
    have hb := hroom.mem_blocks hshape
    have hsome := hshape.stored.isSome b hb _ hroom.lt
    rw [hroom.clear] at hsome
    have hraw := Option.isNone_iff_eq_none.mp (Option.isSome_eq_false_iff.mp hsome)
    unfold maskOf dataOf constructOrRestoreCapacity
    rw [Prog.gets_bind, Prog.gets_bind]
    rcases construct_cases e v (hshape.stored.chunk b hb) hroom.lt hraw with hrun | hrun
    · have hguard : ((construct e (u.data b, Mask.countrOne (u.mask b)) v).onThrow
          (restoreCapacityOnThrow h pbb)) u
          = .done () (constructedState u (u.data b, Mask.countrOne (u.mask b)) v) := by
        rw [Prog.onThrow, hrun]
      rw [Prog.bind_of_done hguard, Prog.bind_of_done (commitElement_run h v hne)]
      obtain ⟨p₁, p₂, hold, hnew⟩ := hroom.positions_split hshape v
      exact ⟨_, hu.nil_trans (hroom.added hshape v), p₁, p₂, hpos.symm.trans hold, hnew⟩
    · refine Prog.bind_permits (Q := fun _ _ => False) ?_ fun _ _ hf => hf.elim
      refine Prog.onThrow_permits (F := fun t => t.slot = u.slot) ?_ fun t ht => ?_
      · rw [hrun]
        exact rfl
      · have hkeeps : Prog.Keeps State.slot (restoreCapacityOnThrow h pbb : Prog (State α) Unit) :=
          restoreCapacityOnThrow_keeps h pbb
        refine (hkeeps t).imp (fun _ w hw p hp => ?_) fun _ _ => trivial
        rw [hw, ht] at hp
        exact hlive p hp
  have hpermits : (emplace e h v s).Permits (fun it t => ∃ L', Added s h L [(it, v)] t L'
        ∧ ∃ p₁ p₂, s.positions L.active = p₁ ++ p₂ ∧ t.positions L'.active = p₁ ++ it :: p₂)
      (fun t => ∀ p, (t.slot p).isSome = true → (s.slot p).isSome = true) := by
    unfold emplace nextAvailable
    rw [Prog.gets_bind]
    by_cases hnone : s.available.next h = h
    -- A new block is allocated.
    · obtain ⟨hpartly, hreserved⟩ := hs.none_available hnone
      have hretrieve : retrieveAvailableBlock e h s
          = (createNewAvailableBlock e h >>= fun pb => pure (pb, 0)) s := by
        unfold retrieveAvailableBlock nextAvailable
        rw [Prog.gets_bind, if_neg (not_not_intro hnone)]
      rw [Prog.bind_congr_left hretrieve, Prog.bind_assoc]
      rcases createNewAvailableBlock_cases e s h with ⟨pb, c, hpb, hc, hrun⟩ | ⟨t, hrun, -, hslot⟩
      · have hzero : (freshState s h pb c).mask pb = 0 := update_self _ _ _
        have hne : (freshState s h pb c).mask pb ≠ full := by
          rw [hzero]
          decide
        have hcount : Mask.countrOne ((freshState s h pb c).mask pb) = 0 := by
          rw [hzero]
          decide +kernel
        have hroom : Room (freshState s h pb c) (L.grows pb) pb
            (Mask.countrOne ((freshState s h pb c).mask pb)) := by
          refine ⟨Or.inr ⟨[], ?_⟩, Mask.countrOne_lt hne, Mask.getLsbD_countrOne hne⟩
          show L.reserved ++ [pb] = [pb]
          rw [hreserved, List.nil_append]
        have hfresh := hs.fresh_added hpb hc
        have hpos : (freshState s h pb c).positions L.active = s.positions L.active := by
          have hperm := hfresh.perm
          rw [List.map_nil, List.append_nil] at hperm
          exact (hfresh.sublist.eq_of_length hperm.length_eq.symm).symm
        rw [Prog.bind_of_done hrun, Prog.pure_bind]
        have htail' := htail (s.available.next h) pb hfresh hpos hne hroom fun p hp => by
          have hp' : (if p.1 = c then none else s.slot p).isSome = true := hp
          split at hp'
          · cases hp'
          · exact hp'
        rw [hcount] at htail'
        exact htail'
      · refine Prog.bind_permits (Q := fun _ _ => False) ?_ fun _ _ hf => hf.elim
        rw [hrun]
        exact fun p hp => hslot ▸ hp
    -- The first available block takes the element.
    · obtain ⟨hne, hroom⟩ := hs.room_of_available hnone
      have hretrieve : retrieveAvailableBlock e h s
          = .done (s.available.next h, Mask.countrOne (s.mask (s.available.next h))) s := by
        unfold retrieveAvailableBlock nextAvailable
        rw [Prog.gets_bind, if_pos hnone]
        rfl
      rw [Prog.bind_of_done hretrieve]
      exact htail _ _ (Added.refl hs) rfl hne hroom fun _ hp => hp
  refine ((emplace_meets e hs v).and_permits hpermits).imp (fun _ _ hq => hq.2) fun t ht => ?_
  exact ⟨ht.1, ht.1.becomes hs ht.2⟩

end Emplace

/-! ## Ranges -/

/-- **A packed hub**: only its last block may have room, behind its elements. -/
def Packed (s : State α) (L : Lists) : Prop :=
  ∀ b ∈ L.partly, ∃ a k, L.active = a ++ [b] ∧ Mask.bits (s.mask b) = List.range k

/-- **Values are inserted**, in order; into a packed hub at the end. -/
def Inserts (s : State α) (h : ℕ) (L : Lists) (vs : List α) (t : State α) (L' : Lists) : Prop :=
  ∃ its, its.length = vs.length ∧ Added s h L (its.zip vs) t L'
    ∧ (Packed s L → Packed t L' ∧ t.positions L'.active = s.positions L.active ++ its)

namespace Inserts

variable {vs ws : List α} {v : α}

theorem refl (hs : Shape s h L) : Inserts s h L [] s L :=
  ⟨[], rfl, Added.refl hs, fun hp => ⟨hp, (List.append_nil _).symm⟩⟩

theorem trans (k : Inserts s h L vs t L') (k' : Inserts t h L' ws u L'') :
    Inserts s h L (vs ++ ws) u L'' := by
  obtain ⟨its, hlen, hadded, hpacked⟩ := k
  obtain ⟨its', hlen', hadded', hpacked'⟩ := k'
  refine ⟨its ++ its', by rw [List.length_append, List.length_append, hlen, hlen'], ?_, fun hp => ?_⟩
  · rw [List.zip_append hlen]
    exact hadded.trans hadded'
  · obtain ⟨hp', hpos⟩ := hpacked hp
    obtain ⟨hp'', hpos'⟩ := hpacked' hp'
    exact ⟨hp'', by rw [hpos', hpos, List.append_assoc]⟩

/-- Nothing happened. -/
theorem of_unchanged (k : Unchanged s t) (hs : Shape s h L) (hlive : t.slot = s.slot) :
    Inserts s h L [] t L := by
  have hblock : ∀ b ∈ L.active, s.blocks b = true := fun b hb =>
    hs.stored.block b (List.mem_append_left _ hb)
  have hpos : t.positions L.active = s.positions L.active :=
    State.positions_congr fun b hb => k.mask b (hblock b hb)
  refine ⟨[], rfl, ⟨k.becomes hs fun p hp => hlive ▸ hp, ⟨[], (List.append_nil _).symm⟩, ?_, ?_,
    fun x hx => ?_, fun x hx => absurd hx List.not_mem_nil, ?_⟩, fun hp => ⟨fun b hb => ?_, ?_⟩⟩
  · rw [List.zip_nil_left, List.map_nil, List.append_nil]
    exact List.Perm.of_eq hpos
  · exact hpos ▸ List.Sublist.refl _
  · have hslot : t.slotAt x = s.slotAt x := by
      rw [State.slotAt, State.slotAt, k.data _ (hblock _ (State.mem_positions.mp hx).1)]
    exact ⟨hslot, by rw [hslot, hlive]⟩
  · exact k.log.trans (List.append_nil _).symm
  · rw [k.mask b (hblock b ((hs.mem_partly b).mp hb).1)]
    exact hp b hb
  · exact hpos.trans (List.append_nil _).symm

/-- **One value** goes to the lowest clear bit of its block. -/
theorem of_room (hs : Shape s h L) (r : Room s L b (Mask.countrOne (s.mask b)))
    (hfirst : s.mask b = 0 → L.partly = []) (v : α) :
    Inserts s h L [v] (addedState s h b (Mask.countrOne (s.mask b)) v)
      (L.fills s b (Mask.countrOne (s.mask b))) := by
  refine ⟨[⟨b, Mask.countrOne (s.mask b)⟩], rfl, r.added hs v, fun hp => ?_⟩
  obtain ⟨n, hn⟩ : ∃ n, Mask.countrOne (s.mask b) = n := ⟨_, rfl⟩
  rw [hn] at r ⊢
  have hmask : (addedState s h b n v).mask = update s.mask b (s.mask b ||| Mask.bit n) := rfl
  have hkept : ∀ bs : List ℕ, b ∉ bs → (addedState s h b n v).positions bs = s.positions bs :=
    fun bs hbs => State.positions_congr fun c hc => by
      have hcb : c ≠ b := fun heq => hbs (heq ▸ hc)
      rw [hmask, update_of_ne hcb]
  -- The block has its elements before the slot, and after that one more.
  obtain ⟨a, k, hactive, hbits⟩ : ∃ a k, (L.fills s b n).active = a ++ [b]
      ∧ Mask.bits (s.mask b) = List.range k := by
    unfold Lists.fills
    by_cases hzero : s.mask b = 0
    · rw [if_pos hzero]
      exact ⟨L.active, 0, rfl, by rw [hzero, Mask.bits_zero]; rfl⟩
    · obtain ⟨a, k, hactive, hbits⟩ := hp b (r.of_nonempty hs hzero)
      rw [if_neg hzero]
      split <;> exact ⟨a, k, hactive, hbits⟩
  have hk : n = k := by
    have hclear : n ∉ Mask.bits (s.mask b) := fun hmem => by
      have hset := Mask.mem_bits.mp hmem
      rw [r.clear] at hset
      cases hset
    rw [hbits, List.mem_range, Nat.not_lt] at hclear
    refine le_antisymm (Nat.le_of_not_lt fun hlt => ?_) hclear
    have hset := Mask.getLsbD_of_lt_countrOne (hn.symm ▸ hlt) (hlt.trans r.lt)
    have hmem := Mask.mem_bits.mpr hset
    rw [hbits, List.mem_range] at hmem
    exact lt_irrefl k hmem
  have hbits' : Mask.bits (s.mask b ||| Mask.bit n) = List.range (k + 1) := by
    obtain ⟨l₁, l₂, hold, hnew⟩ := Mask.bits_set r.lt r.clear
    have hsorted := Mask.sorted_bits (s.mask b ||| Mask.bit n)
    rw [hnew] at hsorted
    have hnil : l₂ = [] := List.eq_nil_iff_forall_not_mem.mpr fun i hi => by
      have hlt := (List.pairwise_cons.mp (List.pairwise_append.mp hsorted).2.1).1 i hi
      have hmem : i ∈ List.range k := hbits ▸ hold ▸ List.mem_append_right l₁ hi
      rw [List.mem_range] at hmem
      omega
    rw [hnil, List.append_nil] at hold
    rw [hnew, hnil, ← hold, hbits, hk, List.range_succ]
  have hnot : b ∉ a := by
    have hnd := (r.linked hs v).1.ring.nodup_members
    rw [hactive] at hnd
    exact fun hmem => (List.nodup_append.mp hnd).2.2 b hmem b List.mem_cons_self rfl
  have hpos : (addedState s h b n v).positions (L.fills s b n).active
      = s.positions a ++ (List.range (k + 1)).map (Iterator.mk b) := by
    rw [hactive, State.positions_append, hkept a hnot, State.positions_cons, State.positions_nil,
      List.append_nil, hmask, update_self, hbits']
  have hold : s.positions L.active = s.positions a ++ (List.range k).map (Iterator.mk b) := by
    unfold Lists.fills at hactive
    by_cases hzero : s.mask b = 0
    · rw [if_pos hzero] at hactive
      have hsame : L.active = a := List.append_inj_left' hactive rfl
      rw [hsame, ← hbits, hzero, Mask.bits_zero, List.map_nil, List.append_nil]
    · rw [if_neg hzero] at hactive
      have hsame : L.active = a ++ [b] := by
        split at hactive <;> exact hactive
      rw [hsame, State.positions_append, State.positions_cons, State.positions_nil,
        List.append_nil, hbits]
  refine ⟨fun c hc => ?_, ?_⟩
  · have hcb : c = b := by
      unfold Lists.fills at hc
      by_cases hzero : s.mask b = 0
      · rw [if_pos hzero, hfirst hzero] at hc
        exact List.mem_singleton.mp hc
      · have hin : c ∈ L.partly := by
          rw [if_neg hzero] at hc
          split at hc
          · exact (List.mem_filter.mp hc).1
          · exact hc
        obtain ⟨a', -, ha', -⟩ := hp c hin
        obtain ⟨a'', -, ha'', -⟩ := hp b (r.of_nonempty hs hzero)
        have hlast := List.append_inj_right' (ha'.symm.trans ha'') rfl
        exact (List.cons.inj hlast).1
    rw [hcb]
    exact ⟨a, k + 1, hactive, by rw [hmask, update_self, hbits']⟩
  · rw [hpos, hold, List.range_succ, List.map_append, List.append_assoc, hk]
    rfl

end Inserts

end

end Hub
