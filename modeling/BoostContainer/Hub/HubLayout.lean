import BoostContainer.Hub.Hub

/-!
# What a hub looks like in memory

A hub is three lists of blocks: the active ones, in the order of iteration; those of
them with room; and the reserved ones, which are empty. The two
circular lists hold the active blocks, and the blocks with room before the reserved
ones. An element lives in a slot exactly if the mask of its block has the bit.

The positions of the elements, in the order of iteration, are the bits that are set in
the active blocks. An iterator goes round them and the end, in both directions: it
is a ring of its own over the ring of the blocks.
-/

namespace Hub

variable {α : Type}

/-- **The blocks of a hub.** -/
structure Lists where
  active : List ℕ
  /-- The active blocks with room, in the order in which they are filled. -/
  partly : List ℕ
  reserved : List ℕ

/-- All of them. -/
def Lists.blocks (L : Lists) : List ℕ := L.active ++ L.reserved

namespace State

variable (s : State α)

/-- **Where the elements are**, in the order of iteration. -/
def positions (bs : List ℕ) : List Iterator :=
  bs.flatMap fun b => (Mask.bits (s.mask b)).map (Iterator.mk b)

/-- **The elements**, in the order of iteration. -/
def contents (bs : List ℕ) : List α := (s.positions bs).filterMap fun x => s.slot (s.slotAt x)

end State

/-- **The lists are linked** as the masks say. -/
structure Linked (s : State α) (h : ℕ) (L : Lists) : Prop where
  ring : Circular s.list h L.active
  ringAvailable : Circular s.available h (L.partly ++ L.reserved)
  mask_header : s.mask h = 1
  mask_active : ∀ b ∈ L.active, s.mask b ≠ 0
  mem_partly : ∀ b, b ∈ L.partly ↔ b ∈ L.active ∧ s.mask b ≠ full
  mask_reserved : ∀ b ∈ L.reserved, s.mask b = 0

/-- **The slots hold elements** as the masks say. -/
structure Stored (s : State α) (bs : List ℕ) : Prop where
  block : ∀ b ∈ bs, s.blocks b = true
  chunk : ∀ b ∈ bs, s.chunks (s.data b) = true
  data_inj : ∀ b ∈ bs, ∀ b' ∈ bs, s.data b = s.data b' → b = b'
  isSome : ∀ b ∈ bs, ∀ n < N, (s.slot (s.data b, n)).isSome = (s.mask b).getLsbD n

/-- **A hub**, in memory. -/
structure Shape (s : State α) (h : ℕ) (L : Lists) : Prop extends Linked s h L where
  stored : Stored s L.blocks
  header : s.blocks h = true
  numBlocks : s.numBlocks h = L.blocks.length
  size : s.size h = (s.positions L.active).length

/-! ## Positions -/

section Positions

variable {s t : State α} {h b : ℕ} {L : Lists} {bs : List ℕ} {x : Iterator}

namespace State

@[simp] theorem positions_nil : s.positions [] = [] := rfl

theorem positions_cons :
    s.positions (b :: bs) = (Mask.bits (s.mask b)).map (Iterator.mk b) ++ s.positions bs := rfl

theorem positions_append {bs' : List ℕ} :
    s.positions (bs ++ bs') = s.positions bs ++ s.positions bs' := List.flatMap_append

theorem positions_congr (hmask : ∀ b ∈ bs, t.mask b = s.mask b) :
    t.positions bs = s.positions bs :=
  List.flatMap_congr fun b hb => by rw [hmask b hb]

theorem mem_positions : x ∈ s.positions bs ↔ x.pbb ∈ bs ∧ (s.mask x.pbb).getLsbD x.n = true := by
  rw [positions, List.mem_flatMap]
  constructor
  · rintro ⟨b, hb, hx⟩
    obtain ⟨n, hn, rfl⟩ := List.mem_map.mp hx
    exact ⟨hb, Mask.mem_bits.mp hn⟩
  · rintro ⟨hb, hx⟩
    exact ⟨x.pbb, hb, List.mem_map.mpr ⟨x.n, Mask.mem_bits.mpr hx, rfl⟩⟩

theorem nodup_positions (hnd : bs.Nodup) : (s.positions bs).Nodup := by
  refine List.nodup_flatMap.mpr ⟨fun b _ => ?_, ?_⟩
  · exact (Mask.nodup_bits _).map fun n n' heq => congrArg Iterator.n heq
  · refine hnd.imp fun {b b'} hne => ?_
    intro x hx hx'
    obtain ⟨n, -, rfl⟩ := List.mem_map.mp hx
    obtain ⟨n', -, heq⟩ := List.mem_map.mp hx'
    exact hne (congrArg Iterator.pbb heq).symm

theorem length_positions :
    (s.positions bs).length = (bs.map fun b => Mask.popcount (s.mask b)).sum := by
  rw [positions, List.length_flatMap]
  congr 1
  refine List.map_congr_left fun b _ => ?_
  rw [List.length_map, Mask.popcount_eq]

theorem length_positions_le : (s.positions bs).length ≤ bs.length * N := by
  rw [length_positions]
  refine (List.sum_le_card_nsmul _ N fun x hx => ?_).trans (by rw [List.length_map, smul_eq_mul])
  obtain ⟨b, -, rfl⟩ := List.mem_map.mp hx
  exact Mask.popcount_le

/-- **Before and after an element**: of its own block, and of the others. -/
theorem positions_split (hnd : bs.Nodup) {p₁ p₂ : List Iterator}
    (h : s.positions bs = p₁ ++ x :: p₂) :
    ∃ b₁ b₂ n₁ n₂, bs = b₁ ++ x.pbb :: b₂ ∧ Mask.bits (s.mask x.pbb) = n₁ ++ x.n :: n₂
      ∧ p₁ = s.positions b₁ ++ n₁.map (Iterator.mk x.pbb)
      ∧ p₂ = n₂.map (Iterator.mk x.pbb) ++ s.positions b₂ := by
  have hmem : x ∈ s.positions bs := h ▸ List.mem_append_right p₁ List.mem_cons_self
  obtain ⟨hb, hn⟩ := mem_positions.mp hmem
  obtain ⟨b₁, b₂, rfl⟩ := List.append_of_mem hb
  obtain ⟨n₁, n₂, hbits⟩ := List.append_of_mem (Mask.mem_bits.mpr hn)
  refine ⟨b₁, b₂, n₁, n₂, rfl, hbits, ?_⟩
  have hsplit : s.positions (b₁ ++ x.pbb :: b₂) = (s.positions b₁ ++ n₁.map (Iterator.mk x.pbb))
      ++ x :: (n₂.map (Iterator.mk x.pbb) ++ s.positions b₂) := by
    rw [positions_append, positions_cons, hbits, List.map_append, List.map_cons, List.append_assoc,
      List.append_assoc, List.cons_append]
  have hnd' := nodup_positions (s := s) hnd
  rw [h] at hnd'
  have hnot := (List.nodup_middle.mp hnd').notMem
  obtain ⟨hp₁, -, hp₂⟩ := (List.append_cons_inj_of_notMem
    (fun hx => hnot (List.mem_append_left _ hx)) fun hx => hnot (List.mem_append_right _ hx)).mp
    (h.symm.trans hsplit)
  exact ⟨hp₁, hp₂⟩

end State

end Positions

/-! ## What a call leaves alone -/

/-- The blocks of other hubs, and their headers. -/
def others (s : State α) (h : ℕ) (L : Lists) : Set ℕ :=
  {b | s.blocks b = true ∧ b ∉ h :: L.blocks}

/-- **A call on a hub leaves all else as it is**: other blocks and what is in their slots, and
the counters of other hubs. What the hub has afterwards, it had before, or it is
new. -/
structure Frame (s : State α) (h : ℕ) (L : Lists) (t : State α) (L' : Lists) : Prop where
  list : Links.AgreeOn (others s h L) s.list t.list
  available : Links.AgreeOn (others s h L) s.available t.available
  block : ∀ b ∈ others s h L, t.blocks b = true ∧ t.mask b = s.mask b ∧ t.data b = s.data b
  slot : ∀ c, s.chunks c = true → (∀ b ∈ L.blocks, s.data b ≠ c) →
    t.chunks c = true ∧ ∀ n, t.slot (c, n) = s.slot (c, n)
  counters : ∀ g, g ≠ h → t.numBlocks g = s.numBlocks g ∧ t.size g = s.size g
  header : s.blocks h = true → t.blocks h = true
  grown : ∀ b ∈ L'.blocks, b ∈ L.blocks ∨ s.blocks b = false
  data : ∀ b ∈ L'.blocks, (∃ a ∈ L.blocks, t.data b = s.data a) ∨ s.chunks (t.data b) = false

namespace Frame

variable {s t u : State α} {h b : ℕ} {L L' L'' : Lists}

theorem refl (s : State α) (h : ℕ) (L : Lists) : Frame s h L s L where
  list _ _ := ⟨rfl, rfl⟩
  available _ _ := ⟨rfl, rfl⟩
  block _ hb := ⟨hb.1, rfl, rfl⟩
  slot _ hc _ := ⟨hc, fun _ => rfl⟩
  counters _ _ := ⟨rfl, rfl⟩
  header := id
  grown _ hb := Or.inl hb
  data b hb := Or.inl ⟨b, hb, rfl⟩

theorem others_subset (f : Frame s h L t L') (hb : b ∈ others s h L) : b ∈ others t h L' := by
  refine ⟨(f.block b hb).1, fun hmem => ?_⟩
  rcases List.mem_cons.mp hmem with rfl | hmem
  · exact hb.2 List.mem_cons_self
  · rcases f.grown b hmem with hold | hnew
    · exact hb.2 (List.mem_cons_of_mem h hold)
    · rw [hb.1] at hnew
      exact Bool.false_ne_true hnew.symm

theorem trans (f : Frame s h L t L') (g : Frame t h L' u L'') : Frame s h L u L'' where
  list b hb := by
    have hf := f.list b hb
    have hg := g.list b (f.others_subset hb)
    exact ⟨hg.1.trans hf.1, hg.2.trans hf.2⟩
  available b hb := by
    have hf := f.available b hb
    have hg := g.available b (f.others_subset hb)
    exact ⟨hg.1.trans hf.1, hg.2.trans hf.2⟩
  block b hb := by
    obtain ⟨-, hm, hd⟩ := f.block b hb
    obtain ⟨hu, hm', hd'⟩ := g.block b (f.others_subset hb)
    exact ⟨hu, hm'.trans hm, hd'.trans hd⟩
  slot c hc hnot := by
    obtain ⟨hc', hs⟩ := f.slot c hc hnot
    obtain ⟨hc'', hs'⟩ := g.slot c hc' fun b hb heq => by
      rcases f.data b hb with ⟨a, ha, hda⟩ | hnew
      · exact hnot a ha (hda.symm.trans heq)
      · rw [heq, hc] at hnew
        exact Bool.false_ne_true hnew.symm
    exact ⟨hc'', fun n => (hs' n).trans (hs n)⟩
  counters k hk := by
    obtain ⟨hn, hs⟩ := f.counters k hk
    obtain ⟨hn', hs'⟩ := g.counters k hk
    exact ⟨hn'.trans hn, hs'.trans hs⟩
  header hh := g.header (f.header hh)
  grown b hb := by
    rcases g.grown b hb with hold | hnew
    · exact f.grown b hold
    · by_cases hmem : b ∈ L.blocks
      · exact Or.inl hmem
      · refine Or.inr (Bool.eq_false_iff.mpr fun hused => ?_)
        have ht : t.blocks b = true := by
          by_cases hbh : b = h
          · exact hbh ▸ f.header (hbh ▸ hused)
          · exact (f.block b ⟨hused, fun hm => (List.mem_cons.mp hm).elim hbh hmem⟩).1
        exact Bool.false_ne_true (hnew.symm.trans ht)
  data b hb := by
    rcases g.data b hb with ⟨a, ha, heq⟩ | hnew
    · rw [heq]
      exact f.data a ha
    · by_cases hold : ∃ a ∈ L.blocks, u.data b = s.data a
      · exact Or.inl hold
      · refine Or.inr (Bool.eq_false_iff.mpr fun hused => ?_)
        have ht := (f.slot _ hused fun a ha heq => hold ⟨a, ha, heq.symm⟩).1
        exact Bool.false_ne_true (hnew.symm.trans ht)

end Frame

/-- **Two hubs apart**: they share no block and no data. -/
structure Apart (s : State α) (h : ℕ) (L : Lists) (g : ℕ) (M : Lists) : Prop where
  blocks : ∀ b ∈ g :: M.blocks, b ∉ h :: L.blocks
  data : ∀ b ∈ M.blocks, ∀ a ∈ L.blocks, s.data a ≠ s.data b

namespace Shape

variable {s t : State α} {h g : ℕ} {L L' M : Lists}

theorem mem_others (hy : Shape s g M) (ha : Apart s h L g M) {b : ℕ} (hb : b ∈ g :: M.blocks) :
    b ∈ others s h L := by
  refine ⟨?_, ha.blocks b hb⟩
  rcases List.mem_cons.mp hb with rfl | hb
  · exact hy.header
  · exact hy.stored.block b hb

/-- **Another hub stays what it is.** -/
theorem frame (hy : Shape s g M) (ha : Apart s h L g M) (f : Frame s h L t L') : Shape t g M := by
  have hmem : ∀ b ∈ g :: M.blocks, b ∈ others s h L := fun b hb => hy.mem_others ha hb
  have hactive : ∀ b ∈ M.active, b ∈ g :: M.blocks := fun b hb =>
    List.mem_cons_of_mem g (List.mem_append_left _ hb)
  have hreserved : ∀ b ∈ M.reserved, b ∈ g :: M.blocks := fun b hb =>
    List.mem_cons_of_mem g (List.mem_append_right _ hb)
  have hmask : ∀ b ∈ g :: M.blocks, t.mask b = s.mask b := fun b hb => (f.block b (hmem b hb)).2.1
  have hdata : ∀ b ∈ g :: M.blocks, t.data b = s.data b := fun b hb => (f.block b (hmem b hb)).2.2
  have hslot : ∀ b ∈ M.blocks, t.chunks (s.data b) = true ∧ ∀ n, t.slot (s.data b, n)
      = s.slot (s.data b, n) := fun b hb =>
    f.slot _ (hy.stored.chunk b hb) fun a ha' heq => ha.data b hb a ha' heq
  have hne : g ≠ h := fun heq => ha.blocks g List.mem_cons_self (heq ▸ List.mem_cons_self)
  exact
    { ring := hy.ring.congr fun b hb => f.list b (hmem b (by
        rcases List.mem_cons.mp hb with rfl | hb
        · exact List.mem_cons_self
        · exact hactive b hb))
      ringAvailable := hy.ringAvailable.congr fun b hb => f.available b (hmem b (by
        rcases List.mem_cons.mp hb with rfl | hb
        · exact List.mem_cons_self
        · rcases List.mem_append.mp hb with hb | hb
          · exact hactive b ((hy.mem_partly b).mp hb).1
          · exact hreserved b hb))
      mask_header := (hmask g List.mem_cons_self).trans hy.mask_header
      mask_active := fun b hb => hmask b (hactive b hb) ▸ hy.mask_active b hb
      mem_partly := fun b => (hy.mem_partly b).trans
        (and_congr_right fun hb => by rw [hmask b (hactive b hb)])
      mask_reserved := fun b hb => (hmask b (hreserved b hb)).trans (hy.mask_reserved b hb)
      stored :=
        { block := fun b hb => (f.block b (hmem b (List.mem_cons_of_mem g hb))).1
          chunk := fun b hb => by
            rw [hdata b (List.mem_cons_of_mem g hb)]
            exact (hslot b hb).1
          data_inj := fun b hb b' hb' heq => by
            rw [hdata b (List.mem_cons_of_mem g hb), hdata b' (List.mem_cons_of_mem g hb')] at heq
            exact hy.stored.data_inj b hb b' hb' heq
          isSome := fun b hb n hn => by
            rw [hdata b (List.mem_cons_of_mem g hb), hmask b (List.mem_cons_of_mem g hb),
              (hslot b hb).2 n]
            exact hy.stored.isSome b hb n hn }
      header := (f.block g (hmem g List.mem_cons_self)).1
      numBlocks := (f.counters g hne).1.trans hy.numBlocks
      size := by
        rw [(f.counters g hne).2, hy.size,
          State.positions_congr fun b hb => hmask b (hactive b hb)] }

end Shape

/-! ## A hub -/

/-- **A hub of 66 numbers**: a full block, a block with two elements and a reserved
block, after the header. -/
def sample : State ℕ where
  list := ⟨fun b => if b = 1 then 2 else if b = 2 then 3 else 1,
    fun b => if b = 1 then 3 else if b = 3 then 2 else 1⟩
  available := ⟨fun b => if b = 1 then 3 else if b = 3 then 4 else 1,
    fun b => if b = 1 then 4 else if b = 4 then 3 else 1⟩
  mask b := if b = 1 then 1 else if b = 2 then full else if b = 3 then 5 else 0
  data b := b
  slot p := if p.1 = 2 ∧ p.2 < 64 ∨ p.1 = 3 ∧ (p.2 = 0 ∨ p.2 = 2) then some p.2 else none
  blocks b := decide (b ∈ [1, 2, 3, 4])
  chunks c := decide (c ∈ [2, 3, 4])
  numBlocks _ := 3
  size _ := 66
  ops := 0
  log := []

/-- Its blocks. -/
def sampleLists : Lists := ⟨[2, 3], [3], [4]⟩

theorem shape_sample : Shape sample 1 sampleLists where
  ring := ⟨by decide, ⟨rfl, rfl, rfl⟩, ⟨rfl, rfl, rfl⟩⟩
  ringAvailable := ⟨by decide, ⟨rfl, rfl, rfl⟩, ⟨rfl, rfl, rfl⟩⟩
  mask_header := rfl
  mask_active := by decide
  mem_partly b := by
    have hfull : sample.mask 3 ≠ full ∧ sample.mask 2 = full := by decide
    simp only [sampleLists, List.mem_cons, List.not_mem_nil, or_false]
    constructor
    · rintro rfl
      exact ⟨Or.inr rfl, hfull.1⟩
    · rintro ⟨rfl | rfl, hne⟩
      · exact absurd hfull.2 hne
      · rfl
  mask_reserved := by decide
  stored :=
    { block := by decide
      chunk := by decide
      data_inj := by decide
      isSome := by decide }
  header := rfl
  numBlocks := rfl
  size := by decide

end Hub
