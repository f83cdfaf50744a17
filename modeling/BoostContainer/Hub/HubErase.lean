import BoostContainer.Hub.HubIterator

/-!
# Erasing from a hub

An element that is erased is destroyed and its bit is cleared. A block that was full is
available again, ahead of the others; one that becomes empty leaves the active blocks and
is reserved, behind the others. A range is erased element by element in its first and
its last block, and block by block between them.

All of it removes elements: the bits of those that are gone are cleared, and nothing
else moves. Removals compose, and what they leave of the positions is what they did
not remove, in the same order.
-/

namespace Hub

variable {α : Type}

/-- **Elements are removed**, and nothing else: they are destroyed, in order, and the
active blocks are those that are not empty. -/
structure Removed (s : State α) (h : ℕ) (L : Lists) (gone : List Iterator) (t : State α)
    (L' : Lists) : Prop where
  shape : Shape t h L'
  active : L'.active = L.active.filter fun b => t.mask b ≠ 0
  mask : ∀ b n, (t.mask b).getLsbD n = ((s.mask b).getLsbD n && decide (⟨b, n⟩ ∉ gone))
  data : t.data = s.data
  slot : ∀ p, t.slot p = if p ∈ gone.map s.slotAt then none else s.slot p
  log : t.log = s.log ++ gone.map fun x => .destroy (s.slotAt x)
  ops : t.ops = s.ops
  blocks : t.blocks = s.blocks
  chunks : t.chunks = s.chunks
  numBlocks : t.numBlocks = s.numBlocks
  perm : L'.blocks.Perm L.blocks
  frame : Frame s h L t L'

section

variable {s t u : State α} {h b n : ℕ} {L L' L'' : Lists} {bs : List ℕ}
  {gone gone' p₁ p₂ p₃ : List Iterator} {x : Iterator}

/-! ## What is left -/

/-- Blocks without elements do not count. -/
theorem State.positions_filter :
    t.positions (bs.filter fun b => t.mask b ≠ 0) = t.positions bs := by
  induction bs with
  | nil => rfl
  | cons b bs ih =>
    by_cases hb : t.mask b = 0
    · rw [List.filter_cons_of_neg (by simpa using hb), ih, State.positions_cons, hb, Mask.bits_zero,
        List.map_nil, List.nil_append]
    · rw [List.filter_cons_of_pos (by simpa using hb), State.positions_cons, State.positions_cons,
        ih]

/-- **What is left of the positions** is what was not removed, in the same order. -/
theorem State.positions_removed
    (hmask : ∀ b n, (t.mask b).getLsbD n = ((s.mask b).getLsbD n && decide (⟨b, n⟩ ∉ gone))) :
    t.positions (bs.filter fun b => t.mask b ≠ 0) = (s.positions bs).filter (· ∉ gone) := by
  rw [State.positions_filter]
  induction bs with
  | nil => rfl
  | cons b bs ih =>
    have hbits : Mask.bits (t.mask b)
        = (Mask.bits (s.mask b)).filter fun n => decide (Iterator.mk b n ∉ gone) :=
      Mask.bits_restrict fun n _ => hmask b n
    rw [State.positions_cons, State.positions_cons, List.filter_append, ih, hbits, List.filter_map]
    rfl

theorem filter_of_middle {p q r : List Iterator} (hnd : (p ++ (q ++ r)).Nodup) :
    (p ++ (q ++ r)).filter (· ∉ q) = p ++ r := by
  obtain ⟨hp, hqr, hdisj⟩ := List.nodup_append.mp hnd
  obtain ⟨hq, hr, hdisj'⟩ := List.nodup_append.mp hqr
  have hkeep : ∀ l : List Iterator, (∀ x ∈ l, x ∉ q) → l.filter (· ∉ q) = l := fun l hl =>
    List.filter_eq_self.mpr fun x hx => decide_eq_true (hl x hx)
  have hnone : q.filter (· ∉ q) = [] :=
    List.filter_eq_nil_iff.mpr fun x hx => by simpa using hx
  rw [List.filter_append, List.filter_append, hnone, List.nil_append,
    hkeep p fun x hx hxq => hdisj x hx x (List.mem_append_left r hxq) rfl,
    hkeep r fun x hx hxq => hdisj' x hxq x hx rfl]

theorem length_filter_notMem {l : List Iterator} (hnd : l.Nodup) (hq : gone.Nodup)
    (hsub : ∀ x ∈ gone, x ∈ l) : (l.filter (· ∉ gone)).length = l.length - gone.length := by
  have hperm : (l.filter (· ∈ gone)).Perm gone :=
    (List.perm_ext_iff_of_nodup (hnd.filter _) hq).mpr fun x => by
      rw [List.mem_filter, decide_eq_true_iff]
      exact ⟨fun hx => hx.2, fun hx => ⟨hsub x hx, hx⟩⟩
  have hlen := List.length_eq_length_filter_add (l := l) (fun x => decide (x ∈ gone))
  rw [hperm.length_eq] at hlen
  simp only [← decide_not] at hlen
  omega

/-! ## Removals -/

namespace Shape

/-- **Different elements are in different slots.** -/
theorem slotAt_inj (hs : Shape s h L) {y : Iterator} (hx : x.pbb ∈ L.blocks) (hy : y.pbb ∈ L.blocks)
    (heq : s.slotAt x = s.slotAt y) : x = y := by
  obtain ⟨hd, hn⟩ := Prod.mk.inj heq
  have hb := hs.stored.data_inj _ hx _ hy hd
  cases x
  cases y
  exact congrArg₂ Iterator.mk hb hn

theorem mem_blocks (hx : x ∈ s.positions L.active) : x.pbb ∈ L.blocks :=
  List.mem_append_left _ (State.mem_positions.mp hx).1

theorem isSome_slotAt (hs : Shape s h L) (hx : x ∈ s.positions L.active) :
    (s.slot (s.slotAt x)).isSome = true := by
  obtain ⟨hb, hn⟩ := State.mem_positions.mp hx
  rw [State.slotAt, hs.stored.isSome _ (mem_blocks hx) _ (BitVec.lt_of_getLsbD hn)]
  exact hn

theorem nodup_blocks (hs : Shape s h L) : L.blocks.Nodup := by
  refine List.nodup_append.mpr ⟨hs.ring.nodup_members,
    (List.nodup_append.mp hs.ringAvailable.nodup_members).2.1, ?_⟩
  rintro b hb b' hb' rfl
  exact hs.mask_active b hb (hs.mask_reserved b hb')

theorem header_notMem (hs : Shape s h L) : h ∉ L.blocks := fun hmem =>
  (List.mem_append.mp hmem).elim hs.ring.header_notMem fun hres =>
    hs.ringAvailable.header_notMem (List.mem_append_right _ hres)

/-- **A removal**, if the lists are linked as the masks say afterwards. -/
theorem removed (hs : Shape s h L) (hl : Linked t h L')
    (hsub : ∀ x ∈ gone, x ∈ s.positions L.active) (hnd : gone.Nodup)
    (hactive : L'.active = L.active.filter fun b => t.mask b ≠ 0) (hperm : L'.blocks.Perm L.blocks)
    (hmask : ∀ b n, (t.mask b).getLsbD n = ((s.mask b).getLsbD n && decide (⟨b, n⟩ ∉ gone)))
    (hdata : t.data = s.data)
    (hslot : ∀ p, t.slot p = if p ∈ gone.map s.slotAt then none else s.slot p)
    (hlog : t.log = s.log ++ gone.map fun x => .destroy (s.slotAt x)) (hops : t.ops = s.ops)
    (hblocks : t.blocks = s.blocks) (hchunks : t.chunks = s.chunks)
    (hnum : t.numBlocks = s.numBlocks)
    (hsize : t.size = Function.update s.size h (s.size h - gone.length))
    (hlist : Links.AgreeOn (others s h L) s.list t.list)
    (havail : Links.AgreeOn (others s h L) s.available t.available) :
    Removed s h L gone t L' := by
  have hother : ∀ b ∈ others s h L, t.mask b = s.mask b := fun b hb => by
    refine Mask.eq_of_bits fun n _ => ?_
    have hnot : (⟨b, n⟩ : Iterator) ∉ gone := fun hmem =>
      hb.2 (List.mem_cons_of_mem h (mem_blocks (hsub _ hmem)))
    rw [hmask b n, decide_eq_true hnot, Bool.and_true]
  have hshape : Shape t h L' :=
    { toLinked := hl
      stored :=
        { block := fun b hb => hblocks ▸ hs.stored.block b (hperm.mem_iff.mp hb)
          chunk := fun b hb => hchunks ▸ hdata ▸ hs.stored.chunk b (hperm.mem_iff.mp hb)
          data_inj := fun b hb b' hb' heq => by
            rw [hdata] at heq
            exact hs.stored.data_inj b (hperm.mem_iff.mp hb) b' (hperm.mem_iff.mp hb') heq
          isSome := fun b hb n hn => by
            have hb₀ := hperm.mem_iff.mp hb
            rw [hdata, hslot, hmask, ← hs.stored.isSome b hb₀ n hn]
            have hiff : (s.data b, n) ∈ gone.map s.slotAt ↔ (⟨b, n⟩ : Iterator) ∈ gone := by
              refine ⟨fun hmem => ?_, fun hmem => List.mem_map.mpr ⟨_, hmem, rfl⟩⟩
              obtain ⟨y, hy, heq⟩ := List.mem_map.mp hmem
              have hxy := hs.slotAt_inj (x := y) (y := ⟨b, n⟩) (mem_blocks (hsub y hy)) hb₀ heq
              exact hxy ▸ hy
            by_cases hmem : (⟨b, n⟩ : Iterator) ∈ gone
            · rw [if_pos (hiff.mpr hmem), decide_eq_false (not_not_intro hmem), Bool.and_false]
              rfl
            · rw [if_neg (hiff.not.mpr hmem), decide_eq_true hmem, Bool.and_true] }
      header := hblocks ▸ hs.header
      numBlocks := by rw [hnum, hs.numBlocks, hperm.length_eq]
      size := by
        rw [hsize, Function.update_self, hs.size, hactive, State.positions_removed hmask,
          length_filter_notMem (State.nodup_positions hs.ring.nodup_members) hnd hsub] }
  refine ⟨hshape, hactive, hmask, hdata, hslot, hlog, hops, hblocks, hchunks, hnum, hperm, ?_⟩
  exact
    { list := hlist
      available := havail
      block := fun b hb => ⟨hblocks ▸ hb.1, hother b hb, by rw [hdata]⟩
      slot := fun c hc hnot => by
        refine ⟨hchunks ▸ hc, fun n => (hslot _).trans (if_neg fun hmem => ?_)⟩
        obtain ⟨y, hy, heq⟩ := List.mem_map.mp hmem
        exact hnot y.pbb (mem_blocks (hsub y hy)) (congrArg Prod.fst heq)
      counters := fun g hg => by
        rw [hnum, hsize, Function.update_of_ne hg]
        exact ⟨rfl, rfl⟩
      header := fun hh => hblocks ▸ hh
      grown := fun b hb => Or.inl (hperm.mem_iff.mp hb)
      data := fun b hb => Or.inl ⟨b, hperm.mem_iff.mp hb, by rw [hdata]⟩ }

end Shape

namespace Removed

theorem refl (hs : Shape s h L) : Removed s h L [] s L where
  shape := hs
  active := (List.filter_eq_self.mpr fun b hb => decide_eq_true (hs.mask_active b hb)).symm
  mask b n := by simp
  data := rfl
  slot p := (if_neg List.not_mem_nil).symm
  log := (List.append_nil _).symm
  ops := rfl
  blocks := rfl
  chunks := rfl
  numBlocks := rfl
  perm := List.Perm.refl _
  frame := Frame.refl s h L

theorem slotAt_eq (r : Removed s h L gone t L') : t.slotAt = s.slotAt := by
  funext x
  rw [State.slotAt, State.slotAt, r.data]

/-- **Removals compose.** -/
theorem trans (r : Removed s h L gone t L') (r' : Removed t h L' gone' u L'') :
    Removed s h L (gone ++ gone') u L'' where
  shape := r'.shape
  active := by
    rw [r'.active, r.active, List.filter_filter]
    refine List.filter_congr fun b _ => ?_
    have hsub : u.mask b ≠ 0 → t.mask b ≠ 0 := fun hu ht => hu (Mask.eq_of_bits fun n _ => by
      rw [r'.mask, ht, show (0 : BitVec 64).getLsbD n = false from BitVec.getLsbD_zero]
      rfl)
    by_cases hu : u.mask b = 0
    · rw [decide_eq_false (not_not_intro hu), Bool.false_and]
    · rw [decide_eq_true hu, decide_eq_true (hsub hu)]
      rfl
  mask b n := by
    rw [r'.mask, r.mask, Bool.and_assoc]
    congr 1
    rw [← Bool.decide_and, decide_eq_decide, List.mem_append, not_or]
  data := r'.data.trans r.data
  slot p := by
    rw [r'.slot, r.slot, r.slotAt_eq, List.map_append]
    by_cases hp : p ∈ gone'.map s.slotAt
    · rw [if_pos hp, if_pos (List.mem_append_right _ hp)]
    · rw [if_neg hp]
      exact if_congr (by rw [List.mem_append, or_iff_left hp]) rfl rfl
  log := by
    rw [r'.log, r.log, r.slotAt_eq, List.map_append, List.append_assoc]
  ops := r'.ops.trans r.ops
  blocks := r'.blocks.trans r.blocks
  chunks := r'.chunks.trans r.chunks
  numBlocks := r'.numBlocks.trans r.numBlocks
  perm := r'.perm.trans r.perm
  frame := r.frame.trans r'.frame

/-- **What is left**, in the same order. -/
theorem positions (r : Removed s h L gone t L') :
    t.positions L'.active = (s.positions L.active).filter (· ∉ gone) := by
  rw [r.active]
  exact State.positions_removed r.mask

/-- What is left around a range. -/
theorem positions_middle (r : Removed s h L gone t L') (hs : Shape s h L)
    (hp : s.positions L.active = p₁ ++ (gone ++ p₂)) : t.positions L'.active = p₁ ++ p₂ := by
  have hnd := State.nodup_positions (s := s) hs.ring.nodup_members
  rw [r.positions, hp]
  rw [hp] at hnd
  exact filter_of_middle hnd

/-- **An element that is left** stays in its slot. -/
theorem slot_kept (r : Removed s h L gone t L') (hs : Shape s h L)
    (hsub : ∀ x ∈ gone, x ∈ s.positions L.active) (hx : x ∈ t.positions L'.active) :
    t.slot (t.slotAt x) = s.slot (s.slotAt x) := by
  rw [r.positions, List.mem_filter] at hx
  rw [r.slot, r.slotAt_eq]
  refine if_neg fun hmem => ?_
  obtain ⟨y, hy, heq⟩ := List.mem_map.mp hmem
  have hxy := hs.slotAt_inj (Shape.mem_blocks (hsub y hy)) (Shape.mem_blocks hx.1) heq
  exact of_decide_eq_true hx.2 (hxy ▸ hy)

end Removed

end

end Hub
