import BoostContainer.Hub.HubEmplace
import BoostContainer.Hub.HubErase
import BoostContainer.Hub.HubVisit

/-!
# Erasing a range of a hub

One element after the other is erased until the range ends or its first block does. Then
whole blocks are erased, up to the one where the range ends, and there again single
elements. Each of the three loops takes some of the range away, and what is left is a
range from where the loop stopped to the same end; the second begins where a block
does.

A block that loses its last element is taken out of the active blocks and out of the
available ones, if it is there, and is put behind the reserved ones.
-/

open Function

namespace Hub

variable {α : Type} {e : Env α} {s t : State α} {h b n rounds : ℕ} {L L' : Lists} {m : BitVec 64}
  {a₁ a₂ : List ℕ} {xs gone : List Iterator} {x first last : Iterator}

/-! ## The lists -/

namespace Linked

theorem ne_header (hl : Linked s h L) (hb : b ∈ L.active) : h ≠ b := fun heq =>
  hl.ring.header_notMem (heq ▸ hb)

theorem notMem_reserved (hl : Linked s h L) (hb : b ∈ L.active) : b ∉ L.reserved := fun hres =>
  hl.mask_active b hb (hl.mask_reserved b hres)

/-- An available block is one of the hub. -/
theorem mem_blocks_of_available (hl : Linked s h L) (hb : b ∈ L.partly ++ L.reserved) :
    b ∈ L.blocks := by
  rcases List.mem_append.mp hb with hb | hb
  · exact List.mem_append_left _ ((hl.mem_partly b).mp hb).1
  · exact List.mem_append_right _ hb

/-- **The mask of an active block is written**, and it stays active. -/
theorem write (hl : Linked s h L) (hb : b ∈ L.active) (hm : m ≠ 0)
    (hmask : t.mask = update s.mask b m) (hlist : t.list = s.list) {partly : List ℕ}
    (havail : Circular t.available h (partly ++ L.reserved))
    (hpartly : ∀ c, c ∈ partly ↔ c ∈ L.active ∧ t.mask c ≠ full) :
    Linked t h ⟨L.active, partly, L.reserved⟩ where
  ring := hlist ▸ hl.ring
  ringAvailable := havail
  mask_header := by rw [hmask, update_of_ne (hl.ne_header hb), hl.mask_header]
  mask_active c hc := by
    rw [hmask]
    by_cases hcb : c = b
    · rw [hcb, update_self]
      exact hm
    · rw [update_of_ne hcb]
      exact hl.mask_active c hc
  mem_partly := hpartly
  mask_reserved c hc := by
    have hcb : c ≠ b := fun heq => hl.notMem_reserved hb (heq ▸ hc)
    rw [hmask, update_of_ne hcb]
    exact hl.mask_reserved c hc

/-- The links of the available blocks without one of them, if it is there. -/
def withdrawn (s : State α) (b : ℕ) : Links ℕ :=
  if s.mask b = full then s.available else s.available.unlink b

/-- A block is no longer available. -/
theorem withdraw (hl : Linked s h L) (hb : b ∈ L.active) :
    Circular (withdrawn s b) h (L.partly.filter (· ≠ b) ++ L.reserved)
      ∧ Links.AgreeOn (others s h L) s.available (withdrawn s b) := by
  unfold withdrawn
  by_cases hfull : s.mask b = full
  · have hnot : b ∉ L.partly := fun hmem => ((hl.mem_partly b).mp hmem).2 hfull
    have hall : L.partly.filter (· ≠ b) = L.partly := List.filter_eq_self.mpr fun c hc =>
      decide_eq_true fun heq => hnot (heq ▸ hc)
    rw [if_pos hfull, hall]
    exact ⟨hl.ringAvailable, fun _ _ => ⟨rfl, rfl⟩⟩
  · obtain ⟨p₁, p₂, hpartly⟩ := List.append_of_mem ((hl.mem_partly b).mpr ⟨hb, hfull⟩)
    have hring := hl.ringAvailable
    rw [hpartly, List.append_assoc, List.cons_append] at hring
    have hnot := (List.nodup_middle.mp hring.nodup_members).notMem
    have hkeep : ∀ l : List ℕ, b ∉ l → l.filter (· ≠ b) = l := fun l hl =>
      List.filter_eq_self.mpr fun c hc => decide_eq_true fun heq => hl (heq ▸ hc)
    rw [if_neg hfull, hpartly, List.filter_append, List.filter_cons_of_neg (by simp),
      hkeep p₁ fun hp => hnot (List.mem_append_left _ hp),
      hkeep p₂ fun hp => hnot (List.mem_append_right _ (List.mem_append_left _ hp)),
      List.append_assoc]
    refine ⟨hring.unlink, hring.unlink_agree fun c hc hmem => hc.2 ?_⟩
    rcases List.mem_cons.mp hmem with rfl | hmem
    · exact List.mem_cons_self
    · rw [← List.cons_append, ← List.append_assoc, ← hpartly] at hmem
      exact List.mem_cons_of_mem h (hl.mem_blocks_of_available hmem)

/-- **A block without elements is reserved.** -/
theorem release (hl : Linked s h L) (hactive : L.active = a₁ ++ b :: a₂)
    (hlist : t.list = s.list.unlink b) (havail : t.available = (withdrawn s b).linkBefore b h)
    (hmask : t.mask = update s.mask b 0) :
    Linked t h ⟨a₁ ++ a₂, L.partly.filter (· ≠ b), L.reserved ++ [b]⟩
      ∧ Links.AgreeOn (others s h L) s.list t.list
      ∧ Links.AgreeOn (others s h L) s.available t.available := by
  have hb : b ∈ L.active := hactive ▸ List.mem_append_right a₁ List.mem_cons_self
  obtain ⟨hwithdrawn, hagree⟩ := hl.withdraw hb
  have hring := hl.ring
  rw [hactive] at hring
  have hrest : ∀ c ∈ a₁ ++ a₂, c ∈ L.active ∧ c ≠ b := fun c hc => by
    refine ⟨hactive ▸ (List.sublist_cons_self b a₂).append_left a₁ |>.subset hc, fun heq => ?_⟩
    exact (List.nodup_middle.mp hring.nodup_members).notMem (heq ▸ hc)
  have hnot : b ∉ h :: (L.partly.filter (· ≠ b) ++ L.reserved) := by
    intro hmem
    rcases List.mem_cons.mp hmem with heq | hmem
    · exact hl.ne_header hb heq.symm
    · rcases List.mem_append.mp hmem with hp | hp
      · exact of_decide_eq_true (List.mem_filter.mp hp).2 rfl
      · exact hl.notMem_reserved hb hp
  refine ⟨?_, ?_, ?_⟩
  · exact
      { ring := hlist ▸ hring.unlink
        ringAvailable := by
          rw [havail, ← List.append_assoc]
          exact hwithdrawn.linkBefore_back hnot
        mask_header := by rw [hmask, update_of_ne (hl.ne_header hb), hl.mask_header]
        mask_active := fun c hc => by
          rw [hmask, update_of_ne (hrest c hc).2]
          exact hl.mask_active c (hrest c hc).1
        mem_partly := fun c => by
          rw [List.mem_filter, hl.mem_partly, decide_eq_true_iff]
          constructor
          · rintro ⟨⟨hc, hne⟩, hcb⟩
            rw [hactive] at hc
            refine ⟨?_, by rwa [hmask, update_of_ne hcb]⟩
            rcases List.mem_append.mp hc with hc | hc
            · exact List.mem_append_left _ hc
            · exact List.mem_append_right _ ((List.mem_cons.mp hc).resolve_left hcb)
          · rintro ⟨hc, hne⟩
            obtain ⟨hold, hcb⟩ := hrest c hc
            rw [hmask, update_of_ne hcb] at hne
            exact ⟨⟨hold, hne⟩, hcb⟩
        mask_reserved := fun c hc => by
          rw [hmask]
          by_cases hcb : c = b
          · rw [hcb, update_self]
          · rw [update_of_ne hcb]
            refine hl.mask_reserved c ((List.mem_append.mp hc).resolve_right fun hlast => ?_)
            exact hcb (List.mem_singleton.mp hlast) }
  · rw [hlist]
    refine hring.unlink_agree fun c hc hmem => hc.2 ?_
    rw [← hactive] at hmem
    rcases List.mem_cons.mp hmem with rfl | hmem
    · exact List.mem_cons_self
    · exact List.mem_cons_of_mem h (List.mem_append_left _ hmem)
  · rw [havail]
    refine hagree.trans (hwithdrawn.linkBefore_back_agree hnot fun c hc => ?_)
    refine ⟨fun heq => hc.2 (List.mem_cons_of_mem h (List.mem_append_left _ (heq ▸ hb))),
      fun hmem => hc.2 ?_⟩
    rcases List.mem_cons.mp hmem with rfl | hmem
    · exact List.mem_cons_self
    · exact List.mem_cons_of_mem h (hl.mem_blocks_of_available
        ((List.filter_sublist.append_right L.reserved).subset hmem))

end Linked

namespace Shape

/-- **All elements of a block are removed**, and the block is reserved. -/
theorem release (hs : Shape s h L) (hactive : L.active = a₁ ++ b :: a₂)
    (hlist : t.list = s.list.unlink b)
    (havail : t.available = (Linked.withdrawn s b).linkBefore b h)
    (hmask : t.mask = update s.mask b 0) (hdata : t.data = s.data)
    (hslot : ∀ p, t.slot p = if p ∈ (s.positions [b]).map s.slotAt then none else s.slot p)
    (hlog : t.log = s.log ++ (s.positions [b]).map fun x => .destroy (s.slotAt x))
    (hops : t.ops = s.ops) (hblocks : t.blocks = s.blocks) (hchunks : t.chunks = s.chunks)
    (hnum : t.numBlocks = s.numBlocks)
    (hsize : t.size = update s.size h (s.size h - (s.positions [b]).length)) :
    Removed s h L (s.positions [b]) t
      ⟨a₁ ++ a₂, L.partly.filter (· ≠ b), L.reserved ++ [b]⟩ := by
  have hb : b ∈ L.active := hactive ▸ List.mem_append_right a₁ List.mem_cons_self
  obtain ⟨hl, hagree, hagree'⟩ := hs.toLinked.release hactive hlist havail hmask
  have hbits : ∀ c i, (t.mask c).getLsbD i
      = ((s.mask c).getLsbD i && decide (⟨c, i⟩ ∉ s.positions [b])) := by
    intro c i
    have hmem : (⟨c, i⟩ : Iterator) ∈ s.positions [b] ↔ c = b ∧ (s.mask c).getLsbD i = true :=
      State.mem_positions.trans (and_congr_left' List.mem_singleton)
    have hdec : decide (⟨c, i⟩ ∉ s.positions [b])
        = decide ¬ (c = b ∧ (s.mask c).getLsbD i = true) := decide_eq_decide.mpr (not_congr hmem)
    rw [hmask, hdec]
    by_cases hc : c = b
    · have hnone : (0 : BitVec 64).getLsbD i = false := BitVec.getLsbD_zero
      simp only [hc, update_self, hnone]
      cases (s.mask b).getLsbD i <;> simp
    · rw [update_of_ne hc]
      simp [hc]
  have hpos : (s.positions [b]).Nodup := State.nodup_positions (List.nodup_singleton b)
  refine hs.removed hl (fun x hx => ?_) hpos ?_ ?_ hbits hdata hslot hlog hops hblocks hchunks hnum
    hsize hagree hagree'
  · obtain ⟨hxb, hn⟩ := State.mem_positions.mp hx
    exact State.mem_positions.mpr ⟨List.mem_singleton.mp hxb ▸ hb, hn⟩
  · have hgone : t.mask b = 0 := by rw [hmask, update_self]
    have hkept : (a₁ ++ a₂).filter (fun c => t.mask c ≠ 0) = a₁ ++ a₂ :=
      List.filter_eq_self.mpr fun c hc => decide_eq_true (hl.mask_active c hc)
    rw [hactive, List.filter_append, List.filter_cons_of_neg (by simpa using hgone),
      ← List.filter_append, hkept]
  · show (a₁ ++ a₂ ++ (L.reserved ++ [b])).Perm (L.active ++ L.reserved)
    rw [hactive, ← List.append_assoc]
    have hlast : (a₁ ++ a₂ ++ L.reserved ++ [b]).Perm (b :: (a₁ ++ a₂ ++ L.reserved)) :=
      List.perm_append_singleton b _
    have hmiddle : (a₁ ++ b :: a₂).Perm (b :: (a₁ ++ a₂)) := List.perm_middle
    exact hlast.trans (hmiddle.symm.append_right L.reserved)

end Shape

/-! ## One element -/

/-- Memory after an element was erased. -/
def erasedState (s : State α) (h b n : ℕ) : State α :=
  let mask := s.mask b &&& ~~~Mask.bit n
  let available := if s.mask b = full then s.available.linkAfter b h else s.available
  { s with
    list := if mask = 0 then s.list.unlink b else s.list
    available := if mask = 0 then (available.unlink b).linkBefore b h else available
    mask := update s.mask b mask
    slot := update s.slot (s.data b, n) none
    size := update s.size h (s.size h - 1)
    log := s.log ++ [.destroy (s.data b, n)] }

theorem full_clear_ne_zero (n : ℕ) : (full : BitVec 64) &&& ~~~Mask.bit n ≠ 0 := by
  intro hzero
  have hbits := Mask.bits_clear (m := full) (n := n)
  rw [hzero, Mask.bits_zero, Mask.bits_full] at hbits
  have hnone := List.filter_eq_nil_iff.mp hbits.symm
  have h0 := hnone 0 (List.mem_range.mpr (by decide))
  have h1 := hnone 1 (List.mem_range.mpr (by decide))
  simp only [ne_eq, decide_not, Bool.not_eq_true', decide_eq_false_iff_not, not_not] at h0 h1
  omega

theorem eraseImpl_run (hsome : (s.slot (s.data b, n)).isSome = true) :
    eraseImpl h b n s = .done () (erasedState s h b n) := by
  have hdestroy : destroy (s.data b, n) s = .done () { s with
      slot := update s.slot (s.data b, n) none
      log := s.log ++ [.destroy (s.data b, n)] } := if_pos hsome
  unfold eraseImpl dataOf maskOf
  rw [Prog.gets_bind, Prog.bind_of_done hdestroy, Prog.gets_bind]
  unfold erasedState
  by_cases hfull : s.mask b = full
  · have hne : full &&& ~~~Mask.bit n ≠ 0#64 := full_clear_ne_zero n
    simp [hfull, hne, linkAvailableAtFront, setMask, dropSize, Prog.modify]
  · by_cases hzero : s.mask b &&& ~~~Mask.bit n = 0#64
    · simp [hfull, hzero, setMask, unlink, unlinkAvailable, linkAvailableAtBack, dropSize,
        Prog.modify]
    · simp [hfull, hzero, setMask, dropSize, Prog.modify]

/-- **An element is erased.** -/
theorem Shape.eraseImpl_removed (hs : Shape s h L) (hx : ⟨b, n⟩ ∈ s.positions L.active) :
    ∃ L', Removed s h L [⟨b, n⟩] (erasedState s h b n) L' := by
  have hb : b ∈ L.active := (State.mem_positions.mp hx).1
  have hn : (s.mask b).getLsbD n = true := (State.mem_positions.mp hx).2
  have hlt : n < 64 := BitVec.lt_of_getLsbD hn
  have hmask : (erasedState s h b n).mask = update s.mask b (s.mask b &&& ~~~Mask.bit n) := rfl
  have hslot : ∀ p, (erasedState s h b n).slot p
      = if p ∈ [(⟨b, n⟩ : Iterator)].map s.slotAt then none else s.slot p := fun p => by
    show update s.slot (s.data b, n) none p = _
    rw [update_apply]
    exact if_congr (by rw [List.map_singleton, List.mem_singleton]; rfl) rfl rfl
  by_cases hzero : s.mask b &&& ~~~Mask.bit n = 0
  -- It was the last one of its block.
  · have hfull : s.mask b ≠ full := fun heq => full_clear_ne_zero n (heq ▸ hzero)
    obtain ⟨a₁, a₂, hsplit⟩ := List.append_of_mem hb
    have hone : Mask.bits (s.mask b) = [n] := by
      have hbits := Mask.bits_clear (m := s.mask b) (n := n)
      rw [hzero, Mask.bits_zero] at hbits
      refine List.perm_singleton.mp ((List.perm_ext_iff_of_nodup (Mask.nodup_bits _)
        (List.nodup_singleton n)).mpr fun i => ⟨fun hi => ?_, fun hi => ?_⟩)
      · have hno := List.filter_eq_nil_iff.mp hbits.symm i hi
        simpa using hno
      · exact List.mem_singleton.mp hi ▸ Mask.mem_bits.mpr hn
    have hpos : s.positions [b] = [⟨b, n⟩] := by
      rw [State.positions_cons, hone]
      rfl
    have havail : (erasedState s h b n).available
        = (Linked.withdrawn s b).linkBefore b h := by
      unfold erasedState Linked.withdrawn
      simp only [if_pos hzero, if_neg hfull]
    rw [← hpos] at hslot ⊢
    refine ⟨_, hs.release hsplit (if_pos hzero) havail (by rw [hmask, hzero]) rfl hslot ?_ rfl rfl
      rfl rfl ?_⟩
    · rw [hpos]
      rfl
    · rw [hpos]
      rfl
  -- Others are left.
  · have hbits : ∀ c i, ((erasedState s h b n).mask c).getLsbD i
        = ((s.mask c).getLsbD i && decide ((⟨c, i⟩ : Iterator) ∉ [⟨b, n⟩])) := by
      intro c i
      have hmem : (⟨c, i⟩ : Iterator) ∈ [(⟨b, n⟩ : Iterator)] ↔ c = b ∧ i = n := by
        rw [List.mem_singleton, Iterator.mk.injEq]
      have hdec : decide ((⟨c, i⟩ : Iterator) ∉ [⟨b, n⟩]) = decide ¬ (c = b ∧ i = n) :=
        decide_eq_decide.mpr (not_congr hmem)
      rw [hmask, hdec]
      by_cases hc : c = b
      · simp only [hc, update_self, true_and]
        by_cases hi : i < 64
        · rw [Mask.getLsbD_clear hi]
        · rw [BitVec.getLsbD_of_ge _ _ (by omega), BitVec.getLsbD_of_ge _ _ (by omega)]
          rfl
      · rw [update_of_ne hc]
        simp [hc]
    have hlist : (erasedState s h b n).list = s.list := if_neg hzero
    have hsub : ∀ x ∈ [(⟨b, n⟩ : Iterator)], x ∈ s.positions L.active := fun x hxs =>
      List.mem_singleton.mp hxs ▸ hx
    have hactive : L.active = L.active.filter fun c => (erasedState s h b n).mask c ≠ 0 :=
      (List.filter_eq_self.mpr fun c hc => decide_eq_true (by
        rw [hmask]
        by_cases hcb : c = b
        · rw [hcb, update_self]
          exact hzero
        · rw [update_of_ne hcb]
          exact hs.mask_active c hc)).symm
    have hnot : s.mask b &&& ~~~Mask.bit n ≠ full := fun heq => by
      have hclear := Mask.getLsbD_clear (m := s.mask b) (n := n) hlt
      rw [heq, Mask.eq_full_iff.mp rfl n hlt] at hclear
      simp at hclear
    by_cases hfull : s.mask b = full
    · have havail : (erasedState s h b n).available = s.available.linkAfter b h := by
        unfold erasedState
        simp only [if_neg hzero, if_pos hfull]
      have hring : b ∉ h :: (L.partly ++ L.reserved) := by
        intro hmem
        rcases List.mem_cons.mp hmem with heq | hmem
        · exact hs.ne_header hb heq.symm
        · rcases List.mem_append.mp hmem with hp | hp
          · exact ((hs.mem_partly b).mp hp).2 hfull
          · exact hs.notMem_reserved hb hp
      have hpartly : ∀ c, c ∈ b :: L.partly
          ↔ c ∈ L.active ∧ (erasedState s h b n).mask c ≠ full := fun c => by
        rw [hmask, List.mem_cons, hs.mem_partly]
        by_cases hc : c = b
        · rw [hc, update_self]
          exact ⟨fun _ => ⟨hb, hnot⟩, fun _ => Or.inl rfl⟩
        · rw [update_of_ne hc]
          exact or_iff_right hc
      have hl := hs.toLinked.write (t := erasedState s h b n) hb hzero hmask hlist
        (havail ▸ hs.ringAvailable.linkAfter_front hring) hpartly
      refine ⟨_, hs.removed hl hsub (List.nodup_singleton _) hactive (List.Perm.refl _) hbits rfl
        hslot rfl rfl rfl rfl rfl rfl ?_ ?_⟩
      · rw [hlist]
        exact fun _ _ => ⟨rfl, rfl⟩
      · rw [havail]
        refine hs.ringAvailable.linkAfter_front_agree hring fun c hc => ?_
        refine ⟨fun heq => hc.2 (List.mem_cons_of_mem h (List.mem_append_left _ (heq ▸ hb))),
          fun hmem => hc.2 ?_⟩
        rcases List.mem_cons.mp hmem with rfl | hmem
        · exact List.mem_cons_self
        · exact List.mem_cons_of_mem h (hs.toLinked.mem_blocks_of_available hmem)
    · have havail : (erasedState s h b n).available = s.available := by
        unfold erasedState
        simp only [if_neg hzero, if_neg hfull]
      have hpartly : ∀ c, c ∈ L.partly
          ↔ c ∈ L.active ∧ (erasedState s h b n).mask c ≠ full := fun c => by
        rw [hmask, hs.mem_partly]
        by_cases hc : c = b
        · rw [hc, update_self]
          exact ⟨fun _ => ⟨hb, hnot⟩, fun _ => ⟨hb, hfull⟩⟩
        · rw [update_of_ne hc]
      have hl := hs.toLinked.write (t := erasedState s h b n) hb hzero hmask hlist
        (havail ▸ hs.ringAvailable) hpartly
      refine ⟨_, hs.removed hl hsub (List.nodup_singleton _) hactive (List.Perm.refl _) hbits rfl
        hslot rfl rfl rfl rfl rfl rfl ?_ ?_⟩
      · rw [hlist]
        exact fun _ _ => ⟨rfl, rfl⟩
      · rw [havail]
        exact fun _ _ => ⟨rfl, rfl⟩

/-! ## One block -/

/-- Slots are compared by their chunks and their indices. -/
theorem lawfulBEq_slot : LawfulBEq (ℕ × ℕ) := inferInstance

attribute [local instance] lawfulBEq_slot in
/-- Memory without the elements in some slots of a chunk. -/
def clearedSlots (s : State α) (pd : ℕ) (ns : List ℕ) : State α :=
  { s with
    slot := fun p => if p ∈ ns.map (pd, ·) then none else s.slot p
    log := s.log ++ ns.map fun n => .destroy (pd, n) }

/-- The slots are cleared one after the other. -/
theorem clearedSlots_cons (s : State α) (pd n : ℕ) (ns : List ℕ) :
    clearedSlots { s with
      slot := update s.slot (pd, n) none
      log := s.log ++ [.destroy (pd, n)] } pd ns = clearedSlots s pd (n :: ns) := by
  unfold clearedSlots
  simp only [List.map_cons, List.append_assoc, List.singleton_append]
  congr 1
  funext p
  rw [update_apply]
  by_cases hp : p = (pd, n)
  · simp [hp]
  · simp [hp]

/-- The loop destroys the elements that the mask has. -/
theorem destroyLoop_run {pd : ℕ} (hm : m ≠ 0) (hr : (Mask.bits m).length ≤ rounds)
    (hsome : ∀ n ∈ Mask.bits m, (s.slot (pd, n)).isSome = true) :
    destroyLoop pd rounds m s = .done () (clearedSlots s pd (Mask.bits m)) := by
  induction rounds generalizing m s with
  | zero =>
    rw [Mask.bits_eq_cons hm] at hr
    exact absurd hr (Nat.not_succ_le_zero _)
  | succ rounds ih =>
    have hbits := Mask.bits_eq_cons hm
    have hnd := Mask.nodup_bits m
    rw [hbits] at hr hsome hnd
    have hdestroy : destroy (pd, Mask.countrZero m) s = .done () { s with
        slot := update s.slot (pd, Mask.countrZero m) none
        log := s.log ++ [.destroy (pd, Mask.countrZero m)] } :=
      if_pos (hsome _ List.mem_cons_self)
    rw [destroyLoop]
    dsimp only
    rw [Prog.bind_of_done hdestroy, hbits]
    by_cases hrest : m &&& (m - 1) = 0
    · rw [if_pos hrest, hrest, Mask.bits_zero, ← clearedSlots_cons]
      unfold clearedSlots
      simp only [List.map_nil, List.not_mem_nil, if_false, List.append_nil]
      rfl
    · rw [if_neg hrest, ih hrest (Nat.le_of_succ_le_succ hr), clearedSlots_cons]
      intro n hn
      have hne : (pd, n) ≠ (pd, Mask.countrZero m) := fun heq =>
        (List.nodup_cons.mp hnd).1 ((Prod.mk.inj heq).2 ▸ hn)
      show (update s.slot _ none (pd, n)).isSome = true
      rw [update_of_ne hne]
      exact hsome n (List.mem_cons_of_mem _ hn)

/-- **All elements of a block are destroyed**, whichever way is taken. -/
theorem destroyAllInNonemptyBlock_run (e : Env α) (hm : s.mask b ≠ 0)
    (hsome : ∀ n ∈ Mask.bits (s.mask b), (s.slot (s.data b, n)).isSome = true) :
    destroyAllInNonemptyBlock e b s
      = .done (Mask.popcount (s.mask b)) (clearedSlots s (s.data b) (Mask.bits (s.mask b))) := by
  unfold destroyAllInNonemptyBlock maskOf dataOf
  rw [Prog.gets_bind, Prog.gets_bind]
  by_cases htrivial : e.trivialDestructor = true
  · rw [if_pos htrivial]
    rfl
  · have hle : (Mask.bits (s.mask b)).length ≤ N := Mask.popcount_eq ▸ Mask.popcount_le
    rw [if_neg htrivial, Prog.bind_of_done (destroyLoop_run hm hle hsome)]
    rfl

/-- Memory after all elements of a block were erased. -/
def releasedState (s : State α) (h b : ℕ) : State α :=
  { clearedSlots s (s.data b) (Mask.bits (s.mask b)) with
    list := s.list.unlink b
    available := (Linked.withdrawn s b).linkBefore b h
    mask := update s.mask b 0
    size := update s.size h (s.size h - Mask.popcount (s.mask b)) }

/-- **A block is erased.** -/
theorem Shape.released_removed (hs : Shape s h L) (hactive : L.active = a₁ ++ b :: a₂) :
    Removed s h L (s.positions [b]) (releasedState s h b)
      ⟨a₁ ++ a₂, L.partly.filter (· ≠ b), L.reserved ++ [b]⟩ := by
  have hpos : s.positions [b] = (Mask.bits (s.mask b)).map (Iterator.mk b) := by
    rw [State.positions_cons, State.positions_nil, List.append_nil]
  refine hs.release hactive rfl rfl rfl rfl (fun p => ?_) ?_ rfl rfl rfl rfl ?_
  · rw [hpos, List.map_map]
    rfl
  · rw [hpos, List.map_map]
    rfl
  · rw [hpos, List.length_map, ← Mask.popcount_eq]
    rfl

/-- One round of the loop over blocks. -/
theorem eraseBlocks_succ (e : Env α) (hs : Shape s h L) (hb : b ∈ L.active) (lastPbb rounds : ℕ) :
    eraseBlocks e h lastPbb (rounds + 1) b s
      = (if s.list.next b ≠ lastPbb then eraseBlocks e h lastPbb rounds (s.list.next b)
        else pure (s.list.next b)) (releasedState s h b) := by
  have hsome : ∀ n ∈ Mask.bits (s.mask b), (s.slot (s.data b, n)).isSome = true := fun n hn =>
    hs.isSome_slotAt (x := ⟨b, n⟩) (State.mem_positions.mpr ⟨hb, Mask.mem_bits.mp hn⟩)
  have hrun := destroyAllInNonemptyBlock_run e (hs.mask_active b hb) hsome
  rw [eraseBlocks]
  unfold nextOf
  rw [Prog.gets_bind, Prog.bind_of_done hrun]
  have hmask : (clearedSlots s (s.data b) (Mask.bits (s.mask b))).mask b = s.mask b := rfl
  unfold releasedState Linked.withdrawn maskOf dropSize unlink unlinkAvailable linkAvailableAtBack
    setMask
  rw [Prog.modify_bind, Prog.modify_bind, Prog.gets_bind]
  dsimp only
  rw [hmask]
  by_cases hfull : s.mask b = full
  · rw [if_neg (not_not_intro hfull), if_pos hfull]
    rfl
  · rw [if_pos hfull, if_neg hfull]
    rfl

/-! ## The three loops -/

/-- **A range that begins where a block does.** -/
def BlockRange (s : State α) (h : ℕ) (L : Lists) (first last : Iterator) (xs : List Iterator) :
    Prop :=
  ∃ a₁ a₂ after, L.active = a₁ ++ a₂ ∧ s.positions a₂ = xs ++ after
    ∧ first = (xs ++ after).headD (endOf h) ∧ last = after.headD (endOf h)

theorem BlockRange.range (hr : BlockRange s h L first last xs) : Range s h L first last xs := by
  obtain ⟨a₁, a₂, after, hactive, hpos, hfirst, hlast⟩ := hr
  exact ⟨s.positions a₁, after, by rw [hactive, State.positions_append, hpos], hfirst, hlast⟩

/-- Where the positions of some blocks begin. -/
theorem Linked.headD_positions (hl : Linked s h L) {bs : List ℕ} (hne : ∀ b ∈ bs, s.mask b ≠ 0) :
    (s.positions bs).headD (endOf h) = s.atBlock (bs.headD h) := by
  cases bs with
  | nil => exact (State.atBlock_eq hl.bits_header).symm
  | cons b bs =>
    obtain ⟨n, ns, hbits⟩ := List.exists_cons_of_ne_nil
      (Mask.bits_eq_nil_iff.not.mpr (hne b List.mem_cons_self))
    rw [List.headD_cons, State.atBlock_eq hbits, State.positions_cons, hbits]
    rfl

/-- A block that loses nothing keeps its mask. -/
theorem Removed.mask_eq (r : Removed s h L gone t L') (hb : ∀ x ∈ gone, x.pbb ≠ b) :
    t.mask b = s.mask b :=
  Mask.eq_of_bits fun n _ => by
    have hnot : (⟨b, n⟩ : Iterator) ∉ gone := fun hmem => hb _ hmem rfl
    rw [r.mask, decide_eq_true hnot, Bool.and_true]

/-- **The first element of a range is erased**, and a shorter range is left. -/
theorem Shape.erase_step (hs : Shape s h L) (hr : Range s h L first last (x :: xs)) :
    ∃ t L', erase h first s = .done (s.increment first) t ∧ Removed s h L [x] t L'
      ∧ Range t h L' (s.increment first) last xs := by
  obtain ⟨before, after, hp, hfirst, hlast⟩ := hr
  obtain rfl : first = x := hfirst
  have hmem : first ∈ s.positions L.active := by
    rw [hp]
    exact List.mem_append_right _ List.mem_cons_self
  obtain ⟨L', hr⟩ := hs.eraseImpl_removed hmem
  refine ⟨_, L', ?_, hr, before, after, ?_, ?_, hlast⟩
  · unfold erase
    rw [Prog.gets_bind, Prog.bind_of_done (eraseImpl_run (hs.isSome_slotAt hmem))]
    rfl
  · exact hr.positions_middle hs hp
  · have hring := hs.iterators
    rw [hp, List.cons_append] at hring
    exact hring.next_member

/-- **The first loop** stops at the end of the range, or where another block begins. -/
theorem eraseFirst_run (hs : Shape s h L) (hr : Range s h L first last xs)
    (hlen : xs.length < rounds) (hpbb : xs ≠ [] → first.pbb = b) :
    ∃ gone rest it t L', xs = gone ++ rest ∧ eraseFirst h b last rounds first s = .done it t
      ∧ Removed s h L gone t L' ∧ Range t h L' it last rest
      ∧ (it = last ∨ BlockRange t h L' it last rest) := by
  induction xs generalizing s first L rounds with
  | nil =>
    obtain ⟨rounds, rfl⟩ : ∃ r, rounds = r + 1 := ⟨rounds - 1, by simp at hlen; omega⟩
    obtain ⟨before, after, -, hfirst, hlast⟩ := id hr
    have heq : first = last := hfirst.trans hlast.symm
    refine ⟨[], [], first, s, L, rfl, ?_, Removed.refl hs, hr, Or.inl heq⟩
    rw [eraseFirst, if_pos heq]
    rfl
  | cons x xs ih =>
    obtain ⟨rounds, rfl⟩ : ∃ r, rounds = r + 1 := ⟨rounds - 1, by simp at hlen; omega⟩
    obtain ⟨hx, hne⟩ := hs.range_ne hr
    obtain ⟨t, L', hrun, hremoved, hrange⟩ := hs.erase_step hr
    have hround : eraseFirst h b last (rounds + 1) first s
        = (if (s.increment first).pbb ≠ b then pure (s.increment first)
          else eraseFirst h b last rounds (s.increment first)) t := by
      rw [eraseFirst, if_neg (hx ▸ hne), Prog.bind_of_done hrun]
    rw [hround]
    by_cases hstay : (s.increment first).pbb = b
    · rw [if_neg (not_not_intro hstay)]
      obtain ⟨gone, rest, it, u, L'', rfl, hrun', hremoved', hrange', hend⟩ :=
        ih hremoved.shape hrange (Nat.lt_of_succ_lt_succ hlen) fun _ => hstay
      exact ⟨x :: gone, rest, it, u, L'', rfl, hrun', hremoved.trans hremoved', hrange', hend⟩
    · rw [if_pos hstay]
      refine ⟨[x], xs, _, t, L', rfl, rfl, hremoved, hrange, Or.inr ?_⟩
      have hxb : x.pbb = b := hx ▸ hpbb (List.cons_ne_nil x xs)
      obtain ⟨before, after, hp, -, hlast⟩ := hr
      rw [List.cons_append] at hp
      obtain ⟨a₁, a₂, n₁, n₂, hactive, hbits, -, hrest⟩ :=
        State.positions_split hs.ring.nodup_members hp
      have hinc : s.increment first = (xs ++ after).headD (endOf h) := by
        have hring := hs.iterators
        rw [hp] at hring
        exact hx ▸ hring.next_member
      cases n₂ with
      | cons n' n₂ =>
        rw [hinc, hrest] at hstay
        exact absurd hxb hstay
      | nil =>
        rw [List.map_nil, List.nil_append] at hrest
        have hnd := hs.ring.nodup_members
        rw [hactive] at hnd
        have hmask : ∀ c ∈ a₂, t.mask c = s.mask c := fun c hc =>
          hremoved.mask_eq fun y hy heq => by
            rw [List.mem_singleton.mp hy] at heq
            exact (List.nodup_middle.mp hnd).notMem (heq ▸ List.mem_append_right a₁ hc)
        refine ⟨(a₁ ++ [x.pbb]).filter fun c => t.mask c ≠ 0, a₂.filter fun c => t.mask c ≠ 0, after,
          ?_, ?_, hinc, hlast⟩
        · rw [hremoved.active, hactive, ← List.filter_append, List.append_assoc,
            List.singleton_append]
        · rw [State.positions_filter, State.positions_congr hmask, hrest]

/-- **A block of a range is erased**, where the range begins at it and ends in another. -/
theorem Shape.release_step (hs : Shape s h L) {bs : List ℕ} {after : List Iterator}
    (hactive : L.active = a₁ ++ b :: bs) (hpos : s.positions (b :: bs) = xs ++ after)
    (hlast : last = after.headD (endOf h)) (hne : b ≠ last.pbb) :
    ∃ rest L', xs = s.positions [b] ++ rest
      ∧ Removed s h L (s.positions [b]) (releasedState s h b) L' ∧ L'.active = a₁ ++ bs
      ∧ (releasedState s h b).positions bs = rest ++ after
      ∧ Range (releasedState s h b) h L' ((releasedState s h b).atBlock (bs.headD h)) last rest := by
  have hremoved := hs.released_removed hactive
  have hsplit : s.positions [b] ++ s.positions bs = xs ++ after := by
    rw [← hpos, ← State.positions_append]
    rfl
  obtain ⟨rest, hxs, hbs⟩ : ∃ rest, xs = s.positions [b] ++ rest ∧ s.positions bs = rest ++ after := by
    rcases List.append_eq_append_iff.mp hsplit with ⟨rest, hxs, hbs⟩ | ⟨p, hb, hafter⟩
    · exact ⟨rest, hxs, hbs⟩
    · cases p with
      | nil =>
        rw [List.append_nil] at hb
        exact ⟨[], by rw [hb, List.append_nil], hafter.symm⟩
      | cons y p =>
        have hy : y ∈ s.positions [b] := hb ▸ List.mem_append_right xs List.mem_cons_self
        rw [hafter, List.cons_append, List.headD_cons] at hlast
        rw [hlast] at hne
        exact absurd (List.mem_singleton.mp (State.mem_positions.mp hy).1).symm hne
  have hnd := hs.ring.nodup_members
  rw [hactive] at hnd
  have hkept : (releasedState s h b).positions bs = rest ++ after := by
    rw [← hbs]
    refine State.positions_congr fun c hc => hremoved.mask_eq fun y hy heq => ?_
    have hyb := List.mem_singleton.mp (State.mem_positions.mp hy).1
    exact (List.nodup_middle.mp hnd).notMem (heq.symm.trans hyb ▸ List.mem_append_right a₁ hc)
  refine ⟨rest, _, hxs, hremoved, rfl, hkept, (releasedState s h b).positions a₁, after, ?_, ?_,
    hlast⟩
  · rw [← hkept, ← State.positions_append]
  · rw [← hkept]
    exact (hremoved.shape.headD_positions fun c hc =>
      hremoved.shape.mask_active c (List.mem_append_right a₁ hc)).symm

/-- **The loop over blocks** stops at the block where the range ends. -/
theorem eraseBlocks_run (e : Env α) (hs : Shape s h L) {bs : List ℕ} {after : List Iterator}
    (hactive : L.active = a₁ ++ b :: bs) (hpos : s.positions (b :: bs) = xs ++ after)
    (hlast : last = after.headD (endOf h)) (hne : b ≠ last.pbb) (hlen : bs.length < rounds) :
    ∃ gone rest t L', xs = gone ++ rest ∧ eraseBlocks e h last.pbb rounds b s = .done last.pbb t
      ∧ Removed s h L gone t L' ∧ Range t h L' (t.atBlock last.pbb) last rest := by
  induction bs generalizing s L b rounds xs with
  | nil =>
    obtain ⟨rounds, rfl⟩ : ∃ r, rounds = r + 1 := ⟨rounds - 1, by omega⟩
    obtain ⟨rest, L', hxs, hremoved, -, hkept, hrange⟩ := hs.release_step hactive hpos hlast hne
    have hend : last.pbb = h := by
      rw [hlast, (List.append_eq_nil_iff.mp hkept.symm).2]
      rfl
    have hring := hs.ring
    rw [hactive] at hring
    refine ⟨_, rest, releasedState s h b, L', hxs, ?_, hremoved, hend ▸ hrange⟩
    rw [eraseBlocks_succ e hs (hactive ▸ List.mem_append_right a₁ List.mem_cons_self),
      hring.next_member, List.headD_nil, hend, if_neg (not_not_intro rfl)]
    rfl
  | cons c bs ih =>
    obtain ⟨rounds, rfl⟩ : ∃ r, rounds = r + 1 := ⟨rounds - 1, by omega⟩
    obtain ⟨rest, L', hxs, hremoved, hactive', hkept, hrange⟩ :=
      hs.release_step hactive hpos hlast hne
    have hring := hs.ring
    rw [hactive] at hring
    have hround := eraseBlocks_succ e hs (hactive ▸ List.mem_append_right a₁ List.mem_cons_self)
      last.pbb rounds
    rw [hring.next_member, List.headD_cons] at hround
    by_cases hc : c = last.pbb
    · refine ⟨_, rest, releasedState s h b, L', hxs, ?_, hremoved, hc ▸ hrange⟩
      rw [hround, if_neg (not_not_intro hc), hc]
      rfl
    · obtain ⟨gone, rest', t, L'', rfl, hrun, hremoved', hrange'⟩ :=
        ih hremoved.shape hactive' hkept hc (Nat.lt_of_succ_lt_succ hlen)
      refine ⟨_, rest', t, L'', ?_, ?_, hremoved.trans hremoved', hrange'⟩
      · rw [hxs, List.append_assoc]
      · rw [hround, if_pos hc, hrun]

/-- **The last loop** erases what is left of the range. -/
theorem eraseLast_run (hs : Shape s h L) (hr : Range s h L first last xs)
    (hlen : xs.length < rounds) :
    ∃ t L', eraseLast h last rounds first s = .done last t ∧ Removed s h L xs t L' := by
  induction xs generalizing s first L rounds with
  | nil =>
    obtain ⟨rounds, rfl⟩ : ∃ r, rounds = r + 1 := ⟨rounds - 1, by simp at hlen; omega⟩
    obtain ⟨before, after, -, hfirst, hlast⟩ := hr
    refine ⟨s, L, ?_, Removed.refl hs⟩
    rw [eraseLast, if_pos (hfirst.trans hlast.symm), hfirst.trans hlast.symm]
    rfl
  | cons x xs ih =>
    obtain ⟨rounds, rfl⟩ : ∃ r, rounds = r + 1 := ⟨rounds - 1, by simp at hlen; omega⟩
    obtain ⟨hx, hne⟩ := hs.range_ne hr
    obtain ⟨t, L', hrun, hremoved, hrange⟩ := hs.erase_step hr
    obtain ⟨u, L'', hrun', hremoved'⟩ := ih hremoved.shape hrange (Nat.lt_of_succ_lt_succ hlen)
    refine ⟨u, L'', ?_, hremoved.trans hremoved'⟩
    rw [eraseLast, if_neg (hx ▸ hne), Prog.bind_of_done hrun]
    exact hrun'

/-! ## The range -/

/-- There are rounds enough for every block and for every element. -/
theorem Shape.rounds_enough (hs : Shape s h L) (hr : Range s h L first last xs) :
    xs.length < s.rounds h ∧ L.active.length < s.rounds h := by
  obtain ⟨before, after, hp, -, -⟩ := hr
  have hlen : (s.positions L.active).length ≤ L.active.length * N := State.length_positions_le
  have hxs : xs.length ≤ (s.positions L.active).length := by
    rw [hp, List.length_append, List.length_append]
    omega
  have hblocks : L.active.length ≤ s.numBlocks h := by
    rw [hs.numBlocks, Lists.blocks, List.length_append]
    omega
  unfold State.rounds N at *
  omega

/-- **`erase` of a range** removes the elements of the range, and returns its end. -/
theorem eraseRange_run (e : Env α) (hs : Shape s h L) (hr : Range s h L first last xs) :
    ∃ t L', eraseRange e h first last s = .done last t ∧ Removed s h L xs t L' := by
  obtain ⟨hlen, hactive⟩ := hs.rounds_enough hr
  obtain ⟨gone, rest, it, t, L', rfl, hrun, hremoved, hrange, hend⟩ :=
    eraseFirst_run hs hr hlen fun _ => rfl
  rw [List.length_append] at hlen
  unfold eraseRange
  rw [Prog.gets_bind, Prog.bind_of_done hrun]
  by_cases hpbb : it.pbb = last.pbb
  · have hrest : rest.length < s.rounds h := by omega
    obtain ⟨u, L'', hrun', hremoved'⟩ := eraseLast_run hremoved.shape hrange hrest
    refine ⟨u, L'', ?_, hremoved.trans hremoved'⟩
    rw [if_neg (not_not_intro hpbb), Prog.pure_bind, Prog.bind_of_done hrun']
    rfl
  · obtain ⟨a₁, a₂, after, hsplit, hpos, hit, hlast⟩ :=
      hend.resolve_left fun heq => hpbb (congrArg Iterator.pbb heq)
    have hat : (t.positions a₂).headD (endOf h) = t.atBlock (a₂.headD h) :=
      hremoved.shape.headD_positions fun c hc =>
        hremoved.shape.mask_active c (hsplit ▸ List.mem_append_right a₁ hc)
    rw [hpos, ← hit] at hat
    cases a₂ with
    | nil =>
      obtain ⟨rfl, rfl⟩ := List.append_eq_nil_iff.mp hpos.symm
      exact absurd (congrArg Iterator.pbb (hit.trans hlast.symm)) hpbb
    | cons b bs =>
      have hb : it.pbb = b := congrArg Iterator.pbb hat
      have hlen' : bs.length < s.rounds h := by
        have hfewer : L'.active.length ≤ L.active.length := by
          rw [hremoved.active]
          exact List.length_filter_le _ _
        rw [hsplit, List.length_append, List.length_cons] at hfewer
        omega
      obtain ⟨gone', rest', u, M, rfl, hrun', hremoved', hrange'⟩ :=
        eraseBlocks_run e hremoved.shape hsplit hpos hlast (hb ▸ hpbb) hlen'
      rw [List.length_append] at hlen
      have hrest : rest'.length < s.rounds h := by omega
      obtain ⟨v, M', hrun'', hremoved''⟩ := eraseLast_run hremoved'.shape hrange' hrest
      refine ⟨v, M', ?_, ?_⟩
      · rw [if_pos hpbb, hb, Prog.bind_assoc, Prog.bind_of_done hrun', Prog.gets_bind,
          Prog.bind_of_done hrun'']
        rfl
      · exact hremoved.trans (hremoved'.trans hremoved'')

/-- **What it promises**: the elements of the range are destroyed, in order and nothing else;
all others stay in their slots and in their order. Blocks without elements are
reserved, and blocks that were full are available. The end of the range is still an
iterator to its element, or the end. -/
structure RangeErased (s : State α) (h : ℕ) (L : Lists) (last : Iterator) (xs : List Iterator)
    (t : State α) (L' : Lists) : Prop where
  shape : Shape t h L'
  log : t.log = s.log ++ xs.map fun x => .destroy (s.slotAt x)
  gone : ∀ x ∈ xs, t.slot (s.slotAt x) = none
  order : t.positions L'.active = (s.positions L.active).filter (· ∉ xs)
  kept : ∀ x ∈ t.positions L'.active,
    t.slotAt x = s.slotAt x ∧ t.slot (t.slotAt x) = s.slot (s.slotAt x)
  emptied : ∀ b ∈ L.active, t.mask b = 0 → b ∉ L'.active ∧ b ∈ L'.reserved
  available : ∀ b ∈ L.active, s.mask b = full → (∃ x ∈ xs, x.pbb = b) →
    b ∈ L'.partly ∨ b ∈ L'.reserved
  reserved : ∀ b ∈ L.reserved, b ∈ L'.reserved
  last : last = endOf h ∨ last ∈ t.positions L'.active
  frame : Frame s h L t L'

theorem Removed.rangeErased (r : Removed s h L xs t L') (hs : Shape s h L)
    (hr : Range s h L first last xs) : RangeErased s h L last xs t L' := by
  obtain ⟨before, after, hp, -, hlast⟩ := hr
  have hsub : ∀ x ∈ xs, x ∈ s.positions L.active := fun x hx => by
    rw [hp]
    exact List.mem_append_right _ (List.mem_append_left _ hx)
  have hblocks : ∀ b ∈ L.blocks, b ∈ L'.active ∨ b ∈ L'.reserved := fun b hb =>
    List.mem_append.mp (r.perm.mem_iff.mpr hb)
  have hactive : ∀ b ∈ L'.active, b ∈ L.active := fun b hb => by
    rw [r.active] at hb
    exact (List.mem_filter.mp hb).1
  refine ⟨r.shape, r.log, fun x hx => ?_, r.positions, fun x hx => ?_, fun b hb hzero => ?_,
    fun b hb hfull ⟨x, hx, hxb⟩ => ?_, fun b hb => ?_, ?_, r.frame⟩
  · rw [r.slot, if_pos (List.mem_map_of_mem hx)]
  · exact ⟨congrFun r.slotAt_eq x, r.slot_kept hs hsub hx⟩
  · have hnot : b ∉ L'.active := fun hmem => r.shape.mask_active b hmem hzero
    exact ⟨hnot, (hblocks b (List.mem_append_left _ hb)).resolve_left hnot⟩
  · refine (hblocks b (List.mem_append_left _ hb)).imp_left fun hmem => ?_
    refine (r.shape.mem_partly b).mpr ⟨hmem, fun heq => ?_⟩
    have hlost := r.mask b x.n
    have hin : (⟨b, x.n⟩ : Iterator) ∈ xs := hxb ▸ hx
    have hlt := BitVec.lt_of_getLsbD (State.mem_positions.mp (hsub x hx)).2
    rw [heq, Mask.eq_full_iff.mp rfl _ hlt, decide_eq_false (not_not_intro hin),
      Bool.and_false] at hlost
    exact Bool.false_ne_true hlost.symm
  · refine (hblocks b (List.mem_append_right _ hb)).resolve_left fun hmem => ?_
    exact hs.mask_active b (hactive b hmem) (hs.mask_reserved b hb)
  · rw [hlast]
    cases after with
    | nil => exact Or.inl rfl
    | cons y after =>
      refine Or.inr ?_
      rw [List.headD_cons, r.positions_middle hs hp]
      exact List.mem_append_right _ List.mem_cons_self

end Hub
