import BoostContainer.Hub.HubErase
import BoostContainer.Hub.HubEmplace

/-!
# One call on one of several hubs

A call on a hub changes its own blocks and no others, and it loses nothing: what is
allocated afterwards was allocated before and belongs to others, or it belongs to the hub;
and so it is with the elements. Calls compose.

Several hubs live in one memory. They are told apart by their headers, they share no
block, and every block, every chunk and every element there is belongs to one of
them. A call on one of them leaves that so.
-/

open Function

namespace Hub

variable {α : Type}

/-- **A hub becomes another**, and all else stays as it is. -/
structure Becomes (s : State α) (h : ℕ) (L : Lists) (t : State α) (L' : Lists) : Prop where
  shape : Shape t h L'
  frame : Frame s h L t L'
  /-- No block is lost. -/
  blocks : ∀ b, t.blocks b = true → s.blocks b = true ∧ b ∉ L.blocks ∨ b ∈ L'.blocks
  /-- No chunk is lost. -/
  chunks : ∀ c, t.chunks c = true →
    s.chunks c = true ∧ (∀ a ∈ L.blocks, s.data a ≠ c) ∨ ∃ a ∈ L'.blocks, t.data a = c
  /-- No element is lost. -/
  live : ∀ c, ∀ n < N, (t.slot (c, n)).isSome = true →
    (s.slot (c, n)).isSome = true ∧ (∀ a ∈ L.blocks, s.data a ≠ c) ∨ ∃ a ∈ L'.blocks, t.data a = c

section

variable {s t u : State α} {h : ℕ} {L L' L'' : Lists} {gone : List Iterator}

namespace Becomes

theorem refl (hs : Shape s h L) : Becomes s h L s L where
  shape := hs
  frame := Frame.refl s h L
  blocks _ hb := or_iff_not_imp_right.mpr fun hnot => ⟨hb, hnot⟩
  chunks _ hc := or_iff_not_imp_right.mpr fun hnot =>
    ⟨hc, fun a ha heq => hnot ⟨a, ha, heq⟩⟩
  live _ _ _ hlive := or_iff_not_imp_right.mpr fun hnot =>
    ⟨hlive, fun a ha heq => hnot ⟨a, ha, heq⟩⟩

theorem trans (k : Becomes s h L t L') (k' : Becomes t h L' u L'') : Becomes s h L u L'' where
  shape := k'.shape
  frame := k.frame.trans k'.frame
  blocks b hb := (k'.blocks b hb).imp_left fun ⟨hold, hnot⟩ =>
    (k.blocks b hold).resolve_right hnot
  chunks c hc := (k'.chunks c hc).imp_left fun ⟨hold, hnot⟩ =>
    (k.chunks c hold).resolve_right fun ⟨a, ha, heq⟩ => hnot a ha heq
  live c n hn hlive := (k'.live c n hn hlive).imp_left fun ⟨hold, hnot⟩ =>
    (k.live c n hn hold).resolve_right fun ⟨a, ha, heq⟩ => hnot a ha heq

end Becomes

/-- **Elements are removed.** -/
theorem Removed.becomes (r : Removed s h L gone t L') : Becomes s h L t L' := by
  have hdata : ∀ {c : ℕ}, ¬ (∃ a ∈ L'.blocks, t.data a = c) → ∀ a ∈ L.blocks, s.data a ≠ c :=
    fun hnot a ha heq => hnot ⟨a, r.perm.mem_iff.mpr ha, (congrFun r.data a).trans heq⟩
  refine ⟨r.shape, r.frame, fun b hb => ?_, fun c hc => ?_, fun c n _ hlive => ?_⟩
  · refine or_iff_not_imp_right.mpr fun hnot => ⟨r.blocks ▸ hb, fun hmem => hnot ?_⟩
    exact r.perm.mem_iff.mpr hmem
  · exact or_iff_not_imp_right.mpr fun hnot => ⟨r.chunks ▸ hc, hdata hnot⟩
  · refine or_iff_not_imp_right.mpr fun hnot => ⟨?_, hdata hnot⟩
    rw [r.slot] at hlive
    split at hlive
    · cases hlive
    · exact hlive

/-- **Nothing happened**, and no element came from nowhere. -/
theorem Unchanged.becomes (k : Unchanged s t) (hs : Shape s h L)
    (hlive : ∀ p, (t.slot p).isSome = true → (s.slot p).isSome = true) : Becomes s h L t L := by
  have hblock : ∀ b ∈ L.blocks, s.blocks b = true := hs.stored.block
  have hdata : ∀ {c : ℕ}, ¬ (∃ a ∈ L.blocks, t.data a = c) → ∀ a ∈ L.blocks, s.data a ≠ c :=
    fun hnot a ha heq => hnot ⟨a, ha, (k.data a (hblock a ha)).trans heq⟩
  refine ⟨k.shape hs, ?_, fun b hb => ?_, fun c hc => ?_, fun c n _ hl => ?_⟩
  · exact
      { list := fun b _ => by
          rw [k.list]
          exact ⟨rfl, rfl⟩
        available := fun b hb => k.available b hb.1
        block := fun b hb => ⟨k.blocks ▸ hb.1, k.mask b hb.1, k.data b hb.1⟩
        slot := fun c hc _ => ⟨k.chunks ▸ hc, fun n => k.slot c hc n⟩
        counters := fun g _ => ⟨congrFun k.numBlocks g, congrFun k.size g⟩
        header := fun hh => k.blocks ▸ hh
        grown := fun b hb => Or.inl hb
        data := fun b hb => Or.inl ⟨b, hb, k.data b (hblock b hb)⟩ }
  · exact or_iff_not_imp_right.mpr fun hnot => ⟨k.blocks ▸ hb, hnot⟩
  · exact or_iff_not_imp_right.mpr fun hnot => ⟨k.chunks ▸ hc, hdata hnot⟩
  · exact or_iff_not_imp_right.mpr fun hnot => ⟨hlive _ hl, hdata hnot⟩

end

/-! ## Several hubs -/

/-- **Several hubs** in one memory, each by its header. -/
structure Hubs (s : State α) (hubs : ℕ → Option Lists) : Prop where
  shape : ∀ h L, hubs h = some L → Shape s h L
  apart : ∀ h L g M, hubs h = some L → hubs g = some M → h ≠ g → Apart s h L g M
  blocks : ∀ b, s.blocks b = true → ∃ h L, hubs h = some L ∧ b ∈ h :: L.blocks
  chunks : ∀ c, s.chunks c = true → ∃ h L, hubs h = some L ∧ ∃ b ∈ L.blocks, s.data b = c
  live : ∀ c, ∀ n < N, (s.slot (c, n)).isSome = true →
    ∃ h L, hubs h = some L ∧ ∃ b ∈ L.blocks, s.data b = c

section

variable {s t : State α} {h g : ℕ} {L L' M : Lists} {hubs : ℕ → Option Lists}

/-- Two hubs stay apart when one of them becomes another. -/
theorem Frame.apart (f : Frame s h L t L') (hy : Shape s g M) (ha : Apart s h L g M) :
    Apart t h L' g M := by
  have hused : ∀ b ∈ g :: M.blocks, s.blocks b = true := fun b hb =>
    (List.mem_cons.mp hb).elim (fun heq => heq ▸ hy.header) (hy.stored.block b)
  constructor
  · intro b hb hm
    rcases List.mem_cons.mp hm with rfl | hm
    · exact ha.blocks b hb List.mem_cons_self
    · rcases f.grown b hm with hold | hnew
      · exact ha.blocks b hb (List.mem_cons_of_mem h hold)
      · rw [hused b hb] at hnew
        cases hnew
  · intro b hb a hm heq
    have hkept := (f.block b (hy.mem_others ha (List.mem_cons_of_mem g hb))).2.2
    rw [hkept] at heq
    rcases f.data a hm with ⟨a', ha', hdata⟩ | hnew
    · exact ha.data b hb a' ha' (hdata.symm.trans heq)
    · rw [heq, hy.stored.chunk b hb] at hnew
      cases hnew

theorem Apart.symm (ha : Apart s h L g M) : Apart s g M h L where
  blocks b hb hm := ha.blocks b hm hb
  data b hb a hm heq := ha.data a hm b hb heq.symm

namespace Hubs

/-- **One hub becomes another**, and the others stay what they are. -/
theorem update (k : Hubs s hubs) (hh : hubs h = some L) (step : Becomes s h L t L') :
    Hubs t (update hubs h (some L')) := by
  have hother : ∀ {g M}, g ≠ h → Function.update hubs h (some L') g = some M →
      hubs g = some M ∧ Apart s h L g M ∧ Shape s g M := fun {g M} hg heq => by
    rw [update_of_ne hg] at heq
    exact ⟨heq, k.apart h L g M hh heq hg.symm, k.shape g M heq⟩
  have hself : ∀ {M}, Function.update hubs h (some L') h = some M → M = L' := fun heq => by
    rw [update_self] at heq
    exact (Option.some.inj heq).symm
  refine ⟨fun g M heq => ?_, fun g M g' M' heq heq' hne => ?_, fun b hb => ?_, fun c hc => ?_,
    fun c n hn hlive => ?_⟩
  · by_cases hg : g = h
    · subst hg
      exact hself heq ▸ step.shape
    · obtain ⟨-, hapart, hshape⟩ := hother hg heq
      exact hshape.frame hapart step.frame
  · by_cases hg : g = h
    · subst hg
      obtain ⟨-, hapart, hshape⟩ := hother hne.symm heq'
      exact hself heq ▸ step.frame.apart hshape hapart
    · obtain ⟨hold, hapart, hshape⟩ := hother hg heq
      by_cases hg' : g' = h
      · subst hg'
        exact hself heq' ▸ (step.frame.apart hshape hapart).symm
      · obtain ⟨hold', hapart', hshape'⟩ := hother hg' heq'
        have hold'' := k.apart g M g' M' hold hold' hne
        refine ⟨hold''.blocks, fun b hb a ha => ?_⟩
        have hb' := (step.frame.block b
          (hshape'.mem_others hapart' (List.mem_cons_of_mem g' hb))).2.2
        have ha' := (step.frame.block a
          (hshape.mem_others hapart (List.mem_cons_of_mem g ha))).2.2
        rw [ha', hb']
        exact hold''.data b hb a ha
  · rcases step.blocks b hb with ⟨hold, hnot⟩ | hnew
    · obtain ⟨g, M, hg, hmem⟩ := k.blocks b hold
      by_cases hgh : g = h
      · subst hgh
        obtain rfl := Option.some.inj (hg.symm.trans hh)
        rcases List.mem_cons.mp hmem with rfl | hmem
        · exact ⟨b, L', update_self _ _ _, List.mem_cons_self⟩
        · exact absurd hmem hnot
      · exact ⟨g, M, by rw [update_of_ne hgh, hg], hmem⟩
    · exact ⟨h, L', update_self _ _ _, List.mem_cons_of_mem h hnew⟩
  · rcases step.chunks c hc with ⟨hold, hnot⟩ | hnew
    · obtain ⟨g, M, hg, b, hb, hdata⟩ := k.chunks c hold
      have hgh : g ≠ h := by
        rintro rfl
        obtain rfl := Option.some.inj (hg.symm.trans hh)
        exact hnot b hb hdata
      have heq : Function.update hubs h (some L') g = some M := by rw [update_of_ne hgh, hg]
      obtain ⟨-, hapart, hshape⟩ := hother hgh heq
      have hkept := (step.frame.block b
        (hshape.mem_others hapart (List.mem_cons_of_mem g hb))).2.2
      exact ⟨g, M, heq, b, hb, hkept.trans hdata⟩
    · exact ⟨h, L', update_self _ _ _, hnew⟩
  · rcases step.live c n hn hlive with ⟨hold, hnot⟩ | hnew
    · obtain ⟨g, M, hg, b, hb, hdata⟩ := k.live c n hn hold
      have hgh : g ≠ h := by
        rintro rfl
        obtain rfl := Option.some.inj (hg.symm.trans hh)
        exact hnot b hb hdata
      have heq : Function.update hubs h (some L') g = some M := by rw [update_of_ne hgh, hg]
      obtain ⟨-, hapart, hshape⟩ := hother hgh heq
      have hkept := (step.frame.block b
        (hshape.mem_others hapart (List.mem_cons_of_mem g hb))).2.2
      exact ⟨g, M, heq, b, hb, hkept.trans hdata⟩
    · exact ⟨h, L', update_self _ _ _, hnew⟩

end Hubs

/-! ## Blocks that go from one hub to another -/

/-- **A hub where nothing it reads has changed.** -/
theorem Shape.congr (hs : Shape s h L)
    (hlist : Links.AgreeOn {b | b ∈ h :: L.blocks} s.list t.list)
    (havail : Links.AgreeOn {b | b ∈ h :: L.blocks} s.available t.available)
    (hmask : ∀ b ∈ h :: L.blocks, t.mask b = s.mask b)
    (hdata : ∀ b ∈ h :: L.blocks, t.data b = s.data b)
    (hblocks : ∀ b ∈ h :: L.blocks, t.blocks b = s.blocks b)
    (hchunks : ∀ b ∈ L.blocks, t.chunks (s.data b) = s.chunks (s.data b))
    (hslot : ∀ b ∈ L.blocks, ∀ n, t.slot (s.data b, n) = s.slot (s.data b, n))
    (hnum : t.numBlocks h = s.numBlocks h) (hsize : t.size h = s.size h) : Shape t h L := by
  have hin : ∀ b ∈ L.blocks, b ∈ h :: L.blocks := fun b hb => List.mem_cons_of_mem h hb
  have hactive : ∀ b ∈ L.active, b ∈ h :: L.blocks := fun b hb =>
    hin b (List.mem_append_left _ hb)
  exact
    { ring := hs.ring.congr fun b hb => hlist b ((List.mem_cons.mp hb).elim
        (fun heq => heq ▸ List.mem_cons_self) (hactive b))
      ringAvailable := hs.ringAvailable.congr fun b hb => havail b ((List.mem_cons.mp hb).elim
        (fun heq => heq ▸ List.mem_cons_self) fun hb => (List.mem_append.mp hb).elim
          (fun hb => hactive b ((hs.mem_partly b).mp hb).1)
          fun hb => hin b (List.mem_append_right _ hb))
      mask_header := (hmask h List.mem_cons_self).trans hs.mask_header
      mask_active := fun b hb => hmask b (hactive b hb) ▸ hs.mask_active b hb
      mem_partly := fun b => (hs.mem_partly b).trans
        (and_congr_right fun hb => by rw [hmask b (hactive b hb)])
      mask_reserved := fun b hb =>
        (hmask b (hin b (List.mem_append_right _ hb))).trans (hs.mask_reserved b hb)
      stored :=
        { block := fun b hb => (hblocks b (hin b hb)).trans (hs.stored.block b hb)
          chunk := fun b hb => by
            rw [hdata b (hin b hb), hchunks b hb]
            exact hs.stored.chunk b hb
          data_inj := fun b hb b' hb' heq => by
            rw [hdata b (hin b hb), hdata b' (hin b' hb')] at heq
            exact hs.stored.data_inj b hb b' hb' heq
          isSome := fun b hb n hn => by
            rw [hdata b (hin b hb), hmask b (hin b hb), hslot b hb n]
            exact hs.stored.isSome b hb n hn }
      header := (hblocks h List.mem_cons_self).trans hs.header
      numBlocks := hnum.trans hs.numBlocks
      size := by
        rw [hsize, hs.size, State.positions_congr fun b hb => hmask b (hactive b hb)] }

/-- **Two hubs hand blocks to each other**, and no element is touched. -/
structure Handed (s : State α) (h : ℕ) (L : Lists) (g : ℕ) (M : Lists) (t : State α)
    (L' M' : Lists) : Prop where
  left : Shape t h L'
  right : Shape t g M'
  perm : (L'.blocks ++ M'.blocks).Perm (L.blocks ++ M.blocks)
  mask : ∀ b, s.blocks b = true → t.mask b = s.mask b
  data : ∀ b, s.blocks b = true → t.data b = s.data b
  slot : t.slot = s.slot
  blocks : t.blocks = s.blocks
  chunks : t.chunks = s.chunks
  log : t.log = s.log
  list : Links.AgreeOn (others s h L ∩ others s g M) s.list t.list
  available : Links.AgreeOn (others s h L ∩ others s g M) s.available t.available
  counters : ∀ k, k ≠ h → k ≠ g → t.numBlocks k = s.numBlocks k ∧ t.size k = s.size k

namespace Handed

variable {L'' M' M'' K : Lists} {k : ℕ}

theorem refl (hx : Shape s h L) (hy : Shape s g M) : Handed s h L g M s L M where
  left := hx
  right := hy
  perm := List.Perm.refl _
  mask _ _ := rfl
  data _ _ := rfl
  slot := rfl
  blocks := rfl
  chunks := rfl
  log := rfl
  list _ _ := ⟨rfl, rfl⟩
  available _ _ := ⟨rfl, rfl⟩
  counters _ _ _ := ⟨rfl, rfl⟩

theorem mem_left (k : Handed s h L g M t L' M') {b : ℕ} (hb : b ∈ L'.blocks) :
    b ∈ L.blocks ∨ b ∈ M.blocks :=
  List.mem_append.mp (k.perm.mem_iff.mp (List.mem_append_left _ hb))

theorem mem_right (k : Handed s h L g M t L' M') {b : ℕ} (hb : b ∈ M'.blocks) :
    b ∈ L.blocks ∨ b ∈ M.blocks :=
  List.mem_append.mp (k.perm.mem_iff.mp (List.mem_append_right _ hb))

theorem others_subset (k : Handed s h L g M t L' M') {b : ℕ}
    (hb : b ∈ others s h L ∩ others s g M) : b ∈ others t h L' ∩ others t g M' := by
  obtain ⟨⟨hused, hnot⟩, -, hnot'⟩ := hb
  rw [List.mem_cons, not_or] at hnot hnot'
  refine ⟨⟨k.blocks ▸ hused, fun hmem => ?_⟩, k.blocks ▸ hused, fun hmem => ?_⟩
  · exact (List.mem_cons.mp hmem).elim hnot.1 fun hmem => (k.mem_left hmem).elim hnot.2 hnot'.2
  · exact (List.mem_cons.mp hmem).elim hnot'.1 fun hmem => (k.mem_right hmem).elim hnot.2 hnot'.2

theorem trans (k : Handed s h L g M t L' M') (k' : Handed t h L' g M' u L'' M'') :
    Handed s h L g M u L'' M'' where
  left := k'.left
  right := k'.right
  perm := k'.perm.trans k.perm
  mask b hb := (k'.mask b (k.blocks ▸ hb)).trans (k.mask b hb)
  data b hb := (k'.data b (k.blocks ▸ hb)).trans (k.data b hb)
  slot := k'.slot.trans k.slot
  blocks := k'.blocks.trans k.blocks
  chunks := k'.chunks.trans k.chunks
  log := k'.log.trans k.log
  list b hb :=
    ⟨(k'.list b (k.others_subset hb)).1.trans (k.list b hb).1,
      (k'.list b (k.others_subset hb)).2.trans (k.list b hb).2⟩
  available b hb :=
    ⟨(k'.available b (k.others_subset hb)).1.trans (k.available b hb).1,
      (k'.available b (k.others_subset hb)).2.trans (k.available b hb).2⟩
  counters i hi hi' :=
    ⟨(k'.counters i hi hi').1.trans (k.counters i hi hi').1,
      (k'.counters i hi hi').2.trans (k.counters i hi hi').2⟩

/-- A third hub does not notice. -/
theorem shape_other (i : Handed s h L g M t L' M') (hk : Shape s k K) (ha : Apart s h L k K)
    (ha' : Apart s g M k K) : Shape t k K := by
  have hused : ∀ b ∈ k :: K.blocks, s.blocks b = true := fun b hb =>
    (List.mem_cons.mp hb).elim (fun heq => heq ▸ hk.header) (hk.stored.block b)
  have hin : ∀ b ∈ k :: K.blocks, b ∈ others s h L ∩ others s g M := fun b hb =>
    ⟨hk.mem_others ha hb, hk.mem_others ha' hb⟩
  have hne : k ≠ h := fun heq => ha.blocks k List.mem_cons_self (heq ▸ List.mem_cons_self)
  have hne' : k ≠ g := fun heq => ha'.blocks k List.mem_cons_self (heq ▸ List.mem_cons_self)
  refine hk.congr (fun b hb => i.list b (hin b hb)) (fun b hb => i.available b (hin b hb))
    (fun b hb => i.mask b (hused b hb)) (fun b hb => i.data b (hused b hb)) (fun b _ => ?_)
    (fun b _ => ?_) (fun b _ n => ?_) (i.counters k hne hne').1 (i.counters k hne hne').2
  · rw [i.blocks]
  · rw [i.chunks]
  · rw [i.slot]

theorem data_left (i : Handed s h L g M t L' M') (hx : Shape s h L) (hy : Shape s g M) {b : ℕ}
    (hb : b ∈ L'.blocks) : t.data b = s.data b :=
  i.data b ((i.mem_left hb).elim (hx.stored.block b) (hy.stored.block b))

theorem data_right (i : Handed s h L g M t L' M') (hx : Shape s h L) (hy : Shape s g M) {b : ℕ}
    (hb : b ∈ M'.blocks) : t.data b = s.data b :=
  i.data b ((i.mem_right hb).elim (hx.stored.block b) (hy.stored.block b))

/-- They stay apart from a third hub. -/
theorem apart_other (i : Handed s h L g M t L' M') (hx : Shape s h L) (hy : Shape s g M)
    (hk : Shape s k K) (ha : Apart s h L k K) (ha' : Apart s g M k K) :
    Apart t h L' k K ∧ Apart t g M' k K := by
  have hdata : ∀ b ∈ K.blocks, t.data b = s.data b := fun b hb => i.data b (hk.stored.block b hb)
  have hblocks : ∀ b ∈ k :: K.blocks, b ∉ L.blocks ∧ b ∉ M.blocks := fun b hb =>
    ⟨fun hm => ha.blocks b hb (List.mem_cons_of_mem h hm),
      fun hm => ha'.blocks b hb (List.mem_cons_of_mem g hm)⟩
  have hapart : ∀ b ∈ K.blocks, ∀ a, a ∈ L.blocks ∨ a ∈ M.blocks → s.data a ≠ s.data b :=
    fun b hb a hm => hm.elim (ha.data b hb a) (ha'.data b hb a)
  refine ⟨⟨fun b hb hm => ?_, fun b hb a hm => ?_⟩, ⟨fun b hb hm => ?_, fun b hb a hm => ?_⟩⟩
  · rcases List.mem_cons.mp hm with rfl | hm
    · exact ha.blocks b hb List.mem_cons_self
    · exact (i.mem_left hm).elim (hblocks b hb).1 (hblocks b hb).2
  · rw [i.data_left hx hy hm, hdata b hb]
    exact hapart b hb a (i.mem_left hm)
  · rcases List.mem_cons.mp hm with rfl | hm
    · exact ha'.blocks b hb List.mem_cons_self
    · exact (i.mem_right hm).elim (hblocks b hb).1 (hblocks b hb).2
  · rw [i.data_right hx hy hm, hdata b hb]
    exact hapart b hb a (i.mem_right hm)

/-- And from each other. -/
theorem apart (i : Handed s h L g M t L' M') (hx : Shape s h L) (hy : Shape s g M)
    (ha : Apart s h L g M) : Apart t h L' g M' := by
  have hnd : (L'.blocks ++ M'.blocks).Nodup := i.perm.nodup_iff.mpr
    (List.nodup_append.mpr ⟨hx.nodup_blocks, hy.nodup_blocks, fun a ha' b hb heq =>
      ha.blocks b (List.mem_cons_of_mem g hb) (List.mem_cons_of_mem h (heq ▸ ha'))⟩)
  have hdisj := (List.nodup_append.mp hnd).2.2
  have hinj : ∀ a b, a ∈ L.blocks ∨ a ∈ M.blocks → b ∈ L.blocks ∨ b ∈ M.blocks →
      s.data a = s.data b → a = b := by
    rintro a b (ha₁ | ha₁) (hb₁ | hb₁) heq
    · exact hx.stored.data_inj a ha₁ b hb₁ heq
    · exact absurd heq (ha.data b hb₁ a ha₁)
    · exact absurd heq.symm (ha.data a ha₁ b hb₁)
    · exact hy.stored.data_inj a ha₁ b hb₁ heq
  refine ⟨fun b hb hm => ?_, fun b hb a hm heq => ?_⟩
  · rcases List.mem_cons.mp hb with rfl | hb <;> rcases List.mem_cons.mp hm with rfl | hm
    · exact ha.blocks b List.mem_cons_self List.mem_cons_self
    · exact (i.mem_left hm).elim
        (fun hl => ha.blocks b List.mem_cons_self (List.mem_cons_of_mem h hl)) hy.header_notMem
    · exact (i.mem_right hb).elim hx.header_notMem fun hr =>
        ha.blocks b (List.mem_cons_of_mem g hr) List.mem_cons_self
    · exact hdisj b hm b hb rfl
  · rw [i.data_left hx hy hm, i.data_right hx hy hb] at heq
    exact hdisj a hm b hb (hinj a b (i.mem_left hm) (i.mem_right hb) heq)

end Handed

namespace Hubs

/-- **Two hubs hand blocks to each other**, and the others stay what they are. -/
theorem hand {M' : Lists} (k : Hubs s hubs) (hh : hubs h = some L) (hg : hubs g = some M)
    (hne : h ≠ g) (i : Handed s h L g M t L' M') :
    Hubs t (Function.update (Function.update hubs h (some L')) g (some M')) := by
  have hx := k.shape h L hh
  have hy := k.shape g M hg
  have ha := k.apart h L g M hh hg hne
  have hleft : Function.update (Function.update hubs h (some L')) g (some M') h = some L' := by
    rw [update_of_ne hne, update_self]
  have hright : Function.update (Function.update hubs h (some L')) g (some M') g = some M' :=
    update_self _ _ _
  have hother : ∀ {j}, j ≠ h → j ≠ g →
      Function.update (Function.update hubs h (some L')) g (some M') j = hubs j := fun hj hj' => by
    rw [update_of_ne hj', update_of_ne hj]
  -- Who has a block afterwards.
  have howner : ∀ j K b, hubs j = some K → b ∈ K.blocks → ∃ j' K',
      Function.update (Function.update hubs h (some L')) g (some M') j' = some K'
        ∧ b ∈ K'.blocks := by
    intro j K b hj hb
    have hmem : b ∈ L.blocks ∨ b ∈ M.blocks → b ∈ L'.blocks ∨ b ∈ M'.blocks := fun hb =>
      List.mem_append.mp (i.perm.mem_iff.mpr (List.mem_append.mpr hb))
    by_cases hjh : j = h
    · obtain rfl := Option.some.inj ((hjh ▸ hj).symm.trans hh)
      exact (hmem (Or.inl hb)).elim (fun hb => ⟨h, L', hleft, hb⟩) fun hb => ⟨g, M', hright, hb⟩
    · by_cases hjg : j = g
      · obtain rfl := Option.some.inj ((hjg ▸ hj).symm.trans hg)
        exact (hmem (Or.inr hb)).elim (fun hb => ⟨h, L', hleft, hb⟩) fun hb => ⟨g, M', hright, hb⟩
      · exact ⟨j, K, (hother hjh hjg).trans hj, hb⟩
  have hdata : ∀ j K b, hubs j = some K → b ∈ K.blocks → t.data b = s.data b := fun j K b hj hb =>
    i.data b ((k.shape j K hj).stored.block b hb)
  have hchunk : ∀ c, (∃ j K, hubs j = some K ∧ ∃ b ∈ K.blocks, s.data b = c) → ∃ j' K',
      Function.update (Function.update hubs h (some L')) g (some M') j' = some K'
        ∧ ∃ b ∈ K'.blocks, t.data b = c := by
    rintro c ⟨j, K, hj, b, hb, hc⟩
    obtain ⟨j', K', hj', hb'⟩ := howner j K b hj hb
    exact ⟨j', K', hj', b, hb', (hdata j K b hj hb).trans hc⟩
  have hcases : ∀ j K, Function.update (Function.update hubs h (some L')) g (some M') j = some K →
      j = h ∧ K = L' ∨ j = g ∧ K = M' ∨ (j ≠ h ∧ j ≠ g) ∧ hubs j = some K := by
    intro j K hj
    by_cases hjg : j = g
    · exact Or.inr (Or.inl ⟨hjg, Option.some.inj ((hjg ▸ hj).symm.trans hright)⟩)
    · by_cases hjh : j = h
      · exact Or.inl ⟨hjh, Option.some.inj ((hjh ▸ hj).symm.trans hleft)⟩
      · exact Or.inr (Or.inr ⟨⟨hjh, hjg⟩, (hother hjh hjg).symm.trans hj⟩)
  have hthird : ∀ j K, j ≠ h ∧ j ≠ g → hubs j = some K → Shape t j K
      ∧ Apart t h L' j K ∧ Apart t g M' j K := fun j K hj heq => by
    have hhj := k.apart h L j K hh heq (Ne.symm hj.1)
    have hgj := k.apart g M j K hg heq (Ne.symm hj.2)
    exact ⟨i.shape_other (k.shape j K heq) hhj hgj, i.apart_other hx hy (k.shape j K heq) hhj hgj⟩
  refine ⟨fun j K hj => ?_, fun j K j' K' hj hj' hjj => ?_, fun b hb => ?_, fun c hc => ?_,
    fun c n hn hlive => ?_⟩
  · rcases hcases j K hj with ⟨rfl, rfl⟩ | ⟨rfl, rfl⟩ | ⟨hjn, hj⟩
    · exact i.left
    · exact i.right
    · exact (hthird j K hjn hj).1
  · have hself := i.apart hx hy ha
    rcases hcases j K hj with ⟨rfl, rfl⟩ | ⟨rfl, rfl⟩ | ⟨hjn, hold⟩ <;>
      rcases hcases j' K' hj' with ⟨rfl, rfl⟩ | ⟨rfl, rfl⟩ | ⟨hjn', hold'⟩
    · exact absurd rfl hjj
    · exact hself
    · exact (hthird j' K' hjn' hold').2.1
    · exact hself.symm
    · exact absurd rfl hjj
    · exact (hthird j' K' hjn' hold').2.2
    · exact (hthird j K hjn hold).2.1.symm
    · exact (hthird j K hjn hold).2.2.symm
    · have hapart := k.apart j K j' K' hold hold' hjj
      refine ⟨hapart.blocks, fun b hb a hm => ?_⟩
      rw [hdata j K a hold hm, hdata j' K' b hold' hb]
      exact hapart.data b hb a hm
  · obtain ⟨j, K, hj, hmem⟩ := k.blocks b (i.blocks ▸ hb)
    rcases List.mem_cons.mp hmem with rfl | hmem
    · by_cases hjg : b = g
      · exact ⟨g, M', hright, hjg ▸ List.mem_cons_self⟩
      · by_cases hjh : b = h
        · exact ⟨h, L', hleft, hjh ▸ List.mem_cons_self⟩
        · exact ⟨b, K, (hother hjh hjg).trans hj, List.mem_cons_self⟩
    · obtain ⟨j', K', hj', hb'⟩ := howner j K b hj hmem
      exact ⟨j', K', hj', List.mem_cons_of_mem j' hb'⟩
  · exact hchunk c (k.chunks c (i.chunks ▸ hc))
  · exact hchunk c (k.live c n hn (i.slot ▸ hlive))

end Hubs

end

end Hub
