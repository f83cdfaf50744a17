import BoostContainer.Lib.SegmentWalks

/-!
# Work from both ends of a segmented sequence

Two positions walk towards each other, one in front and one behind, and something
is done with each pair they come to. Where the two are in different segments, a
segment of each side is worked on until one of them is used up, and that side takes
its next segment; once they are in one segment, it is worked on by itself.

What is done does not matter (`endsScan_yields`): where the work on two parts keeps
an invariant of the two positions and uses up one of the parts, the walk brings the
two together and keeps the invariant.
-/

/-! ## Pairs from both ends -/

/-- **So many pairs from both ends**: the first position goes up, the second down. -/
def endsRun {σ : Type*} (act : ℕ → ℕ → σ → Option σ) : ℕ → ℕ → ℕ → σ → Option σ
  | 0, _, _, s => some s
  | n + 1, f, l, s => (act f (l - 1) s).bind (endsRun act n (f + 1) (l - 1))

section EndsRun

variable {σ : Type*} {act : ℕ → ℕ → σ → Option σ} {n m f l : ℕ} {s t u : σ}

/-- **Some pairs, and then more.** -/
theorem endsRun_add (act : ℕ → ℕ → σ → Option σ) (n m f l : ℕ) (s : σ) :
    endsRun act (n + m) f l s = (endsRun act n f l s).bind (endsRun act m (f + n) (l - n)) := by
  induction n generalizing f l s with
  | zero =>
    rw [Nat.zero_add]
    rfl
  | succ n ih =>
    rw [Nat.succ_add, endsRun, endsRun, Option.bind_assoc]
    congr 1
    funext t
    rw [ih, Nat.add_assoc, Nat.add_comm 1 n, Nat.sub_sub, Nat.add_comm 1 n]

theorem endsRun_of_add (h : endsRun act n f l s = some t) :
    endsRun act (n + m) f l s = endsRun act m (f + n) (l - n) t := by
  rw [endsRun_add, h, Option.bind_some]

/-- Pairs that are all done are done up to each. -/
theorem exists_endsRun (hnm : n ≤ m) (h : endsRun act m f l s = some u) :
    ∃ t, endsRun act n f l s = some t ∧ endsRun act (m - n) (f + n) (l - n) t = some u := by
  rw [← Nat.add_sub_cancel' hnm, endsRun_add] at h
  obtain ⟨t, ht, hu⟩ := Option.bind_eq_some_iff.mp h
  exact ⟨t, ht, hu⟩

theorem endsRun_succ (h : endsRun act n f l s = some t) :
    endsRun act (n + 1) f l s = act (f + n) (l - n - 1) t := by
  rw [endsRun_of_add h, endsRun]
  exact Option.bind_fun_some _

end EndsRun

/-- Two positions, and what the work on them is about. -/
structure Ends (σ : Type*) where
  s : σ
  f : ℕ
  l : ℕ

/-- The two positions and their segments. -/
structure EndsTurn (σ : Type*) where
  fs : ℕ
  ls : ℕ
  ends : Ends σ

namespace Segmentation

variable {σ ρ : Type*}

/-! ## Two parts -/

/-- **Two ranges are worked on from both ends**, `[f, fEnd)` forward and `[lBeg, l)`
back, until one of them is used up. -/
def endsDisjoint (leaf : ℕ → ℕ → Ends σ → Option (Ends σ)) :
    (d : ℕ) → ℕ → Segmentation d → ℕ → Segmentation d → ℕ → ℕ → Ends σ → Option (Ends σ)
  | 0, _, _, _, _, fEnd, lBeg, e => leaf fEnd lBeg e
  | d + 1, oF, cF, oL, cL, fEnd, lBeg, e =>
    if e.f = fEnd ∨ e.l = lBeg then some e
    else Scan.loop (fun t : EndsTurn σ =>
      let fiEnd := if t.fs = segmentAt oF cF fEnd then fEnd else endAt oF cF t.fs
      let liBeg := if t.ls = segmentAt oL cL lBeg then lBeg else beginAt oL cL t.ls
      (endsDisjoint leaf d (beginAt oF cF t.fs) (cF.child t.fs) (beginAt oL cL t.ls)
        (cL.child t.ls) fiEnd liBeg t.ends).map (fun r =>
        -- the segment in front is used up, and it was the last
        if r.f = fiEnd ∧ t.fs = segmentAt oF cF fEnd then Scan.done ⟨r.s, fEnd, r.l⟩
        else
          let fs := if r.f = fiEnd then t.fs + 1 else t.fs
          let f := if r.f = fiEnd then beginAt oF cF (t.fs + 1) else r.f
          if r.l = liBeg then
            if t.ls = segmentAt oL cL lBeg then Scan.done ⟨r.s, f, lBeg⟩
            else Scan.more ⟨fs, t.ls - 1, ⟨r.s, f, endAt oL cL (t.ls - 1)⟩⟩
          else Scan.more ⟨fs, t.ls, ⟨r.s, f, r.l⟩⟩))
      (segmentAt oF cF fEnd - segmentAt oF cF e.f
        + (segmentAt oL cL e.l - segmentAt oL cL lBeg) + 1)
      ⟨segmentAt oF cF e.f, segmentAt oL cL e.l, e⟩

/-- Two positions have come nearer, and one has come to the end of its part. -/
structure UsedUp (fEnd lBeg : ℕ) (e r : Ends σ) : Prop where
  ge : e.f ≤ r.f
  le_end : r.f ≤ fEnd
  begin_le : lBeg ≤ r.l
  le : r.l ≤ e.l
  one : r.f = fEnd ∨ r.l = lBeg

/-- **The work on two parts uses up one of them**, and keeps an invariant, where the
one in front ends up to `F` and the one behind begins from `L` on. -/
def UsesUp (F L : ℕ) (I : Ends σ → Prop) (leaf : ℕ → ℕ → Ends σ → Option (Ends σ)) : Prop :=
  ∀ fEnd lBeg e, e.f ≤ fEnd → fEnd ≤ lBeg → lBeg ≤ e.l → fEnd ≤ F → L ≤ lBeg → I e →
    (leaf fEnd lBeg e).Yields (fun r => I r ∧ UsedUp fEnd lBeg e r)

section Walk

variable {I : Ends σ → Prop} {leaf : ℕ → ℕ → Ends σ → Option (Ends σ)}
  {F L fEnd lBeg : ℕ} {e : Ends σ}

theorem beginAt_add_one {d o k : ℕ} {c : Segmentation (d + 1)} :
    beginAt o c (k + 1) = endAt o c k := rfl

/-- A segment of a range, and how much of it is in the range. -/
structure FrontPart {d : ℕ} (o : ℕ) (c : Segmentation (d + 1)) (fEnd k f : ℕ) : Prop where
  seg : k ≤ segmentAt o c fEnd
  ge : beginAt o c k ≤ f
  le_end : f ≤ endAt o c k
  le : f ≤ fEnd

/-- The same from behind. -/
structure BackPart {d : ℕ} (o : ℕ) (c : Segmentation (d + 1)) (lBeg k l : ℕ) : Prop where
  seg : segmentAt o c lBeg ≤ k
  ge : beginAt o c k ≤ l
  le_end : l ≤ endAt o c k
  le : lBeg ≤ l

namespace FrontPart

variable {d o k f : ℕ} {c : Segmentation (d + 1)}

/-- Where the part of a segment ends that is in the range. -/
theorem part (h : FrontPart o c fEnd k f) (ho : o ≤ fEnd) (hend : fEnd ≤ o + size (d + 1) c)
    {x : ℕ} (hx : (if k = segmentAt o c fEnd then fEnd else endAt o c k) = x) :
    f ≤ x ∧ x ≤ fEnd ∧ x ≤ endAt o c k := by
  subst hx
  split
  · next heq => exact ⟨h.le, le_rfl, heq ▸ le_endAt_segmentAt hend⟩
  · next hne =>
    exact ⟨h.le_end, (endAt_le_beginAt (lt_of_le_of_ne h.seg hne)).trans
      (beginAt_segmentAt_le ho), le_rfl⟩

/-- **The next segment is taken** where a segment is used up that is not the last. -/
theorem next (h : FrontPart o c fEnd k f) {x : ℕ} (hx : x ≤ fEnd) (hne : k ≠ segmentAt o c fEnd)
    (hend : x = endAt o c k) : FrontPart o c fEnd (k + 1) x where
  seg := lt_of_le_of_ne h.seg hne
  ge := hend.ge
  le_end := hend ▸ beginAt_le_endAt o c (k + 1)
  le := hx

end FrontPart

namespace BackPart

variable {d o k l : ℕ} {c : Segmentation (d + 1)}

theorem part (h : BackPart o c lBeg k l) (ho : o ≤ lBeg) (hend : lBeg ≤ o + size (d + 1) c)
    {x : ℕ} (hx : (if k = segmentAt o c lBeg then lBeg else beginAt o c k) = x) :
    x ≤ l ∧ lBeg ≤ x ∧ beginAt o c k ≤ x := by
  subst hx
  split
  · next heq => exact ⟨h.le, le_rfl, heq ▸ beginAt_segmentAt_le ho⟩
  · next hne =>
    exact ⟨h.ge, (le_endAt_segmentAt hend).trans
      (endAt_le_beginAt (lt_of_le_of_ne h.seg (Ne.symm hne))), le_rfl⟩

/-- **The segment before is taken** where a segment is used up that is not the
first. -/
theorem prev (h : BackPart o c lBeg k l) {x : ℕ} (hx : lBeg ≤ x) (hne : k ≠ segmentAt o c lBeg)
    (hbeg : x = beginAt o c k) : endAt o c (k - 1) = x ∧ BackPart o c lBeg (k - 1) x := by
  have hlt : segmentAt o c lBeg < k := lt_of_le_of_ne h.seg (Ne.symm hne)
  have hpred : k - 1 + 1 = k := by omega
  have hend : endAt o c (k - 1) = x := by rw [← beginAt_add_one, hpred, hbeg]
  exact ⟨hend, Nat.le_sub_one_of_lt hlt, (beginAt_le_endAt o c _).trans hend.le, hend.ge, hx⟩

end BackPart

/-- **Two ranges that are cut are worked on until one is used up.** -/
theorem endsDisjoint_yields (hleaf : UsesUp F L I leaf) {d oF oL : ℕ} {cF cL : Segmentation d}
    (hoF : oF ≤ e.f) (hf : e.f ≤ fEnd) (hFend : fEnd ≤ oF + size d cF) (hfl : fEnd ≤ lBeg)
    (hoL : oL ≤ lBeg) (hl : lBeg ≤ e.l) (hLend : e.l ≤ oL + size d cL) (hF : fEnd ≤ F)
    (hL : L ≤ lBeg) (hI : I e) :
    (endsDisjoint leaf d oF cF oL cL fEnd lBeg e).Yields (fun r =>
      I r ∧ UsedUp fEnd lBeg e r) := by
  induction d generalizing oF oL e fEnd lBeg with
  | zero => exact hleaf fEnd lBeg e hf hfl hl hF hL hI
  | succ d ih =>
    rw [endsDisjoint]
    split
    · next hnone => exact Option.yields_some ⟨hI, le_rfl, hf, hl, le_rfl, hnone⟩
    · next hsome =>
      refine Scan.loop_yields
        (fun t => segmentAt oF cF fEnd - t.fs + (t.ls - segmentAt oL cL lBeg))
        (I := fun t => I t.ends ∧ (e.f ≤ t.ends.f ∧ t.ends.l ≤ e.l)
          ∧ FrontPart oF cF fEnd t.fs t.ends.f ∧ BackPart oL cL lBeg t.ls t.ends.l) ?_
        (Nat.lt_succ_self _) ?_
      · rintro t ⟨hIt, ⟨hge, hle⟩, hfront, hback⟩
        obtain ⟨fiEnd, hfiEnd⟩ : ∃ x,
            (if t.fs = segmentAt oF cF fEnd then fEnd else endAt oF cF t.fs) = x := ⟨_, rfl⟩
        obtain ⟨liBeg, hliBeg⟩ : ∃ x,
            (if t.ls = segmentAt oL cL lBeg then lBeg else beginAt oL cL t.ls) = x := ⟨_, rfl⟩
        obtain ⟨hfi, hfiEnd', hfiSize⟩ := hfront.part (hoF.trans hf) hFend hfiEnd
        obtain ⟨hli, hliBeg', hliSize⟩ := hback.part hoL (hl.trans hLend) hliBeg
        simp only [hfiEnd, hliBeg]
        refine (ih hfront.ge hfi ?_ (by omega) hliSize hli ?_ (hfiEnd'.trans hF)
          (hL.trans hliBeg') hIt).map ?_
        · rwa [beginAt_add_size]
        · rw [beginAt_add_size]
          exact hback.le_end
        · rintro ⟨s, f, l⟩ ⟨hIr, hgef, hf', hl', hgel, hdone⟩
          simp only at hf' hl' hdone hgef hgel ⊢
          have hlBeg : lBeg ≤ l := hliBeg'.trans hl'
          have hfEnd : f ≤ fEnd := hf'.trans hfiEnd'
          have hends : e.f ≤ f ∧ l ≤ e.l := ⟨hge.trans hgef, hgel.trans hle⟩
          split
          · next hend =>
            have hfend : f = fEnd := by rw [hend.1, ← hfiEnd, if_pos hend.2]
            exact ⟨hfend ▸ hIr, hfend ▸ hends.1, le_rfl, hlBeg, hends.2, Or.inl rfl⟩
          · next hnot =>
            obtain ⟨fs', hfs', hfront', hturn, hfsle⟩ : ∃ k,
                (if f = fiEnd then t.fs + 1 else t.fs) = k ∧ FrontPart oF cF fEnd k f
                ∧ (f = fiEnd → k = t.fs + 1) ∧ t.fs ≤ k := by
              refine ⟨_, rfl, ?_⟩
              split
              · next heq =>
                have hne : t.fs ≠ segmentAt oF cF fEnd := fun h => hnot ⟨heq, h⟩
                exact ⟨hfront.next hfEnd hne (by rw [heq, ← hfiEnd, if_neg hne]), fun _ => rfl,
                  Nat.le_succ _⟩
              · next hne =>
                exact ⟨⟨hfront.seg, hfront.ge.trans hgef, hf'.trans hfiSize, hfEnd⟩,
                  fun h => absurd h hne, le_rfl⟩
            have hfi' : (if f = fiEnd then beginAt oF cF (t.fs + 1) else f) = f := by
              split
              · next heq =>
                have hne : t.fs ≠ segmentAt oF cF fEnd := fun h => hnot ⟨heq, h⟩
                rw [beginAt_add_one, heq, ← hfiEnd, if_neg hne]
              · rfl
            have hfs := hfront'.seg
            rw [hfs', hfi']
            split
            · next hbeg =>
              split
              · next hlast =>
                have hlbeg : l = lBeg := by rw [hbeg, ← hliBeg, if_pos hlast]
                exact ⟨hlbeg ▸ hIr, hends.1, hfEnd, le_rfl, hlbeg ▸ hends.2, Or.inr rfl⟩
              · next hne =>
                obtain ⟨hl'', hback'⟩ := hback.prev hlBeg hne (by rw [hbeg, ← hliBeg, if_neg hne])
                have hseg := hback.seg
                rw [hl'']
                exact ⟨⟨hIr, hends, hfront', hback'⟩, by simp only; omega⟩
            · next hne =>
              have hk := hturn (hdone.resolve_right hne)
              exact ⟨⟨hIr, hends, hfront', hback.seg, hliSize.trans hl', hgel.trans hback.le_end,
                hlBeg⟩, by simp only; omega⟩
      · exact ⟨hI, ⟨le_rfl, le_rfl⟩, ⟨segmentAt_mono oF cF hf, beginAt_segmentAt_le hoF,
          le_endAt_segmentAt (hf.trans hFend), hf⟩, segmentAt_mono oL cL hl,
          beginAt_segmentAt_le (hoL.trans hl), le_endAt_segmentAt hLend, hl⟩

end Walk

/-! ## One range -/

/-- **A range is worked on from both ends.** The two positions meet in one segment,
which is then worked on by itself, or between two. -/
def endsScan (leaf : ℕ → ℕ → Ends σ → Option (Ends σ)) (flat : Ends σ → Option ρ)
    (stop : Ends σ → ρ) : (d : ℕ) → ℕ → Segmentation d → Ends σ → Option ρ
  | 0, _, _, e => flat e
  | d + 1, o, c, e =>
    let sf := segmentAt o c e.f
    let sl := segmentAt o c e.l
    if sf = sl then endsScan leaf flat stop d (beginAt o c sf) (c.child sf) e
    else (Scan.loop (fun t : EndsTurn σ =>
      (endsDisjoint leaf d (beginAt o c t.fs) (c.child t.fs) (beginAt o c t.ls) (c.child t.ls)
        (endAt o c t.fs) (beginAt o c t.ls) t.ends).map (fun r =>
        if r.l = beginAt o c t.ls then
          if r.f = endAt o c t.fs ∧ t.fs + 1 = t.ls then Scan.done (Scan.done (stop r))
          else
            let fs := if r.f = endAt o c t.fs then t.fs + 1 else t.fs
            let f := if r.f = endAt o c t.fs then beginAt o c (t.fs + 1) else r.f
            if fs = t.ls - 1 then
              Scan.done (Scan.more (EndsTurn.mk fs (t.ls - 1) ⟨r.s, f, endAt o c fs⟩))
            else Scan.more (EndsTurn.mk fs (t.ls - 1) ⟨r.s, f, endAt o c (t.ls - 1)⟩)
        else if t.fs + 1 = t.ls then
          Scan.done (Scan.more (EndsTurn.mk (t.fs + 1) t.ls ⟨r.s, beginAt o c t.ls, r.l⟩))
        else Scan.more (EndsTurn.mk (t.fs + 1) t.ls ⟨r.s, beginAt o c (t.fs + 1), r.l⟩)))
      (sl - sf + 1) ⟨sf, sl, e⟩).bind (fun x => match x with
        | .done r => some r
        | .more t => endsScan leaf flat stop d (beginAt o c t.fs) (c.child t.fs) t.ends)

section Walk

variable {I : Ends σ → Prop} {leaf : ℕ → ℕ → Ends σ → Option (Ends σ)} {J : ρ → Prop}
  {flat : Ends σ → Option ρ} {stop : Ends σ → ρ} {e : Ends σ}

/-- **The two positions come together**, and what the work keeps is left. -/
theorem endsScan_yields (hleaf : ∀ F L, UsesUp F L I leaf)
    (hflat : ∀ e, e.f ≤ e.l → I e → (flat e).Yields J)
    (hstop : ∀ e, e.f = e.l → I e → J (stop e)) {d o : ℕ} {c : Segmentation d} (ho : o ≤ e.f)
    (hle : e.f ≤ e.l) (hsize : e.l ≤ o + size d c) (hI : I e) :
    (endsScan leaf flat stop d o c e).Yields J := by
  induction d generalizing o e with
  | zero => exact hflat e hle hI
  | succ d ih =>
    have hbf := beginAt_segmentAt_le (c := c) ho
    have hbl := beginAt_segmentAt_le (c := c) (ho.trans hle)
    have hef := le_endAt_segmentAt (hle.trans hsize)
    have hel := le_endAt_segmentAt hsize
    rw [endsScan]
    simp only
    split
    · next heq =>
      refine ih hbf hle ?_ hI
      rw [heq, beginAt_add_size]
      exact hel
    · next hne =>
      have hlt : segmentAt o c e.f < segmentAt o c e.l :=
        lt_of_le_of_ne (segmentAt_mono o c hle) hne
      refine Option.Yields.bind (Q := Scan.Ends
        (fun t => I t.ends ∧ beginAt o c t.fs ≤ t.ends.f ∧ t.ends.f ≤ t.ends.l
          ∧ t.ends.l ≤ endAt o c t.fs) J) ?_ (fun x hx => ?_)
      · refine Scan.loop_yields (fun t => t.ls - t.fs)
          (I := fun t => I t.ends ∧ t.fs < t.ls
            ∧ (beginAt o c t.fs ≤ t.ends.f ∧ t.ends.f ≤ endAt o c t.fs)
            ∧ beginAt o c t.ls ≤ t.ends.l ∧ t.ends.l ≤ endAt o c t.ls) ?_ (Nat.lt_succ_self _)
          ⟨hI, hlt, ⟨hbf, hef⟩, hbl, hel⟩
        rintro t ⟨hIt, ht, ⟨hbf, hef⟩, hbl, hel⟩
        have hcut := endAt_le_beginAt (o := o) (c := c) ht
        refine (endsDisjoint_yields (hleaf _ _) hbf hef (by rw [beginAt_add_size]) hcut le_rfl hbl
          (by rwa [beginAt_add_size]) le_rfl le_rfl hIt).map ?_
        rintro ⟨s, f, l⟩ ⟨hIr, hgef, hf', hl', hgel, hdone⟩
        simp only at hf' hl' hdone hgef hgel ⊢
        split
        · next hbeg =>
          split
          · next hmeet =>
            exact hstop _ (by rw [hmeet.1, ← beginAt_add_one, hmeet.2, hbeg]) hIr
          · next hnot =>
            have hpred : t.ls - 1 + 1 = t.ls := by omega
            have hback : endAt o c (t.ls - 1) = l := by rw [← beginAt_add_one, hpred, hbeg]
            obtain ⟨fs', hfs', hfsle, hbf', hfe'⟩ : ∃ k,
                (if f = endAt o c t.fs then t.fs + 1 else t.fs) = k
                ∧ (t.fs ≤ k ∧ k < t.ls) ∧ beginAt o c k ≤ f ∧ f ≤ endAt o c k := by
              refine ⟨_, rfl, ?_⟩
              split
              · next hend =>
                have hlt' : t.fs + 1 < t.ls := lt_of_le_of_ne ht (fun h => hnot ⟨hend, h⟩)
                refine ⟨⟨Nat.le_succ _, hlt'⟩, ?_, ?_⟩
                · rw [beginAt_add_one, hend]
                · rw [hend, ← beginAt_add_one]
                  exact beginAt_le_endAt o c _
              · next hend => exact ⟨⟨le_rfl, ht⟩, hbf.trans hgef, hf'⟩
            have hfi' : (if f = endAt o c t.fs then beginAt o c (t.fs + 1) else f) = f := by
              split
              · next hend => rw [beginAt_add_one, hend]
              · rfl
            rw [hfs', hfi']
            split
            · next hsame =>
              have hend : endAt o c fs' = l := by rw [hsame, hback]
              rw [hend]
              exact ⟨hIr, hbf', hf'.trans (hcut.trans hl'), hend.ge⟩
            · next hdiff =>
              rw [hback]
              refine ⟨⟨hIr, by simp only; omega, ⟨hbf', hfe'⟩, ?_, hback.ge⟩,
                by simp only; omega⟩
              exact (beginAt_le_endAt o c _).trans hback.le
        · next hne =>
          have hend : f = endAt o c t.fs := hdone.resolve_right hne
          split
          · next hnext =>
            have hbeg : beginAt o c t.ls = f := by rw [← hnext, beginAt_add_one, hend]
            rw [hbeg]
            refine ⟨hIr, ?_, hf'.trans (hcut.trans hl'), ?_⟩
            · rw [beginAt_add_one, hend]
            · rw [hnext]
              exact hgel.trans hel
          · next hdiff =>
            rw [beginAt_add_one, ← hend]
            refine ⟨⟨hIr, by simp only; omega, ⟨?_, ?_⟩, hl', hgel.trans hel⟩,
              by simp only; omega⟩
            · rw [beginAt_add_one, hend]
            · rw [hend, ← beginAt_add_one]
              exact beginAt_le_endAt o c _
      · cases x with
        | done r => exact Option.yields_some hx
        | more t =>
          obtain ⟨hIt, hbeg, hle', hend⟩ := hx
          refine ih hbeg hle' ?_ hIt
          rwa [beginAt_add_size]

end Walk

end Segmentation
