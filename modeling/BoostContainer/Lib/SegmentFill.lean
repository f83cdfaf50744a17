import BoostContainer.Lib.SegmentWalks

/-!
# Work that fills segments

A worker writes at one position after the other. What it writes to is cut into
segments, so it is given a part of a segment at a time, and stops where the part
is full or its work is done; then the next segment is taken.

What the work is does not matter. Where the worker makes, of all it has to do,
as much as there is room for, and stops at the end of a part only if there is
more to write, it is taken through the segments to the end of its work
(`fillOn_yields`).
-/

namespace Segmentation

variable {σ : Type*}

/-- **A worker**: where it writes next, how it is put somewhere else, and whether
its work is done. -/
structure Worker (σ : Type*) where
  pos : σ → ℕ
  setPos : ℕ → σ → σ
  finished : σ → Bool

/-- **A part of a sequence is filled**: the segments of the part, until the work is
done. -/
def fillTo (W : Worker σ) (work : Option ℕ → σ → Option σ) :
    (d : ℕ) → ℕ → Segmentation d → ℕ → σ → Option σ
  | 0, _, _, stop, s => work (some stop) s
  | d + 1, o, c, stop, s =>
    (walkAt o c (W.pos s) stop (fun k a b s =>
      (fillTo W work d (beginAt o c k) (c.child k) b (W.setPos a s)).map (fun s =>
        if W.finished s then Scan.done s else Scan.more s)) s).map Scan.result

/-- **A sequence is filled from a position on**, until the work is done. A sequence
that is not cut is one part without end. -/
def fillOn (W : Worker σ) (work : Option ℕ → σ → Option σ) (idle : σ → Bool) :
    (d : ℕ) → ℕ → Segmentation d → σ → Option σ
  | 0, _, _, s => work none s
  | d + 1, o, c, s =>
    if idle s then some s
    else walkOnAt o c (W.pos s) (fun k a b s =>
      (fillTo W work d (beginAt o c k) (c.child k) b (W.setPos a s)).map (fun s =>
        if W.finished s then Scan.done s else Scan.more s)) s

/-- **A segment at the bottom**, from `a` to `b`, of a sequence that begins at `o`. -/
def Leaf : (d : ℕ) → ℕ → Segmentation d → ℕ → ℕ → Prop
  | 0, o, n, a, b => a = o ∧ b = o + size 0 n
  | d + 1, o, c, a, b => ∃ k, Leaf d (beginAt o c k) (c.child k) a b

theorem Leaf.le {d o a b : ℕ} {c : Segmentation d} (h : Leaf d o c a b) :
    o ≤ a ∧ a ≤ b ∧ b ≤ o + size d c := by
  induction d generalizing o with
  | zero =>
    obtain ⟨rfl, rfl⟩ := h
    exact ⟨le_rfl, Nat.le_add_right _ _, le_rfl⟩
  | succ d ih =>
    obtain ⟨k, hk⟩ := h
    have hle := ih hk
    rw [beginAt_add_size] at hle
    exact ⟨(le_beginAt o c k).trans hle.1, hle.2.1, hle.2.2.trans (endAt_le o c k)⟩

/-- Segments at the bottom come one after the other. -/
theorem Leaf.eq_or_le {d o a b a' b' : ℕ} {c : Segmentation d} (h : Leaf d o c a b)
    (h' : Leaf d o c a' b') : a = a' ∧ b = b' ∨ b ≤ a' ∨ b' ≤ a := by
  induction d generalizing o with
  | zero =>
    obtain ⟨rfl, rfl⟩ := h
    obtain ⟨rfl, rfl⟩ := h'
    exact Or.inl ⟨rfl, rfl⟩
  | succ d ih =>
    obtain ⟨k, hk⟩ := h
    obtain ⟨k', hk'⟩ := h'
    have hle := hk.le
    have hle' := hk'.le
    rw [beginAt_add_size] at hle hle'
    rcases Nat.lt_trichotomy k k' with hlt | rfl | hlt
    · exact Or.inr (Or.inl (hle.2.2.trans ((endAt_le_beginAt hlt).trans hle'.1)))
    · exact ih hk hk'
    · exact Or.inr (Or.inr (hle'.2.2.trans ((endAt_le_beginAt hlt).trans hle.1)))

/-- **What a worker has to do for it**: to get on, by steps `T` that keep `I`, and to
stop at the end of a part only with its work done or more to write before
`lim`. The parts it is given end with a segment that `fits`, and begin with it or
at `first`; and only at `first` its work may be done before. -/
structure Works (W : Worker σ) (work : Option ℕ → σ → Option σ) (first : ℕ)
    (fits : ℕ → ℕ → Prop) (I : σ → Prop) (T : σ → σ → Prop) (lim : ℕ) : Prop where
  refl : ∀ s, T s s
  trans : ∀ {s t u}, T s t → T t u → T s u
  keeps : ∀ {s t}, T s t → I s → I t
  setPos : ∀ s, W.setPos (W.pos s) s = s
  le_lim : ∀ {s}, I s → W.pos s ≤ lim
  work : ∀ {s stop}, I s → W.finished s = false ∨ W.pos s = first →
    (∀ e, stop = some e → W.pos s ≤ e ∧ ∃ a, fits a e ∧ a ≤ W.pos s ∧ (W.pos s = a ∨ W.pos s = first)) →
    (work stop s).Yields (fun s' => T s s' ∧ (∀ e, stop = some e → W.pos s' ≤ e)
      ∧ (W.finished s' = true ∨ stop = some (W.pos s') ∧ W.pos s' < lim))

/-- A position is in a segment of a sequence that is cut. -/
def HasSegment : (d : ℕ) → Segmentation d → Prop
  | 0, _ => True
  | _ + 1, c => c.sizes ≠ []

section Works

variable {W : Worker σ} {work : Option ℕ → σ → Option σ} {fits : ℕ → ℕ → Prop} {I : σ → Prop}
  {T : σ → σ → Prop} {first lim d o : ℕ} {c : Segmentation d} {s : σ}

/-- **A part that is cut is filled as one that is not.** -/
theorem fillTo_yields (h : Works W work first fits I T lim)
    (hfits : ∀ a b, Leaf d o c a b → fits a b) (hs : I s) (ho : o ≤ W.pos s)
    (hgo : W.finished s = false ∨ W.pos s = first) (hbegin : W.pos s = o ∨ W.pos s = first)
    (hpos : W.pos s ≤ o + size d c) :
    (fillTo W work d o c (o + size d c) s).Yields (fun s' => T s s' ∧ W.pos s' ≤ o + size d c
      ∧ (W.finished s' = true ∨ W.pos s' = o + size d c ∧ W.pos s' < lim)) := by
  induction d generalizing o s with
  | zero =>
    refine (h.work hs hgo ?_).imp (fun s' hs' => ?_)
    · intro e he
      obtain rfl := Option.some.inj he
      exact ⟨hpos, o, hfits _ _ ⟨rfl, rfl⟩, ho, hbegin⟩
    · refine ⟨hs'.1, hs'.2.1 _ rfl, hs'.2.2.imp_right (fun hend => ?_)⟩
      exact ⟨(Option.some.inj hend.1).symm, hend.2⟩
  | succ d ih =>
    refine (walkAt_yields_rest
      (P := fun q t => T s t ∧ W.pos t = q ∧ (W.finished t = false ∨ W.pos t = first))
      (R := fun q t => (T s t ∧ W.pos t = q ∧ (W.finished t = false ∨ W.pos t = first))
        ∧ W.pos t < lim)
      (Q := fun t => T s t ∧ W.pos t ≤ o + size (d + 1) c ∧ W.finished t = true)
      (fun _ _ h => h.1) ho hpos ?_ ⟨h.refl s, rfl, hgo⟩).map ?_
    · rintro k a t hka hak hpart - ⟨hst, rfl, hgo'⟩
      rw [h.setPos, ← beginAt_add_size]
      refine (ih (fun a b hab => hfits a b ⟨k, hab⟩) (h.keeps hst hs) hka hgo' ?_ ?_).map
        (fun t' ht' => ?_)
      · -- a part that begins with the whole begins with its segment
        have := le_beginAt o c k
        omega
      · rwa [beginAt_add_size]
      · obtain ⟨htt', hle, hstop⟩ := ht'
        have hend := endAt_le o c k
        rw [beginAt_add_size] at hle hstop ⊢
        by_cases hfin : W.finished t' = true
        · rw [if_pos hfin]
          exact ⟨h.trans hst htt', hle.trans hend, hfin⟩
        · rw [if_neg hfin]
          obtain ⟨hpos', hlt⟩ := hstop.resolve_left hfin
          exact ⟨⟨h.trans hst htt', hpos', Or.inl (eq_false_of_ne_true hfin)⟩, hlt⟩
    · intro e he
      cases e with
      | more t => exact ⟨he.1.1, he.1.2.1.le, Or.inr ⟨he.1.2.1, he.2⟩⟩
      | done t => exact ⟨he.1, he.2.1, Or.inl he.2.2⟩

/-- **A sequence is filled, whatever its segments are, and the work is done.** -/
theorem fillOn_yields {idle : σ → Bool} (h : Works W work first fits I T lim)
    (hfits : 0 < d → ∀ a b, Leaf d o c a b → fits a b) (hs : I s) (hfirst : W.pos s = first)
    (hidle : idle s = true → W.finished s = true) (ho : o ≤ W.pos s)
    (hroom : 0 < d → lim ≤ o + size d c) (hseg : HasSegment d c) :
    (fillOn W work idle d o c s).Yields (fun s' => T s s' ∧ W.finished s' = true) := by
  cases d with
  | zero =>
    have hnone : ∀ e, (none : Option ℕ) = some e → W.pos s ≤ e
        ∧ ∃ a, fits a e ∧ a ≤ W.pos s ∧ (W.pos s = a ∨ W.pos s = first) :=
      fun e he => nomatch he
    refine (h.work hs (Or.inr hfirst) hnone).imp (fun s' hs' => ⟨hs'.1, ?_⟩)
    exact hs'.2.2.resolve_right (fun hend => nomatch hend.1)
  | succ d =>
    rw [fillOn]
    split
    · next hi => exact Option.yields_some ⟨h.refl s, hidle hi⟩
    · have hlim := hroom (Nat.succ_pos d)
      refine walkOnAt_yields
        (P := fun q t => T s t ∧ W.pos t = q ∧ (W.finished t = false ∨ W.pos t = first)) ho
        ((h.le_lim hs).trans hlim) hseg ?_ ⟨h.refl s, rfl, Or.inr hfirst⟩
      rintro k a t hka hak hpart ⟨hst, rfl, hgo⟩
      rw [h.setPos, ← beginAt_add_size]
      refine (fillTo_yields h (fun a b hab => hfits (Nat.succ_pos d) a b ⟨k, hab⟩)
        (h.keeps hst hs) hka hgo (hfirst ▸ hpart) ?_).map (fun t' ht' => ?_)
      · rwa [beginAt_add_size]
      · obtain ⟨htt', hle, hstop⟩ := ht'
        rw [beginAt_add_size] at hle hstop ⊢
        by_cases hfin : W.finished t' = true
        · rw [if_pos hfin]
          exact ⟨h.trans hst htt', hfin⟩
        · rw [if_neg hfin]
          obtain ⟨hend, hlt⟩ := hstop.resolve_left hfin
          exact ⟨hend ▸ hlt.trans_le hlim, h.trans hst htt', hend,
            Or.inl (eq_false_of_ne_true hfin)⟩

end Works

/-! ## From one part to the next -/

/-- **What the work on a part keeps**: what held where it began holds at the end of the
part, or its answer is as it should be. The parts are segments at the bottom, or
what is left of the one that holds `first`. -/
def Carries (W : Worker σ) (work : Option ℕ → σ → Option σ) (first lim : ℕ)
    (fits : ℕ → ℕ → Prop) (P : ℕ → σ → Prop) (Q : σ → Prop) : Prop :=
  ∀ a b p s, fits a b → a ≤ p → p ≤ b → p = a ∨ p = first → first ≤ p →
    (p = first → first < b ∨ lim ≤ first) → W.pos s = p → P p s →
    (work (some b) s).Yields (fun t => if W.finished t = true then Q t else P b t)

section Carries

variable {W : Worker σ} {work : Option ℕ → σ → Option σ} {fits : ℕ → ℕ → Prop}
  {P : ℕ → σ → Prop} {Q : σ → Prop} {first lim p d o : ℕ} {c : Segmentation d} {s t : σ}

/-- **A sequence that is cut is filled part by part.** -/
theorem fillTo_carries (h : Carries W work first lim fits P Q)
    (hset : ∀ p s, P p s → P p (W.setPos p s) ∧ W.pos (W.setPos p s) = p)
    (hfits : ∀ a b, Leaf d o c a b → fits a b) (ho : o ≤ p) (hp : p ≤ o + size d c)
    (hbegin : p = o ∨ p = first) (hfp : first ≤ p)
    (hlt : p = first → first < o + size d c ∨ lim ≤ first) (hpos : W.pos s = p) (hs : P p s) :
    (fillTo W work d o c (o + size d c) s).Yields (fun t =>
      if W.finished t = true then Q t else P (o + size d c) t) := by
  induction d generalizing o s p with
  | zero => exact h _ _ p s (hfits _ _ ⟨rfl, rfl⟩) ho hp hbegin hfp hlt hpos hs
  | succ d ih =>
    rw [fillTo, hpos]
    refine (walkAt_yields_rest_from (P := P) (R := fun q t => W.finished t ≠ true ∧ P q t)
      (Q := fun t => W.finished t = true ∧ Q t) (fun _ _ h => h.2) ho hp ?_ hs).map ?_
    · intro k a t hka hak hpart hpa hlt' hPa
      obtain ⟨hset', hpos'⟩ := hset a t hPa
      have hle := le_beginAt o c k
      rw [← beginAt_add_size] at hlt' hak ⊢
      refine (ih (fun a b hab => hfits a b ⟨k, hab⟩) hka hak (by omega) (hfp.trans hpa)
        (fun ha => ?_) hpos' hset').map (fun u hu => ?_)
      · have hall := hlt (by omega)
        have hpart' := hlt' (by omega)
        omega
      · split at hu
        · next hfin => exact if_pos hfin ▸ ⟨hfin, hu⟩
        · next hfin => exact if_neg hfin ▸ ⟨hfin, hu⟩
    · intro e he
      cases e with
      | more t => exact (if_neg he.1).symm ▸ he.2
      | done t => exact (if_pos he.1).symm ▸ he.2

/-- **Where a sequence that is cut has been filled**, the work has ended as it
should. -/
theorem fillOn_of_some {c : Segmentation (d + 1)} (h : Carries W work first (o + size (d + 1) c)
      fits P Q)
    (hset : ∀ p s, P p s → P p (W.setPos p s) ∧ W.pos (W.setPos p s) = p)
    (hfits : ∀ a b, Leaf (d + 1) o c a b → fits a b) (ho : o ≤ first)
    (hfirst : first ≤ o + size (d + 1) c) (hpos : W.pos s = first) (hs : P first s)
    (hrun : fillOn W work (fun _ => false) (d + 1) o c s = some t) :
    W.finished t = true ∧ Q t := by
  rw [fillOn, if_neg Bool.false_ne_true, hpos] at hrun
  refine walkOnAt_of_some (P := P) (Q := fun t => W.finished t = true ∧ Q t) ho hfirst ?_ hs hrun
  intro k a t e hka hak hpart hfa hlt hPa he
  obtain ⟨hset', hpos'⟩ := hset a t hPa
  rw [← beginAt_add_size] at hak hlt he ⊢
  obtain ⟨u, hu, hends⟩ := fillTo_carries h (fun p s => hset p s)
    (fun a b hab => hfits a b ⟨k, hab⟩) hka hak hpart hfa hlt hpos' hset'
  rw [hu, Option.map_some] at he
  obtain rfl := Option.some.inj he
  split at hends
  · next hfin => exact if_pos hfin ▸ ⟨hfin, hends⟩
  · next hfin => exact if_neg hfin ▸ hends

end Carries

end Segmentation
