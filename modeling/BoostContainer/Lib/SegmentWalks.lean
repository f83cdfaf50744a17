import BoostContainer.Lib.Segments

/-!
# More walks over segments

A walk whose last part is scanned for the answer needs two facts: what the parts
before it bring about, and what the last part makes of that. A walk back scans the
last part first and the first part last; what holds at the end of a part holds at
its begin.
-/

namespace Segments

variable {σ ρ : Type*} {ns : List ℕ} {first last : ℕ} {P : ℕ → σ → Prop} {R : σ → Prop}
  {Q : ρ → Prop} {body : ℕ → ℕ → ℕ → σ → Option (Scan σ ρ)} {s : σ}

/-! ## The last part -/

theorem walkLoop_yields_last (hlast : last ≤ ns.sum)
    (hbody : ∀ k a b s, k < segment ns last → a ≤ b → b ≤ ns.getD k 0 →
      a = 0 ∨ compose ns k a = first → first ≤ compose ns k a → compose ns k b ≤ last →
      P (compose ns k a) s → (body k a b s).Yields (Scan.Ends (P (compose ns k b)) Q))
    (hend : ∀ a s, a ≤ place ns last → a = 0 ∨ compose ns (segment ns last) a = first →
      first ≤ compose ns (segment ns last) a → P (compose ns (segment ns last) a) s →
      (body (segment ns last) a (place ns last) s).Yields (Scan.Ends R Q))
    {fuel scur : ℕ} (hfuel : ns.length < fuel + scur) (hle : scur ≤ segment ns last)
    (hfirst : first ≤ start ns scur) (hs : P (start ns scur) s) :
    (walkLoop ns (segment ns last) (place ns last) body fuel scur s).Yields
      (Scan.Ends R Q) := by
  induction fuel generalizing scur s with
  | zero =>
    rcases eq_or_ne ns [] with rfl | hne
    · exact absurd hle (by simp only [segment]; simp only [List.length_nil] at hfuel; omega)
    · have := segment_lt hne last
      omega
  | succ fuel ih =>
    rw [walkLoop]
    split
    · next heq =>
      subst heq
      exact hend 0 s (Nat.zero_le _) (Or.inl rfl) hfirst hs
    · next hne =>
      have hlt : scur < segment ns last := lt_of_le_of_ne hle hne
      have hnil : ns ≠ [] := by
        rintro rfl
        exact absurd hlt (Nat.not_lt_zero _)
      have hlen : scur < ns.length := hlt.trans (segment_lt hnil last)
      have hnext : start ns (scur + 1) ≤ last :=
        (start_mono ns hlt).trans (start_segment_le ns last)
      rw [List.getElem?_eq_getElem hlen, Option.bind_some, ← List.getD_eq_getElem ns 0 hlen]
      have hstart : compose ns scur (ns.getD scur 0) = start ns (scur + 1) := by
        rw [start_succ, compose]
      refine Scan.andThen_yields (hbody scur 0 _ s hlt (Nat.zero_le _) le_rfl (Or.inl rfl)
        hfirst (hstart ▸ hnext) hs) (fun s' hs' => ih (by omega) hlt ?_ (hstart ▸ hs'))
      exact hfirst.trans (start_mono ns (Nat.le_succ scur))

/-- **What the last part makes of what the parts before it bring about, the walk
makes.** -/
theorem walk_yields_last (hfl : first ≤ last) (hlast : last ≤ ns.sum)
    (hbody : ∀ k a b s, k < segment ns last → a ≤ b → b ≤ ns.getD k 0 →
      a = 0 ∨ compose ns k a = first → first ≤ compose ns k a → compose ns k b ≤ last →
      P (compose ns k a) s → (body k a b s).Yields (Scan.Ends (P (compose ns k b)) Q))
    (hend : ∀ a s, a ≤ place ns last → a = 0 ∨ compose ns (segment ns last) a = first →
      first ≤ compose ns (segment ns last) a → P (compose ns (segment ns last) a) s →
      (body (segment ns last) a (place ns last) s).Yields (Scan.Ends R Q))
    (hs : P first s) : (walk ns first last body s).Yields (Scan.Ends R Q) := by
  have hseg := segment_mono ns hfl
  have hplace := compose_place ns first
  have hplast := compose_place ns last
  rw [walk]
  split
  · next heq =>
    rw [heq] at hplace ⊢
    exact hend (place ns first) s (by unfold compose at hplace hplast; omega) (Or.inr hplace)
      hplace.ge (hplace.symm ▸ hs)
  · next hne =>
    have hlt : segment ns first < segment ns last := lt_of_le_of_ne hseg hne
    have hnil : ns ≠ [] := by
      rintro rfl
      exact absurd hlt (Nat.not_lt_zero _)
    have hlen : segment ns first < ns.length := hlt.trans (segment_lt hnil last)
    rw [List.getElem?_eq_getElem hlen, Option.bind_some, ← List.getD_eq_getElem ns 0 hlen]
    have hstart : compose ns (segment ns first) (ns.getD (segment ns first) 0)
        = start ns (segment ns first + 1) := by
      rw [start_succ, compose]
    refine Scan.andThen_yields (hbody _ (place ns first) _ s hlt (place_le (hfl.trans hlast))
      le_rfl (Or.inr hplace) hplace.ge
      (hstart ▸ (start_mono ns hlt).trans (start_segment_le ns last))
      (hplace.symm ▸ hs)) (fun s' hs' => ?_)
    exact walkLoop_yields_last hlast hbody hend (by omega) hlt
      (le_start_segment_succ (hfl.trans hlast)) (hstart ▸ hs')

/-! ## Walks back -/

/-- The segments before the last: whole segments, and a part of the first. -/
def walkBackLoop (ns : List ℕ) (sfirst lfirst : ℕ) (body : ℕ → ℕ → ℕ → σ → Option (Scan σ ρ)) :
    ℕ → ℕ → σ → Option (Scan σ ρ)
  | 0, _, _ => none
  | fuel + 1, scur, s =>
    ns[scur]?.bind (fun n =>
      if scur = sfirst then body scur lfirst n s
      else Scan.andThen (body scur 0 n s) (walkBackLoop ns sfirst lfirst body fuel (scur - 1)))

/-- **The walk back over the segments of a range**, last segment, middle segments,
first segment. -/
def walkBack (ns : List ℕ) (first last : ℕ) (body : ℕ → ℕ → ℕ → σ → Option (Scan σ ρ)) (s : σ) :
    Option (Scan σ ρ) :=
  if segment ns first = segment ns last then
    body (segment ns first) (place ns first) (place ns last) s
  else Scan.andThen (body (segment ns last) 0 (place ns last) s)
    (walkBackLoop ns (segment ns first) (place ns first) body ns.length (segment ns last - 1))

/-- A body keeps an invariant of positions back over the parts of a walk. -/
def KeepsBack (ns : List ℕ) (first last : ℕ) (P : ℕ → σ → Prop) (Q : ρ → Prop)
    (body : ℕ → ℕ → ℕ → σ → Option (Scan σ ρ)) : Prop :=
  ∀ k a b s, a ≤ b → b ≤ ns.getD k 0 → a = 0 ∨ compose ns k a = first →
    b = ns.getD k 0 ∨ compose ns k b = last →
    first ≤ compose ns k a → compose ns k b ≤ last →
    P (compose ns k b) s → (body k a b s).Yields (Scan.Ends (P (compose ns k a)) Q)

theorem walkBackLoop_yields (hfirst : first ≤ ns.sum) (hbody : KeepsBack ns first last P Q body)
    {fuel scur : ℕ} (hfuel : scur < fuel + segment ns first) (hle : segment ns first ≤ scur)
    (hlen : scur < ns.length) (hend : start ns (scur + 1) ≤ last) (hs : P (start ns (scur + 1)) s) :
    (walkBackLoop ns (segment ns first) (place ns first) body fuel scur s).Yields
      (Scan.Ends (P first) Q) := by
  induction fuel generalizing scur s with
  | zero => omega
  | succ fuel ih =>
    have hplace := compose_place ns first
    have hstart : compose ns scur (ns.getD scur 0) = start ns (scur + 1) := by
      rw [start_succ, compose]
    rw [walkBackLoop, List.getElem?_eq_getElem hlen, Option.bind_some,
      ← List.getD_eq_getElem ns 0 hlen]
    split
    · next heq =>
      subst heq
      have hkeep := hbody (segment ns first) (place ns first) _ s (place_le hfirst) le_rfl
        (Or.inr hplace) (Or.inl rfl) hplace.ge (hstart ▸ hend) (hstart.symm ▸ hs)
      rwa [hplace] at hkeep
    · next hne =>
      have hlt : segment ns first < scur := lt_of_le_of_ne hle (Ne.symm hne)
      have hsub : scur - 1 + 1 = scur := by omega
      refine Scan.andThen_yields (hbody scur 0 _ s (Nat.zero_le _) le_rfl (Or.inl rfl)
        (Or.inl rfl) (lt_start_of_segment_lt hfirst hlt) (hstart ▸ hend) (hstart.symm ▸ hs))
        (fun s' hs' => ih (by omega) (by omega) (by omega) ?_ ?_)
      · rw [hsub]
        exact (start_mono ns (Nat.le_succ scur)).trans hend
      · rwa [hsub]

/-- **What the scans of the parts keep, the walk back keeps.** -/
theorem walkBack_yields (hfl : first ≤ last) (hlast : last ≤ ns.sum)
    (hbody : KeepsBack ns first last P Q body) (hs : P last s) :
    (walkBack ns first last body s).Yields (Scan.Ends (P first) Q) := by
  have hseg := segment_mono ns hfl
  have hplace := compose_place ns first
  have hplast := compose_place ns last
  rw [walkBack]
  split
  · next heq =>
    have hkeep := hbody (segment ns first) (place ns first) (place ns last) s
      (by rw [heq] at hplace; unfold compose at hplace hplast; omega)
      (heq ▸ place_le hlast) (Or.inr hplace) (Or.inr (by rw [heq, hplast])) hplace.ge
      (by rw [heq, hplast]) (by rwa [heq, hplast])
    rwa [hplace] at hkeep
  · next hne =>
    have hlt : segment ns first < segment ns last := lt_of_le_of_ne hseg hne
    have hnil : ns ≠ [] := by
      rintro rfl
      exact absurd hlt (Nat.not_lt_zero _)
    have hsub : segment ns last - 1 + 1 = segment ns last := by omega
    have hlen := segment_lt hnil last
    refine Scan.andThen_yields (hbody (segment ns last) 0 (place ns last) s (Nat.zero_le _)
      (place_le hlast) (Or.inl rfl) (Or.inr hplast) (lt_start_of_segment_lt (hfl.trans hlast) hlt)
      hplast.le (hplast.symm ▸ hs)) (fun s' hs' => ?_)
    refine walkBackLoop_yields (hfl.trans hlast) hbody (by omega) (by omega) (by omega) ?_ ?_
    · rw [hsub]
      exact start_segment_le ns last
    · rwa [hsub]

end Segments

/-! ## Seen from the begin of all -/

namespace Segmentation

open Segments

variable {σ ρ : Type*} {d o first last : ℕ} {c : Segmentation (d + 1)} {P : ℕ → σ → Prop}
  {R : σ → Prop} {Q : ρ → Prop} {body : ℕ → ℕ → ℕ → σ → Option (Scan σ ρ)} {s : σ}

/-- **What the last part makes of what the parts before it bring about, the walk
makes.** -/
theorem walkAt_yields_last (ho : o ≤ first) (hfl : first ≤ last)
    (hlast : last ≤ o + size (d + 1) c)
    (hbody : ∀ k a b s, k < segmentAt o c last → a ≤ b → beginAt o c k ≤ a → b ≤ endAt o c k →
      a = beginAt o c k ∨ a = first → first ≤ a → b ≤ last →
      P a s → (body k a b s).Yields (Scan.Ends (P b) Q))
    (hend : ∀ a s, beginAt o c (segmentAt o c last) ≤ a → a ≤ last →
      a = beginAt o c (segmentAt o c last) ∨ a = first → first ≤ a → P a s →
      (body (segmentAt o c last) a last s).Yields (Scan.Ends R Q)) (hs : P first s) :
    (walkAt o c first last body s).Yields (Scan.Ends R Q) := by
  rw [size_succ] at hlast
  have hfirst : o + (first - o) = first := Nat.add_sub_cancel' ho
  have hlast' : o + (last - o) = last := Nat.add_sub_cancel' (ho.trans hfl)
  refine walk_yields_last (P := fun p => P (o + p)) (by omega) (by omega)
    (fun k a b s hk hab hb hbegin ha hbl hP => ?_) (fun a s hab hbegin ha hP => ?_)
    (hfirst.symm ▸ hs)
  · have hstart := start_succ c.sizes k
    unfold compose at hbegin ha hbl hP ⊢
    refine hbody k _ _ s hk (by omega) ?_ ?_ ?_ (by omega) (by omega) hP
    · exact Nat.add_le_add_left (Nat.le_add_right _ _) o
    · unfold endAt
      omega
    · unfold beginAt
      omega
  · have hplast := compose_place c.sizes (last - o)
    have hbodylast : o + compose c.sizes (segment c.sizes (last - o)) (place c.sizes (last - o))
        = last := by rw [hplast, hlast']
    rw [hbodylast]
    unfold compose at hbegin ha hP hplast ⊢
    refine hend _ s ?_ ?_ ?_ (by omega) hP
    · exact Nat.add_le_add_left (Nat.le_add_right _ _) o
    · omega
    · unfold beginAt segmentAt
      omega

/-- **The walk back over the segments of a range**, whose parts are seen from the
begin of all. -/
def walkBackAt (o : ℕ) (c : Segmentation (d + 1)) (first last : ℕ)
    (body : ℕ → ℕ → ℕ → σ → Option (Scan σ ρ)) (s : σ) : Option (Scan σ ρ) :=
  walkBack c.sizes (first - o) (last - o)
    (fun k a b => body k (o + compose c.sizes k a) (o + compose c.sizes k b)) s

/-- **What the scans of the parts keep, the walk back keeps**: a part begins with its
segment or the range, and ends with its segment or the range. -/
theorem walkBackAt_yields (ho : o ≤ first) (hfl : first ≤ last)
    (hlast : last ≤ o + size (d + 1) c)
    (hbody : ∀ k a b s, a ≤ b → beginAt o c k ≤ a → b ≤ endAt o c k →
      a = beginAt o c k ∨ a = first → b = endAt o c k ∨ b = last → first ≤ a → b ≤ last →
      P b s → (body k a b s).Yields (Scan.Ends (P a) Q)) (hs : P last s) :
    (walkBackAt o c first last body s).Yields (Scan.Ends (P first) Q) := by
  rw [size_succ] at hlast
  have hfirst : o + (first - o) = first := Nat.add_sub_cancel' ho
  have hlast' : o + (last - o) = last := Nat.add_sub_cancel' (ho.trans hfl)
  have hwalk : (walkBackAt o c first last body s).Yields (Scan.Ends (P (o + (first - o))) Q) := by
    refine walkBack_yields (P := fun p => P (o + p)) (by omega) (by omega)
      (fun k a b s hab hb hbegin hstop ha hbl hP => ?_) (hlast'.symm ▸ hs)
    have hstart := start_succ c.sizes k
    unfold compose at hbegin hstop ha hbl hP ⊢
    refine hbody k _ _ s (by omega) ?_ ?_ ?_ ?_ (by omega) (by omega) hP
    · exact Nat.add_le_add_left (Nat.le_add_right _ _) o
    · unfold endAt
      omega
    · unfold beginAt
      omega
    · unfold endAt
      omega
  rwa [hfirst] at hwalk

end Segmentation

/-! ## Where a walk begins -/

namespace Segments

variable {σ ρ : Type*} {ns : List ℕ} {first last : ℕ} {P : ℕ → σ → Prop} {Q : ρ → Prop}
  {body : ℕ → ℕ → ℕ → σ → Option (Scan σ ρ)} {s : σ}

theorem walkOnLoop_of_some {r : ρ}
    (hbody : ∀ k a s e, segment ns first ≤ k → a ≤ ns.getD k 0 → a = 0 ∨ compose ns k a = first →
      P (compose ns k a) s → body k a (ns.getD k 0) s = some e →
      Scan.Ends (P (start ns (k + 1))) Q e)
    {fuel scur lcur : ℕ} (hseg : segment ns first ≤ scur) (hle : lcur ≤ ns.getD scur 0)
    (hcur : lcur = 0 ∨ compose ns scur lcur = first) (hs : P (compose ns scur lcur) s)
    (h : walkOnLoop ns body fuel scur lcur s = some r) : Q r := by
  induction fuel generalizing scur lcur s with
  | zero => exact absurd h (Option.some_ne_none r).symm
  | succ fuel ih =>
    obtain ⟨n, hn, h⟩ := Option.bind_eq_some_iff.mp h
    obtain ⟨e, he, h⟩ := Option.bind_eq_some_iff.mp h
    have hget : ns.getD scur 0 = n := by rw [List.getD_eq_getElem?_getD, hn, Option.getD_some]
    have hends := hbody scur lcur s e hseg hle hcur hs (hget ▸ he)
    cases e with
    | more s' =>
      exact ih (hseg.trans (Nat.le_succ _)) (Nat.zero_le _) (Or.inl rfl) hends h
    | done r' => exact Option.some.inj h ▸ hends

/-- **What the scans keep, the answer of a walk is left with**, if there is one. -/
theorem walkOn_of_some {r : ρ} (hfirst : first ≤ ns.sum)
    (hbody : ∀ k a s e, segment ns first ≤ k → a ≤ ns.getD k 0 → a = 0 ∨ compose ns k a = first →
      P (compose ns k a) s → body k a (ns.getD k 0) s = some e →
      Scan.Ends (P (start ns (k + 1))) Q e) (hs : P first s)
    (h : walkOn ns first body s = some r) : Q r :=
  walkOnLoop_of_some hbody le_rfl (place_le hfirst) (Or.inr (compose_place ns first))
    ((compose_place ns first).symm ▸ hs) h

end Segments

namespace Segmentation

open Segments

variable {σ ρ : Type*} {d o first last : ℕ} {c : Segmentation (d + 1)} {P : ℕ → σ → Prop}
  {Q : ρ → Prop} {body : ℕ → ℕ → ℕ → σ → Option (Scan σ ρ)} {s : σ}

/-- **What the scans keep, the answer of a walk is left with**, if there is one. -/
theorem walkOnAt_of_some {r : ρ} (ho : o ≤ first) (hfirst : first ≤ o + size (d + 1) c)
    (hbody : ∀ k a s e, beginAt o c k ≤ a → a ≤ endAt o c k → a = beginAt o c k ∨ a = first →
      first ≤ a → (a = first → first < endAt o c k ∨ o + size (d + 1) c ≤ first) → P a s →
      body k a (endAt o c k) s = some e → Scan.Ends (P (endAt o c k)) Q e)
    (hs : P first s) (h : walkOnAt o c first body s = some r) : Q r := by
  have hsum : first - o ≤ c.sizes.sum := by
    rw [size_succ] at hfirst
    omega
  have ho' : o + (first - o) = first := Nat.add_sub_cancel' ho
  refine walkOn_of_some (P := fun p t => first ≤ o + p ∧ P (o + p) t) hsum
    (fun k a t e hk ha hbegin hP he => ?_) (ho'.symm ▸ ⟨le_rfl, hs⟩) h
  have hend : o + compose c.sizes k (c.sizes.getD k 0) = endAt o c k := by
    rw [compose, ← start_succ]
    rfl
  rw [hend] at he
  have hstart := start_succ c.sizes k
  have hka : beginAt o c k ≤ o + compose c.sizes k a :=
    Nat.add_le_add_left (Nat.le_add_right _ _) o
  have hak : o + compose c.sizes k a ≤ endAt o c k := by
    unfold compose endAt
    omega
  have hends := hbody k _ t e hka hak ?_ hP.1 (lt_endAt_of_begin hk hka) hP.2 he
  · cases e with
    | more t' => exact ⟨hP.1.trans hak, hends⟩
    | done r' => exact hends
  · unfold beginAt
    unfold compose at hbegin ⊢
    omega

end Segmentation

/-! ## Loops back that are made in parts -/

/-- **The loop back over the positions of a range that nothing ends.** -/
def runRangeBack {σ : Type*} (step : ℕ → σ → Option σ) (first last : ℕ) (s : σ) : Option σ :=
  (List.range' first (last - first)).reverse.foldlM (fun s p => step p s) s

section RunRangeBack

variable {σ : Type*} {step : ℕ → σ → Option σ} {a b c : ℕ} {s t u : σ}

@[simp] theorem runRangeBack_self (step : ℕ → σ → Option σ) (a : ℕ) (s : σ) :
    runRangeBack step a a s = some s := by
  rw [runRangeBack, Nat.sub_self]
  rfl

theorem runRangeBack_append (step : ℕ → σ → Option σ) (hab : a ≤ b) (hbc : b ≤ c) (s : σ) :
    runRangeBack step a c s = (runRangeBack step b c s).bind (runRangeBack step a b) := by
  have h : List.range' a (b - a) ++ List.range' b (c - b) = List.range' a (c - a) := by
    have := List.range'_append_1 (s := a) (m := b - a) (n := c - b)
    rwa [Nat.add_sub_cancel' hab, show b - a + (c - b) = c - a by omega] at this
  rw [runRangeBack, ← h, List.reverse_append, List.foldlM_append]
  rfl

/-- The loop goes on by one position. -/
theorem runRangeBack_pred (step : ℕ → σ → Option σ) (hab : a < b) (s : σ) :
    runRangeBack step a b s = (runRangeBack step (a + 1) b s).bind (step a) := by
  rw [runRangeBack_append step (Nat.le_add_right a 1) hab]
  congr 1
  funext t
  rw [runRangeBack, Nat.add_sub_cancel_left]
  exact bind_pure (step a t)

theorem runRangeBack_of_append (hab : a ≤ b) (hbc : b ≤ c) (h : runRangeBack step b c s = some t) :
    runRangeBack step a c s = runRangeBack step a b t := by
  rw [runRangeBack_append step hab hbc, h, Option.bind_some]

/-- A loop that comes through comes through a part of its range. -/
theorem exists_runRangeBack (hab : a ≤ b) (hbc : b ≤ c)
    (h : runRangeBack step a c s = some u) :
    ∃ t, runRangeBack step b c s = some t ∧ runRangeBack step a b t = some u := by
  rw [runRangeBack_append step hab hbc] at h
  exact Option.bind_eq_some_iff.mp h

end RunRangeBack

namespace Segmentation

variable {σ : Type*} {first last : ℕ} {P : ℕ → σ → Prop} {s : σ}

/-- **The parts of a range are scanned from the last to the first**, at every
level. -/
def scanPartsBack (scan : ℕ → ℕ → σ → Option σ) :
    (d : ℕ) → ℕ → Segmentation d → ℕ → ℕ → σ → Option σ
  | 0, _, _, first, last, s => scan first last s
  | d + 1, o, c, first, last, s =>
    (walkBackAt o c first last (fun k a b s =>
      (scanPartsBack scan d (beginAt o c k) (c.child k) a b s).map Scan.more) s).map Scan.result

/-- **What the scan of a part keeps, the scan back through all the segments
keeps.** -/
theorem scanPartsBack_yields {scan : ℕ → ℕ → σ → Option σ} {d o : ℕ} {c : Segmentation d}
    {a b : ℕ}
    (hscan : ∀ a b s, first ≤ a → a ≤ b → b ≤ last → P b s → (scan a b s).Yields (P a))
    (hoa : o ≤ a) (hfa : first ≤ a) (hab : a ≤ b) (hbl : b ≤ last) (hsize : b ≤ o + size d c)
    (hs : P b s) : (scanPartsBack scan d o c a b s).Yields (P a) := by
  induction d generalizing o s a b with
  | zero => exact hscan a b s hfa hab hbl hs
  | succ d ih =>
    refine (walkBackAt_yields (P := P) (Q := P a) hoa hab hsize ?_ hs).map ?_
    · intro k a' b' s hab' hka hbk _ _ ha' hb' hP
      refine (ih hka (hfa.trans ha') hab' (hb'.trans hbl) ?_ hP).map (fun s hs => hs)
      rwa [beginAt_add_size]
    · intro e he
      cases e with
      | more s => exact he
      | done s => exact he

end Segmentation
