import BoostContainer.Segmented.SegmentedMismatch

/-!
# Equality of segmented ranges, and search

Equality is the same scan of two ranges as `segmented_mismatch`, asked whether
it came to the end of the first. A search looks for the first element of the
pattern and compares from there. It is over when the pattern is, and also when
the range is: the pattern was longer than what was left, and less is left
behind.
-/

namespace Segmented

open Segments Segmentation

variable {α β : Type*}

/-! ## `segmented_equal` -/

/-- `segmented_equal_iter2_dispatch`: the scan of the second range, and whether
it came to the end of the first. -/
def segmentedEqualIter2Dispatch (pred : α → β → Bool) (dualRA : Bool) (mem1 : Memory α)
    (last1 : ℕ) (d2 : ℕ) (c2 : Segmentation d2) (mem2 : Memory β) (first1 first2 : ℕ) :
    Option (Bool × ℕ) :=
  (segmentedMismatchIter2Bounded pred dualRA mem1 last1 d2 c2 mem2 first1 first2 none).map
    (fun r => (decide (r.1 = last1), r.2))

/-- **`segmented_equal_dispatch`.** -/
def segmentedEqualDispatch (pred : α → β → Bool) (dualRA : Bool) {d2 : ℕ}
    (c2 : Segmentation d2) (mem2 : Memory β) :
    (d : ℕ) → Segmentation d → Memory α → ℕ → ℕ → ℕ → Option (Bool × ℕ)
  | 0, _, mem1, first1, last1, first2 =>
    segmentedEqualIter2Dispatch pred dualRA mem1 last1 d2 c2 mem2 first1 first2
  | d + 1, c, mem1, first1, last1, first2 =>
    (walk c.sizes first1 last1 (fun k a b first2 =>
      (segmentedEqualDispatch pred dualRA c2 mem2 d (c.child k)
        (mem1.dropTo (start c.sizes k)) a b first2).map (fun r =>
          if r.1 then Scan.more r.2 else Scan.done r)) first2).map (fun e => match e with
      | .more first2 => (true, first2)
      | .done r => r)

/-- **`segmented_equal`.** -/
def segmentedEqual (pred : α → β → Bool) (dualRA sentinel1 : Bool) {d1 d2 : ℕ}
    (c1 : Segmentation d1) (mem1 : Memory α) (first1 last1 : ℕ)
    (c2 : Segmentation d2) (mem2 : Memory β) (first2 : ℕ) : Option Bool :=
  (if sentinel1 then
    segmentedEqualDispatch pred dualRA c2 mem2 0 (size d1 c1) mem1 first1 last1 first2
  else segmentedEqualDispatch pred dualRA c2 mem2 d1 c1 mem1 first1 last1 first2).map Prod.fst

/-- **What equality reports**: whether all match and, if so, where the second
range goes on. -/
def IsEqual (pred : α → β → Bool) (v1 : ℕ → α) (v2 : ℕ → β) (first1 last1 first2 : ℕ)
    (r : Bool × ℕ) : Prop :=
  (r.1 = true ↔ Matches pred v1 v2 first1 first2 (last1 - first1))
    ∧ (r.1 = true → r.2 = first2 + (last1 - first1))

section Equal

variable {pred : α → β → Bool} {dualRA : Bool} {d1 d2 : ℕ} {c1 : Segmentation d1}
  {c2 : Segmentation d2} {mem1 : Memory α} {mem2 : Memory β} {v1 : ℕ → α} {v2 : ℕ → β}
  {first1 last1 first2 : ℕ}

theorem segmentedEqualIter2Dispatch_yields (h1 : InRange c1 mem1 v1 first1 last1)
    (h2 : Second c2 mem2 v2 first2 (last1 - first1) none) :
    (segmentedEqualIter2Dispatch pred dualRA mem1 last1 d2 c2 mem2 first1 first2).Yields
      (IsEqual pred v1 v2 first1 last1 first2) := by
  refine (segmentedMismatchIter2Bounded_yields h1 h2).map ?_
  rintro r ⟨n, rfl, hn⟩
  have hle := hn.le1
  by_cases hend : first1 + n = last1
  · have hlen : n = last1 - first1 := by omega
    rw [hlen] at hn ⊢
    exact ⟨⟨fun _ => hn.matches_n, fun _ => decide_eq_true (by omega)⟩, fun _ => rfl⟩
  · refine ⟨⟨fun h => absurd (of_decide_eq_true h) hend, fun h => ?_⟩,
      fun h => absurd (of_decide_eq_true h) hend⟩
    have hfalse := hn.parts (by omega) (fun hl => nomatch hl)
    rw [h n (by omega)] at hfalse
    exact absurd hfalse (by decide)

theorem segmentedEqualDispatch_yields (h1 : InRange c1 mem1 v1 first1 last1)
    (h2 : Second c2 mem2 v2 first2 (last1 - first1) none) :
    (segmentedEqualDispatch pred dualRA c2 mem2 d1 c1 mem1 first1 last1 first2).Yields
      (IsEqual pred v1 v2 first1 last1 first2) := by
  induction d1 generalizing mem1 v1 first1 last1 first2 with
  | zero => exact segmentedEqualIter2Dispatch_yields h1 h2
  | succ d ih =>
    have hsize : last1 ≤ c1.sizes.sum := h1.le_size
    refine (walk_yields (P := fun p second => ∃ n, p = first1 + n ∧ second = first2 + n ∧
      Matches pred v1 v2 first1 first2 n) (Q := fun r => r.1 = false ∧
        ¬ Matches pred v1 v2 first1 first2 (last1 - first1)) h1.le hsize ?_
      ⟨0, rfl, rfl, fun i hi => absurd hi (Nat.not_lt_zero i)⟩).map ?_
    · rintro k a b s hab hb ha hlast ⟨n, hn, rfl, hm⟩
      unfold compose at hn ha hlast ⊢
      have hdrop := h2.drop (m := n) (by omega) (fun l hl => nomatch hl)
      have h2' : Second c2 mem2 v2 (first2 + n) (b - a) none :=
        ⟨hdrop.le, hdrop.le_size, fun hl => by have := hdrop.room hl; omega,
          fun i hi => hdrop.mem_eq i (by omega)⟩
      refine (ih (h1.child hab hb ha hlast) h2').map ?_
      rintro ⟨ok, second⟩ ⟨hok, hsecond⟩
      simp only at hok hsecond ⊢
      have hshift : ∀ i, first1 + (n + i) = start c1.sizes k + (a + i) := fun i => by omega
      by_cases h : ok = true
      · rw [if_pos h]
        refine ⟨n + (b - a), by omega, by rw [hsecond h, Nat.add_assoc], hm.append ?_⟩
        intro i hi
        rw [Nat.add_assoc first1, hshift]
        exact hok.mp h i hi
      · rw [if_neg h]
        refine ⟨Bool.eq_false_iff.mpr h, fun hall => h (hok.mpr (fun i hi => ?_))⟩
        have := hall (n + i) (by omega)
        rwa [hshift, ← Nat.add_assoc first2] at this
    · intro e he
      cases e with
      | more second =>
        obtain ⟨n, hn, rfl, hm⟩ := he
        obtain rfl : n = last1 - first1 := by omega
        exact ⟨⟨fun _ => hm, fun _ => rfl⟩, fun _ => rfl⟩
      | done r => exact ⟨⟨fun h => absurd (he.1.symm.trans h) (by decide), fun h => absurd h he.2⟩,
          fun h => absurd (he.1.symm.trans h) (by decide)⟩

end Equal

/-! ## `segmented_search` -/

/-- **`segmented_search_dispatch`**, for a range that is walked by its segments. -/
def segmentedSearchDispatch (eq : α → β → Bool) (dualRA : Bool) {d1 d2 : ℕ}
    (c1 : Segmentation d1) (mem1 : Memory α) (first last : ℕ)
    (c2 : Segmentation d2) (mem2 : Memory β) (sFirst sLast : ℕ) : Option ℕ :=
  if sFirst = sLast then some first
  else (mem2 sFirst).bind (fun y => Scan.loop (fun first =>
    if first = last then some (Scan.done last)
    else (segmentedFindIfDispatch (fun x => eq x y) d1 c1 mem1 first last).bind (fun first =>
      if first = last then some (Scan.done last)
      else (segmentedMismatchBoundedDispatch eq dualRA c2 mem2 (some sLast) d1 c1 mem1 first last
        sFirst).map (fun r =>
          if r.2 = sLast then Scan.done first
          else if r.1 = last then Scan.done last
          else Scan.more (first + 1)))) (last - first + 1) first)

/-- The comparison from a position on, without segments: the search may be over
with an answer, or go on. -/
def searchCompare (eq : α → β → Bool) (mem1 : Memory α) (mem2 : Memory β)
    (first last sFirst sLast : ℕ) : Option (Option ℕ) :=
  Scan.loop (fun (s : ℕ × ℕ) =>
    if s.2 + 1 = sLast then some (Scan.done (some first))
    else if s.1 + 1 = last then some (Scan.done (some last))
    else (mem1 (s.1 + 1)).bind (fun x => (mem2 (s.2 + 1)).map (fun y =>
      if eq x y then Scan.more (s.1 + 1, s.2 + 1) else Scan.done none)))
    (last - first) (first, sFirst)

/-- `segmented_search_dispatch` for a range that is not cut, or that ends with a
sentinel. -/
def searchDispatch (eq : α → β → Bool) (mem1 : Memory α) (first last : ℕ) (mem2 : Memory β)
    (sFirst sLast : ℕ) : Option ℕ :=
  if sFirst = sLast then some first
  else (mem2 sFirst).bind (fun y => Scan.loop (fun first =>
    if first = last then some (Scan.done last)
    else (findIfLoop (fun x => eq x y) mem1 first last).bind (fun first =>
      if first = last then some (Scan.done last)
      else (searchCompare eq mem1 mem2 first last sFirst sLast).map (fun r => match r with
        | some r => Scan.done r
        | none => Scan.more (first + 1)))) (last - first + 1) first)

/-- **`segmented_search`.** -/
def segmentedSearch (eq : α → β → Bool) (dualRA sentinel1 : Bool) {d1 d2 : ℕ}
    (c1 : Segmentation d1) (mem1 : Memory α) (first last : ℕ)
    (c2 : Segmentation d2) (mem2 : Memory β) (sFirst sLast : ℕ) : Option ℕ :=
  if sentinel1 ∨ d1 = 0 then searchDispatch eq mem1 first last mem2 sFirst sLast
  else segmentedSearchDispatch eq dualRA c1 mem1 first last c2 mem2 sFirst sLast

/-- A pattern occurs at a position of a range. -/
def OccursAt (eq : α → β → Bool) (v1 : ℕ → α) (v2 : ℕ → β) (last sFirst sLast p : ℕ) : Prop :=
  p + (sLast - sFirst) ≤ last ∧ Matches eq v1 v2 p sFirst (sLast - sFirst)

/-- **The leftmost occurrence of a pattern**, or the end of the range. -/
structure IsSearch (eq : α → β → Bool) (v1 : ℕ → α) (v2 : ℕ → β) (first last sFirst sLast r : ℕ) :
    Prop where
  ge : first ≤ r
  le : r ≤ last
  before : ∀ p, first ≤ p → p < r → ¬ OccursAt eq v1 v2 last sFirst sLast p
  at_lt : r < last → OccursAt eq v1 v2 last sFirst sLast r

section Search

variable {eq : α → β → Bool} {dualRA : Bool} {d1 d2 : ℕ} {c1 : Segmentation d1}
  {c2 : Segmentation d2} {mem1 : Memory α} {mem2 : Memory β} {v1 : ℕ → α} {v2 : ℕ → β}
  {first last sFirst sLast f n : ℕ}

/-- An element that is not the pattern's first starts no occurrence. -/
theorem not_occursAt_of_false (hs : sFirst < sLast) (h : eq (v1 f) (v2 sFirst) = false) :
    ¬ OccursAt eq v1 v2 last sFirst sLast f := by
  intro hocc
  have := hocc.2 0 (by omega)
  rw [Nat.add_zero, Nat.add_zero, h] at this
  exact absurd this (by decide)

/-- The pattern does not occur where the ranges part inside both. -/
theorem not_occursAt_of_parts (h : PartsAfter eq v1 v2 f last sFirst (some sLast) n)
    (hlt : f + n < last) (hne : sFirst + n ≠ sLast) :
    ¬ OccursAt eq v1 v2 last sFirst sLast f := by
  intro hocc
  have hle := h.le2 sLast rfl
  have hfalse := h.parts hlt (fun heq => hne (Option.some.inj heq).symm)
  rw [hocc.2 n (by omega)] at hfalse
  exact absurd hfalse (by decide)

/-- **What a comparison at a candidate leads to**: the answer, that there is no
occurrence from there on, or the next candidate. -/
def Judges (eq : α → β → Bool) (v1 : ℕ → α) (v2 : ℕ → β) (last sFirst sLast f : ℕ) :
    Scan ℕ ℕ → Prop :=
  Scan.Ends (fun q => q = f + 1 ∧ ¬ OccursAt eq v1 v2 last sFirst sLast f)
    (fun r => r = f ∧ OccursAt eq v1 v2 last sFirst sLast f
      ∨ r = last ∧ ∀ p, f ≤ p → ¬ OccursAt eq v1 v2 last sFirst sLast p)

/-- The comparison by segments. -/
theorem mismatch_judges (h1 : InRange c1 mem1 v1 f last) (h2 : InRange c2 mem2 v2 sFirst sLast) :
    ((segmentedMismatchBoundedDispatch eq dualRA c2 mem2 (some sLast) d1 c1 mem1 f last
      sFirst).map (fun r => if r.2 = sLast then Scan.done f else if r.1 = last then Scan.done last
        else Scan.more (f + 1))).Yields (Judges eq v1 v2 last sFirst sLast f) := by
  refine (segmentedMismatchBoundedDispatch_yields h1 (h2.second _)).map ?_
  rintro r ⟨n, rfl, hn⟩
  have hle1 := hn.le1
  have hle2 := hn.le2 sLast rfl
  simp only
  split
  · next hend =>
    obtain rfl : n = sLast - sFirst := by omega
    exact Or.inl ⟨rfl, hn.le1, hn.matches_n⟩
  · next hne =>
    split
    · next hend =>
      exact Or.inr ⟨rfl, fun p hp hocc => by have := hocc.1; omega⟩
    · next hlt => exact ⟨rfl, not_occursAt_of_parts hn (by omega) hne⟩

/-- The comparison without segments, at a candidate whose first element matched. -/
theorem searchCompare_judges (h1 : InRange c1 mem1 v1 f last) (hlt : f < last)
    (h2 : InRange c2 mem2 v2 sFirst sLast) (hs : sFirst < sLast)
    (heq : eq (v1 f) (v2 sFirst) = true) :
    ((searchCompare eq mem1 mem2 f last sFirst sLast).map (fun r => match r with
      | some r => Scan.done r
      | none => Scan.more (f + 1))).Yields (Judges eq v1 v2 last sFirst sLast f) := by
  refine Option.Yields.map (Q := fun r => match r with
    | some r => r = f ∧ OccursAt eq v1 v2 last sFirst sLast f
      ∨ r = last ∧ ∀ p, f ≤ p → ¬ OccursAt eq v1 v2 last sFirst sLast p
    | none => ¬ OccursAt eq v1 v2 last sFirst sLast f) ?_ ?_
  · refine Scan.loop_yields (fun s => last - s.1 - 1) (I := fun s => ∃ m, s = (f + m, sFirst + m) ∧
      f + m < last ∧ sFirst + m < sLast ∧ Matches eq v1 v2 f sFirst (m + 1)) ?_ (by omega)
      ⟨0, rfl, hlt, hs, fun i hi => ?_⟩
    · rintro s ⟨m, rfl, hml, hms, hm⟩
      simp only
      split
      · next hend =>
        obtain hlen : m + 1 = sLast - sFirst := by omega
        exact Option.yields_some (Or.inl ⟨rfl, by omega, hlen ▸ hm⟩)
      · next hne =>
        split
        · next hend =>
          exact Option.yields_some (Or.inr ⟨rfl, fun p hp hocc => by have := hocc.1; omega⟩)
        · next hne' =>
          rw [h1.mem_eq _ (by omega) (by omega), Option.bind_some,
            h2.mem_eq _ (by omega) (by omega), Option.map_some]
          refine Option.yields_some ?_
          by_cases hnext : eq (v1 (f + m + 1)) (v2 (sFirst + m + 1)) = true
          · rw [if_pos hnext]
            refine ⟨⟨m + 1, rfl, by omega, by omega, fun i hi => ?_⟩, by simp only; omega⟩
            rcases Nat.lt_succ_iff_lt_or_eq.mp hi with hlt' | rfl
            · exact hm i hlt'
            · exact hnext
          · rw [if_neg hnext]
            intro hocc
            exact hnext (hocc.2 (m + 1) (by omega))
    · obtain rfl : i = 0 := by omega
      exact heq
  · intro r hr
    cases r with
    | some r => exact hr
    | none => exact ⟨rfl, hr⟩

/-- **The loop of the search**: candidates from `find`, each with its
comparison. -/
theorem searchLoop_yields {find : ℕ → Option ℕ} {compare : ℕ → Option (Scan ℕ ℕ)}
    (hle : first ≤ last) (hs : sFirst < sLast)
    (hfind : ∀ q, first ≤ q → q ≤ last →
      (find q).Yields (IsFirst (fun x => eq x (v2 sFirst)) v1 q last))
    (hcompare : ∀ f, first ≤ f → f < last → eq (v1 f) (v2 sFirst) = true →
      (compare f).Yields (Judges eq v1 v2 last sFirst sLast f)) :
    (Scan.loop (fun q => if q = last then some (Scan.done last)
      else (find q).bind (fun f => if f = last then some (Scan.done last) else compare f))
      (last - first + 1) first).Yields (IsSearch eq v1 v2 first last sFirst sLast) := by
  have hlast : (∀ p, first ≤ p → p < last → ¬ OccursAt eq v1 v2 last sFirst sLast p) →
      IsSearch eq v1 v2 first last sFirst sLast last :=
    fun h => ⟨hle, le_rfl, h, fun hlt => absurd hlt (lt_irrefl _)⟩
  refine Scan.loop_yields (fun q => last - q) (I := fun q => first ≤ q ∧ q ≤ last ∧
    ∀ p, first ≤ p → p < q → ¬ OccursAt eq v1 v2 last sFirst sLast p) ?_ (by omega)
    ⟨le_rfl, hle, fun p hp hpf => absurd hp (by omega)⟩
  rintro q ⟨hfq, hql, hnone⟩
  split
  · next hend => exact Option.yields_some (hlast (hend ▸ hnone))
  · next hne =>
    refine (hfind q hfq hql).bind (fun f hf => ?_)
    have hge := hf.ge
    have hfl := hf.le
    have hnone' : ∀ p, first ≤ p → p < f → ¬ OccursAt eq v1 v2 last sFirst sLast p := by
      intro p hp hpf
      rcases Nat.lt_or_ge p q with hlt | hge
      · exact hnone p hp hlt
      · exact not_occursAt_of_false hs (hf.before p hge hpf)
    split
    · next hend => exact Option.yields_some (hlast (hend ▸ hnone'))
    · next hne' =>
      have hlt : f < last := lt_of_le_of_ne hfl hne'
      refine (hcompare f (by omega) hlt (hf.at_lt hlt)).imp (fun e he => ?_)
      cases e with
      | more q' =>
        obtain ⟨rfl, hnot⟩ := he
        refine ⟨⟨by omega, by omega, fun p hp hpf => ?_⟩, by omega⟩
        rcases Nat.lt_succ_iff_lt_or_eq.mp hpf with hlt' | rfl
        · exact hnone' p hp hlt'
        · exact hnot
      | done r =>
        rcases he with ⟨rfl, hocc⟩ | ⟨rfl, hnot⟩
        · exact ⟨by omega, hfl, hnone', fun _ => hocc⟩
        · refine hlast (fun p hp hpl => ?_)
          rcases Nat.lt_or_ge p f with hpf | hpf
          · exact hnone' p hp hpf
          · exact hnot p hpf

/-- The empty pattern occurs at once. -/
theorem isSearch_empty (hle : first ≤ last) (hs : sFirst = sLast) :
    IsSearch eq v1 v2 first last sFirst sLast first :=
  ⟨le_rfl, hle, fun p hp hpf => absurd hp (by omega), fun hlt =>
    ⟨by omega, fun i hi => absurd hi (by omega)⟩⟩

theorem segmentedSearch_yields {sentinel1 : Bool} (h1 : InRange c1 mem1 v1 first last)
    (h2 : InRange c2 mem2 v2 sFirst sLast) :
    (segmentedSearch eq dualRA sentinel1 c1 mem1 first last c2 mem2 sFirst sLast).Yields
      (IsSearch eq v1 v2 first last sFirst sLast) := by
  rw [segmentedSearch, searchDispatch, segmentedSearchDispatch]
  by_cases hs : sFirst = sLast
  · rw [if_pos hs, if_pos hs, ite_self]
    exact Option.yields_some (isSearch_empty h1.le hs)
  · have hlt : sFirst < sLast := lt_of_le_of_ne h2.le hs
    have hfirst : mem2 sFirst = some (v2 sFirst) := h2.mem_eq sFirst le_rfl hlt
    rw [if_neg hs, if_neg hs, hfirst, Option.bind_some, Option.bind_some]
    split
    · exact searchLoop_yields h1.le hlt
        (fun q hq hql => findIfLoop_yields (h1.sub hq hql le_rfl))
        (fun f hf hfl heq => searchCompare_judges (h1.sub hf hfl.le le_rfl) hfl h2 hlt heq)
    · exact searchLoop_yields h1.le hlt
        (fun q hq hql => segmentedFindIfDispatch_yields (h1.sub hq hql le_rfl))
        (fun f hf hfl _ => mismatch_judges (h1.sub hf hfl.le le_rfl) h2)

end Search

/-! ## However the two ranges are cut -/

/-- **Two ranges, cut into segments in any way**: `segmented_mismatch` gives the
positions at which they part, with an end of the second range and, where it is
as long, without; `segmented_equal` says whether all match; `segmented_search`
gives the leftmost occurrence of the second in the first. No element outside of
the ranges is read. -/
theorem segmentedMismatch_equal_search (pred : α → β → Bool) (dualRA sentinel1 : Bool)
    {d1 d2 : ℕ} {c1 : Segmentation d1} {c2 : Segmentation d2} {mem1 : Memory α}
    {mem2 : Memory β} {v1 : ℕ → α} {v2 : ℕ → β} {first1 last1 first2 last2 : ℕ}
    (h1 : InRange c1 mem1 v1 first1 last1) (h2 : InRange c2 mem2 v2 first2 last2) :
    (segmentedMismatch pred dualRA sentinel1 c1 mem1 first1 last1 c2 mem2 first2
        (some last2)).Yields (IsMismatch pred v1 v2 first1 last1 first2 (some last2))
    ∧ (segmentedSearch pred dualRA sentinel1 c1 mem1 first1 last1 c2 mem2 first2 last2).Yields
        (IsSearch pred v1 v2 first1 last1 first2 last2)
    ∧ (last1 - first1 ≤ last2 - first2 →
        (segmentedMismatch pred dualRA sentinel1 c1 mem1 first1 last1 c2 mem2 first2 none).Yields
          (IsMismatch pred v1 v2 first1 last1 first2 none)
        ∧ (segmentedEqual pred dualRA sentinel1 c1 mem1 first1 last1 c2 mem2 first2).Yields
          (fun r => r = true ↔ Matches pred v1 v2 first1 first2 (last1 - first1))) := by
  have hmismatch : ∀ {stop2 : Option ℕ}, Second c2 mem2 v2 first2 (last1 - first1) stop2 →
      (segmentedMismatch pred dualRA sentinel1 c1 mem1 first1 last1 c2 mem2 first2 stop2).Yields
        (IsMismatch pred v1 v2 first1 last1 first2 stop2) := by
    intro stop2 hsecond
    rw [segmentedMismatch]
    split
    · exact segmentedMismatchBoundedDispatch_yields h1.flat hsecond
    · exact segmentedMismatchBoundedDispatch_yields h1 hsecond
  refine ⟨hmismatch (h2.second _), segmentedSearch_yields h1 h2, fun hlong => ?_⟩
  have hsecond := h2.second_of_le (n := last1 - first1) (by have := h2.le; omega)
  refine ⟨hmismatch hsecond, ?_⟩
  rw [segmentedEqual]
  split
  · exact (segmentedEqualDispatch_yields h1.flat hsecond).map (fun r hr => hr.1)
  · exact (segmentedEqualDispatch_yields h1 hsecond).map (fun r hr => hr.1)

/-- A segment of two elements, an empty one and one of one. -/
def twoNoneOne : Segmentation 1 := ([2, 0, 1] : List ℕ)

/-- Two segments of one element each, in one segment. -/
def oneOneNested : Segmentation 2 := ([([1, 1] : List ℕ)] : List (List ℕ))

theorem inRange_twoNoneOne :
    InRange twoNoneOne (fun p => [5, 6, 7][p]?) (fun p => [5, 6, 7].getD p 0) 0 3 where
  le := by decide
  le_size := by decide
  mem_eq p _ hp := by interval_cases p <;> rfl

theorem inRange_oneOneNested :
    InRange oneOneNested (fun p => [6, 7][p]?) (fun p => [6, 7].getD p 0) 0 2 where
  le := by decide
  le_size := by decide
  mem_eq p _ hp := by interval_cases p <;> rfl

/-- The range `5, 6, 7` in three segments and the range `6, 7` in nested ones:
they part at once, and the second occurs in the first. -/
theorem segmentedMismatch_equal_search_three :
    (segmentedMismatch (fun x y : ℕ => x == y) true false twoNoneOne
        (fun p => [5, 6, 7][p]?) 0 3 oneOneNested (fun p => [6, 7][p]?) 0 (some 2)).Yields
      (IsMismatch (fun x y => x == y) (fun p => [5, 6, 7].getD p 0) (fun p => [6, 7].getD p 0)
        0 3 0 (some 2))
    ∧ (segmentedSearch (fun x y : ℕ => x == y) true false twoNoneOne
        (fun p => [5, 6, 7][p]?) 0 3 oneOneNested (fun p => [6, 7][p]?) 0 2).Yields
      (IsSearch (fun x y => x == y) (fun p => [5, 6, 7].getD p 0) (fun p => [6, 7].getD p 0)
        0 3 0 2)
    ∧ (segmentedEqual (fun x y : ℕ => x == y) true false oneOneNested
        (fun p => [6, 7][p]?) 0 2 twoNoneOne (fun p => [5, 6, 7][p]?) 0).Yields
      (fun r => r = true ↔ Matches (fun x y => x == y) (fun p => [6, 7].getD p 0)
        (fun p => [5, 6, 7].getD p 0) 0 0 2) := by
  refine ⟨?_, ?_, ?_⟩
  · exact (segmentedMismatch_equal_search (fun x y => x == y) true false
      inRange_twoNoneOne inRange_oneOneNested).1
  · exact (segmentedMismatch_equal_search (fun x y => x == y) true false
      inRange_twoNoneOne inRange_oneOneNested).2.1
  · exact ((segmentedMismatch_equal_search (fun x y => x == y) true false
      inRange_oneOneNested inRange_twoNoneOne).2.2 (by decide)).2

end Segmented
