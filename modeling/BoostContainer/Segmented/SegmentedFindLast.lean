import BoostContainer.Lib.SegmentWalks
import BoostContainer.Segmented.SegmentedFindIf

/-!
# The last element of a segmented range

With bidirectional iterators the search walks back and ends at the first match.
With forward iterators it walks on, remembers the last match of each part, and
returns what it finds in the last part. What it remembers it then does not use: a
match before the last part is seen only where the last part has one as well, and
is not the last then.

So the search finds the last of the positions that are seen: all of them where
every level is bidirectional, and those of the last part at a level that is not.
-/

namespace Segmented

open Segments Segmentation

variable {α : Type*}

/-! ## `segmented_find_last_if` -/

/-- `find_last_if_scan` with forward iterators that are not segmented. -/
def findLastIfForward (pred : α → Bool) (mem : Memory α) (first last : ℕ) : Option ℕ :=
  (Scan.forRange first last (fun p result => (mem p).map (fun x =>
    Scan.more (if pred x then p else result))) last).map Scan.result

/-- `find_last_if_scan` with bidirectional iterators that are not segmented. -/
def findLastIfBack (pred : α → Bool) (mem : Memory α) (first last : ℕ) : Option ℕ :=
  (Scan.forRangeBack first last (fun p (_ : Unit) => (mem p).map (fun x =>
    if pred x then Scan.done p else Scan.more ())) ()).map (fun e => match e with
    | .more _ => last
    | .done r => r)

/-- **`find_last_if_scan`.** At each level the iterators are bidirectional or not. -/
def findLastIfScan (pred : α → Bool) (bidir : ℕ → Bool) (mem : Memory α) :
    (d : ℕ) → ℕ → Segmentation d → ℕ → ℕ → Option ℕ
  | 0, _, _, first, last =>
    if bidir 0 then findLastIfBack pred mem first last else findLastIfForward pred mem first last
  | d + 1, o, c, first, last =>
    if bidir (d + 1) then
      (walkBackAt o c first last (fun k a b (_ : Unit) =>
        (findLastIfScan pred bidir mem d (beginAt o c k) (c.child k) a b).map
          (fun r => if r ≠ b then Scan.done r else Scan.more ())) ()).map
        (fun e => match e with
        | .more _ => last
        | .done r => r)
    else
      -- what the last part returns is returned, whatever was remembered
      (walkAt o c first last (fun k a b result =>
        (findLastIfScan pred bidir mem d (beginAt o c k) (c.child k) a b).map
          (fun r => if k = segmentAt o c last then Scan.done r
            else Scan.more (if r ≠ b then r else result))) last).map Scan.result

/-- **`segmented_find_last_if`.** With a sentinel the range is not cut, and the
iterators are forward iterators. -/
def segmentedFindLastIf (pred : α → Bool) (bidir : ℕ → Bool) (sentinel : Bool) (mem : Memory α)
    {d : ℕ} (c : Segmentation d) (first last : ℕ) : Option ℕ :=
  if sentinel then findLastIfForward pred mem first last
  else findLastIfScan pred bidir mem d 0 c first last

/-- **`segmented_find_last`.** -/
def segmentedFindLast [BEq α] (value : α) (bidir : ℕ → Bool) (sentinel : Bool) (mem : Memory α)
    {d : ℕ} (c : Segmentation d) (first last : ℕ) : Option ℕ :=
  segmentedFindLastIf (fun x => x == value) bidir sentinel mem c first last

/-! ## What is found -/

/-- **The last position of a range at which something holds**, or its end. -/
structure IsLast (M : ℕ → Prop) (first last r : ℕ) : Prop where
  ge : first ≤ r
  le : r ≤ last
  at_lt : r < last → M r
  after : ∀ p, first ≤ p → p < last → M p → p ≤ r ∧ r < last

namespace IsLast

variable {M N : ℕ → Prop} {first last a r q : ℕ}

theorem unique (h : IsLast M first last r) (h' : IsLast M first last q) : r = q := by
  rcases Nat.eq_or_lt_of_le h.le with hr | hr
  · by_contra hne
    have hq := h'.le
    have := h.after q h'.ge (by omega) (h'.at_lt (by omega))
    omega
  · have h1 := h'.after r h.ge hr (h.at_lt hr)
    have h2 := h.after q h'.ge h1.2 (h'.at_lt h1.2)
    omega

/-- The same holds at the positions of the range. -/
theorem congr (h : IsLast M first last r) (hMN : ∀ p, first ≤ p → p < last → (M p ↔ N p)) :
    IsLast N first last r where
  ge := h.ge
  le := h.le
  at_lt hlt := (hMN r h.ge hlt).mp (h.at_lt hlt)
  after p hp hpl hN := h.after p hp hpl ((hMN p hp hpl).mpr hN)

/-- Nothing holds before a part at the end. -/
theorem of_part (h : IsLast M a last r) (hfa : first ≤ a) (hM : ∀ p, M p → a ≤ p) :
    IsLast M first last r where
  ge := hfa.trans h.ge
  le := h.le
  at_lt := h.at_lt
  after p _ hpl hp := h.after p (hM p hp) hpl hp

/-- It holds nowhere. -/
theorem of_forall_not (hfl : first ≤ last) (h : ∀ p, first ≤ p → p < last → ¬ M p) :
    IsLast M first last last :=
  ⟨hfl, le_rfl, fun hlt => absurd hlt (lt_irrefl _), fun p hp hpl hM => absurd hM (h p hp hpl)⟩

end IsLast

/-- **The positions that a search sees**: at a level of forward iterators those of
the last part, at the others those of every part. -/
def Seen (bidir : ℕ → Bool) : (d : ℕ) → ℕ → Segmentation d → ℕ → ℕ → ℕ → Prop
  | 0, _, _, first, last, p => first ≤ p ∧ p < last
  | d + 1, o, c, first, last, p =>
    Seen bidir d (beginAt o c (segmentAt o c (if bidir (d + 1) then p else last)))
      (c.child (segmentAt o c (if bidir (d + 1) then p else last)))
      (max first (beginAt o c (segmentAt o c (if bidir (d + 1) then p else last))))
      (min last (endAt o c (segmentAt o c (if bidir (d + 1) then p else last)))) p

section FindLast

variable {pred : α → Bool} {bidir : ℕ → Bool} {mem : Memory α} {v : ℕ → α}
  {d o first last p k : ℕ}

/-- Only positions of the range are seen. -/
theorem Seen.bounds {c : Segmentation d} (h : Seen bidir d o c first last p) :
    first ≤ p ∧ p < last := by
  induction d generalizing o first last with
  | zero => exact h
  | succ d ih =>
    obtain ⟨hge, hlt⟩ := ih h
    exact ⟨(le_max_left _ _).trans hge, hlt.trans_le (min_le_left _ _)⟩

/-- **Where every level is bidirectional, all positions are seen.** -/
theorem seen_of_bidir {c : Segmentation d} (h : ∀ i ≤ d, bidir i = true) (ho : o ≤ p)
    (hp : p < o + size d c) (hfp : first ≤ p) (hpl : p < last) :
    Seen bidir d o c first last p := by
  induction d generalizing o first last with
  | zero => exact ⟨hfp, hpl⟩
  | succ d ih =>
    have hbegin := beginAt_segmentAt_le (c := c) ho
    have hend := lt_endAt_segmentAt hp
    rw [Seen, h (d + 1) le_rfl, if_pos rfl]
    refine ih (fun i hi => h i (by omega)) hbegin ?_ (by omega) (by omega)
    rwa [beginAt_add_size]

theorem findLastIfForward_yields (hfl : first ≤ last)
    (hmem : ∀ p, first ≤ p → p < last → mem p = some (v p)) :
    (findLastIfForward pred mem first last).Yields
      (IsLast (fun p => pred (v p) = true) first last) := by
  refine (Scan.forRange_yields
    (P := fun p result => (result = last ∧ ∀ q, first ≤ q → q < p → ¬ pred (v q) = true)
      ∨ (first ≤ result ∧ result < p ∧ pred (v result) = true
        ∧ ∀ q, result < q → q < p → ¬ pred (v q) = true))
    (Q := fun _ => False) hfl ?_ (Or.inl ⟨rfl, fun q hq hqf => absurd hq (by omega)⟩)).map ?_
  · intro p result hfp hpl hP
    rw [hmem p hfp hpl, Option.map_some]
    refine Option.yields_some ?_
    by_cases hpred : pred (v p) = true
    · rw [if_pos hpred]
      exact Or.inr ⟨hfp, Nat.lt_succ_self p, hpred, fun q hq hqp => by omega⟩
    · rw [if_neg hpred]
      rcases hP with ⟨rfl, hnone⟩ | ⟨hge, hlt, hres, hnone⟩
      · refine Or.inl ⟨rfl, fun q hq hqp => ?_⟩
        rcases Nat.lt_succ_iff_lt_or_eq.mp hqp with hlt | rfl
        · exact hnone q hq hlt
        · exact hpred
      · refine Or.inr ⟨hge, by omega, hres, fun q hq hqp => ?_⟩
        rcases Nat.lt_succ_iff_lt_or_eq.mp hqp with hlt | rfl
        · exact hnone q hq hlt
        · exact hpred
  · intro e he
    cases e with
    | done r => exact False.elim he
    | more result =>
      rcases he with ⟨rfl, hnone⟩ | ⟨hge, hlt, hres, hnone⟩
      · exact IsLast.of_forall_not hfl hnone
      · refine ⟨hge, hlt.le, fun _ => hres, fun p _ hpl hp => ⟨?_, hlt⟩⟩
        exact not_lt.mp fun hrp => hnone p hrp hpl hp

theorem findLastIfBack_yields (hfl : first ≤ last)
    (hmem : ∀ p, first ≤ p → p < last → mem p = some (v p)) :
    (findLastIfBack pred mem first last).Yields
      (IsLast (fun p => pred (v p) = true) first last) := by
  refine (Scan.forRangeBack_yields
    (P := fun p _ => ∀ q, p ≤ q → q < last → ¬ pred (v q) = true)
    (Q := IsLast (fun p => pred (v p) = true) first last) hfl ?_
    (fun q hq hql => absurd hq (by omega))).map ?_
  · intro p _ hfp hpl hP
    rw [hmem p hfp hpl, Option.map_some]
    refine Option.yields_some ?_
    by_cases hpred : pred (v p) = true
    · rw [if_pos hpred]
      refine ⟨hfp, hpl.le, fun _ => hpred, fun q _ hql hq => ⟨?_, hpl⟩⟩
      exact not_lt.mp fun hpq => hP q hpq hql hq
    · rw [if_neg hpred]
      intro q hq hql
      rcases Nat.eq_or_lt_of_le hq with rfl | hlt
      · exact hpred
      · exact hP q hlt hql
  · intro e he
    cases e with
    | done r => exact he
    | more _ => exact IsLast.of_forall_not hfl he

/-- The positions of a part are seen as the search of the part sees them. -/
theorem seen_part {c : Segmentation (d + 1)} {a b q : ℕ} (hq : k = segmentAt o c q)
    (hbegin : a = beginAt o c k ∨ a = first) (hka : beginAt o c k ≤ a) (hfa : first ≤ a)
    (hend : b = endAt o c k ∨ b = last) (hbk : b ≤ endAt o c k) (hbl : b ≤ last)
    (hif : (if bidir (d + 1) then p else last) = q) :
    Seen bidir (d + 1) o c first last p
      ↔ Seen bidir d (beginAt o c k) (c.child k) a b p := by
  rw [Seen, hif, ← hq, show max first (beginAt o c k) = a by omega,
    show min last (endAt o c k) = b by omega]

/-- **The search finds the last of the matches that are seen.** -/
theorem findLastIfScan_yields {c : Segmentation d} (ho : o ≤ first) (hfl : first ≤ last)
    (hlast : last ≤ o + size d c) (hmem : ∀ p, first ≤ p → p < last → mem p = some (v p)) :
    (findLastIfScan pred bidir mem d o c first last).Yields
      (IsLast (fun p => pred (v p) = true ∧ Seen bidir d o c first last p) first last) := by
  induction d generalizing o first last with
  | zero =>
    have hseen : ∀ r, IsLast (fun p => pred (v p) = true) first last r →
        IsLast (fun p => pred (v p) = true ∧ Seen bidir 0 o c first last p) first last r :=
      fun r hr => hr.congr fun p hp hpl => ⟨fun h => ⟨h, hp, hpl⟩, fun h => h.1⟩
    rw [findLastIfScan]
    split
    · exact (findLastIfBack_yields hfl hmem).imp hseen
    · exact (findLastIfForward_yields hfl hmem).imp hseen
  | succ d ih =>
    -- what the search of a part finds
    have hpart : ∀ k a b, a ≤ b → beginAt o c k ≤ a → b ≤ endAt o c k → first ≤ a → b ≤ last →
        (findLastIfScan pred bidir mem d (beginAt o c k) (c.child k) a b).Yields
          (IsLast (fun p => pred (v p) = true
            ∧ Seen bidir d (beginAt o c k) (c.child k) a b p) a b) := by
      intro k a b hab hka hbk hfa hbl
      refine ih hka hab ?_ (fun p hp hpb => hmem p (hfa.trans hp) (hpb.trans_le hbl))
      rwa [beginAt_add_size]
    rw [findLastIfScan]
    split
    · next hbidir =>
      refine (walkBackAt_yields
        (P := fun p _ => ∀ q, p ≤ q → q < last →
          ¬ (pred (v q) = true ∧ Seen bidir (d + 1) o c first last q))
        (Q := IsLast (fun p => pred (v p) = true ∧ Seen bidir (d + 1) o c first last p) first last)
        ho hfl hlast ?_ (fun q hq hql => absurd hq (by omega))).map ?_
      · intro k a b _ hab hka hbk hbegin hend hfa hbl hP
        have hseen : ∀ q, a ≤ q → q < b → (Seen bidir (d + 1) o c first last q
            ↔ Seen bidir d (beginAt o c k) (c.child k) a b q) := fun q hq hqb =>
          seen_part (segmentAt_eq (hka.trans hq) (hqb.trans_le hbk)).symm hbegin hka hfa hend
            hbk hbl (if_pos hbidir)
        refine (hpart k a b hab hka hbk hfa hbl).map (fun r hr => ?_)
        replace hr := hr.congr fun q hq hqb => and_congr_right fun _ => (hseen q hq hqb).symm
        have hra := hr.ge
        have hrb := hr.le
        by_cases hne : r = b
        · rw [if_neg (not_not.mpr hne)]
          intro q hq hql hM
          rcases Nat.lt_or_ge q b with hqb | hqb
          · have := (hr.after q hq hqb hM).2
            omega
          · exact hP q hqb hql hM
        · rw [if_pos hne]
          refine ⟨by omega, by omega, fun _ => hr.at_lt (by omega), fun q _ hql hM => ?_⟩
          rcases Nat.lt_or_ge q b with hqb | hqb
          · rcases Nat.lt_or_ge q a with hqa | hqa
            · omega
            · have := hr.after q hqa hqb hM
              omega
          · exact absurd hM (hP q hqb hql)
      · intro e he
        cases e with
        | done r => exact he
        | more _ => exact IsLast.of_forall_not hfl he
    · next hbidir =>
      refine (walkAt_yields_last (P := fun _ _ => True) (R := fun _ => False)
        (Q := IsLast (fun p => pred (v p) = true ∧ Seen bidir (d + 1) o c first last p) first last)
        ho hfl hlast ?_ ?_ trivial).map ?_
      · intro k a b result hk hab hka hbk _ hfa hbl _
        refine (hpart k a b hab hka hbk hfa hbl).map (fun r _ => ?_)
        rw [if_neg (Nat.ne_of_lt hk)]
        trivial
      · intro a result hka hal hbegin hfa _
        have hbk := le_endAt_segmentAt hlast
        have hseen : ∀ q, Seen bidir (d + 1) o c first last q
            ↔ Seen bidir d (beginAt o c (segmentAt o c last)) (c.child (segmentAt o c last))
              a last q := fun q =>
          seen_part rfl hbegin hka hfa (Or.inr rfl) hbk le_rfl (if_neg hbidir)
        refine (hpart _ a last hal hka hbk hfa le_rfl).map (fun r hr => ?_)
        rw [if_pos rfl]
        replace hr := hr.congr fun q _ _ => and_congr_right fun _ => (hseen q).symm
        exact hr.of_part hfa fun q hq => ((hseen q).mp hq.2).bounds.1
      · intro e he
        cases e with
        | done r => exact he
        | more _ => exact False.elim he

/-- **The search finds the last match exactly where the last match is seen**; with a
sentinel it finds it always. -/
theorem segmentedFindLastIf_iff {sentinel : Bool} {c : Segmentation d}
    (h : InRange c mem v first last) :
    (segmentedFindLastIf pred bidir sentinel mem c first last).Yields
        (IsLast (fun p => pred (v p) = true) first last)
      ↔ sentinel = true ∨ ∀ p, first ≤ p → p < last → pred (v p) = true →
        (∀ q, p < q → q < last → pred (v q) = false) → Seen bidir d 0 c first last p := by
  rw [segmentedFindLastIf]
  cases sentinel with
  | true =>
    rw [if_pos rfl]
    exact iff_of_true (findLastIfForward_yields h.le h.mem_eq) (Or.inl rfl)
  | false =>
    rw [if_neg Bool.false_ne_true]
    obtain ⟨r, hr, hlast⟩ : (findLastIfScan pred bidir mem d 0 c first last).Yields
        (IsLast (fun p => pred (v p) = true ∧ Seen bidir d 0 c first last p) first last) :=
      findLastIfScan_yields (Nat.zero_le first) h.le
        ((Nat.zero_add (size d c)).symm ▸ h.le_size) h.mem_eq
    rw [hr]
    refine ⟨?_, ?_⟩
    · rintro ⟨q, hqr, hq⟩
      obtain rfl : r = q := Option.some.inj hqr
      refine Or.inr fun p hp hpl hpred hafter => ?_
      obtain ⟨hpr, hrl⟩ := hq.after p hp hpl hpred
      have hrp : p = r := by
        by_contra hne
        exact Bool.eq_false_iff.mp (hafter r (by omega) hrl) (hq.at_lt hrl)
      exact hrp ▸ (hlast.at_lt hrl).2
    · rintro (hfalse | hseen)
      · exact absurd hfalse Bool.false_ne_true
      · -- the last match, as the search through all finds it
        obtain ⟨m, -, hm⟩ : (findLastIfForward pred mem first last).Yields
            (IsLast (fun p => pred (v p) = true) first last) :=
          findLastIfForward_yields h.le h.mem_eq
        have hafter : ∀ q, m < q → q < last → pred (v q) = false := fun q hmq hql =>
          Bool.eq_false_iff.mpr fun hq =>
            absurd (hm.after q (hm.ge.trans hmq.le) hql hq).1 (not_le.mpr hmq)
        have hm' : IsLast (fun p => pred (v p) = true ∧ Seen bidir d 0 c first last p)
            first last m :=
          ⟨hm.ge, hm.le, fun hlt => ⟨hm.at_lt hlt, hseen m hm.ge hlt (hm.at_lt hlt) hafter⟩,
            fun p hp hpl hp' => hm.after p hp hpl hp'.1⟩
        exact ⟨m, congrArg some (hlast.unique hm'), hm⟩

end FindLast

end Segmented
