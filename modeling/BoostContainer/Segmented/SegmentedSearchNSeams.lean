import BoostContainer.Segmented.SegmentedSearchN

/-!
# Runs across the seams of segments

What is carried over a seam is right, or one too high. It is one too high only
where an element that does not match stands in the segment before the seam, so
a run that is one element short can be taken for whole only if it holds the
first element of a segment and does not start the range.

A range without such a run is searched rightly, however it is cut.
-/

namespace Segmented

open Segments Segmentation

variable {α : Type*}

/-- **The seams of a sequence**: where its segments start and end, at all levels. -/
def Seam : (d : ℕ) → Segmentation d → ℕ → Prop
  | 0, _, _ => False
  | d + 1, c, p => (∃ k, p = start c.sizes k)
      ∨ ∃ k l, p = compose c.sizes k l ∧ Seam d (c.child k) l

/-- **A run that is one element short**, or has one more, behind an element that
does not match, and that a seam cuts or starts. -/
structure ShortRun (m : ℕ → Bool) (first last n : ℕ) (seam : ℕ → Prop) (p b : ℕ) : Prop where
  gt : first < p
  miss : m (p - 1) = false
  all : AllMatch m p (p + (n - 1))
  le_last : p + (n - 1) ≤ last
  seam : seam b
  ge : p ≤ b
  lt : b < p + (n - 1)

/-- **No run is taken for whole**: one that is cut or started by a seam, with
none before it, is whole, and starts before the seam. -/
def SeamsClear (m : ℕ → Bool) (first last n : ℕ) (seam : ℕ → Prop) : Prop :=
  ∀ p b, ShortRun m first last n seam p b → (∀ q, first ≤ q → q < p → ¬ RunAt m last n q) →
    p < b ∧ RunAt m last n p

/-- The leftmost run of a range that has one. -/
structure Found (m : ℕ → Bool) (first last n q : ℕ) : Prop where
  ge : first ≤ q
  run : RunAt m last n q
  before : ∀ p, first ≤ p → p < q → ¬ RunAt m last n p

/-! ## What is carried -/

/-- **What is carried to a position** `p`: the elements from `s` on match, there is
no run before, and the number `c` is theirs, or one too high behind a seam. -/
structure CarriesFrom (m : ℕ → Bool) (first last n : ℕ) (loose : Bool) (seam : ℕ → Prop)
    (s p c ms : ℕ) : Prop where
  ge : first ≤ s
  le : s ≤ p
  all : AllMatch m s p
  edge : s = first ∨ m (s - 1) = false
  none : ∀ q, first ≤ q → q + n ≤ p → ¬ AllMatch m q (q + n)
  lt : c < n
  count : c = p - s ∧ (0 < c → ms = s)
    ∨ loose = true ∧ c = p - s + 1 ∧ first < s ∧ m (s - 1) = false
      ∧ (p = last ∨ ∃ b, seam b ∧ s ≤ b ∧ b ≤ p ∧ (s < b → ms = s))

/-- What is carried to a position. -/
def Carries (m : ℕ → Bool) (first last n : ℕ) (loose : Bool) (seam : ℕ → Prop)
    (p c ms : ℕ) : Prop :=
  ∃ s, CarriesFrom m first last n loose seam s p c ms

/-- The start of a run that a scan of a part reports: the part's own, or else the
one from before. -/
def runStart (o b third ms : ℕ) : ℕ := if third ≠ b then o + third else ms

/-- **What is known after the scan of a part**: the answer, or what is carried on. -/
def Advances (m : ℕ → Bool) (first last n : ℕ) (loose : Bool) (seam : ℕ → Prop)
    (o b ms : ℕ) (r : SegTrio) : Prop :=
  r.third ≤ b ∧ if r.first then Found m first last n (runStart o b r.third ms)
    else Carries m first last n loose seam (o + b) r.second (runStart o b r.third ms)

section Carries

variable {m : ℕ → Bool} {first last n : ℕ} {loose : Bool} {seam : ℕ → Prop}
  {s p c ms q e o a b : ℕ} {r : SegTrio}

/-- Elements of a part that match are elements of the range that match. -/
theorem AllMatch.shift (h : AllMatch (fun i => m (o + i)) p q) : AllMatch m (o + p) (o + q) := by
  intro i hi hiq
  have : m (o + (i - o)) = true := h (i - o) (by omega) (by omega)
  rwa [Nat.add_sub_cancel' (by omega)] at this

theorem AllMatch.unshift (h : AllMatch m (o + p) (o + q)) : AllMatch (fun i => m (o + i)) p q :=
  fun i hi hiq => h (o + i) (by omega) (by omega)

namespace CarriesFrom

/-- Nothing that matches reaches over the start of what is carried. -/
theorem not_allMatch (h : CarriesFrom m first last n loose seam s p c ms) (hq : first ≤ q)
    (hqs : q < s) (hse : s ≤ e) : ¬ AllMatch m q e := by
  rcases h.edge with rfl | hm
  · exact absurd hq (Nat.not_le.mpr hqs)
  · exact Segmented.not_allMatch hm (by omega) (by omega)

/-- The number that is carried is not too low. -/
theorem sub_le (h : CarriesFrom m first last n loose seam s p c ms) : p - s ≤ c := by
  rcases h.count with h | h <;> omega

/-- No run starts before the start of what is carried. -/
theorem not_runAt (h : CarriesFrom m first last n loose seam s p c ms) (hq : first ≤ q)
    (hqs : q < s) : ¬ RunAt m last n q := by
  rintro ⟨-, hall⟩
  rcases Nat.lt_or_ge p (q + n) with hlt | hge
  · exact h.not_allMatch hq hqs (h.le.trans hlt.le) hall
  · exact h.none q hq hge hall

/-- **What a run that starts before `p` and ends behind it says of the elements
from `p` on.** -/
theorem tail_of_allMatch (h : CarriesFrom m first last n loose seam s p c ms) (hq : first ≤ q)
    (hqp : q < p) (hall : AllMatch m q (q + n)) :
    0 < c ∧ p + (n - c) ≤ q + n ∧ AllMatch m p (p + (n - c)) := by
  have hle := h.le
  have hsub := h.sub_le
  have hlt : p < q + n := by
    by_contra hge
    exact h.none q hq (not_lt.mp hge) hall
  have hsq : s ≤ q := by
    by_contra hqs
    exact h.not_allMatch hq (not_le.mp hqs) (by omega) hall
  exact ⟨by omega, by omega, hall.sub hqp.le (by omega)⟩

end CarriesFrom

/-- **A completed number is a run**, if no short one is taken for whole. -/
theorem found_of_completes (hclear : loose = true → SeamsClear m first last n seam)
    (h : CarriesFrom m first last n loose seam s p c ms) (hc : 0 < c)
    (hle : p + (n - c) ≤ last) (hall : AllMatch m p (p + (n - c))) :
    Found m first last n ms := by
  have hn := h.lt
  have hsp := h.le
  have hfull := h.all.append hall
  rcases h.count with ⟨hcount, hms⟩ | ⟨hl, hcount, hfs, hm, hlast | ⟨b, hb, hsb, hbp, hms⟩⟩
  · rw [hms hc]
    refine ⟨h.ge, ⟨by omega, ?_⟩, fun q hq hqs => h.not_runAt hq hqs⟩
    rwa [show s + n = p + (n - c) by omega]
  · omega
  · have hshort : ShortRun m first last n seam s b :=
      ⟨hfs, hm, by rwa [show s + (n - 1) = p + (n - c) by omega], by omega, hb, hsb, by omega⟩
    obtain ⟨hlt, hrun⟩ := hclear hl s b hshort (fun q hq hqs => h.not_runAt hq hqs)
    rw [hms hlt]
    exact ⟨h.ge, hrun, fun q hq hqs => h.not_runAt hq hqs⟩

/-- A run that is found in a part. -/
theorem CarriesFrom.found_of_finds (h : CarriesFrom m first last n loose seam s (o + a) c ms)
    (ha : a ≤ q) (hq : o + q + n ≤ last) (hall : AllMatch m (o + q) (o + q + n))
    (hbefore : ∀ p, a ≤ p → p < q → ¬ AllMatch (fun i => m (o + i)) p (p + n))
    (hc : 0 < c → ¬ AllMatch (fun i => m (o + i)) a (a + (n - c))) :
    Found m first last n (o + q) := by
  have hle := h.le
  have hge := h.ge
  refine ⟨by omega, ⟨hq, hall⟩, fun p hp hpq hrun => ?_⟩
  rcases Nat.lt_or_ge p (o + a) with hlt | hge'
  · obtain ⟨hpos, -, htail⟩ := h.tail_of_allMatch hp hlt hrun.2
    exact hc hpos (AllMatch.unshift (by rwa [← Nat.add_assoc]))
  · refine hbefore (p - o) (by omega) (by omega) (AllMatch.unshift ?_)
    rw [show o + (p - o) = p by omega, show o + (p - o + n) = p + n by omega]
    exact hrun.2

/-- What is carried through a part that matches. -/
theorem CarriesFrom.continues (h : CarriesFrom m first last n loose seam s (o + a) c ms)
    (hc : 0 < c) (hab : a ≤ b) (hlast : o + b ≤ last) (hlt : c + (b - a) < n)
    (hall : AllMatch m (o + a) (o + b)) :
    CarriesFrom m first last n loose seam s (o + b) (c + (b - a)) ms := by
  have hle := h.le
  have hsub := h.sub_le
  have hcn := h.lt
  refine ⟨h.ge, by omega, h.all.append hall, h.edge, fun q hq hqb hrun => ?_, hlt, ?_⟩
  · rcases Nat.lt_or_ge q s with hqs | hsq
    · rcases Nat.lt_or_ge (o + a) (q + n) with hlt' | hge
      · exact h.not_allMatch hq hqs (by omega) hrun
      · exact h.none q hq hge hrun
    · omega
  · rcases h.count with ⟨hcount, hms⟩ | ⟨hl, hcount, hfs, hm, hend | ⟨b', hb', hsb, hbp, hms⟩⟩
    · exact Or.inl ⟨by omega, fun _ => hms hc⟩
    · exact Or.inr ⟨hl, by omega, hfs, hm, Or.inl (by omega)⟩
    · exact Or.inr ⟨hl, by omega, hfs, hm, Or.inr ⟨b', hb', hsb, by omega, hms⟩⟩

/-- **What is carried out of a part in which a run may start.** -/
theorem CarriesFrom.starts {t c' third : ℕ}
    (h : CarriesFrom m first last n loose seam s (o + a) c ms)
    (ht : Started (fun i => m (o + i)) n a c b t) (hlt : c' < n)
    (hcount : c' = b - t ∨ loose = true ∧ a < t ∧ c' = b - t + 1)
    (hthird : third ≤ b ∧ (t < b → third = t)) (hend : o + b = last ∨ seam (o + b)) :
    CarriesFrom m first last n loose seam (o + t) (o + b) c' (runStart o b third ms) := by
  have hge := h.ge
  have hle := h.le
  have hat := ht.ge
  have htb := ht.le
  have hstart : t < b → runStart o b third ms = o + t := by
    intro htb
    rw [runStart, hthird.2 htb, if_pos htb.ne]
  have hedge : a < t → m (o + t - 1) = false := by
    intro hat
    rcases ht.edge with ⟨rfl, -⟩ | ⟨-, hm⟩
    · exact absurd hat (lt_irrefl _)
    · rwa [← Nat.add_sub_assoc (by omega)] at hm
  refine ⟨by omega, by omega, ht.all.shift, ?_, fun q hq hqb hrun => ?_, hlt, ?_⟩
  · rcases ht.edge with ⟨rfl, rfl⟩ | ⟨hat, -⟩
    · -- nothing was carried into the part
      have hs : s = o + t := by
        rcases h.count with ⟨hc, -⟩ | ⟨-, hc, -⟩ <;> omega
      exact hs ▸ h.edge
    · exact Or.inr (hedge hat)
  · rcases Nat.lt_or_ge q (o + a) with hqa | haq
    · obtain ⟨hpos, hle', htail⟩ := h.tail_of_allMatch hq hqa hrun
      exact ht.incomplete hpos (by omega) (AllMatch.unshift (by rwa [← Nat.add_assoc]))
    · refine ht.none (q - o) (by omega) (by omega) (AllMatch.unshift ?_)
      rwa [show o + (q - o) = q by omega, show o + (q - o + n) = q + n by omega]
  · rcases hcount with rfl | ⟨hl, hat, rfl⟩
    · exact Or.inl ⟨by omega, fun hpos => hstart (by omega)⟩
    · refine Or.inr ⟨hl, by omega, by omega, hedge hat, hend.imp_right (fun hs => ?_)⟩
      exact ⟨o + b, hs, by omega, le_rfl, fun htb => hstart (by omega)⟩

/-- **What the scan of a part does with what was carried into it.** -/
theorem Carries.advances (hn : 0 < n) (hclear : loose = true → SeamsClear m first last n seam)
    (h : Carries m first last n loose seam (o + a) c ms) (hab : a ≤ b) (hlast : o + b ≤ last)
    (hend : o + b = last ∨ seam (o + b))
    (hr : ScanEnds (fun i => m (o + i)) loose n a b c b r) :
    Advances m first last n loose seam o b ms r := by
  obtain ⟨s, hs⟩ := h
  cases hr with
  | completes hc hle hall =>
    refine ⟨le_rfl, ?_⟩
    rw [if_pos rfl, runStart, if_neg (not_not.mpr rfl)]
    refine found_of_completes hclear hs hc (by omega) ?_
    have := hall.shift
    rwa [← Nat.add_assoc] at this
  | finds q ha hb hall hbefore hc =>
    have hqb : q < b := by omega
    refine ⟨hqb.le, ?_⟩
    rw [if_pos rfl, runStart, if_pos hqb.ne]
    refine hs.found_of_finds (q := q) ha (by omega) ?_ hbefore hc
    have := hall.shift
    rwa [← Nat.add_assoc] at this
  | continues hc hlt hall =>
    refine ⟨le_rfl, ?_⟩
    rw [if_neg Bool.false_ne_true, runStart, if_neg (not_not.mpr rfl)]
    exact ⟨s, hs.continues hc hab hlast hlt hall.shift⟩
  | starts t c' third ht hlt hcount hthird =>
    refine ⟨hthird.1, ?_⟩
    rw [if_neg Bool.false_ne_true]
    exact ⟨o + t, hs.starts ht hlt hcount hthird hend⟩

end Carries

/-! ## The walk -/

section Walk

variable {pred : α → Bool} {ra : Bool} {n first last : ℕ} {seam : ℕ → Prop} {v : ℕ → α}

/-- **The walk advances as the scans of the parts do.** -/
theorem searchNScanSegment_advances (hn : 0 < n) (hfit : ra = true → n < 2 ^ 63)
    (hclear : ra = true → SeamsClear (fun i => pred (v i)) first last n seam) {d : ℕ}
    {c : Segmentation d} {mem : Memory α} {o a b cnt ms : ℕ}
    (h : InRange c mem (fun i => v (o + i)) a b) (hseam : ∀ l, Seam d c l → seam (o + l))
    (hlast : o + b ≤ last) (hend : o + b = last ∨ seam (o + b))
    (hc : Carries (fun i => pred (v i)) first last n ra seam (o + a) cnt ms) :
    (searchNScanSegment pred ra n d c mem a b cnt).Yields
      (Advances (fun i => pred (v i)) first last n ra seam o b ms) := by
  induction d generalizing mem o a b cnt ms with
  | zero =>
    have hcn : cnt < n := by
      obtain ⟨s, hs⟩ := hc
      exact hs.lt
    rw [searchNScanSegment]
    cases ra with
    | true =>
      rw [if_pos rfl]
      exact (searchNScanRandom_ends (hfit rfl) h.le hcn h.mem_eq).imp
        (fun r hr => hc.advances hn hclear h.le hlast hend hr)
    | false =>
      rw [if_neg Bool.false_ne_true]
      exact (searchNScanForward_ends h.le hcn le_rfl h.mem_eq).imp
        (fun r hr => hc.advances hn hclear h.le hlast hend hr)
  | succ d ih =>
    have hsize : b ≤ c.sizes.sum := h.le_size
    refine (walk_yields_to (P := fun p (s : ℕ × ℕ) => s.2 ≤ b ∧
        Carries (fun i => pred (v i)) first last n ra seam (o + p) s.1 (runStart o b s.2 ms))
      (Q := fun r => r.third ≤ b ∧ r.first = true
        ∧ Found (fun i => pred (v i)) first last n (runStart o b r.third ms))
      (fun _ _ h => h) h.le hsize ?_ ?_).map ?_
    · rintro k a' b' ⟨cnt', ms'⟩ hab' hb' - hcut ha' hlast' ⟨hms', hcar⟩
      have hchild := h.child hab' hb' ha' hlast'
      unfold compose at hcut ha' hlast' hcar ⊢
      simp only [← Nat.add_assoc] at hchild hcar
      have hend' : o + start c.sizes k + b' = last ∨ seam (o + start c.sizes k + b') := by
        rcases hcut with heq | heq
        · refine Or.inr ?_
          rw [Nat.add_assoc, heq, ← start_succ]
          exact hseam _ (Or.inl ⟨k + 1, rfl⟩)
        · rw [Nat.add_assoc, heq]
          exact hend
      have hseam' : ∀ l, Seam d (c.child k) l → seam (o + start c.sizes k + l) := by
        intro l hl
        rw [Nat.add_assoc]
        exact hseam _ (Or.inr ⟨k, l, rfl, hl⟩)
      refine (ih hchild hseam' (by omega) hend' hcar).map ?_
      rintro ⟨found, cnt'', third⟩ ⟨hthird, hadv⟩
      simp only at hthird hadv ⊢
      -- the start that the part reports is the one the walk keeps
      have hstart : runStart o b (if third ≠ b' then start c.sizes k + third else ms') ms
          = runStart (o + start c.sizes k) b' third (runStart o b ms' ms) := by
        by_cases hne : third ≠ b'
        · rw [if_pos hne]
          unfold runStart
          rw [if_pos hne, if_pos (by omega), Nat.add_assoc]
        · rw [if_neg hne]
          conv_rhs => rw [runStart]
          rw [if_neg hne]
      have hle : (if third ≠ b' then start c.sizes k + third else ms') ≤ b := by
        split
        · omega
        · exact hms'
      cases found with
      | true =>
        rw [if_pos rfl] at hadv ⊢
        exact ⟨hle, rfl, hstart.symm ▸ hadv⟩
      | false =>
        rw [if_neg Bool.false_ne_true] at hadv ⊢
        refine ⟨hle, ?_⟩
        rw [hstart, ← Nat.add_assoc]
        exact hadv
    · refine ⟨le_rfl, ?_⟩
      rw [runStart, if_neg (not_not.mpr rfl)]
      exact hc
    · intro e he
      cases e with
      | more s => exact ⟨he.1, he.2⟩
      | done r =>
        refine ⟨he.1, ?_⟩
        rw [if_pos he.2.1]
        exact he.2.2

end Walk

/-! ## The search -/

section Search

variable {pred : α → Bool} {ra : ℕ → Bool} {sentinel : Bool} {v : ℕ → α} {mem : Memory α}
  {d n first last : ℕ} {c : Segmentation d}

theorem Found.isSearchN {m : ℕ → Bool} {q : ℕ} (hn : 0 < n) (h : Found m first last n q) :
    IsSearchN m first last n q :=
  ⟨h.ge, by have := h.run.1; omega, h.before, fun _ => h.run⟩

theorem isSearchN_last {m : ℕ → Bool} (hle : first ≤ last)
    (h : ∀ p, first ≤ p → ¬ RunAt m last n p) : IsSearchN m first last n last :=
  ⟨hle, le_rfl, fun p hp _ => h p hp, fun hlt => absurd hlt (lt_irrefl _)⟩

/-- A run of one element is an element that matches. -/
theorem IsFirst.isSearchN {r : ℕ} (h : IsFirst pred v first last r) :
    IsSearchN (fun i => pred (v i)) first last 1 r where
  ge := h.ge
  le := h.le
  before p hp hpr hrun := by
    have := hrun.2 p le_rfl (by omega)
    exact absurd (this.symm.trans (h.before p hp hpr)) (by decide)
  at_lt hlt := ⟨hlt, fun i hi hir => by
    obtain rfl : i = r := by omega
    exact h.at_lt hlt⟩

/-- The answer of a scan of the whole range into which nothing was carried. -/
theorem ScanEnds.isSearchN {m : ℕ → Bool} {loose : Bool} {ms : ℕ} {r : SegTrio} (hn : 0 < n)
    (hle : first ≤ last) (h : ScanEnds m loose n first last 0 ms r) :
    IsSearchN m first last n (r.answer last) := by
  cases h with
  | completes hc => exact absurd hc (lt_irrefl 0)
  | continues hc => exact absurd hc (lt_irrefl 0)
  | finds q ha hb hall hbefore hc =>
    exact Found.isSearchN hn ⟨ha, ⟨hb, hall⟩, fun p hp hpq hrun => hbefore p hp hpq hrun.2⟩
  | starts s c' third hs => exact isSearchN_last hle (fun p hp hrun => hs.none p hp hrun.1 hrun.2)

/-- At the begin of the range nothing is carried. -/
theorem carries_first {m : ℕ → Bool} {loose : Bool} {seam : ℕ → Prop} (hn : 0 < n) (ms : ℕ) :
    Carries m first last n loose seam first 0 ms :=
  ⟨first, le_rfl, le_rfl, fun i hi hif => absurd hi (Nat.not_le.mpr hif), Or.inl rfl,
    fun q hq hqf => by omega, hn,
    Or.inl ⟨(Nat.sub_self first).symm, fun h => absurd h (lt_irrefl 0)⟩⟩

theorem searchNTopDispatch_yields (hn : 0 < n) (h : InRange c mem v first last)
    (hfit : sentinel = false → ra 0 = true → n < 2 ^ 63)
    (hroom : sentinel = false → ra d = true → first + n ≤ last)
    (hclear : sentinel = false → ra 0 = true →
      SeamsClear (fun i => pred (v i)) first last n (Seam d c)) :
    (searchNTopDispatch pred ra sentinel c mem first last n).Yields
      (IsSearchN (fun i => pred (v i)) first last n) := by
  rw [searchNTopDispatch]
  cases sentinel with
  | true =>
    rw [if_pos rfl]
    exact (searchNScanForward_ends h.le hn h.le h.mem_eq).map (fun r hr => hr.isSearchN hn h.le)
  | false =>
    rw [if_neg Bool.false_ne_true]
    split
    · next hflat =>
      obtain ⟨rfl, hra⟩ := hflat
      have hle := hroom rfl hra
      rw [difference_eq (hfit rfl hra), advance_eq (n := first + (n - 1)) (by omega),
        Option.bind_some]
      refine (probeLoop_yields hn hle h.mem_eq).map (fun e he => ?_)
      cases e with
      | done q =>
        exact Found.isSearchN hn ⟨he.1, ⟨he.2.1, he.2.2.1⟩,
          fun p hp hpq hrun => he.2.2.2 p hp hpq hrun.2⟩
      | more k =>
        refine isSearchN_last h.le (fun p hp hrun => ?_)
        rcases Nat.lt_or_ge k p with hlt | hge
        · have := hrun.1
          have := he.2.2.1
          omega
        · exact he.2.2.2.2 p hp hge hrun.2
    · next hcut =>
      have hzero : (fun i => v (0 + i)) = v := funext (fun i => by rw [Nat.zero_add])
      have hadvances : (searchNScanSegment pred (ra 0) n d c mem first last 0).Yields
          (Advances (fun i => pred (v i)) first last n (ra 0) (Seam d c) 0 last last) :=
        searchNScanSegment_advances hn (hfit rfl) (hclear rfl) (hzero.symm ▸ h)
          (fun l hl => by rwa [Nat.zero_add]) (by omega) (Or.inl (Nat.zero_add last))
          ((Nat.zero_add first).symm ▸ carries_first hn last)
      refine hadvances.map ?_
      rintro ⟨found, cnt, third⟩ ⟨hthird, hadv⟩
      cases found with
      | true =>
        rw [if_pos rfl] at hadv
        have heq : runStart 0 last third last = third := by
          rw [runStart, Nat.zero_add]
          split
          · rfl
          · next hne => exact (not_not.mp hne).symm
        rw [heq] at hadv
        exact hadv.isSearchN hn
      | false =>
        rw [if_neg Bool.false_ne_true] at hadv
        obtain ⟨s, hs⟩ := hadv
        refine isSearchN_last h.le (fun p hp hrun => hs.none p hp ?_ hrun.2)
        rw [Nat.zero_add]
        exact hrun.1

end Search

/-- Two segments of two elements each. -/
def twoTwo : Segmentation 1 := ([2, 2] : List ℕ)

theorem inRange_twoTwo {vs : List ℕ} (h : vs.length = 4) :
    InRange twoTwo (fun p => vs[p]?) (fun p => vs.getD p 0) 0 4 where
  le := by decide
  le_size := by decide
  mem_eq p _ hp := by
    rw [List.getElem?_eq_getElem (by omega), List.getD_eq_getElem _ _ (by omega)]

/-- Between the seams of two segments of two elements there is none. -/
theorem not_seam_twoTwo : ¬ Seam 1 twoTwo 1 := by
  rintro (⟨k, hk⟩ | ⟨k, l, -, hl⟩)
  · rcases k with _ | _ | k
    · exact absurd hk (by decide)
    · exact absurd hk (by decide)
    · have hmono : start (sizes twoTwo) 2 ≤ start (sizes twoTwo) (k + 2) :=
        start_mono _ (Nat.le_add_left 2 k)
      have hfour : start (sizes twoTwo) 2 = 4 := rfl
      have hone : start (sizes twoTwo) (k + 2) = 1 := hk.symm
      omega
  · exact hl

end Segmented
