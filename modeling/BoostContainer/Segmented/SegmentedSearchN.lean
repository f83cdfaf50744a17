import BoostContainer.Segmented.SegmentedFindIf

/-!
# Runs of equal elements

A search for `count` equal elements in a row walks the segments and carries the
number of elements at the end of one segment into the next. In a segment of
random access it looks at every `count`-th element and, from one that matches,
back.

The carried number is what goes wrong. When the end of a segment is looked at
from behind, the element that does not match is counted as well, so the next
segment may complete a run that is one element short.
-/

namespace Segmented

open Segments Segmentation

variable {α : Type*}

/-! ## The scan of one segment -/

/-- `segtrio`, as the scans return it: whether the run is complete, the number
of elements that is carried on, and where a run started. -/
structure SegTrio where
  first : Bool
  second : ℕ
  third : ℕ
deriving DecidableEq

/-- `static_cast<difference_type>` of a count. -/
def difference (n : ℕ) : ℤ := Int.bmod n (2 ^ 64)

/-- An iterator of random access, moved; it may not come before the begin. -/
def advance (p : ℕ) (n : ℤ) : Option ℕ := if 0 ≤ p + n then some (p + n).toNat else none

/-- The loop that looks at so many elements, from one back. It ends with the
first of them, or with one that does not match. -/
def verifyBack (pred : α → Bool) (mem : Memory α) : ℕ → ℕ → Option (Scan ℕ ℕ)
  | 0, _ => none
  | left + 1, lcur => (mem lcur).bind (fun x =>
      if pred x then
        if left = 0 then some (Scan.done lcur)
        else if lcur = 0 then none
        else verifyBack pred mem left (lcur - 1)
      else some (Scan.more lcur))

/-- The loop that looks at every `count`-th element. It ends with a run, or with
the last element that did not match. -/
def probeLoop (pred : α → Bool) (mem : Memory α) (count : ℕ) (dcount lendSafe : ℤ) :
    ℕ → ℕ → Option (Scan ℕ ℕ) :=
  Scan.loop (fun lcur => (verifyBack pred mem count lcur).bind (fun e => match e with
    | .done lcur => some (Scan.done (Scan.done lcur))
    | .more lcur =>
      if lendSafe ≤ lcur then some (Scan.done (Scan.more lcur))
      else (advance lcur dcount).map Scan.more))

/-- Phase 3 of `search_n_scan_segment`: the elements at the end of the segment. -/
def searchNTail (pred : α → Bool) (mem : Memory α) (lcur lend : ℕ) : Option SegTrio :=
  if lend = lcur then some ⟨false, 0, lend⟩
  else (verifyBack pred mem (lend - lcur) (lend - 1)).map (fun e => match e with
    | .done tail => ⟨false, lend - tail, tail⟩
    -- the run starts at `tail + 1`, its elements are counted from `tail`
    | .more tail => ⟨false, lend - tail, tail + 1⟩)

/-- Phases 2 and 3: there is no run to go on with. -/
def searchNProbes (pred : α → Bool) (mem : Memory α) (count lcur lend : ℕ) : Option SegTrio :=
  if difference count ≤ lend - lcur then
    (advance lcur (difference count - 1)).bind (fun probe =>
      (probeLoop pred mem count (difference count) (lend - difference count) (lend + 1) probe).bind
        (fun e => match e with
          | .done start => some ⟨true, count, start⟩
          | .more lcur => searchNTail pred mem (lcur + 1) lend))
  else searchNTail pred mem lcur lend

/-- **`search_n_scan_segment`** for elements of random access that are not cut. -/
def searchNScanRandom (pred : α → Bool) (mem : Memory α) (count lcur lend consecutive : ℕ) :
    Option SegTrio :=
  if 0 < consecutive then
    let need := difference (count - consecutive)
    let avail : ℤ := lend - lcur
    let ncheck := if need < avail then need else avail
    if ncheck = 0 then some ⟨false, consecutive, lend⟩
    else (advance lcur (ncheck - 1)).bind (fun probe =>
      (verifyBack pred mem ncheck.toNat probe).bind (fun e => match e with
        | .done _ => some ⟨decide (consecutive + ncheck.toNat = count),
            consecutive + ncheck.toNat, lend⟩
        | .more lcur => searchNProbes pred mem count (lcur + 1) lend))
  else searchNProbes pred mem count lcur lend

/-- **`search_n_scan_segment`** one element after the other. -/
def searchNScanForward (pred : α → Bool) (mem : Memory α) (count lcur lend consecutive : ℕ)
    (matchStart : ℕ) : Option SegTrio :=
  (Scan.forRange lcur lend (fun lcur (s : ℕ × ℕ) => (mem lcur).map (fun x =>
    if pred x then
      let matchStart := if s.1 = 0 then lcur else s.2
      if s.1 + 1 = count then Scan.done (SegTrio.mk true (s.1 + 1) matchStart)
      else Scan.more (s.1 + 1, matchStart)
    else Scan.more (0, s.2))) (consecutive, matchStart)).map (fun e => match e with
      | .more s => ⟨false, s.1, s.2⟩
      | .done r => r)

/-! ## The walk -/

/-- **`search_n_scan_segment`**, with elements at the bottom that are of random
access or not. -/
def searchNScanSegment (pred : α → Bool) (ra : Bool) (count : ℕ) :
    (d : ℕ) → Segmentation d → Memory α → ℕ → ℕ → ℕ → Option SegTrio
  | 0, _, mem, lcur, lend, consecutive =>
    if ra then searchNScanRandom pred mem count lcur lend consecutive
    else searchNScanForward pred mem count lcur lend consecutive lend
  | d + 1, c, mem, first, last, consecutive =>
    (walk c.sizes first last (fun k a b (s : ℕ × ℕ) =>
      (searchNScanSegment pred ra count d (c.child k) (mem.dropTo (start c.sizes k)) a b
        s.1).map (fun r =>
          let matchStart := if r.third ≠ b then compose c.sizes k r.third else s.2
          if r.first then Scan.done (SegTrio.mk true r.second matchStart)
          else Scan.more (r.second, matchStart))) (consecutive, last)).map (fun e => match e with
      | .more s => ⟨false, s.1, s.2⟩
      | .done r => r)

/-- The answer of a scan of the whole range. -/
def SegTrio.answer (r : SegTrio) (last : ℕ) : ℕ := if r.first then r.third else last

/-- **`search_n_top_dispatch`**: a range of random access that is not cut is
probed at once. -/
def searchNTopDispatch (pred : α → Bool) (ra : ℕ → Bool) (sentinel : Bool) {d : ℕ}
    (c : Segmentation d) (mem : Memory α) (first last count : ℕ) : Option ℕ :=
  if sentinel then
    (searchNScanForward pred mem count first last 0 first).map (SegTrio.answer · last)
  else if d = 0 ∧ ra 0 = true then
    (advance first (difference count - 1)).bind (fun probe =>
      (probeLoop pred mem count (difference count) (last - difference count) (last + 1) probe).map
        (fun e => match e with
          | .done start => start
          | .more _ => last))
  else (searchNScanSegment pred (ra 0) count d c mem first last 0).map (SegTrio.answer · last)

/-- **`segmented_search_n`**, with the comparison to the value as a predicate. The
iterators of each level are of random access or not; those of the range are of
level `d`. -/
def segmentedSearchN (pred : α → Bool) (ra : ℕ → Bool) (sentinel : Bool) {d : ℕ}
    (c : Segmentation d) (mem : Memory α) (first last : ℕ) (count : ℤ) : Option ℕ :=
  if count ≤ 0 then some first
  else if count = 1 then
    if sentinel then findIfLoop pred mem first last
    else segmentedFindIfDispatch pred d c mem first last
  else if sentinel = false ∧ ra d = true ∧ (last - first : ℤ) < difference count.toNat then
    some last
  else searchNTopDispatch pred ra sentinel c mem first last count.toNat

/-! ## Runs -/

/-- All the elements of a part match. -/
def AllMatch (m : ℕ → Bool) (a b : ℕ) : Prop := ∀ i, a ≤ i → i < b → m i = true

/-- **A run of `n` elements at a position of a range.** -/
def RunAt (m : ℕ → Bool) (last n p : ℕ) : Prop := p + n ≤ last ∧ AllMatch m p (p + n)

/-- **The leftmost run of `n` elements**, or the end of the range. -/
structure IsSearchN (m : ℕ → Bool) (first last n r : ℕ) : Prop where
  ge : first ≤ r
  le : r ≤ last
  before : ∀ p, first ≤ p → p < r → ¬ RunAt m last n p
  at_lt : r < last → RunAt m last n r

/-- **A run may start at a position** `s` of a part that `c` elements were carried
into: all match from there to `b`, and before there is neither a run nor a
completion of what was carried. -/
structure Started (m : ℕ → Bool) (n a c b s : ℕ) : Prop where
  ge : a ≤ s
  le : s ≤ b
  all : AllMatch m s b
  lt : b - s < n
  edge : s = a ∧ c = 0 ∨ a < s ∧ m (s - 1) = false
  none : ∀ p, a ≤ p → p + n ≤ b → ¬ AllMatch m p (p + n)
  incomplete : 0 < c → a + (n - c) ≤ b → ¬ AllMatch m a (a + (n - c))

/-- **How the scan of a part ends** that `c` elements were carried into: they are
completed, or a run is found, or they go on to the end of the part, or a run
starts in it, and then one element too many may be counted. -/
inductive ScanEnds (m : ℕ → Bool) (loose : Bool) (n a b c ms : ℕ) : SegTrio → Prop
  | completes (hc : 0 < c) (hle : a + (n - c) ≤ b) (h : AllMatch m a (a + (n - c))) :
    ScanEnds m loose n a b c ms ⟨true, n, ms⟩
  | finds (q : ℕ) (ha : a ≤ q) (hb : q + n ≤ b) (h : AllMatch m q (q + n))
    (before : ∀ p, a ≤ p → p < q → ¬ AllMatch m p (p + n))
    (hc : 0 < c → ¬ AllMatch m a (a + (n - c))) : ScanEnds m loose n a b c ms ⟨true, n, q⟩
  | continues (hc : 0 < c) (hlt : c + (b - a) < n) (h : AllMatch m a b) :
    ScanEnds m loose n a b c ms ⟨false, c + (b - a), ms⟩
  | starts (s c' third : ℕ) (h : Started m n a c b s) (hn : c' < n)
    (count : c' = b - s ∨ loose = true ∧ a < s ∧ c' = b - s + 1)
    (hthird : third ≤ b ∧ (s < b → third = s)) :
    ScanEnds m loose n a b c ms ⟨false, c', third⟩

section Runs

variable {m : ℕ → Bool} {a b c k n p q s : ℕ}

theorem AllMatch.sub (h : AllMatch m a b) (hp : a ≤ p) (hq : q ≤ b) : AllMatch m p q :=
  fun i hi hiq => h i (hp.trans hi) (hiq.trans_le hq)

/-- An element that does not match is in no run. -/
theorem not_allMatch (h : m k = false) (ha : a ≤ k) (hb : k < b) : ¬ AllMatch m a b :=
  fun hall => absurd ((hall k ha hb).symm.trans h) (by decide)

theorem AllMatch.succ (h : AllMatch m a b) (hb : m b = true) : AllMatch m a (b + 1) := by
  intro i hi hib
  rcases Nat.lt_succ_iff_lt_or_eq.mp hib with hlt | rfl
  · exact h i hi hlt
  · exact hb

theorem AllMatch.append (h : AllMatch m a b) (h' : AllMatch m b p) : AllMatch m a p := by
  intro i hi hip
  rcases Nat.lt_or_ge i b with hlt | hge
  · exact h i hi hlt
  · exact h' i hge hip

/-- No part with the element before the start matches. -/
theorem Started.not_allMatch (h : Started m n a c b s) (ha : a ≤ p) (hps : p < s) (hsq : s ≤ q) :
    ¬ AllMatch m p q := by
  rcases h.edge with ⟨rfl, -⟩ | ⟨hlt, hm⟩
  · exact absurd ha (Nat.not_le.mpr hps)
  · exact Segmented.not_allMatch hm (by omega) (by omega)

/-- An element that matches. -/
theorem Started.succ (h : Started m n a c b s) (hb : m b = true) (hlt : b + 1 - s < n) :
    Started m n a c (b + 1) s where
  ge := h.ge
  le := by have := h.le; omega
  all := h.all.succ hb
  lt := hlt
  edge := h.edge
  none p hp hpb := by
    rcases Nat.lt_or_ge b (p + n) with hlt' | hge
    · exact h.not_allMatch hp (by have := h.le; omega) (by have := h.le; omega)
    · exact h.none p hp hge
  incomplete hc hle := by
    rcases Nat.lt_or_ge b (a + (n - c)) with hlt' | hge
    · rcases h.edge with ⟨-, rfl⟩ | ⟨hlt'', -⟩
      · exact absurd hc (lt_irrefl 0)
      · exact h.not_allMatch le_rfl hlt'' (by have := h.le; omega)
    · exact h.incomplete hc hge

/-- The element that completes a run. -/
theorem Started.finds {loose : Bool} {ms e : ℕ} (h : Started m n a c b s) (hb : m b = true)
    (hn : b + 1 - s = n) (hbe : b < e) : ScanEnds m loose n a e c ms ⟨true, n, s⟩ := by
  have hle := h.le
  have hrun : AllMatch m s (s + n) := by
    rw [show s + n = b + 1 by omega]
    exact h.all.succ hb
  refine .finds s h.ge (by omega) hrun (fun p hp hps => ?_) (fun hc => ?_)
  · rcases Nat.lt_or_ge b (p + n) with hlt | hge
    · exact h.not_allMatch hp hps (by omega)
    · exact h.none p hp hge
  · rcases h.edge with ⟨-, rfl⟩ | ⟨hlt, -⟩
    · exact absurd hc (lt_irrefl 0)
    · rcases Nat.lt_or_ge b (a + (n - c)) with hlt' | hge
      · exact h.not_allMatch le_rfl hlt (by omega)
      · exact h.incomplete hc hge

/-- After an element that does not match, a run may start. -/
theorem started_of_miss (hab : a ≤ b) (hb : m b = false) (hn : 0 < n)
    (hnone : ∀ p, a ≤ p → p + n ≤ b → ¬ AllMatch m p (p + n))
    (hc : 0 < c → a + (n - c) ≤ b → ¬ AllMatch m a (a + (n - c))) :
    Started m n a c (b + 1) (b + 1) where
  ge := by omega
  le := le_rfl
  all i hi hib := absurd hi (by omega)
  lt := by omega
  edge := Or.inr ⟨by omega, hb⟩
  none p hp hpb := by
    rcases Nat.lt_or_ge b (p + n) with hlt | hge
    · exact Segmented.not_allMatch hb (by omega) hlt
    · exact hnone p hp hge
  incomplete hc' hle := by
    rcases Nat.lt_or_ge b (a + (n - c)) with hlt | hge
    · exact Segmented.not_allMatch hb hab hlt
    · exact hc hc' hge

end Runs

/-! ## What the loops do -/

section Loops

variable {pred : α → Bool} {mem : Memory α} {v : ℕ → α} {a b c n lcur : ℕ}

theorem difference_eq (h : n < 2 ^ 63) : difference n = n := by
  unfold difference
  have hpow : (2 : ℕ) ^ 64 = 2 * 2 ^ 63 := pow_succ' 2 63
  exact Int.bmod_eq_of_le_mul_two (by omega) (by omega)

theorem advance_eq {z : ℤ} (h : (lcur : ℤ) + z = n) : advance lcur z = some n := by
  rw [advance, if_pos (by omega), h, Int.toNat_natCast]

/-- **The loop back** finds that all elements match, or the last one that does
not. -/
theorem verifyBack_yields (hn : 0 < n) (hle : a + n = lcur + 1)
    (hmem : ∀ i, a ≤ i → i ≤ lcur → mem i = some (v i)) :
    (verifyBack pred mem n lcur).Yields (Scan.Ends
      (fun k => a ≤ k ∧ k ≤ lcur ∧ pred (v k) = false
        ∧ AllMatch (fun i => pred (v i)) (k + 1) (lcur + 1))
      (fun q => q = a ∧ AllMatch (fun i => pred (v i)) a (lcur + 1))) := by
  induction n generalizing lcur with
  | zero => exact absurd hn (lt_irrefl 0)
  | succ n ih =>
    rw [verifyBack, hmem lcur (by omega) le_rfl, Option.bind_some]
    by_cases hp : pred (v lcur) = true
    · rw [if_pos hp]
      by_cases hz : n = 0
      · rw [if_pos hz]
        obtain rfl : lcur = a := by omega
        refine Option.yields_some ⟨rfl, fun i hi hil => ?_⟩
        obtain rfl : i = lcur := by omega
        exact hp
      · rw [if_neg hz, if_neg (by omega)]
        have hsucc : lcur - 1 + 1 = lcur := by omega
        refine (ih (by omega) (by omega) (fun i hi hil => hmem i hi (by omega))).imp
          (fun e he => ?_)
        rw [hsucc] at he
        cases e with
        | more k => exact ⟨he.1, by have := he.2.1; omega, he.2.2.1, he.2.2.2.succ hp⟩
        | done q => exact ⟨he.1, he.2.succ hp⟩
    · rw [if_neg hp]
      exact Option.yields_some ⟨by omega, le_rfl, Bool.eq_false_iff.mpr hp,
        fun i hi hil => absurd hi (by omega)⟩

/-- **The probes** find the leftmost run in a part, or stop at an element that
does not match with fewer than `n` behind it. -/
theorem probeLoop_yields (hn : 0 < n) (hle : a + n ≤ b)
    (hmem : ∀ i, a ≤ i → i < b → mem i = some (v i)) :
    (probeLoop pred mem n n (b - n) (b + 1) (a + (n - 1))).Yields (Scan.Ends
      (fun k => a ≤ k ∧ k < b ∧ b ≤ k + n ∧ pred (v k) = false
        ∧ ∀ p, a ≤ p → p ≤ k → ¬ AllMatch (fun i => pred (v i)) p (p + n))
      (fun q => a ≤ q ∧ q + n ≤ b ∧ AllMatch (fun i => pred (v i)) q (q + n)
        ∧ ∀ p, a ≤ p → p < q → ¬ AllMatch (fun i => pred (v i)) p (p + n))) := by
  refine Scan.loop_yields (fun probe => b - probe)
    (I := fun probe => ∃ l, a ≤ l ∧ l + (n - 1) = probe ∧ probe < b
      ∧ ∀ p, a ≤ p → p < l → ¬ AllMatch (fun i => pred (v i)) p (p + n)) ?_ (by omega)
    ⟨a, le_rfl, rfl, by omega, fun p hp hpa => absurd hp (by omega)⟩
  rintro probe ⟨l, hal, hl, hprobe, hnone⟩
  refine (verifyBack_yields (a := l) hn (by omega)
    (fun i hi hip => hmem i (by omega) (by omega))).bind (fun e he => ?_)
  cases e with
  | done q =>
    obtain ⟨rfl, hall⟩ := he
    refine Option.yields_some ⟨hal, by omega, ?_, hnone⟩
    rwa [show q + n = probe + 1 by omega]
  | more k =>
    obtain ⟨hlk, hkp, hk, -⟩ := he
    have hnone' : ∀ p, a ≤ p → p ≤ k → ¬ AllMatch (fun i => pred (v i)) p (p + n) := by
      intro p hp hpk
      rcases Nat.lt_or_ge p l with hlt | hge
      · exact hnone p hp hlt
      · exact not_allMatch (k := k) hk hpk (by omega)
    simp only
    split
    · next hsafe => exact Option.yields_some ⟨by omega, by omega, by omega, hk, hnone'⟩
    · next hsafe =>
      rw [advance_eq (n := k + n) (by omega)]
      exact Option.yields_some ⟨⟨k + 1, by omega, by omega, by omega,
        fun p hp hpk => hnone' p hp (by omega)⟩, by omega⟩

/-- The look at the end of a part: a run starts there, and is counted from the
element before it where there is one. -/
theorem searchNTail_ends {t : ℕ} (hat : a ≤ t) (htb : t ≤ b) (hbt : b < t + n)
    (hmem : ∀ i, t ≤ i → i < b → mem i = some (v i))
    (ht : t = a ∧ c = 0 ∨ a < t ∧ pred (v (t - 1)) = false)
    (hnone : ∀ p, a ≤ p → p < t → ¬ AllMatch (fun i => pred (v i)) p (p + n))
    (hc : 0 < c → ¬ AllMatch (fun i => pred (v i)) a (a + (n - c))) :
    (searchNTail pred mem t b).Yields (ScanEnds (fun i => pred (v i)) true n a b c b) := by
  have hnone' : ∀ p, a ≤ p → p + n ≤ b → ¬ AllMatch (fun i => pred (v i)) p (p + n) :=
    fun p hp hpb => hnone p hp (by omega)
  rw [searchNTail]
  split
  · next heq =>
    subst heq
    exact Option.yields_some (.starts b 0 b ⟨hat, le_rfl, fun i hi hib => absurd hi (by omega),
      by omega, ht, hnone', fun h _ => hc h⟩ (by omega) (Or.inl (by omega)) ⟨le_rfl, fun _ => rfl⟩)
  · next hne =>
    have hsucc : b - 1 + 1 = b := by omega
    refine (verifyBack_yields (a := t) (by omega) (by omega)
      (fun i hi hib => hmem i hi (by omega))).map (fun e he => ?_)
    rw [hsucc] at he
    cases e with
    | done q =>
      obtain ⟨rfl, hall⟩ := he
      exact .starts q (b - q) q ⟨hat, htb, hall, by omega, ht, hnone', fun h _ => hc h⟩ (by omega)
        (Or.inl rfl) ⟨htb, fun _ => rfl⟩
    | more k =>
      obtain ⟨htk, hkb, hk, hall⟩ := he
      exact .starts (k + 1) (b - k) (k + 1) ⟨by omega, by omega, hall, by omega,
        Or.inr ⟨by omega, hk⟩, hnone', fun h _ => hc h⟩ (by omega)
        (Or.inr ⟨rfl, by omega, by omega⟩) ⟨by omega, fun _ => rfl⟩

theorem searchNProbes_ends {t : ℕ} (hn : 0 < n) (hfit : n < 2 ^ 63) (htb : t ≤ b)
    (hmem : ∀ i, t ≤ i → i < b → mem i = some (v i))
    (ht : t = a ∧ c = 0 ∨ a < t ∧ t ≤ a + (n - c) ∧ pred (v (t - 1)) = false) :
    (searchNProbes pred mem n t b).Yields (ScanEnds (fun i => pred (v i)) true n a b c b) := by
  have hat : a ≤ t := by omega
  have ht' : t = a ∧ c = 0 ∨ a < t ∧ pred (v (t - 1)) = false := by
    rcases ht with h | ⟨h, -, hf⟩
    · exact Or.inl h
    · exact Or.inr ⟨h, hf⟩
  have hbefore : ∀ p, a ≤ p → p < t → ¬ AllMatch (fun i => pred (v i)) p (p + n) := by
    rintro p hp hpt
    rcases ht with ⟨rfl, -⟩ | ⟨h, hle, hf⟩
    · exact absurd hp (by omega)
    · exact not_allMatch (k := t - 1) hf (by omega) (by omega)
  have hc : 0 < c → ¬ AllMatch (fun i => pred (v i)) a (a + (n - c)) := by
    rintro hc
    rcases ht with ⟨-, rfl⟩ | ⟨h, hle, hf⟩
    · exact absurd hc (lt_irrefl 0)
    · exact not_allMatch (k := t - 1) hf (by omega) (by omega)
  rw [searchNProbes, difference_eq hfit]
  split
  · next hle =>
    rw [advance_eq (n := t + (n - 1)) (by omega), Option.bind_some]
    refine (probeLoop_yields hn (by omega) hmem).bind (fun e he => ?_)
    cases e with
    | done q =>
      obtain ⟨htq, hqb, hall, hnone⟩ := he
      refine Option.yields_some (.finds q (by omega) hqb hall (fun p hp hpq => ?_) hc)
      rcases Nat.lt_or_ge p t with hlt | hge
      · exact hbefore p hp hlt
      · exact hnone p hge hpq
    | more k =>
      obtain ⟨htk, hkb, hbk, hk, hnone⟩ := he
      refine searchNTail_ends (by omega) (by omega) (by omega)
        (fun i hi hib => hmem i (by omega) hib) (Or.inr ⟨by omega, hk⟩) (fun p hp hpk => ?_) hc
      rcases Nat.lt_or_ge p t with hlt | hge
      · exact hbefore p hp hlt
      · exact hnone p hge (by omega)
  · next hle => exact searchNTail_ends hat htb (by omega) hmem ht' hbefore hc

/-- **The scan of a part of random access**, in which the carried number may end
one too high. -/
theorem searchNScanRandom_ends (hfit : n < 2 ^ 63) (hab : a ≤ b) (hcn : c < n)
    (hmem : ∀ i, a ≤ i → i < b → mem i = some (v i)) :
    (searchNScanRandom pred mem n a b c).Yields
      (ScanEnds (fun i => pred (v i)) true n a b c b) := by
  rw [searchNScanRandom]
  split
  · next hc =>
    simp only [difference_eq (show n - c < 2 ^ 63 by omega)]
    obtain ⟨w, hw, hwn⟩ : ∃ w : ℕ, w = min (n - c) (b - a)
        ∧ (if ((n - c : ℕ) : ℤ) < (b : ℤ) - a then ((n - c : ℕ) : ℤ) else (b : ℤ) - a) = w := by
      refine ⟨min (n - c) (b - a), rfl, ?_⟩
      split <;> omega
    simp only [hwn, Int.toNat_natCast]
    split
    · next hz =>
      obtain rfl : a = b := by omega
      have hnone : AllMatch (fun i => pred (v i)) a a := fun i hi hib => absurd hi (by omega)
      have hends : ScanEnds (fun i => pred (v i)) true n a a c a _ :=
        .continues hc (by omega) hnone
      rw [Nat.sub_self, Nat.add_zero] at hends
      exact Option.yields_some hends
    · next hz =>
      rw [advance_eq (n := a + (w - 1)) (by omega), Option.bind_some]
      refine (verifyBack_yields (a := a) (by omega) (by omega)
        (fun i hi hil => hmem i hi (by omega))).bind (fun e he => ?_)
      cases e with
      | done q =>
        obtain ⟨rfl, hall⟩ := he
        rw [show q + (w - 1) + 1 = q + w by omega] at hall
        rcases Nat.lt_or_ge (b - q) (n - c) with hlt | hge
        · obtain rfl : w = b - q := by omega
          rw [decide_eq_false (by omega)]
          exact Option.yields_some (.continues hc (by omega) (hall.sub le_rfl (by omega)))
        · obtain rfl : w = n - c := by omega
          rw [show c + (n - c) = n by omega, decide_eq_true rfl]
          refine Option.yields_some ?_
          exact .completes hc (by omega) hall
      | more k =>
        obtain ⟨hak, hkw, hk, -⟩ := he
        exact searchNProbes_ends (by omega) hfit (by omega) (fun i hi hib => hmem i (by omega) hib)
          (Or.inr ⟨by omega, by omega, hk⟩)
  · next hc => exact searchNProbes_ends (by omega) hfit hab hmem (Or.inl ⟨rfl, by omega⟩)

/-- **The scan of a part one element after the other**, which counts rightly. -/
theorem searchNScanForward_ends {ms : ℕ} (hab : a ≤ b) (hcn : c < n) (hms : ms ≤ b)
    (hmem : ∀ i, a ≤ i → i < b → mem i = some (v i)) :
    (searchNScanForward pred mem n a b c ms).Yields
      (ScanEnds (fun i => pred (v i)) false n a b c ms) := by
  -- before `p` the carried run goes on, or a run may have started
  refine (Scan.forRange_yields (P := fun p (s : ℕ × ℕ) =>
      0 < c ∧ s = (c + (p - a), ms) ∧ c + (p - a) < n ∧ AllMatch (fun i => pred (v i)) a p
      ∨ ∃ t, Started (fun i => pred (v i)) n a c p t ∧ s.1 = p - t ∧ (t < p → s.2 = t)
        ∧ s.2 ≤ b)
    (Q := ScanEnds (fun i => pred (v i)) false n a b c ms) hab ?_ ?_).map ?_
  · rintro p ⟨cnt, ms'⟩ hap hpb hP
    refine (Option.Yields.map (Q := (· = v p)) ⟨v p, hmem p hap hpb, rfl⟩ ?_)
    rintro x rfl
    by_cases hp : pred (v p) = true
    · rw [if_pos hp]
      rcases hP with ⟨hc, heq, hlt, hall⟩ | ⟨t, ht, hcnt, hms, hmb⟩
      · obtain ⟨rfl, rfl⟩ := Prod.mk.injEq .. ▸ heq
        simp only
        rw [if_neg (show ¬ c + (p - a) = 0 by omega)]
        split
        · next hn =>
          rw [hn]
          refine .completes hc (by omega) ?_
          rw [show a + (n - c) = p + 1 by omega]
          exact hall.succ hp
        · next hn =>
          exact Or.inl ⟨hc, by rw [show p + 1 - a = p - a + 1 by omega, Nat.add_assoc], by omega,
            hall.succ hp⟩
      · have hle := ht.le
        have hstart : (if cnt = 0 then p else ms') = t := by
          split
          · omega
          · exact hms (by omega)
        simp only at hcnt ⊢
        rw [hstart]
        split
        · next hn =>
          rw [hn]
          exact ht.finds hp (by omega) hpb
        · next hn =>
          exact Or.inr ⟨t, ht.succ hp (by have := ht.lt; omega), by omega, fun _ => rfl, by omega⟩
    · rw [if_neg hp]
      have hp' := Bool.eq_false_iff.mpr hp
      rcases hP with ⟨hc, heq, hlt, hall⟩ | ⟨t, ht, hcnt, hms, hmb⟩
      · obtain ⟨rfl, rfl⟩ := Prod.mk.injEq .. ▸ heq
        exact Or.inr ⟨p + 1, started_of_miss hap hp' (by omega) (fun q hq hqp => by omega)
          (fun _ hle => by omega), by omega, fun hlt => absurd hlt (lt_irrefl _), hms⟩
      · exact Or.inr ⟨p + 1, started_of_miss hap hp' (by have := ht.lt; omega) ht.none
          ht.incomplete, by omega, fun hlt => absurd hlt (lt_irrefl _), hmb⟩
  · rcases Nat.eq_zero_or_pos c with rfl | hc
    · exact Or.inr ⟨a, ⟨le_rfl, le_rfl, fun i hi hia => absurd hi (by omega), by omega,
        Or.inl ⟨rfl, rfl⟩, fun p hp hpa => by omega, fun h => absurd h (lt_irrefl 0)⟩, by omega,
        fun hlt => absurd hlt (lt_irrefl _), hms⟩
    · exact Or.inl ⟨hc, by rw [Nat.sub_self, Nat.add_zero], by omega,
        fun i hi hia => absurd hi (by omega)⟩
  · intro e he
    cases e with
    | done r => exact he
    | more s =>
      obtain ⟨cnt, ms'⟩ := s
      rcases he with ⟨hc, heq, hlt, hall⟩ | ⟨t, ht, hcnt, hms, hmb⟩
      · obtain ⟨rfl, rfl⟩ := Prod.mk.injEq .. ▸ heq
        exact .continues hc hlt hall
      · have hlt := ht.lt
        exact .starts t cnt ms' ht (by simp only at hcnt; omega) (Or.inl hcnt) ⟨hmb, hms⟩

end Loops

end Segmented
