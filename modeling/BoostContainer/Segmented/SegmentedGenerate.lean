import BoostContainer.Segmented.SegmentedFillN
import BoostContainer.Segmented.SegmentedReverseCopy

/-!
# Walkers that thread their state

A function object is called for each position of a range. It has a state of its
own, and what it does to the elements is part of one state with it, so a call is a
step on that state. Called through the segments of a range, it is called as through
a range that is not cut, each time with the state that the call before has left;
and so are a second position, or two, that the walk takes along.

The generation of so many elements is the fill again (the number may be narrower
than the length of a segment), with a call where the fill writes.
-/

namespace Segmented

open Segments Segmentation

variable {σ : Type*}

/-! ## Ranges -/

/-- **A walker of a range**: a step at each position, segment by segment. A range that
ends with a sentinel is not walked by its segments. -/
def stepDispatch {τ : Type*} (step : ℕ → τ → Option τ) (sentinel : Bool) {d : ℕ} (o : ℕ)
    (c : Segmentation d) (first last : ℕ) (s : τ) : Option τ :=
  if sentinel then runRange step first last s
  else scanParts (runRange step) d o c first last s

/-- **`segmented_for_each`**: the function object, with the elements, is handed from
part to part and given back. -/
def segmentedForEach (f : ℕ → σ → Option σ) (sentinel : Bool) {d : ℕ} (o : ℕ)
    (c : Segmentation d) (first last : ℕ) (s : σ) : Option σ :=
  stepDispatch f sentinel o c first last s

/-- **`segmented_generate`**: the generator is called, and what it makes is assigned. -/
def segmentedGenerate (gen : ℕ → σ → Option σ) (sentinel : Bool) {d : ℕ} (o : ℕ)
    (c : Segmentation d) (first last : ℕ) (s : σ) : Option σ :=
  stepDispatch gen sentinel o c first last s

/-- **`segmented_swap_ranges`**: the position in the second range is taken along. -/
def segmentedSwapRanges (swap : ℕ → ℕ → σ → Option σ) (sentinel : Bool) {d : ℕ} (o : ℕ)
    (c : Segmentation d) (first1 last1 first2 : ℕ) (s : σ) : Option (σ × ℕ) :=
  stepDispatch (copyTo swap) sentinel o c first1 last1 (s, first2)

/-- The step of a copy to one of two places: the elements, and the two positions. -/
def partitionTo (pred : ℕ → σ → Option Bool) (copy : ℕ → ℕ → σ → Option σ) (p : ℕ)
    (s : σ × ℕ × ℕ) : Option (σ × ℕ × ℕ) :=
  (pred p s.1).bind (fun b =>
    if b then (copy p s.2.1 s.1).map (fun t => (t, s.2.1 + 1, s.2.2))
    else (copy p s.2.2 s.1).map (fun t => (t, s.2.1, s.2.2 + 1)))

/-- **`segmented_partition_copy`**: the two positions of the output are taken along. -/
def segmentedPartitionCopy (pred : ℕ → σ → Option Bool) (copy : ℕ → ℕ → σ → Option σ)
    (sentinel : Bool) {d : ℕ} (o : ℕ) (c : Segmentation d) (first last outTrue outFalse : ℕ)
    (s : σ) : Option (σ × ℕ × ℕ) :=
  stepDispatch (partitionTo pred copy) sentinel o c first last (s, outTrue, outFalse)

/-- **The steps of a segmented range are those of a range that is not cut**, in the
same order, each from the state that the one before has left. -/
theorem stepDispatch_eq {τ : Type*} (step : ℕ → τ → Option τ) {sentinel : Bool} {d o first last : ℕ}
    {c : Segmentation d} {s t : τ} (hsrc : Positions o c first last)
    (hrun : runRange step first last s = some t) :
    stepDispatch step sentinel o c first last s = some t := by
  unfold stepDispatch
  split
  · exact hrun
  · refine Option.yields_iff_of_unique (Q := (· = t)) (fun _ h => h) ?_
    refine (scanParts_yields (P := fun p u => runRange step first p s = some u) ?_ hsrc.ge le_rfl
      hsrc.le le_rfl hsrc.le_size (runRange_self ..)).imp
      (fun u hu => Option.some.inj (hu.symm.trans hrun))
    intro a b u hfa hab hbl hu
    obtain ⟨w, hw, -⟩ := exists_runRange hab hbl
      ((runRange_of_append hfa (hab.trans hbl) hu).symm.trans hrun)
    exact ⟨w, hw, (runRange_of_append hfa hab hu).trans hw⟩

/-! ## `segmented_generate_n` -/

/-- What a generation works on: the generator with the elements, how far it has got,
and how many elements are left. -/
structure GenerateN (σ : Type*) where
  s : σ
  first : ℕ
  count : ℤ

/-- So many elements are generated. -/
def GenerateN.call (gen : ℕ → σ → Option σ) (n : ℕ) (count : ℤ) (r : GenerateN σ) :
    Option (GenerateN σ) :=
  (runRange gen r.first (r.first + n) r.s).map (fun s => ⟨s, r.first + n, count⟩)

/-- **`generate_n_scan`** of a part that is not cut. -/
def generateNScan (S : SizeType) (ra : Bool) (gen : ℕ → σ → Option σ) (last : ℕ)
    (r : GenerateN σ) : Option (GenerateN σ) :=
  if ra then
    let rangeSz := S.conv (last - r.first)
    let length := if r.count < rangeSz then r.count else rangeSz
    r.call gen (S.turns length) (S.conv (r.count - length))
  else
    let n := min r.count.toNat (last - r.first)
    r.call gen n (r.count - n)

/-- The loops: over a part of a segment, or with no end. -/
def generateNWork (S : SizeType) (ra : Bool) (gen : ℕ → σ → Option σ) :
    Option ℕ → GenerateN σ → Option (GenerateN σ)
  | some last, r => generateNScan S ra gen last r
  | none, r => r.call gen r.count.toNat (r.count - r.count.toNat)

/-- The generation, as a worker. -/
def generatorN (σ : Type*) : Worker (GenerateN σ) where
  pos := GenerateN.first
  setPos a r := { r with first := a }
  finished r := decide (r.count = 0)

/-- **`segmented_generate_n`.** -/
def segmentedGenerateN (S : SizeType) (ra : Bool) (gen : ℕ → σ → Option σ) {d : ℕ} (o : ℕ)
    (c : Segmentation d) (first : ℕ) (count : ℤ) (s : σ) : Option (σ × ℕ) :=
  (fillOn (generatorN σ) (generateNWork S ra gen) (fun _ => false) d o c
    ⟨s, first, count⟩).map (fun r => (r.s, r.first))

/-- **Some of the elements have been generated.** -/
structure Generated (gen : ℕ → σ → Option σ) (first stop : ℕ) (s : σ) (r : GenerateN σ) : Prop where
  ge : first ≤ r.first
  le : r.first ≤ stop
  count : r.count = (stop : ℤ) - r.first
  run : runRange gen first r.first s = some r.s

section Generate

variable {S : SizeType} {ra : Bool} {gen : ℕ → σ → Option σ} {first stop last n : ℕ} {s t : σ}
  {r : GenerateN σ} {count z : ℤ}

/-- More elements are generated. -/
theorem Generated.call (h : Generated gen first stop s r)
    (hrun : runRange gen first stop s = some t) (hn : r.first + n ≤ stop)
    (hz : z = r.count - n) :
    (r.call gen n z).Yields (fun r' => Generated gen first stop s r' ∧ r'.first = r.first + n) := by
  obtain ⟨u, hu, -⟩ := exists_runRange (Nat.le_add_right r.first n) hn
    ((runRange_of_append h.ge h.le h.run).symm.trans hrun)
  have hcount := h.count
  rw [GenerateN.call, hu, Option.map_some]
  refine Option.yields_some ⟨⟨h.ge.trans (Nat.le_add_right _ _), hn, ?_, ?_⟩, rfl⟩
  · simp only
    push_cast
    omega
  · exact (runRange_of_append h.ge (Nat.le_add_right _ _) h.run).trans hu

/-- **A part that is not taken for one too short is worked off** as far as there is
to generate. -/
theorem generateNScan_yields (h : Generated gen first stop s r)
    (hrun : runRange gen first stop s = some t) (hle : r.first ≤ last)
    (hmax : (stop : ℤ) - first ≤ S.max)
    (hfit : ra = true → r.count ≤ (last : ℤ) - r.first → r.count ≤ S.conv (last - r.first)) :
    (generateNScan S ra gen last r).Yields (fun r' => Generated gen first stop s r'
      ∧ r'.first = r.first + min r.count.toNat (last - r.first)) := by
  have hcount := h.count
  have hge := h.ge
  have hrs := h.le
  unfold generateNScan
  split
  · next hra =>
    have hmin := SizeType.min_conv (S := S) (p := r.first) (e := last) (n := stop) hle
      (by omega) (fun hstop => by have := hfit hra (by omega); omega)
    have hlength : (if r.count < S.conv (last - r.first) then r.count
        else S.conv (last - r.first)) = ((min r.count.toNat (last - r.first) : ℕ) : ℤ) := by
      split <;> omega
    simp only [hlength]
    rw [SizeType.turns_eq (by omega) (by omega), Int.toNat_natCast,
      SizeType.conv_eq (by omega) (by omega)]
    exact h.call hrun (by omega) rfl
  · exact h.call hrun (by omega) rfl

/-- **The generation works**, where it takes no segment for one that is too short. -/
theorem works_generatorN (hrun : runRange gen first stop s = some t)
    (hmax : (stop : ℤ) - first ≤ S.max) :
    Works (generatorN σ) (generateNWork S ra gen) first
      (fun a b => ra = true → SegmentFits S first stop a b) (Generated gen first stop s)
      (fun r r' => Generated gen first stop s r → Generated gen first stop s r') stop where
  refl _ h := h
  trans h h' hr := h' (h hr)
  keeps h hr := h hr
  setPos _ := rfl
  le_lim hr := hr.le
  work := by
    rintro r dstLast hr hgo hpart
    have hge := hr.ge
    have hrs := hr.le
    have hcount := hr.count
    cases dstLast with
    | none =>
      have hnone : ∀ q e : ℕ, (none : Option ℕ) = some e → q ≤ e := fun q e he => nomatch he
      refine (hr.call (z := r.count - r.count.toNat) hrun (by omega) rfl).imp (fun r' hr' => ?_)
      obtain ⟨hgen, hfirst⟩ := hr'
      have hcount' := hgen.count
      exact ⟨fun _ => hgen, hnone _, Or.inl (decide_eq_true (by omega))⟩
    | some e =>
      obtain ⟨hre, a, hfits, har, hbegin⟩ := hpart e rfl
      simp only [generatorN] at hre har hbegin hgo
      have hfit : ra = true → r.count ≤ (e : ℤ) - r.first → r.count ≤ S.conv (e - r.first) := by
        intro hra hroom
        have hmax' : max a first = r.first := by omega
        rcases Nat.eq_or_lt_of_le hrs with heq | hlt
        · rcases Nat.eq_or_lt_of_le hre with heq' | hlt'
          · rw [heq', sub_self, SizeType.conv_eq le_rfl (by omega)]
            omega
          · have hfirst : r.first = first :=
              hgo.resolve_left (fun h => of_decide_eq_false h (by omega))
            have h := hfits hra ⟨by omega, Or.inr ⟨by omega, by omega, by omega⟩⟩
            rw [hmax'] at h
            omega
        · have h := hfits hra ⟨by omega, Or.inl (by omega)⟩
          rw [hmax'] at h
          omega
      refine (generateNScan_yields hr hrun hre hmax hfit).imp (fun r' hr' => ?_)
      obtain ⟨hgen, hfirst⟩ := hr'
      have hcount' := hgen.count
      refine ⟨fun _ => hgen, fun e' he' => ?_, ?_⟩
      · obtain rfl := Option.some.inj he'
        simp only [generatorN]
        omega
      · simp only [generatorN]
        rw [Option.some.injEq, decide_eq_true_iff]
        omega

/-- **The generation of so many elements, however the range is cut.** -/
theorem segmentedGenerateN_eq {d o : ℕ} {c : Segmentation d} (hcount : S.IsValue count)
    (hout : OutRange o c first (first + count.toNat))
    (hfit : 0 < d → 0 ≤ count ∧ (ra = true → EndFits S o c first (first + count.toNat)))
    (hrun : runRange gen first (first + count.toNat) s = some t) :
    segmentedGenerateN S ra gen o c first count s = some (t, first + count.toNat) := by
  have hmax := hcount.le_max
  by_cases hneg : count < 0
  · cases d with
    | zero =>
      have hzero : count.toNat = 0 := Int.toNat_of_nonpos hneg.le
      rw [hzero] at hrun ⊢
      simp only [segmentedGenerateN, fillOn, generateNWork, GenerateN.call, hzero, hrun,
        Option.map_some]
    | succ d => exact absurd (hfit (Nat.succ_pos d)).1 (not_le.mpr hneg)
  · have hworks : Works (generatorN σ) (generateNWork S ra gen) first
        (fun a b => ra = true → SegmentFits S first (first + count.toNat) a b)
        (Generated gen first (first + count.toNat) s) _ (first + count.toNat) :=
      works_generatorN hrun (by push_cast; omega)
    have hstart : Generated gen first (first + count.toNat) s ⟨s, first, count⟩ :=
      ⟨le_rfl, Nat.le_add_right _ _, by push_cast; omega, runRange_self ..⟩
    refine Option.yields_iff_of_unique (fun _ h => h) ((fillOn_yields
      (s := (⟨s, first, count⟩ : GenerateN σ)) hworks
      (fun hd a b hab hra => (hfit hd).2 hra a b hab) hstart rfl
      Bool.noConfusion hout.le hout.room hout.seg).map ?_)
    rintro r ⟨hT, hfin⟩
    have hgen := hT hstart
    have hz : r.count = 0 := of_decide_eq_true hfin
    have hcount' := hgen.count
    have hfirst : r.first = first + count.toNat := by omega
    have hs := hgen.run
    rw [hfirst] at hs
    rw [hfirst, Option.some.inj (hs.symm.trans hrun)]

end Generate

/-! ## Where too little is generated -/

/-- The position of a call is noted. -/
def noteCall (p : ℕ) (log : List ℕ) : Option (List ℕ) := some (log ++ [p])

theorem runRange_noteCall (a n : ℕ) (log : List ℕ) :
    runRange noteCall a (a + n) log = some (log ++ List.range' a n) := by
  induction n with
  | zero => rw [Nat.add_zero, runRange_self, List.range'_zero, List.append_nil]
  | succ n ih =>
    rw [← Nat.add_assoc, runRange_succ noteCall (Nat.le_add_right a n), ih, Option.bind_some,
      noteCall, List.append_assoc, List.range'_1_concat]

theorem SizeType.max_nonneg (S : SizeType) : 0 ≤ S.max := by
  have hpow := S.two_pow_width
  have hpos : (0 : ℤ) < 2 ^ (S.width - 1) := by positivity
  unfold max
  split <;> omega

/-- A conversion is to a value of the type. -/
theorem SizeType.isValue_conv (S : SizeType) (z : ℤ) : S.IsValue (S.conv z) := by
  unfold IsValue conv
  split
  · exact Int.bmod_bmod ..
  · exact Int.emod_emod_of_dvd z (dvd_refl _)

/-- **A loop that counts to a negative number** turns more often than any value of the
type tells. -/
theorem SizeType.max_lt_turns {S : SizeType} {z : ℤ} (h : S.IsValue z) (hz : z < 0) :
    S.max < S.turns z := by
  have hpow := S.two_pow_width
  have hpos : (0 : ℤ) < 2 ^ (S.width - 1) := by positivity
  unfold IsValue conv at h
  unfold max turns
  split at h
  · next hs =>
    have hle := Int.le_bmod (x := z) (m := 2 ^ S.width) (by positivity)
    rw [h] at hle
    push_cast at hle
    have hmod : z % 2 ^ S.width = z + 2 ^ S.width := by
      rw [← Int.add_emod_right, Int.emod_eq_of_lt] <;> omega
    rw [if_pos hs, hmod]
    omega
  · have := Int.emod_nonneg z (show (2 : ℤ) ^ S.width ≠ 0 by positivity)
    omega

section Notes

variable {S : SizeType} {ra : Bool} {first last n : ℕ} {r : GenerateN (List ℕ)} {count : ℤ}

/-- **So many calls are noted** in a part that is not cut. -/
theorem generateNScan_noteCall (S : SizeType) (ra : Bool) (last : ℕ) (r : GenerateN (List ℕ)) :
    ∃ (k : ℕ) (z : ℤ), generateNScan S ra noteCall last r
        = some ⟨r.s ++ List.range' r.first k, r.first + k, z⟩
      ∧ (ra = false → k = min r.count.toNat (last - r.first) ∧ z = r.count - k)
      ∧ (ra = true → k = S.turns (min r.count (S.conv (last - r.first)))
        ∧ z = S.conv (r.count - min r.count (S.conv (last - r.first)))) := by
  have hmin : (if r.count < S.conv (last - r.first) then r.count else S.conv (last - r.first))
      = min r.count (S.conv (last - r.first)) := by
    split <;> omega
  unfold generateNScan
  split
  · next hra =>
    refine ⟨_, _, ?_, fun h => absurd (hra.symm.trans h) (by decide), fun _ => ⟨rfl, rfl⟩⟩
    simp only [hmin]
    rw [GenerateN.call, runRange_noteCall, Option.map_some]
  · next hra =>
    refine ⟨_, _, ?_, fun _ => ⟨rfl, rfl⟩, fun h => absurd h hra⟩
    rw [GenerateN.call, runRange_noteCall, Option.map_some]

/-- **A negative number of elements**: elements are written where random access counts to
it, and elsewhere the work does not end. -/
theorem carries_of_neg (hvalue : S.IsValue count) (hneg : count < 0) (lim : ℕ)
    (fits : ℕ → ℕ → Prop) :
    Carries (generatorN (List ℕ)) (generateNWork S ra noteCall) first lim fits
      (fun _ r => r.s ≠ [] ∨ r.count = count) (fun r => r.s ≠ []) := by
  rintro a b p r - - - - - - - hr
  obtain ⟨k, z, hscan, hseq, hrand⟩ := generateNScan_noteCall S ra b r
  refine ⟨_, hscan, ?_⟩
  beta_reduce
  have happend : r.s ≠ [] → r.s ++ List.range' r.first k ≠ [] :=
    fun h hnil => h (List.append_eq_nil_iff.mp hnil).1
  cases ra with
  | false =>
    obtain ⟨hk, hz⟩ := hseq rfl
    split
    · next hfin =>
      have hz0 : z = 0 := of_decide_eq_true hfin
      exact hr.elim happend (fun hc => absurd hz0 (by omega))
    · exact hr.imp happend (fun hc => by simp only; omega)
  | true =>
    obtain ⟨hk, hz⟩ := hrand rfl
    have hne : r.s ++ List.range' r.first k ≠ [] := by
      refine hr.elim happend (fun hc hnil => ?_)
      have hmin : S.IsValue (min r.count (S.conv (b - r.first))) := by
        rcases min_choice r.count (S.conv (b - r.first)) with h | h
        · rw [h, hc]
          exact hvalue
        · rw [h]
          exact S.isValue_conv _
      have hturns := SizeType.max_lt_turns hmin (by omega)
      have hk0 : k = 0 := by
        rw [← @List.length_range' r.first 1 k,
          (List.append_eq_nil_iff.mp hnil).2, List.length_nil]
      have hpos := S.max_nonneg
      omega
    split
    · exact hne
    · exact Or.inl hne

/-- **Notes that do not begin the right list** do not, whatever is noted next. -/
theorem not_prefix_append {xs ys l : List ℕ} (h : ¬ xs <+: l) : ¬ (xs ++ ys) <+: l :=
  fun happend => h ((List.prefix_append xs ys).trans happend)

/-- Notes that go on at another position do not begin the right list. -/
theorem not_prefix_of_lt {xs : List ℕ} {p k m : ℕ} (hk : 0 < k) (hp : first + xs.length < p)
    (hlen : xs.length < m) : ¬ (xs ++ List.range' p k) <+: List.range' first m := by
  rintro ⟨ys, h⟩
  obtain ⟨j, rfl⟩ : ∃ j, k = j + 1 := ⟨k - 1, by omega⟩
  have hget := congrArg (fun l : List ℕ => l[xs.length]?) h
  simp only [List.append_assoc, List.getElem?_append_right le_rfl, Nat.sub_self] at hget
  rw [List.getElem?_range' hlen, List.range'_succ, List.cons_append,
    List.getElem?_cons_zero] at hget
  have := Option.some.inj hget
  omega

/-- Notes that are more than the right list do not begin it. -/
theorem not_prefix_of_length {xs : List ℕ} {m : ℕ} (h : m < xs.length) :
    ¬ xs <+: List.range' first m :=
  fun hprefix => absurd hprefix.length_le (by rw [List.length_range']; omega)

/-- **A generation that is still right up to `m`, or has gone wrong**: other positions
are noted than the first `n`, or one has been left out. -/
def RightTo (S : SizeType) (first n m p : ℕ) (r : GenerateN (List ℕ)) : Prop :=
  ¬ r.s <+: List.range' first n
    ∨ (0 < r.count ∧ S.IsValue r.count ∧ first + r.s.length < p ∧ r.s.length < n)
    ∨ (p ≤ m ∧ r.s = List.range' first (p - first) ∧ r.count = (first + n : ℕ) - (p : ℤ))

/-- How a part ends at which something went wrong. -/
theorem ends_of_not_prefix {m p : ℕ} (h : ¬ r.s <+: List.range' first n) :
    if (generatorN (List ℕ)).finished r = true then r.s ≠ List.range' first n
    else RightTo S first n m p r := by
  split
  · exact fun heq => h (heq ▸ List.prefix_refl _)
  · exact Or.inl h

/-- How a part ends behind which there is more to do. -/
theorem ends_of_pos {m p : ℕ} (hz : 0 < r.count) (h : RightTo S first n m p r) :
    if (generatorN (List ℕ)).finished r = true then r.s ≠ List.range' first n
    else RightTo S first n m p r := by
  split
  · next hfin => exact absurd (of_decide_eq_true hfin) hz.ne'
  · exact h

/-- **The number of turns**: a value that is not negative, or more than any value. -/
theorem SizeType.turns_cases {z : ℤ} (h : S.IsValue z) :
    0 ≤ z ∧ S.turns z = z.toNat ∨ z < 0 ∧ S.max < S.turns z := by
  rcases lt_or_ge z 0 with hz | hz
  · exact Or.inr ⟨hz, SizeType.max_lt_turns h hz⟩
  · exact Or.inl ⟨hz, SizeType.turns_eq hz h.le_max⟩

theorem SizeType.isValue_min {z z' : ℤ} (h : S.IsValue z) (h' : S.IsValue z') :
    S.IsValue (min z z') := by
  rcases min_choice z z' with hmin | hmin
  · exact hmin.symm ▸ h
  · exact hmin.symm ▸ h'

/-- **A segment that is taken for one that is too short** is left too early, or gone
beyond. -/
theorem carries_of_tooShort {A B lim : ℕ} (hends : EndsIn first (first + n) A B)
    (hshort : S.conv ((B : ℤ) - (max A first : ℕ)) < ((first + n : ℕ) : ℤ) - (max A first : ℕ))
    (hmax : (n : ℤ) ≤ S.max) (hlim : B ≤ lim) :
    Carries (generatorN (List ℕ)) (generateNWork S true noteCall) first lim
      (fun a b => A = a ∧ B = b ∨ B ≤ a ∨ b ≤ A) (RightTo S first n (max A first))
      (fun r => r.s ≠ List.range' first n) := by
  rintro a b p r hab hap hpb hbegin hfp hlt hpos hr
  obtain ⟨k, z, hscan, -, hrand⟩ := generateNScan_noteCall S true b r
  obtain ⟨hk, hz⟩ := hrand rfl
  obtain rfl : r.first = p := hpos
  refine ⟨_, hscan, ?_⟩
  beta_reduce
  rcases hr with hr | ⟨hcount, hvalue, hpast, hlen⟩ | ⟨hpm, hs, hcount⟩
  · exact ends_of_not_prefix (not_prefix_append hr)
  · -- a position has been left out: nothing is noted, or another position
    rcases Nat.eq_zero_or_pos k with rfl | hk0
    · have hmin : min r.count (S.conv (b - r.first)) = 0 := by
        have hnonneg := S.max_nonneg
        rcases SizeType.turns_cases (SizeType.isValue_min hvalue (S.isValue_conv (b - r.first)))
          with hcase | hcase <;> omega
      have hz' : z = r.count := by rw [hz, hmin, sub_zero, hvalue]
      rw [List.range'_zero, List.append_nil, hz']
      exact ends_of_pos hcount (Or.inr (Or.inl ⟨hcount, hvalue, hpast.trans_le hpb, hlen⟩))
    · exact ends_of_not_prefix (not_prefix_of_lt hk0 hpast hlen)
  · have hm : max A first ≤ first + n := by
      rcases hends with ⟨-, hin | ⟨heq, hA, -⟩⟩
      · exact hin.le
      · omega
    have hvalue : S.IsValue r.count := SizeType.conv_eq (by omega) (by omega)
    have hnotes : r.s ++ List.range' r.first k = List.range' first (r.first - first + k) := by
      rw [hs]
      nth_rewrite 2 [← Nat.add_sub_cancel' hfp]
      exact List.range'_append_1
    rw [hnotes]
    rcases hab with ⟨rfl, rfl⟩ | hab | hab
    · have hm : max A first = r.first := by omega
      rw [hm] at hshort
      have hmin : min r.count (S.conv (B - r.first)) = S.conv (B - r.first) :=
        min_eq_right (by omega)
      rw [hmin] at hk hz
      rcases SizeType.turns_cases (S.isValue_conv (B - r.first)) with
        ⟨hnonneg, hturns⟩ | ⟨-, hturns⟩
      · have hz' : z = r.count - S.conv (B - r.first) :=
          hz.trans (SizeType.conv_eq (by omega) (by omega))
        have hstop := hends.1
        refine ends_of_pos (by simp only; omega) (Or.inr (Or.inl ⟨?_, ?_, ?_, ?_⟩))
        · simp only
          omega
        · exact SizeType.conv_eq (by simp only; omega) (by simp only; omega)
        · simp only [List.length_range']
          omega
        · simp only [List.length_range']
          omega
      · refine ends_of_not_prefix (not_prefix_of_length ?_)
        simp only [List.length_range']
        omega
    · exfalso
      rcases hends with ⟨hstop, hin | hin⟩ <;> omega
    · -- a segment before it is worked off
      have hroom : (b : ℤ) - r.first < r.count := by
        rcases hends with ⟨hstop, hin | ⟨heq, hA, hB⟩⟩
        · omega
        · have := hlt (by omega)
          omega
      have hconv : S.conv (b - r.first) = (b : ℤ) - r.first :=
        SizeType.conv_eq (by omega) (by omega)
      rw [hconv, min_eq_right hroom.le] at hk hz
      rw [SizeType.turns_eq (by omega) (by omega)] at hk
      have hz' : z = r.count - ((b : ℤ) - r.first) :=
        hz.trans (SizeType.conv_eq (by omega) (by omega))
      refine ends_of_pos (by simp only; omega) (Or.inr (Or.inr ⟨by omega, ?_, ?_⟩))
      · simp only
        congr 1
        omega
      · simp only
        omega

/-- **Where the right positions are noted**, the number of elements is not negative and
no segment is taken for one that is too short. -/
theorem endFits_of_noteCall {d o : ℕ} {c : Segmentation (d + 1)} (hcount : S.IsValue count)
    (hout : OutRange o c first (first + count.toNat))
    (hrun : segmentedGenerateN S ra noteCall o c first count []
      = some (List.range' first count.toNat, first + count.toNat)) :
    0 ≤ count ∧ (ra = true → EndFits S o c first (first + count.toNat)) := by
  obtain ⟨t, ht, hs⟩ := Option.map_eq_some_iff.mp hrun
  have hnotes : t.s = List.range' first count.toNat := congrArg Prod.fst hs
  have hroom := hout.room (Nat.succ_pos d)
  have hpos : ∀ {P : ℕ → GenerateN (List ℕ) → Prop}, (∀ p q r, P p r → P p { r with first := q }) →
      ∀ p r, P p r → P p ((generatorN (List ℕ)).setPos p r)
        ∧ (generatorN (List ℕ)).pos ((generatorN (List ℕ)).setPos p r) = p :=
    fun h p r hr => ⟨h p p r hr, rfl⟩
  have hnonneg : 0 ≤ count := by
    by_contra hneg
    have hend := (fillOn_of_some (carries_of_neg hcount (not_le.mp hneg) _ (fun _ _ => True))
      (hpos (fun _ _ _ h => h)) (fun _ _ _ => trivial) hout.le (by omega) rfl (Or.inr rfl) ht).2
    rw [Int.toNat_of_nonpos (not_le.mp hneg).le, List.range'_zero] at hnotes
    exact hend hnotes
  refine ⟨hnonneg, fun hra a b hab hends => ?_⟩
  by_contra hshort
  subst hra
  have hle := hab.le
  have hmax := hcount.le_max
  refine (fillOn_of_some (carries_of_tooShort hends (not_le.mp hshort) (by omega) hle.2.2)
    (hpos (fun _ _ _ h => h)) (fun a' b' hab' => ?_) hout.le (by omega) rfl
    (Or.inr (Or.inr ⟨le_max_right _ _, ?_, ?_⟩)) ht).2 hnotes
  · exact (hab.eq_or_le hab').imp_right (fun h => h)
  · rw [Nat.sub_self, List.range'_zero]
  · simp only
    push_cast
    omega

end Notes

/-! ## All the walkers -/

/-- **The walkers make the calls of the loops over ranges that are not cut**, each once,
in order and from the state that the one before has left, and carry their positions
along. The generation of so many elements does exactly where its range is not cut, or
their number is not negative and no segment is taken for one that is too short. -/
theorem segmentedWalkers_iff {S : SizeType} {count : ℤ} (hcount : S.IsValue count)
    (ra sentinel : Bool) {d o : ℕ} (c : Segmentation d) (first last : ℕ) :
    (∀ (f : ℕ → σ → Option σ) s t, Positions o c first last → runRange f first last s = some t →
      segmentedForEach f sentinel o c first last s = some t) ∧
    (∀ (gen : ℕ → σ → Option σ) s t, Positions o c first last →
      runRange gen first last s = some t →
      segmentedGenerate gen sentinel o c first last s = some t) ∧
    (∀ (swap : ℕ → ℕ → σ → Option σ) first2 s t, Positions o c first last →
      runRange (copyTo swap) first last (s, first2) = some t →
      segmentedSwapRanges swap sentinel o c first last first2 s = some t) ∧
    (∀ (pred : ℕ → σ → Option Bool) (copy : ℕ → ℕ → σ → Option σ) outTrue outFalse s t,
      Positions o c first last →
      runRange (partitionTo pred copy) first last (s, outTrue, outFalse) = some t →
      segmentedPartitionCopy pred copy sentinel o c first last outTrue outFalse s = some t) ∧
    (OutRange o c first (first + count.toNat) →
      ((∀ (τ : Type) (gen : ℕ → τ → Option τ) s t,
        runRange gen first (first + count.toNat) s = some t →
        segmentedGenerateN S ra gen o c first count s = some (t, first + count.toNat)) ↔
      (0 < d → 0 ≤ count ∧ (ra = true → EndFits S o c first (first + count.toNat))))) := by
  refine ⟨fun f _ _ => stepDispatch_eq f, fun gen _ _ => stepDispatch_eq gen,
    fun swap _ _ _ => stepDispatch_eq (copyTo swap),
    fun pred copy _ _ _ _ => stepDispatch_eq (partitionTo pred copy), fun hout => ⟨?_, ?_⟩⟩
  · intro hall hd
    cases d with
    | zero => exact absurd hd (lt_irrefl 0)
    | succ d =>
      refine endFits_of_noteCall hcount hout (hall _ noteCall [] _ ?_)
      rw [runRange_noteCall, List.nil_append]
  · exact fun hfit _ _ _ _ => segmentedGenerateN_eq hcount hout hfit

/-- Three elements are generated in two segments. -/
theorem segmentedWalkers_iff_three :
    segmentedGenerateN (d := 1) signedByte true noteCall 0 twoOne 0 3 []
      = some ([0, 1, 2], 3) := by
  have hvalue : signedByte.IsValue 3 := by
    unfold SizeType.IsValue
    decide
  have hall := @segmentedWalkers_iff Unit _ _ hvalue true false 1 0 twoOne 0 3
  exact (hall.2.2.2.2 ⟨by decide, fun _ => by decide, List.cons_ne_nil _ _⟩).mpr
    (fun _ => ⟨by decide, fun _ => EndFits.of_size_le (by decide)⟩) _ noteCall [] [0, 1, 2] rfl

/-- One element is generated behind a segment whose length is a power of two, and a
negative number of elements is a whole turn of its type. -/
theorem segmentedGenerateN_narrow :
    (segmentedGenerateN (d := 1) unsignedByte true noteCall 0 manyOne 0 1 []
        = some ([256], 257) ∧ runRange noteCall 0 1 [] = some [0])
      ∧ (segmentedGenerateN (d := 1) signedByte true noteCall 0 twoOne 0 (-1) []).map Prod.snd
        = some 255
      ∧ segmentedGenerateN (d := 1) signedByte false noteCall 0 twoOne 0 (-1) [] = none := by
  decide +kernel

end Segmented
