import BoostContainer.Segmented.SegmentedCopy

/-!
# Copies of so many elements

Where the number of elements is given, it is given in a type of the caller's, of
any width, and the lengths of segments are converted to that type before they
are compared with it. A segment that is longer than the type can tell is taken
for another one.

That does no harm as long as the number is used up there before the length is
that the segment is taken to have. A segment that the number goes beyond is
shorter than the number, so its length is told right; there is one segment to
ask about, in the source and for each part of the source in the destination,
and it is the one in which the copy ends.
-/

namespace Segmented

open Segments Segmentation

variable {α : Type*}

/-! ## The type of the number -/

/-- **An integral type**, by its width in bits and whether it is signed. -/
structure SizeType where
  signed : Bool
  width : ℕ
  width_pos : 0 < width

namespace SizeType

variable {S : SizeType} {z : ℤ}

/-- The conversion to the type. -/
def conv (S : SizeType) (z : ℤ) : ℤ := if S.signed then z.bmod (2 ^ S.width) else z % 2 ^ S.width

/-- The greatest value. -/
def max (S : SizeType) : ℤ := if S.signed then 2 ^ (S.width - 1) - 1 else 2 ^ S.width - 1

/-- A value of the type. -/
def IsValue (S : SizeType) (z : ℤ) : Prop := S.conv z = z

theorem two_pow_width (S : SizeType) : (2 : ℤ) ^ S.width = 2 * 2 ^ (S.width - 1) := by
  rw [← pow_succ', Nat.sub_add_cancel S.width_pos]

/-- A value that is not negative and not too great is converted to itself. -/
theorem conv_eq (h : 0 ≤ z) (hmax : z ≤ S.max) : S.conv z = z := by
  have hpow := S.two_pow_width
  unfold max at hmax
  unfold conv
  split
  · next hs =>
    rw [if_pos hs] at hmax
    refine Int.bmod_eq_of_le_mul_two ?_ ?_
    · push_cast
      rw [hpow]
      generalize (2 : ℤ) ^ (S.width - 1) = k at *
      omega
    · push_cast
      rw [hpow]
      generalize (2 : ℤ) ^ (S.width - 1) = k at *
      omega
  · next hs =>
    rw [if_neg hs] at hmax
    exact Int.emod_eq_of_lt h (by omega)

theorem conv_le_max (S : SizeType) (z : ℤ) : S.conv z ≤ S.max := by
  have hpow := S.two_pow_width
  have hpos : (0 : ℤ) < 2 ^ (S.width - 1) := by positivity
  unfold conv max
  split
  · have h := Int.bmod_lt (x := z) (m := 2 ^ S.width) (by positivity)
    push_cast at h
    rw [hpow] at h
    generalize (2 : ℤ) ^ (S.width - 1) = k at *
    omega
  · have h := Int.emod_lt_of_pos z (show (0 : ℤ) < 2 ^ S.width by positivity)
    omega

theorem IsValue.le_max (h : S.IsValue z) : z ≤ S.max := h ▸ S.conv_le_max z

/-- **Cut to a length**: a number that does not go beyond what the length is taken
for is cut to the length. -/
theorem min_conv {p e n : ℕ} (hpe : p ≤ e) (hmax : (n : ℤ) - p ≤ S.max)
    (hfit : n ≤ e → (n : ℤ) - p ≤ S.conv (e - p)) :
    min ((n : ℤ) - p) (S.conv (e - p)) = min ((n : ℤ) - p) (e - p) := by
  by_cases h : n ≤ e
  · rw [min_eq_left (hfit h), min_eq_left (by omega)]
  · rw [conv_eq (by omega) (by omega)]

end SizeType

/-! ## The segment in which a range ends -/

/-- A range ends in a segment: it has its last element there, or it has none and is
before an element there. -/
def EndsIn (first stop a b : ℕ) : Prop :=
  stop ≤ b ∧ (max a first < stop ∨ first = stop ∧ a ≤ first ∧ first < b)

/-- **The segment in which a range ends is not taken for one that is too short.** -/
def SegmentFits (S : SizeType) (first stop a b : ℕ) : Prop :=
  EndsIn first stop a b →
    (stop : ℤ) - (max a first : ℕ) ≤ S.conv ((b : ℤ) - (max a first : ℕ))

/-- The segment of a sequence in which a range ends is not taken for one that is too
short. -/
def EndFits (S : SizeType) {d : ℕ} (o : ℕ) (c : Segmentation d) (first stop : ℕ) : Prop :=
  ∀ a b, Leaf d o c a b → SegmentFits S first stop a b

/-- A sequence that is not longer than the type can tell has no segment that is. -/
theorem EndFits.of_size_le {S : SizeType} {d o : ℕ} {c : Segmentation d} {first stop : ℕ}
    (h : (size d c : ℤ) ≤ S.max) : EndFits S o c first stop := by
  rintro a b hab ⟨hle, hlt⟩
  have hsize := hab.le
  rw [SizeType.conv_eq (by omega) (by omega)]
  omega

theorem SegmentFits.le_conv {S : SizeType} {first stop a b p : ℕ} (h : SegmentFits S first stop a b)
    (ha : a ≤ p) (hf : first ≤ p) (hp : p = a ∨ p = first) (hlt : p < stop) (hb : stop ≤ b) :
    (stop : ℤ) - p ≤ S.conv ((b : ℤ) - p) := by
  have hmax : max a first = p := by omega
  have hfit := h ⟨hb, Or.inl (hmax ▸ hlt)⟩
  rwa [hmax] at hfit

/-! ## `segmented_copy_n` -/

/-- What a copy of so many elements works on: the output, how far the source is
read, and how many elements are left. -/
structure CopyN (α : Type*) where
  out : Output α
  first : ℕ
  count : ℤ

/-- **`segmented_copy_n_src_dst_bounded`.** Source and destination may have no end. -/
def copyNLoop (last dstLast : Option ℕ) (s : CopyN α) : Option (CopyN α) :=
  Scan.loop (fun s =>
    if s.count ≤ 0 then some (Scan.done s)
    else if dstLast = some s.out.2 ∨ last = some s.first then some (Scan.done s)
    else (copyStep s.first s.out).map (fun out => Scan.more ⟨out, s.first + 1, s.count - 1⟩))
    (s.count.toNat + 1) s

/-- **`segmented_copy_n_dst_bounded`** for a destination that is not cut. With random
access the number is cut to the length of the destination before. -/
def segmentedCopyNDstBounded (S : SizeType) (dstRA : Bool) (last dstLast : Option ℕ)
    (s : CopyN α) : Option (CopyN α) :=
  match dstRA, dstLast with
  | true, some dstLast =>
    let dstN := S.conv (dstLast - s.out.2)
    let n := if s.count < dstN then s.count else dstN
    (copyNLoop last none ⟨s.out, s.first, n⟩).map (fun r =>
      ⟨r.out, r.first, S.conv (s.count - (n - r.count))⟩)
  | _, _ => copyNLoop last dstLast s

/-- The copy of so many elements, as a worker. -/
def copierN (α : Type*) (last : Option ℕ) : Worker (CopyN α) where
  pos s := s.out.2
  setPos a s := ⟨(s.out.1, a), s.first, s.count⟩
  finished s := decide (s.count = 0 ∨ last = some s.first)

/-- **`segmented_copy_n_dst_dispatch`.** -/
def copyNDstDispatch (S : SizeType) (dstRA : Bool) (last : Option ℕ) (dD oD : ℕ)
    (cD : Segmentation dD) (s : CopyN α) : Option (CopyN α) :=
  fillOn (copierN α last) (segmentedCopyNDstBounded S dstRA last) (fun s => decide (s.count ≤ 0))
    dD oD cD s

/-- **`copy_n_scan`** of a part of the source that is not cut: with random access the
number is cut to the length of the part before. -/
def copyNScanLeaf (S : SizeType) (srcRA dstRA : Bool) (dD oD : ℕ) (cD : Segmentation dD)
    (first last : ℕ) (s : Output α × ℤ) : Option (Output α × ℤ) :=
  if srcRA then
    let rangeSz := S.conv (last - first)
    let minCount := if s.2 ≤ rangeSz then s.2 else rangeSz
    let count := S.conv (s.2 - minCount)
    (copyNDstDispatch S dstRA none dD oD cD ⟨s.1, first, minCount⟩).map (fun r => (r.out, count))
  else
    (copyNDstDispatch S dstRA (some last) dD oD cD ⟨s.1, first, s.2⟩).map
      (fun r => (r.out, r.count))

/-- **`copy_n_scan`** of a part of the source. -/
def copyNScan (S : SizeType) (srcRA dstRA : Bool) {dD : ℕ} (oD : ℕ) (cD : Segmentation dD) :
    (d : ℕ) → ℕ → Segmentation d → ℕ → ℕ → Output α × ℤ → Option (Output α × ℤ)
  | 0, _, _, first, last, s => copyNScanLeaf S srcRA dstRA dD oD cD first last s
  | d + 1, o, c, first, last, s =>
    (walkAt o c first last (fun k a b s =>
      (copyNScan S srcRA dstRA oD cD d (beginAt o c k) (c.child k) a b s).map (fun s =>
        if s.2 = 0 then Scan.done s else Scan.more s)) s).map Scan.result

/-- **`segmented_copy_n`.** -/
def segmentedCopyN (S : SizeType) (srcRA dstRA : Bool) {dD : ℕ} (oD : ℕ) (cD : Segmentation dD)
    (count : ℤ) (result : ℕ) (mem : Memory α) :
    (d : ℕ) → ℕ → Segmentation d → ℕ → Option (Output α)
  | 0, _, _, first =>
    (copyNDstDispatch S dstRA none dD oD cD ⟨(mem, result), first, count⟩).map CopyN.out
  | d + 1, o, c, first =>
    if count ≤ 0 then some (mem, result)
    else walkOnAt o c first (fun k a b s =>
      (copyNScan S srcRA dstRA oD cD d (beginAt o c k) (c.child k) a b s).map (fun s =>
        if s.2 = 0 then Scan.done s.1 else Scan.more s)) ((mem, result), count)

/-! ## Parts of a copy -/

/-- **A copy of the elements up to `stop` that reads up to `last` ends at `m`.** -/
structure ReadsTo (last : Option ℕ) (stop m : ℕ) : Prop where
  le : m ≤ stop
  iff : ∀ p, p ≤ m → (p = stop ∨ last = some p ↔ p = m)

/-- With no end of the source it ends with the number. -/
theorem readsTo_none (stop : ℕ) : ReadsTo none stop stop :=
  ⟨le_rfl, fun _ _ => ⟨fun h => h.resolve_right (fun h => nomatch h), Or.inl⟩⟩

/-- With an end of the source it ends with the number or the source. -/
theorem readsTo_some (e stop : ℕ) : ReadsTo (some e) stop (min e stop) := by
  refine ⟨min_le_right _ _, fun p hp => ?_⟩
  rw [Option.some.injEq]
  omega

section Loop

variable {S : SizeType} {last dstLast : Option ℕ} {stop m first : ℕ} {s : CopyN α} {t : Output α}

/-- A loop with nothing to copy. -/
theorem copyNLoop_of_finished (h : s.count ≤ 0 ∨ last = some s.first) :
    copyNLoop last dstLast s = some s := by
  rw [copyNLoop, Scan.loop]
  rcases h with h | h
  · rw [if_pos h]
    rfl
  · split
    · rfl
    · rw [if_pos (Or.inr h)]
      rfl

/-- **The loop of a copy of so many elements makes the steps it has room for.** -/
theorem copyNLoop_yields (hm : ReadsTo last stop m) (hle : s.first ≤ m)
    (hcount : s.count = (stop : ℤ) - s.first) (hdst : ∀ e, dstLast = some e → s.out.2 ≤ e)
    (hrun : ∃ t, runRange copyStep s.first m s.out = some t) :
    (copyNLoop last dstLast s).Yields (fun r =>
      MadeTo copyStep dstLast s.first m s.out (r.out, r.first)
        ∧ r.count = (stop : ℤ) - r.first) := by
  obtain ⟨u, hu⟩ := hrun
  have hms := hm.le
  rw [copyNLoop]
  refine Scan.loop_yields (I := fun r => s.first ≤ r.first ∧ r.first ≤ m
      ∧ runRange copyStep s.first r.first s.out = some r.out
      ∧ (∀ e, dstLast = some e → r.out.2 ≤ e) ∧ r.count = (stop : ℤ) - r.first)
    (fun r => r.count.toNat) ?_ (Nat.lt_succ_self _) ⟨le_rfl, hle, runRange_self .., hdst, hcount⟩
  rintro r ⟨hge, hrm, hr, hdst, hcount⟩
  have hend := hm.iff r.first hrm
  split
  · next hz =>
    exact Option.yields_some ⟨⟨hge, hrm, hr, hdst, Or.inl (hend.mp (Or.inl (by omega)))⟩, hcount⟩
  · next hpos =>
    split
    · next hstop =>
      refine Option.yields_some ⟨⟨hge, hrm, hr, hdst, ?_⟩, hcount⟩
      rcases hstop with hstop | hstop
      · refine Or.inr ⟨hstop, fun u hu => ?_⟩
        obtain ⟨x, -, rfl⟩ := Option.map_eq_some_iff.mp hu
        exact Nat.lt_succ_self _
      · exact Or.inl (hend.mp (Or.inr hstop))
    · next hstop =>
      have hne : r.first ≠ m := fun h => (hend.mpr h).elim (fun h => hpos (by omega))
        (fun h => hstop (Or.inr h))
      have hlt : r.first < m := lt_of_le_of_ne hrm hne
      obtain ⟨t', ht', -⟩ := exists_step hlt ((runRange_of_append hge hrm hr).symm.trans hu)
      rw [ht', Option.map_some]
      refine Option.yields_some ⟨⟨Nat.le_succ_of_le hge, hlt, ?_, fun e he => ?_, ?_⟩, ?_⟩
      · rw [runRange_succ copyStep hge, hr, Option.bind_some, ht']
      · obtain ⟨x, -, rfl⟩ := Option.map_eq_some_iff.mp ht'
        have hne' : r.out.2 ≠ e := fun h => hstop (Or.inl (h ▸ he))
        exact lt_of_le_of_ne (hdst e he) hne'
      · push_cast
        omega
      · simp only
        omega

/-- **A part of the destination that is not taken for one too short is filled as far
as there is to copy.** -/
theorem segmentedCopyNDstBounded_yields {dstRA : Bool} (hm : ReadsTo last stop m)
    (hle : s.first ≤ m) (hcount : s.count = (stop : ℤ) - s.first) (hmax : s.count ≤ S.max)
    (hdst : ∀ e, dstLast = some e → s.out.2 ≤ e)
    (hfit : ∀ e, dstRA = true → dstLast = some e → s.first < m →
      s.out.2 + (m - s.first) ≤ e → ((m : ℤ) - s.first) ≤ S.conv (e - s.out.2))
    (hrun : ∃ t, runRange copyStep s.first m s.out = some t) :
    (segmentedCopyNDstBounded S dstRA last dstLast s).Yields (fun r =>
      MadeTo copyStep dstLast s.first m s.out (r.out, r.first)
        ∧ r.count = (stop : ℤ) - r.first) := by
  have hms := hm.le
  unfold segmentedCopyNDstBounded
  split
  · next e =>
    have hse := hdst e rfl
    have hn : (if s.count < S.conv (e - s.out.2) then s.count else S.conv (e - s.out.2))
        = min s.count (S.conv (e - s.out.2)) := by
      split <;> omega
    simp only [hn]
    rcases Nat.eq_or_lt_of_le hle with heq | hlt
    · -- there is nothing to copy
      have hfin : min s.count (S.conv (e - s.out.2)) ≤ 0 ∨ last = some s.first := by
        rcases (hm.iff s.first hle).mpr heq with hstop | hlast
        · exact Or.inl (by omega)
        · exact Or.inr hlast
      rw [copyNLoop_of_finished hfin, Option.map_some, sub_self, sub_zero,
        SizeType.conv_eq (by omega) hmax]
      exact Option.yields_some ⟨⟨le_rfl, hle, runRange_self .., hdst, Or.inl heq⟩, hcount⟩
    · have hmin := SizeType.min_conv (S := S) (p := s.out.2) (e := e)
        (n := s.out.2 + (m - s.first)) hse (by push_cast; omega)
        (fun h => by have := hfit e rfl rfl hlt h; push_cast; omega)
      obtain ⟨u, hu⟩ := hrun
      obtain ⟨t, ht, -⟩ := exists_runRange
        (Nat.le_add_right s.first (min (m - s.first) (e - s.out.2)))
        (by omega : s.first + min (m - s.first) (e - s.out.2) ≤ m) hu
      obtain ⟨n, hn⟩ : ∃ n : ℕ, min s.count (S.conv (e - s.out.2)) = n :=
        ⟨(min s.count (S.conv (e - s.out.2))).toNat, by push_cast at hmin; omega⟩
      have hreads : ReadsTo last (s.first + n) (s.first + min (m - s.first) (e - s.out.2)) := by
        refine ⟨by push_cast at hmin; omega, fun p hp => ?_⟩
        have hiff := hm.iff p (by omega)
        push_cast at hmin
        constructor
        · rintro (h | h)
          · omega
          · have := hiff.mp (Or.inr h)
            omega
        · intro h
          by_cases hpm : p = m
          · rcases hiff.mpr hpm with hstop | hlast
            · exact Or.inl (by omega)
            · exact Or.inr hlast
          · exact Or.inl (by omega)
      rw [hn]
      have hnone : ∀ e, (none : Option ℕ) = some e → s.out.2 ≤ e := fun e he => nomatch he
      refine (copyNLoop_yields (s := ⟨s.out, s.first, n⟩) hreads (Nat.le_add_right _ _)
        (by push_cast; omega) hnone ⟨t, ht⟩).map ?_
      rintro r ⟨hr, hcount'⟩
      have hge := hr.ge
      have hler := hr.le
      simp only at hge hler
      push_cast at hcount'
      have hrest : s.count - (n - r.count) = (stop : ℤ) - r.first := by omega
      refine ⟨hr.of_room hle hse, ?_⟩
      rw [hrest]
      exact SizeType.conv_eq (by omega) (by omega)
  · exact copyNLoop_yields hm hle hcount hdst hrun

end Loop

/-! ## The destination of a copy -/

section Dispatch

variable {S : SizeType} {dstRA : Bool} {last : Option ℕ} {stop m first : ℕ} {s : CopyN α}
  {t : Output α}

/-- **The copy of so many elements works** as far as the destination has room. -/
theorem works_copierN (hm : ReadsTo last stop m) (hmax : (stop : ℤ) - s.first ≤ S.max) :
    Works (copierN α last) (segmentedCopyNDstBounded S dstRA last) s.out.2
      (fun a b => dstRA = true → s.first < m → SegmentFits S s.out.2 t.2 a b)
      (fun r => s.first ≤ r.first ∧ s.out.2 ≤ r.out.2 ∧ r.first ≤ m
        ∧ r.count = (stop : ℤ) - r.first ∧ runRange copyStep r.first m r.out = some t)
      (fun r r' => r.first ≤ r'.first ∧ r.out.2 ≤ r'.out.2 ∧ (r.first ≤ m → r'.first ≤ m)
        ∧ r'.count = r.count - (r'.first - r.first)
        ∧ runRange copyStep r.first r'.first r.out = some r'.out) t.2 where
  refl r := ⟨le_rfl, le_rfl, fun h => h, by omega, runRange_self ..⟩
  trans h h' := ⟨h.1.trans h'.1, h.2.1.trans h'.2.1, fun hle => h'.2.2.1 (h.2.2.1 hle), by
    have := h.2.2.2.1
    have := h'.2.2.2.1
    omega, (runRange_of_append h.1 h'.1 h.2.2.2.2).trans h'.2.2.2.2⟩
  keeps h hr := ⟨hr.1.trans h.1, hr.2.1.trans h.2.1, h.2.2.1 hr.2.2.1, by
    have := h.2.2.2.1
    have := hr.2.2.2.1
    omega, (runRange_of_append h.1 (h.2.2.1 hr.2.2.1) h.2.2.2.2).symm.trans hr.2.2.2.2⟩
  setPos _ := rfl
  le_lim hr := advancing_copyStep.le_of_runRange hr.2.2.1 hr.2.2.2.2
  work := by
    rintro r dstLast ⟨hsr, hout, hrm, hcount, hrun⟩ - hpart
    have hms := hm.le
    have htail := snd_of_runRange_copyStep hrm hrun
    have hfit : ∀ e, dstRA = true → dstLast = some e → r.first < m →
        r.out.2 + (m - r.first) ≤ e → ((m : ℤ) - r.first) ≤ S.conv (e - r.out.2) := by
      intro e hra he hlt hroom
      obtain ⟨-, a, hfits, hap, hbegin⟩ := hpart e he
      have hconv :=
        (hfits hra (by omega)).le_conv (p := r.out.2) hap hout hbegin (by omega) (by omega)
      rw [htail] at hconv
      push_cast at hconv
      omega
    refine (segmentedCopyNDstBounded_yields hm hrm hcount (by omega)
      (fun e he => (hpart e he).1) hfit ⟨t, hrun⟩).imp ?_
    rintro r' ⟨hr', hcount'⟩
    have hge := hr'.ge
    have hle := hr'.le
    have hadv := snd_of_runRange_copyStep hge hr'.run
    simp only at hge hle hadv
    refine ⟨⟨hge, by omega, fun _ => hle, by omega, hr'.run⟩, hr'.le_dst, ?_⟩
    by_cases hend : r'.first = m
    · refine Or.inl (decide_eq_true ?_)
      exact ((hm.iff r'.first hle).mpr hend).imp_left (fun h => by omega)
    · have hstop := (hr'.stop.resolve_left hend).1
      have hlim : r'.out.2 < t.2 := by omega
      exact Or.inr ⟨hstop, hlim⟩

/-- Where there is nothing to copy, nothing is copied. -/
theorem copyNDstDispatch_of_le {dD oD : ℕ} {cD : Segmentation dD} (h : s.count ≤ 0) :
    copyNDstDispatch S dstRA last dD oD cD s = some s := by
  unfold copyNDstDispatch
  cases dD with
  | zero =>
    rw [fillOn, segmentedCopyNDstBounded]
    · exact copyNLoop_of_finished (Or.inl h)
    · rintro e - ⟨⟩
  | succ d => rw [fillOn, if_pos (decide_eq_true h)]

/-- **A part of the source is copied**, whatever the segments of the destination
are. -/
theorem copyNDstDispatch_eq {dD oD : ℕ} {cD : Segmentation dD} (hm : ReadsTo last stop m)
    (hle : s.first ≤ m) (hcount : s.count = (stop : ℤ) - s.first) (hmax : s.count ≤ S.max)
    (hrun : runRange copyStep s.first m s.out = some t)
    (hfit : dstRA = true → 0 < dD → s.first < m → EndFits S oD cD s.out.2 t.2)
    (hout : OutRange oD cD s.out.2 t.2) :
    copyNDstDispatch S dstRA last dD oD cD s = some ⟨t, m, (stop : ℤ) - m⟩ := by
  have hms := hm.le
  have hworks : Works (copierN α last) (segmentedCopyNDstBounded S dstRA last) s.out.2
      (fun a b => dstRA = true → s.first < m → SegmentFits S s.out.2 t.2 a b) _ _ t.2 :=
    works_copierN hm (by omega)
  refine Option.yields_iff_of_unique (Q := (· = ⟨t, m, (stop : ℤ) - m⟩)) (fun _ h => h)
    ((fillOn_yields hworks (fun hpos a b hab hra hlt => hfit hra hpos hlt a b hab)
      ⟨le_rfl, le_rfl, hle, hcount, hrun⟩ rfl (fun hidle => ?_) hout.le hout.room
      hout.seg).imp ?_)
  · have hz : s.count ≤ 0 := of_decide_eq_true hidle
    exact decide_eq_true (Or.inl (by omega))
  · rintro ⟨u, f, n⟩ ⟨⟨hff, -, hfm, hn, hu⟩, hfin⟩
    simp only at hff hfm hn hu
    have hle' := hfm hle
    have hend : n = 0 ∨ last = some f := of_decide_eq_true hfin
    obtain rfl : f = m := (hm.iff f hle').mp (hend.imp_left (fun h => by omega))
    obtain rfl := Option.some.inj (hu.symm.trans hrun)
    obtain rfl : n = (stop : ℤ) - f := by omega
    rfl

end Dispatch

/-! ## The source of a copy -/

/-- **When a copy of so many elements takes no segment for one that is too short**:
not the segment of the source in which it ends, nor, for a part of the source,
the segment of the destination in which the copy of the part ends. -/
structure CopyNFits (S : SizeType) (srcRA dstRA : Bool) {dS dD : ℕ} (oS : ℕ)
    (cS : Segmentation dS) (oD : ℕ) (cD : Segmentation dD) (first stop result : ℕ) : Prop where
  src : srcRA = true → 0 < dS → EndFits S oS cS first stop
  dst : dstRA = true → 0 < dD → ∀ a b, Leaf dS oS cS a b → max a first < min b stop →
    EndFits S oD cD (result + (max a first - first)) (result + (min b stop - first))

/-- A copy that is made up to a position of the source, or is done. -/
def CopiedTo (first stop : ℕ) (s₀ : Output α) (p : ℕ) (s : Output α × ℤ) : Prop :=
  runRange copyStep first (min p stop) s₀ = some s.1 ∧ s.2 = (stop : ℤ) - (min p stop : ℕ)

section Scan

variable {S : SizeType} {srcRA dstRA : Bool} {dD oD : ℕ} {cD : Segmentation dD}
  {first stop a b : ℕ} {s₀ t : Output α} {s : Output α × ℤ}

/-- **A part of the source that is not cut is copied**, as far as there is to
copy. -/
theorem copyNScanLeaf_yields (hmax : (stop : ℤ) - first ≤ S.max)
    (hrun : runRange copyStep first stop s₀ = some t) (hout : OutRange oD cD s₀.2 t.2)
    (hfa : first ≤ a) (hab : a ≤ b) (has : a < stop)
    (hsrc : srcRA = true → stop ≤ b → (stop : ℤ) - a ≤ S.conv ((b : ℤ) - a))
    (hdst : dstRA = true → 0 < dD → a < min b stop →
      EndFits S oD cD (s₀.2 + (a - first)) (s₀.2 + (min b stop - first)))
    (hs : CopiedTo first stop s₀ a s) :
    (copyNScanLeaf S srcRA dstRA dD oD cD a b s).Yields (CopiedTo first stop s₀ b) := by
  obtain ⟨out, count⟩ := s
  obtain ⟨hout', hcount⟩ := hs
  rw [min_eq_left has.le] at hout' hcount
  simp only at hout' hcount
  have hmb : a ≤ min b stop := le_min hab has.le
  obtain ⟨u, hu, htail⟩ := exists_runRange hmb (min_le_right b stop)
    ((runRange_of_append hfa has.le hout').symm.trans hrun)
  have hpos := snd_of_runRange_copyStep hfa hout'
  have hpos' := snd_of_runRange_copyStep hmb hu
  have hend := advancing_copyStep.le_of_runRange (min_le_right b stop) htail
  have hrange : OutRange oD cD out.2 u.2 :=
    ⟨hout.le.trans (by omega), fun h => hend.trans (hout.room h), hout.seg⟩
  have hfit : dstRA = true → 0 < dD → a < min b stop → EndFits S oD cD out.2 u.2 := by
    intro hra hd hlt
    have h := hdst hra hd hlt
    rwa [← hpos, show s₀.2 + (min b stop - first) = u.2 by omega] at h
  have hread : runRange copyStep first (min b stop) s₀ = some u :=
    (runRange_of_append hfa hmb hout').trans hu
  unfold copyNScanLeaf
  split
  · next hra =>
    have hmin : (if count ≤ S.conv ((b : ℤ) - a) then count else S.conv ((b : ℤ) - a))
        = ((min b stop : ℕ) : ℤ) - a := by
      have h := SizeType.min_conv (S := S) (p := a) (e := b) (n := stop) hab (by omega)
        (hsrc hra)
      rw [← hcount] at h
      push_cast
      split <;> omega
    simp only [hmin]
    have hdispatch : copyNDstDispatch S dstRA none dD oD cD ⟨out, a, ((min b stop : ℕ) : ℤ) - a⟩
        = some ⟨u, min b stop, _⟩ :=
      copyNDstDispatch_eq (readsTo_none (min b stop)) hmb rfl (by simp only; omega) hu hfit hrange
    rw [hdispatch, Option.map_some]
    refine Option.yields_some ⟨hread, ?_⟩
    rw [show count - (((min b stop : ℕ) : ℤ) - a) = (stop : ℤ) - (min b stop : ℕ) by omega]
    exact SizeType.conv_eq (by omega) (by omega)
  · rw [copyNDstDispatch_eq (readsTo_some b stop) hmb hcount (by simp only; omega) hu hfit hrange]
    exact Option.yields_some ⟨hread, rfl⟩

/-- **The rest of a segment of the source is copied**, as far as there is to copy. -/
theorem copyNScan_yields {d o : ℕ} {c : Segmentation d} (hmax : (stop : ℤ) - first ≤ S.max)
    (hrun : runRange copyStep first stop s₀ = some t) (hout : OutRange oD cD s₀.2 t.2)
    (hfa : first ≤ a) (hoa : o ≤ a) (hbegin : a = o ∨ a = first) (hsize : a ≤ o + size d c)
    (has : a < stop)
    (hsrc : srcRA = true → EndFits S o c first stop)
    (hdst : dstRA = true → 0 < dD → ∀ a b, Leaf d o c a b → max a first < min b stop →
      EndFits S oD cD (s₀.2 + (max a first - first)) (s₀.2 + (min b stop - first)))
    (hs : CopiedTo first stop s₀ a s) :
    (copyNScan S srcRA dstRA oD cD d o c a (o + size d c) s).Yields
      (CopiedTo first stop s₀ (o + size d c)) := by
  induction d generalizing o a s with
  | zero =>
    have hmax' : max o first = a := by omega
    refine copyNScanLeaf_yields hmax hrun hout hfa hsize has (fun hra hle => ?_)
      (fun hra hd hlt => ?_) hs
    · exact (hsrc hra _ _ ⟨rfl, rfl⟩).le_conv hoa hfa hbegin has hle
    · have h := hdst hra hd _ _ ⟨rfl, rfl⟩ (by rwa [hmax'])
      rwa [hmax'] at h
  | succ d ih =>
    refine (walkAt_yields_rest (P := fun p s => p < stop ∧ CopiedTo first stop s₀ p s)
      (R := fun p s => p < stop ∧ CopiedTo first stop s₀ p s)
      (Q := CopiedTo first stop s₀ (o + size (d + 1) c)) (fun _ _ h => h) hoa hsize ?_
      ⟨has, hs⟩).map ?_
    · rintro k a' s' hka hak hpart haa' ⟨has', hs'⟩
      have hko := le_beginAt o c k
      have hend := endAt_le o c k
      rw [← beginAt_add_size] at hak hend ⊢
      refine (ih (hfa.trans haa') hka (by omega) hak has'
        (fun hra a b hab => hsrc hra a b ⟨k, hab⟩)
        (fun hra hd a b hab => hdst hra hd a b ⟨k, hab⟩) hs').map (fun r hr => ?_)
      obtain ⟨hrun', hcount⟩ := hr
      split
      · next hz =>
        have hmin : min (o + size (d + 1) c) stop
            = min (beginAt o c k + size d (c.child k)) stop := by omega
        exact ⟨hmin ▸ hrun', hmin ▸ hcount⟩
      · next hz => exact ⟨by omega, hrun', hcount⟩
    · intro e he
      cases e with
      | more r => exact he.2
      | done r => exact he

/-- **The copy of so many elements, however the source and the destination are
cut**, where no segment is taken for one that is too short. -/
theorem segmentedCopyN_eq {dS oS : ℕ} {cS : Segmentation dS} {count : ℤ} {result : ℕ}
    {mem : Memory α} (hcount : S.IsValue count)
    (hsrc : Positions oS cS first (first + count.toNat))
    (hrun : runRange copyStep first (first + count.toNat) (mem, result) = some t)
    (hout : OutRange oD cD result t.2)
    (hfit : CopyNFits S srcRA dstRA oS cS oD cD first (first + count.toNat) result) :
    segmentedCopyN S srcRA dstRA oD cD count result mem dS oS cS first = some t := by
  have hge := hsrc.ge
  have hle := hsrc.le_size
  have hmax := hcount.le_max
  cases dS with
  | zero =>
    rw [segmentedCopyN]
    by_cases hneg : count ≤ 0
    · rw [show first + count.toNat = first by omega, runRange_self] at hrun
      rw [copyNDstDispatch_of_le hneg]
      exact hrun
    · have hfit' : dstRA = true → 0 < dD → first < first + count.toNat →
          EndFits S oD cD result t.2 := by
        intro hra hd hlt
        have hpos := snd_of_runRange_copyStep (Nat.le_add_right _ _) hrun
        simp only at hpos
        have hfirst : max oS first = first := max_eq_right hge
        have hstop : min (oS + size 0 cS) (first + count.toNat) = first + count.toNat :=
          min_eq_right hle
        have h := hfit.dst hra hd _ _ ⟨rfl, rfl⟩ (by rwa [hfirst, hstop])
        rwa [hfirst, hstop, Nat.sub_self, Nat.add_zero, ← hpos] at h
      rw [copyNDstDispatch_eq (s := ⟨(mem, result), first, count⟩)
        (readsTo_none (first + count.toNat)) (Nat.le_add_right _ _) (by simp only; omega) hmax hrun
        hfit' hout]
      rfl
  | succ d =>
    rw [segmentedCopyN]
    split
    · next hneg =>
      rw [show first + count.toNat = first by omega, runRange_self] at hrun
      exact hrun
    · next hpos =>
      have hlt : first < first + count.toNat := by omega
      have hseg : cS.sizes ≠ [] := by
        intro hnil
        rw [size_succ, hnil] at hle
        exact absurd (hlt.trans_le hle) (by simp only [List.sum_nil]; omega)
      refine Option.yields_iff_of_unique (Q := (· = t)) (fun _ h => h)
        (walkOnAt_yields (P := fun p s => first ≤ p ∧ p < first + count.toNat
          ∧ CopiedTo first (first + count.toNat) (mem, result) p s) hge
          (hlt.le.trans hle) hseg ?_ ⟨le_rfl, hlt, ?_⟩)
      · rintro k a s hka hak hbegin ⟨hfa, has, hs⟩
        rw [← beginAt_add_size] at hak ⊢
        refine (copyNScan_yields (by omega) hrun hout hfa hka hbegin hak has
          (fun hra a b hab => hfit.src hra (Nat.succ_pos d) a b ⟨k, hab⟩)
          (fun hra hd a b hab => hfit.dst hra hd a b ⟨k, hab⟩) hs).map (fun r hr => ?_)
        have hcopied := hr
        obtain ⟨hrun', hcount'⟩ := hr
        split
        · next hz =>
          rw [show min (beginAt oS cS k + size d (cS.child k)) (first + count.toNat)
            = first + count.toNat by omega] at hrun'
          exact Option.some.inj (hrun'.symm.trans hrun)
        · next hz => exact ⟨by omega, by omega, by omega, hcopied⟩
      · rw [CopiedTo, min_eq_left hlt.le]
        exact ⟨runRange_self .., by push_cast; omega⟩

end Scan

end Segmented
