import BoostContainer.Segmented.SegmentedCopyN

/-!
# Fills of so many elements

A fill walks the segments from a position on and writes into each as many
elements as it has, or as are left. With random access it first converts the
length of a segment to the type of the number.

A negative number of elements is none where the range is not cut. Where it is,
the first segment is scanned all the same.
-/

namespace Segmented

open Segments Segmentation

variable {α : Type*}

/-! ## `segmented_fill_n` -/

/-- The loop that writes so many elements. -/
def fillLoop (value : α) (first n : ℕ) (mem : Memory α) : Memory α :=
  (List.range' first n).foldl (fun mem p => Function.update mem p (some value)) mem

/-- What a fill works on: the memory, how far it is written, and how many elements are
left. -/
structure FillN (α : Type*) where
  mem : Memory α
  first : ℕ
  count : ℤ

/-- So many elements are written. -/
def FillN.write (value : α) (n : ℕ) (count : ℤ) (s : FillN α) : FillN α :=
  ⟨fillLoop value s.first n s.mem, s.first + n, count⟩

/-- The number of turns of a loop that counts, in the type, from zero until it
meets a number. -/
def SizeType.turns (S : SizeType) (z : ℤ) : ℕ := (z % 2 ^ S.width).toNat

/-- **`fill_n_scan`** of a part that is not cut. -/
def fillNScan (S : SizeType) (ra : Bool) (value : α) (last : ℕ) (s : FillN α) : FillN α :=
  if ra then
    let rangeSz := S.conv (last - s.first)
    if rangeSz ≤ s.count then s.write value (S.turns rangeSz) (S.conv (s.count - rangeSz))
    else s.write value (S.turns s.count) 0
  else
    let n := min s.count.toNat (last - s.first)
    s.write value n (s.count - n)

/-- The loops: over a part of a segment, or with no end. -/
def fillNWork (S : SizeType) (ra : Bool) (value : α) :
    Option ℕ → FillN α → Option (FillN α)
  | some last, s => some (fillNScan S ra value last s)
  | none, s => some (s.write value s.count.toNat (s.count - s.count.toNat))

/-- The fill, as a worker. -/
def fillerN (α : Type*) : Worker (FillN α) where
  pos := FillN.first
  setPos a s := { s with first := a }
  finished s := decide (s.count = 0)

/-- **`segmented_fill_n`.** -/
def segmentedFillN (S : SizeType) (ra : Bool) (value : α) {d : ℕ} (o : ℕ) (c : Segmentation d)
    (first : ℕ) (count : ℤ) (mem : Memory α) : Option (Output α) :=
  (fillOn (fillerN α) (fillNWork S ra value) (fun _ => false) d o c ⟨mem, first, count⟩).map
    (fun s => (s.mem, s.first))

/-! ## What is filled -/

section Fill

variable {S : SizeType} {ra : Bool} {value : α} {first stop last n m : ℕ} {s : FillN α}
  {mem : Memory α} {count z : ℤ}

theorem fillLoop_add (value : α) (first n m : ℕ) (mem : Memory α) :
    fillLoop value first (n + m) mem
      = fillLoop value (first + n) m (fillLoop value first n mem) := by
  rw [fillLoop, ← List.range'_append_1, List.foldl_append]
  rfl

theorem FillN.write_zero (value : α) (s : FillN α) : s.write value 0 s.count = s := rfl

/-- Elements are written, and then more. -/
theorem FillN.write_write (value : α) (n m : ℕ) (z z' : ℤ) (s : FillN α) :
    (s.write value n z).write value m z' = s.write value (n + m) z' := by
  unfold FillN.write
  rw [fillLoop_add, Nat.add_assoc]

/-- A loop that counts to a number that is not negative turns so often. -/
theorem SizeType.turns_eq (h : 0 ≤ z) (hmax : z ≤ S.max) : S.turns z = z.toNat := by
  have hpow := S.two_pow_width
  have hpos : (0 : ℤ) < 2 ^ (S.width - 1) := by positivity
  have hlt : z < 2 ^ S.width := by
    unfold max at hmax
    split at hmax <;> omega
  rw [turns, Int.emod_eq_of_lt h hlt]

/-- **A part that is not taken for one too short is filled as far as there is to
fill.** -/
theorem fillNScan_eq (hcount : 0 ≤ s.count) (hmax : s.count ≤ S.max) (hle : s.first ≤ last)
    (hfit : ra = true → s.count ≤ (last : ℤ) - s.first → s.count ≤ S.conv (last - s.first)) :
    fillNScan S ra value last s
      = s.write value (min s.count.toNat (last - s.first))
        (s.count - (min s.count.toNat (last - s.first) : ℕ)) := by
  unfold fillNScan
  split
  · next hra =>
    have hmin := SizeType.min_conv (S := S) (p := s.first) (e := last)
      (n := s.first + s.count.toNat) hle (by push_cast; omega)
      (fun h => by have := hfit hra (by omega); push_cast; omega)
    push_cast at hmin
    have hn : ((min s.count.toNat (last - s.first) : ℕ) : ℤ)
        = min s.count (S.conv (last - s.first)) := by
      push_cast
      omega
    simp only
    split
    · next hle' =>
      rw [min_eq_right hle'] at hn
      rw [← hn, SizeType.turns_eq (by omega) (by omega), Int.toNat_natCast,
        SizeType.conv_eq (by omega) (by omega)]
    · next hle' =>
      have hall : min s.count.toNat (last - s.first) = s.count.toNat := by omega
      rw [hall, SizeType.turns_eq hcount hmax, Int.toNat_of_nonneg hcount, sub_self]
  · rfl

/-- **The fill works**, where it takes no segment for one that is too short. -/
theorem works_fillerN (hmax : (stop : ℤ) - first ≤ S.max) :
    Works (fillerN α) (fillNWork S ra value) first
      (fun a b => ra = true → SegmentFits S first stop a b)
      (fun r => first ≤ r.first ∧ r.first ≤ stop ∧ r.count = (stop : ℤ) - r.first)
      (fun r r' => ∃ n : ℕ, (r.first ≤ stop → r.first + n ≤ stop)
        ∧ r' = r.write value n (r.count - n)) stop where
  refl r := ⟨0, fun h => h, by
    rw [Nat.cast_zero, sub_zero, FillN.write_zero]⟩
  trans := by
    rintro r t u ⟨n, hn, rfl⟩ ⟨m, hm, rfl⟩
    refine ⟨n + m, fun h => ?_, ?_⟩
    · have := hm (hn h)
      simp only [FillN.write] at this
      omega
    · rw [FillN.write_write]
      congr 1
      simp only [FillN.write]
      push_cast
      omega
  keeps := by
    rintro r t ⟨n, hn, rfl⟩ ⟨hge, hrs, hcount⟩
    have := hn hrs
    simp only [FillN.write]
    push_cast
    omega
  setPos _ := rfl
  le_lim hr := hr.2.1
  work := by
    rintro r dstLast ⟨hge, hrs, hcount⟩ hgo hpart
    cases dstLast with
    | none =>
      have hdone : r.count - r.count.toNat = 0 := by omega
      have hnone : ∀ e, (none : Option ℕ) = some e → r.first + r.count.toNat ≤ e :=
        fun e he => nomatch he
      exact Option.yields_some ⟨⟨r.count.toNat, fun _ => by omega, rfl⟩, hnone,
        Or.inl (decide_eq_true hdone)⟩
    | some e =>
      obtain ⟨hre, a, hfits, har, hbegin⟩ := hpart e rfl
      simp only [fillerN] at hre har hbegin hgo
      have hfit : ra = true → r.count ≤ (e : ℤ) - r.first → r.count ≤ S.conv (e - r.first) := by
        intro hra hroom
        have hmax' : max a first = r.first := by omega
        rcases Nat.eq_or_lt_of_le hrs with heq | hlt
        · rcases Nat.eq_or_lt_of_le hre with heq' | hlt'
          · rw [heq', sub_self, SizeType.conv_eq le_rfl (by omega)]
            omega
          · have hfirst : r.first = first :=
              hgo.resolve_left (fun h => of_decide_eq_false h (by omega))
            have h := hfits hra ⟨by omega, Or.inr ⟨by omega, by omega, by omega⟩⟩
            rw [hmax'] at h
            omega
        · have h := hfits hra ⟨by omega, Or.inl (by omega)⟩
          rw [hmax'] at h
          omega
      refine Option.yields_some (a := fillNScan S ra value e r) ?_
      rw [fillNScan_eq (by omega) (by omega) hre hfit]
      refine ⟨⟨_, fun _ => by omega, rfl⟩, fun e' he' => ?_, ?_⟩
      · obtain rfl := Option.some.inj he'
        simp only [fillerN, FillN.write]
        omega
      · simp only [fillerN, FillN.write]
        rw [Option.some.injEq, decide_eq_true_iff]
        omega

/-- **The fill of so many elements, however the range is cut.** -/
theorem segmentedFillN_eq {d o : ℕ} {c : Segmentation d} (hcount : S.IsValue count)
    (hout : OutRange o c first (first + count.toNat))
    (hfit : 0 < d → 0 ≤ count ∧ (ra = true → EndFits S o c first (first + count.toNat))) :
    segmentedFillN S ra value o c first count mem
      = some (fillLoop value first count.toNat mem, first + count.toNat) := by
  have hmax := hcount.le_max
  by_cases hneg : count < 0
  · cases d with
    | zero => rfl
    | succ d => exact absurd (hfit (Nat.succ_pos d)).1 (not_le.mpr hneg)
  · have hworks : Works (fillerN α) (fillNWork S ra value) first
        (fun a b => ra = true → SegmentFits S first (first + count.toNat) a b) _ _
        (first + count.toNat) :=
      works_fillerN (by push_cast; omega)
    have hstart : first ≤ first ∧ first ≤ first + count.toNat
        ∧ count = ((first + count.toNat : ℕ) : ℤ) - first := by
      push_cast
      omega
    refine Option.yields_iff_of_unique (fun _ h => h) ((fillOn_yields
      (s := (⟨mem, first, count⟩ : FillN α)) hworks
      (fun hd a b hab hra => (hfit hd).2 hra a b hab) hstart rfl Bool.noConfusion hout.le hout.room
      hout.seg).map ?_)
    rintro r ⟨⟨n, hn, rfl⟩, hfin⟩
    have hn' := hn (Nat.le_add_right _ _)
    have hz : count - n = 0 := of_decide_eq_true hfin
    obtain rfl : n = count.toNat := by omega
    rfl

end Fill

/-! ## All the copies and fills -/

/-- The type of bytes with a sign. -/
def signedByte : SizeType := ⟨true, 8, Nat.succ_pos 7⟩

/-- The type of bytes without a sign. -/
def unsignedByte : SizeType := ⟨false, 8, Nat.succ_pos 7⟩

/-- A segment of two elements and one of one. -/
def twoOne : Segmentation 1 := ([2, 1] : List ℕ)

/-- A segment of one element and one of four. -/
def oneFour : Segmentation 1 := ([1, 4] : List ℕ)

/-- A segment whose length is a power of two, and one of one element. -/
def manyOne : Segmentation 1 := ([256, 1] : List ℕ)

end Segmented
