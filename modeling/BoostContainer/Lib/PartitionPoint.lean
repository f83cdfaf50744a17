import Mathlib

/-!
# The position where a test stops holding

A binary search halves a range of positions until nothing of it is left. On a
range where a test holds up to some position and nowhere after it, the search
ends at that position, which is the only one of its kind. A search of a part
of a range therefore finds what a search of the whole range finds, as long as
the test holds on all that was left out before the part, and on nothing that
was left out after it.

Where a second test holds nowhere before the positions at which it holds, and
never together with the first, what neither of them holds for is a range, and a
search for both its ends halves until it meets something in it
(`equalRange`).
-/

/-- **Binary search** for the first position from `first` on, among `len`,
where a test does not hold. -/
def partitionPoint (test : ℕ → Bool) (first len : ℕ) : ℕ :=
  if len = 0 then first
  else
    let step := len >>> 1
    let middle := first + step
    if test middle then partitionPoint test (middle + 1) (len - (step + 1))
    else partitionPoint test first step
termination_by len
decreasing_by
  · omega
  · rw [Nat.shiftRight_one]
    omega

/-- **A test that holds up to some position of a range**, and not after it. -/
def Partitioned (test : ℕ → Bool) (first last : ℕ) : Prop :=
  ∀ i j, first ≤ i → i ≤ j → j < last → test j = true → test i = true

/-- **The position of a range where a test stops holding.** -/
structure IsPartitionPoint (test : ℕ → Bool) (first last r : ℕ) : Prop where
  first_le : first ≤ r
  le_last : r ≤ last
  before : ∀ i, first ≤ i → i < r → test i = true
  after : ∀ i, r ≤ i → i < last → test i = false

variable {test : ℕ → Bool} {first last first' last' len r r' : ℕ}

theorem Partitioned.mono (h : Partitioned test first last) (hf : first ≤ first')
    (hl : last' ≤ last) : Partitioned test first' last' :=
  fun i j hi hij hj => h i j (hf.trans hi) hij (hj.trans_le hl)

/-- **There is one such position.** -/
theorem IsPartitionPoint.unique (h : IsPartitionPoint test first last r)
    (h' : IsPartitionPoint test first last r') : r = r' := by
  rcases lt_trichotomy r r' with hlt | heq | hgt
  · have hon := h'.before r h.first_le hlt
    rw [h.after r le_rfl (hlt.trans_le h'.le_last)] at hon
    cases hon
  · exact heq
  · have hon := h.before r' h'.first_le hgt
    rw [h'.after r' le_rfl (hgt.trans_le h.le_last)] at hon
    cases hon

/-- What stops in a part of a range stops in the range, where the test holds
before the part and not after it. -/
theorem IsPartitionPoint.extend (h : IsPartitionPoint test first last r) (hf : first' ≤ first)
    (hl : last ≤ last') (hbefore : ∀ i, first' ≤ i → i < first → test i = true)
    (hafter : ∀ i, last ≤ i → i < last' → test i = false) :
    IsPartitionPoint test first' last' r := by
  refine ⟨hf.trans h.first_le, h.le_last.trans hl, fun i hi hir => ?_, fun i hri hi => ?_⟩
  · rcases lt_or_ge i first with hlt | hge
    · exact hbefore i hi hlt
    · exact h.before i hge hir
  · rcases lt_or_ge i last with hlt | hge
    · exact h.after i hri hlt
    · exact hafter i hge hi

/-- **Binary search ends where the test stops holding.** -/
theorem isPartitionPoint_partitionPoint (test : ℕ → Bool) (first len : ℕ)
    (h : Partitioned test first (first + len)) :
    IsPartitionPoint test first (first + len) (partitionPoint test first len) := by
  induction first, len using partitionPoint.induct test with
  | case1 first =>
    rw [partitionPoint, if_pos rfl]
    exact ⟨le_rfl, le_rfl, fun i hi hlt => absurd hi (by omega),
      fun i hi hlt => absurd hi (by omega)⟩
  | case2 first len hlen step middle hon ih =>
    have hstep : step < len := by
      have : step = len / 2 := Nat.shiftRight_one len
      omega
    have hend : middle + 1 + (len - (step + 1)) = first + len := by omega
    rw [hend] at ih
    have hpart := ih (h.mono (by omega) le_rfl)
    rw [partitionPoint, if_neg hlen]
    show IsPartitionPoint test first (first + len) (if test middle then _ else _)
    rw [if_pos hon]
    -- What is before the middle passes the test as the middle does.
    refine hpart.extend (by omega) le_rfl (fun i hi hlt => ?_) fun i hi hlt => ?_
    · exact h i middle hi (by omega) (by omega) hon
    · exact absurd hlt (not_lt.mpr hi)
  | case3 first len hlen step middle hoff ih =>
    have hstep : step < len := by
      have : step = len / 2 := Nat.shiftRight_one len
      omega
    have hpart := ih (h.mono le_rfl (by omega))
    rw [partitionPoint, if_neg hlen]
    show IsPartitionPoint test first (first + len) (if test middle then _ else _)
    rw [if_neg hoff]
    -- What passes the test is before the middle, which does not.
    refine hpart.extend le_rfl (by omega) (fun i hi hlt => ?_) fun i hi hlt => ?_
    · exact absurd hlt (not_lt.mpr hi)
    · rcases Bool.eq_false_or_eq_true (test i) with hon | hoff'
      · exact absurd (h middle i (by omega) hi hlt hon) hoff
      · exact hoff'

/-! ## Both ends of a range -/

/-- **Binary search** for both ends of what is neither less nor greater: once
something in it is met, each end is searched for by itself. -/
def equalRange (less greater : ℕ → Bool) (first len : ℕ) : ℕ × ℕ :=
  if len = 0 then (first, first)
  else
    let step := len >>> 1
    let middle := first + step
    if less middle then equalRange less greater (middle + 1) (len - (step + 1))
    else if greater middle then equalRange less greater first step
    else
      let last := first + len
      (partitionPoint less first (middle - first),
        partitionPoint (fun i => !greater i) (middle + 1) (last - (middle + 1)))
termination_by len
decreasing_by
  · omega
  · rw [Nat.shiftRight_one]
    omega

/-- **Two tests around a range**: the one holds up to some position, the other from
some position on, and never both. -/
structure Around (less greater : ℕ → Bool) (first last : ℕ) : Prop where
  front : Partitioned less first last
  back : Partitioned (fun i => !greater i) first last
  not_both : ∀ i, less i = true → greater i = false

/-- **The two ends of a range.** -/
def AreEnds (less greater : ℕ → Bool) (first last : ℕ) (r : ℕ × ℕ) : Prop :=
  IsPartitionPoint less first last r.1 ∧ IsPartitionPoint (fun i => !greater i) first last r.2

variable {less greater : ℕ → Bool}

theorem Around.mono (h : Around less greater first last) (hf : first ≤ first')
    (hl : last' ≤ last) : Around less greater first' last' :=
  ⟨h.front.mono hf hl, h.back.mono hf hl, h.not_both⟩

/-- What is before something that is not greater is not. -/
theorem Around.not_greater {i j : ℕ} (h : Around less greater first last) (hi : first ≤ i)
    (hij : i ≤ j) (hj : j < last) (hnot : greater j = false) : greater i = false := by
  have hback : (!greater i) = true := h.back i j hi hij hj (by simp only [hnot, Bool.not_false])
  simpa using hback

/-- **The search for both ends finds them.** -/
theorem areEnds_equalRange (less greater : ℕ → Bool) (first len : ℕ)
    (h : Around less greater first (first + len)) :
    AreEnds less greater first (first + len) (equalRange less greater first len) := by
  induction first, len using equalRange.induct less greater with
  | case1 first =>
    rw [equalRange, if_pos rfl]
    have hnone : ∀ test : ℕ → Bool, IsPartitionPoint test first (first + 0) first := fun test =>
      ⟨le_rfl, le_rfl, fun i hi hlt => absurd hi (by omega), fun i hi hlt => absurd hi (by omega)⟩
    exact ⟨hnone _, hnone _⟩
  | case2 first len hlen step middle hon ih =>
    have hstep : step < len := by
      have : step = len / 2 := Nat.shiftRight_one len
      omega
    have hend : middle + 1 + (len - (step + 1)) = first + len := by omega
    rw [hend] at ih
    obtain ⟨hless, hgreater⟩ := ih (h.mono (by omega) le_rfl)
    rw [equalRange, if_neg hlen]
    show AreEnds less greater first (first + len) (if less middle then _ else _)
    rw [if_pos hon]
    -- What is not after the middle is less, as the middle is.
    have hbefore : ∀ i, first ≤ i → i < middle + 1 → less i = true :=
      fun i hi hlt => h.front i middle hi (by omega) (by omega) hon
    refine ⟨hless.extend (by omega) le_rfl hbefore fun i hi hlt => absurd hlt (not_lt.mpr hi),
      hgreater.extend (by omega) le_rfl (fun i hi hlt => ?_)
        fun i hi hlt => absurd hlt (not_lt.mpr hi)⟩
    rw [h.not_both i (hbefore i hi hlt)]
    rfl
  | case3 first len hlen step middle hoff hon ih =>
    have hstep : step < len := by
      have : step = len / 2 := Nat.shiftRight_one len
      omega
    obtain ⟨hless, hgreater⟩ := ih (h.mono le_rfl (by omega))
    rw [equalRange, if_neg hlen]
    show AreEnds less greater first (first + len) (if less middle then _ else _)
    rw [if_neg hoff]
    show AreEnds less greater first (first + len) (if greater middle then _ else _)
    rw [if_pos hon]
    -- What is not before the middle is greater, as the middle is.
    have hafter : ∀ i, middle ≤ i → i < first + len → greater i = true := fun i hi hlt => by
      by_contra hnot
      rw [h.not_greater (by omega) hi hlt (Bool.eq_false_of_not_eq_true hnot)] at hon
      exact Bool.false_ne_true hon
    refine ⟨hless.extend le_rfl (by omega) (fun i hi hlt => absurd hlt (not_lt.mpr hi))
        fun i hi hlt => ?_, hgreater.extend le_rfl (by omega)
        (fun i hi hlt => absurd hlt (not_lt.mpr hi)) fun i hi hlt => ?_⟩
    · by_contra hl
      have hboth := h.not_both i (Bool.eq_true_of_not_eq_false hl)
      rw [hafter i hi hlt] at hboth
      exact Bool.false_ne_true hboth.symm
    · rw [hafter i hi hlt]
      rfl
  | case4 first len hlen step middle hoff hoff' =>
    have hstep : step < len := by
      have : step = len / 2 := Nat.shiftRight_one len
      omega
    rw [equalRange, if_neg hlen]
    show AreEnds less greater first (first + len) (if less middle then _ else _)
    rw [if_neg hoff]
    show AreEnds less greater first (first + len) (if greater middle then _ else _)
    rw [if_neg hoff']
    have hmid : first + (middle - first) = middle := by omega
    have hend : middle + 1 + (first + len - (middle + 1)) = first + len := by omega
    have hless := isPartitionPoint_partitionPoint less first (middle - first)
      (h.front.mono le_rfl (by omega))
    have hgreater := isPartitionPoint_partitionPoint (fun i => !greater i) (middle + 1)
      (first + len - (middle + 1)) (h.back.mono (by omega) (by omega))
    rw [hmid] at hless
    rw [hend] at hgreater
    -- The middle is in the range, so each end is on its side.
    refine ⟨hless.extend le_rfl (by omega) (fun i hi hlt => absurd hlt (not_lt.mpr hi))
        fun i hi hlt => ?_, hgreater.extend (by omega) le_rfl (fun i hi hlt => ?_)
        fun i hi hlt => absurd hlt (not_lt.mpr hi)⟩
    · rcases Bool.eq_false_or_eq_true (less i) with hl | hl
      · exact absurd (h.front middle i (by omega) hi hlt hl) hoff
      · exact hl
    · rw [h.not_greater hi (Nat.le_of_lt_succ hlt) (by omega)
        (Bool.eq_false_of_not_eq_true hoff')]
      rfl
