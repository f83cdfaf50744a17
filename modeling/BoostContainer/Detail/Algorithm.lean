import Mathlib

/-!
# Searching a range

The searches of `detail/algorithm.hpp`. An iterator is a position, and reading
through it gives an element, or nothing where it is not one of the range's: a
search that reads outside of what it may read has no result.

Each search returns the end of its range when it finds nothing, and a caller
can only tell by comparing with it. So a search that *finds* the end cannot be
told from one that finds nothing.
-/

namespace Algorithm

variable {α β : Type*} (read : ℕ → Option α)

/-! ## The searches -/

/-- `find_if(first, first + n, p)` -/
def findIf (p : α → Bool) (first : ℕ) : ℕ → Option ℕ
  | 0 => some first
  | n + 1 => (read first).bind fun x => if p x then some first else findIf p (first + 1) n

variable (eq : α → β → Bool)

/-- The inner loop of `find_first_of`, which reads the element for each of the others. -/
def equalsAny (first : ℕ) : List β → Option Bool
  | [] => some false
  | c :: cs => (read first).bind fun x => if eq x c then some true else equalsAny first cs

/-- `find_first_of(first, first + n, first2, last2, p)` -/
def findFirstOf (s : List β) (first : ℕ) : ℕ → Option ℕ
  | 0 => some first
  | n + 1 =>
    (equalsAny read eq first s).bind fun found =>
      if found then some first else findFirstOf s (first + 1) n

/-- How the comparison at one position ends. -/
inductive Comparison
  | found
  | ended
  | differs

/-- The inner loop of `search`. -/
def compareAt (last : ℕ) : ℕ → List β → Option Comparison
  | _, [] => some .found
  | it, c :: cs =>
    if it = last then some .ended
    else (read it).bind fun x => if eq x c then compareAt last (it + 1) cs else some .differs

/-- `search(first1, last1, first2, last2, p)`, whose outer loop does not compareAt with the
end; it is given as many rounds as there are positions. -/
def search (s : List β) (last : ℕ) : ℕ → ℕ → Option ℕ
  | 0, _ => none
  | rounds + 1, first =>
    (compareAt read eq last first s).bind fun
      | .found => some first
      | .ended => some last
      | .differs => search s last rounds (first + 1)

/-- The inner loop of `find_end`, which compares with the end of the range only
where there is more to compareAt. -/
def compareEnd (last : ℕ) : ℕ → List β → Option Comparison
  | _, [] => some .found
  | it, c :: cs =>
    (read it).bind fun x =>
      if eq x c then
        if cs.isEmpty then some .found
        else if it + 1 = last then some .ended
        else compareEnd last (it + 1) cs
      else some .differs

/-- The outer loop of `find_end`, which keeps the last position it found. -/
def findEndLoop (s : List β) (last ret first : ℕ) : ℕ → Option ℕ
  | 0 => some ret
  | n + 1 =>
    (compareEnd read eq last first s).bind fun
      | .found => findEndLoop s last first (first + 1) n
      | .ended => some ret
      | .differs => findEndLoop s last ret (first + 1) n

/-- `find_end(first1, first1 + n, first2, last2, p)` -/
def findEnd (s : List β) (first n : ℕ) : Option ℕ :=
  if s.isEmpty then some (first + n) else findEndLoop read eq s (first + n) (first + n) first n

/-! ## What they find -/

/-- **The first position** of a range that is as wanted, or its end. -/
structure FirstOf (P : ℕ → Prop) (first last r : ℕ) : Prop where
  first_le : first ≤ r
  le_last : r ≤ last
  before : ∀ i, first ≤ i → i < r → ¬ P i
  here : r < last → P r

/-- **The positions of a range can be read.** -/
def Reads (first last : ℕ) : Prop := ∀ i, first ≤ i → i < last → ∃ x, read i = some x

/-- The other range stands at a position. -/
def Matches (s : List β) (i : ℕ) : Prop :=
  ∀ j c, s[j]? = some c → ∃ x ∈ read (i + j), eq x c = true

variable {read eq} {P : ℕ → Prop} {p : α → Bool} {s : List β} {first last n r : ℕ}

theorem FirstOf.succ (h : FirstOf P (first + 1) last r) (hfirst : ¬ P first) :
    FirstOf P first last r where
  first_le := (Nat.le_succ first).trans h.first_le
  le_last := h.le_last
  before i hi hr := by
    rcases Nat.lt_or_eq_of_le hi with hlt | rfl
    · exact h.before i hlt hr
    · exact hfirst
  here := h.here

theorem FirstOf.refl (hle : first ≤ last) (h : first < last → P first) :
    FirstOf P first last first :=
  ⟨le_rfl, hle, fun _ hi hr => absurd hr hi.not_gt, h⟩

theorem Reads.succ (h : Reads read first last) : Reads read (first + 1) last :=
  fun i hi => h i ((Nat.le_succ first).trans hi)

theorem findIf_spec (h : Reads read first (first + n)) :
    ∃ r, findIf read p first n = some r
      ∧ FirstOf (fun i => ∃ x ∈ read i, p x = true) first (first + n) r := by
  induction n generalizing first with
  | zero => exact ⟨first, rfl, FirstOf.refl le_rfl (fun hlt => absurd hlt (lt_irrefl _))⟩
  | succ n ih =>
    obtain ⟨x, hx⟩ := h first le_rfl (by omega)
    rw [findIf, hx, Option.bind_some]
    by_cases hp : p x = true
    · rw [if_pos hp]
      exact ⟨first, rfl, FirstOf.refl (by omega) (fun _ => ⟨x, hx, hp⟩)⟩
    · have hlast : first + 1 + n = first + (n + 1) := by omega
      obtain ⟨r, hr, hfirst⟩ := ih (hlast ▸ h.succ)
      rw [if_neg hp]
      refine ⟨r, hr, (hlast ▸ hfirst).succ ?_⟩
      rintro ⟨y, hy, hpy⟩
      rw [hx] at hy
      exact hp (Option.some.inj hy ▸ hpy)

theorem equalsAny_eq {x : α} (hx : read first = some x) :
    equalsAny read eq first s = some (s.any (eq x)) := by
  induction s with
  | nil => rfl
  | cons c cs ih =>
    rw [equalsAny, hx, Option.bind_some, List.any_cons, ih]
    cases eq x c <;> rfl

/-- **`find_first_of`** is `find_if`, where everything can be read. -/
theorem findFirstOf_eq (h : Reads read first (first + n)) :
    findFirstOf read eq s first n = findIf read (fun x => s.any (eq x)) first n := by
  induction n generalizing first with
  | zero => rfl
  | succ n ih =>
    obtain ⟨x, hx⟩ := h first le_rfl (by omega)
    have hlast : first + 1 + n = first + (n + 1) := by omega
    rw [findFirstOf, findIf, equalsAny_eq hx, hx, Option.bind_some, Option.bind_some,
      ih (hlast ▸ h.succ)]

/-! ## Matches -/

theorem matches_nil : Matches read eq [] first := fun j c hc => by
  rw [List.getElem?_nil] at hc
  exact absurd hc (Option.some_ne_none c).symm

theorem matches_cons {x : α} {c : β} {cs : List β} (hx : read first = some x) :
    Matches read eq (c :: cs) first ↔ eq x c = true ∧ Matches read eq cs (first + 1) := by
  constructor
  · intro h
    refine ⟨?_, fun j d hd => ?_⟩
    · obtain ⟨y, hy, he⟩ := h 0 c rfl
      rw [Nat.add_zero, hx] at hy
      exact Option.some.inj hy ▸ he
    · rw [Nat.add_right_comm]
      exact h (j + 1) d hd
  · rintro ⟨hc, hcs⟩ j d hd
    cases j with
    | zero => exact ⟨x, hx, Option.some.inj hd ▸ hc⟩
    | succ j =>
      rw [← Nat.add_assoc, Nat.add_right_comm]
      exact hcs j d hd

/-- **What a comparison tells**: the range stands here, or is too long for what is
left, or does not stand here. -/
def Comparison.Tells (P : Prop) (room : Prop) : Comparison → Prop
  | .found => room ∧ P
  | .ended => ¬ room
  | .differs => ¬ P

theorem compareAt_spec (h : Reads read first last) (hle : first ≤ last) :
    ∃ c, compareAt read eq last first s = some c
      ∧ c.Tells (Matches read eq s first) (first + s.length ≤ last)
      ∧ (c = .differs → first < last) := by
  induction s generalizing first with
  | nil => exact ⟨.found, rfl, ⟨hle, matches_nil⟩, Comparison.noConfusion⟩
  | cons d ds ih =>
    rw [compareAt, List.length_cons]
    by_cases hend : first = last
    · rw [if_pos hend]
      refine ⟨.ended, rfl, ?_, Comparison.noConfusion⟩
      show ¬ first + (ds.length + 1) ≤ last
      omega
    · have hlt : first < last := by omega
      obtain ⟨x, hx⟩ := h first le_rfl hlt
      rw [if_neg hend, hx, Option.bind_some, matches_cons hx]
      by_cases he : eq x d = true
      · obtain ⟨c, hc, htell, -⟩ := ih h.succ hlt
        have hroom : first + 1 + ds.length = first + (ds.length + 1) := by omega
        rw [if_pos he, and_iff_right he, ← hroom]
        exact ⟨c, hc, htell, fun _ => hlt⟩
      · rw [if_neg he]
        exact ⟨.differs, rfl, fun hm => he hm.1, fun _ => hlt⟩

/-- **`search`** finds the first place where the other range stands. -/
theorem search_spec {rounds : ℕ} (h : Reads read first last) (hle : first ≤ last)
    (hrounds : last - first < rounds) :
    ∃ r, search read eq s last rounds first = some r
      ∧ FirstOf (fun i => i + s.length ≤ last ∧ Matches read eq s i) first last r := by
  induction rounds generalizing first with
  | zero => exact absurd hrounds (Nat.not_lt_zero _)
  | succ rounds ih =>
    obtain ⟨c, hc, htell, hlt⟩ := compareAt_spec (s := s) h hle
    rw [search, hc, Option.bind_some]
    cases c with
    | found => exact ⟨first, rfl, FirstOf.refl hle (fun _ => htell)⟩
    | ended =>
      refine ⟨last, rfl, hle, le_rfl, fun i hi _ hP => ?_, fun hlt => absurd hlt (lt_irrefl _)⟩
      have hroom : ¬ first + s.length ≤ last := htell
      omega
    | differs =>
      obtain ⟨r, hr, hfirst⟩ := ih h.succ (hlt rfl) (by have := hlt rfl; omega)
      exact ⟨r, hr, hfirst.succ (fun hP => htell hP.2)⟩

theorem compareEnd_eq (h : Reads read first last) (hlt : first < last) (hne : s ≠ []) :
    compareEnd read eq last first s = compareAt read eq last first s := by
  induction s generalizing first with
  | nil => exact absurd rfl hne
  | cons d ds ih =>
    obtain ⟨x, hx⟩ := h first le_rfl hlt
    rw [compareEnd, compareAt, if_neg hlt.ne, hx, Option.bind_some, Option.bind_some]
    by_cases he : eq x d = true
    · rw [if_pos he, if_pos he]
      cases ds with
      | nil => rfl
      | cons e es =>
        rw [List.isEmpty_cons, if_neg Bool.false_ne_true]
        by_cases hend : first + 1 = last
        · rw [if_pos hend, compareAt, if_pos hend]
        · rw [if_neg hend]
          exact ih h.succ (by omega) (List.cons_ne_nil e es)
    · rw [if_neg he, if_neg he]

/-- **The last position** of a range that is as wanted, or what was there before. -/
def LastOf (P : ℕ → Prop) (first last ret r : ℕ) : Prop :=
  (first ≤ r ∧ r < last ∧ P r ∧ ∀ i, r < i → i < last → ¬ P i)
    ∨ (r = ret ∧ ∀ i, first ≤ i → i < last → ¬ P i)

/-- **`find_end`** finds the last place where the other range stands. -/
theorem findEndLoop_spec {ret : ℕ} (h : Reads read first last) (hne : s ≠ [])
    (hn : first + n = last) :
    ∃ r, findEndLoop read eq s last ret first n = some r
      ∧ LastOf (fun i => i + s.length ≤ last ∧ Matches read eq s i) first last ret r := by
  induction n generalizing first ret with
  | zero => exact ⟨ret, rfl, Or.inr ⟨rfl, fun i hi hlt => by omega⟩⟩
  | succ n ih =>
    obtain ⟨c, hc, htell, -⟩ := compareAt_spec (s := s) h (by omega)
    rw [findEndLoop, compareEnd_eq h (by omega) hne, hc, Option.bind_some]
    cases c with
    | found =>
      obtain ⟨r, hr, hlast⟩ := ih h.succ (by omega)
      refine ⟨r, hr, Or.inl ?_⟩
      rcases hlast with ⟨hle, hlt, hP, hafter⟩ | ⟨rfl, hnone⟩
      · exact ⟨by omega, hlt, hP, hafter⟩
      · exact ⟨le_rfl, by omega, htell, fun i hi => hnone i hi⟩
    | ended =>
      refine ⟨ret, rfl, Or.inr ⟨rfl, fun i hi _ hP => ?_⟩⟩
      have hroom : ¬ first + s.length ≤ last := htell
      omega
    | differs =>
      obtain ⟨r, hr, hlast⟩ := ih h.succ (by omega)
      refine ⟨r, hr, ?_⟩
      rcases hlast with ⟨hle, hlt, hP, hafter⟩ | ⟨rfl, hnone⟩
      · exact Or.inl ⟨by omega, hlt, hP, hafter⟩
      · refine Or.inr ⟨rfl, fun i hi hlt hP => ?_⟩
        rcases Nat.lt_or_eq_of_le hi with hlt' | rfl
        · exact hnone i hlt' hlt hP
        · exact htell hP.2

theorem findEnd_spec (h : Reads read first (first + n)) (hne : s ≠ []) :
    ∃ r, findEnd read eq s first n = some r
      ∧ LastOf (fun i => i + s.length ≤ first + n ∧ Matches read eq s i) first (first + n)
        (first + n) r := by
  rw [findEnd, List.isEmpty_eq_false_iff.mpr hne, if_neg Bool.false_ne_true]
  exact findEndLoop_spec h hne rfl

end Algorithm
