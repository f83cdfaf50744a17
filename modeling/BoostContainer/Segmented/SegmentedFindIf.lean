import BoostContainer.Lib.Segments

/-!
# The first element of a segmented range

Iterators of a segmented sequence are the positions in it, at every level, and
a segment is seen from its begin. An iterator behind the last element of a
segment is the one at the begin of the next, as `compose()` makes it.

An element that an algorithm may not read is not in the memory it is given. So
that a result exists says that nothing else was read.
-/

namespace Segmented

open Segments Segmentation

/-- **The elements of a sequence that may be read**, by their positions. -/
abbrev Memory (α : Type*) := ℕ → Option α

/-- The elements of a segment, seen from its begin. -/
def Memory.dropTo {α : Type*} (mem : Memory α) (a : ℕ) : Memory α := fun i => mem (a + i)

/-- **A range that may be read** of a sequence that is cut into segments, and
its elements. -/
structure InRange {α : Type*} {d : ℕ} (c : Segmentation d) (mem : Memory α) (v : ℕ → α)
    (first last : ℕ) : Prop where
  le : first ≤ last
  le_size : last ≤ size d c
  mem_eq : ∀ p, first ≤ p → p < last → mem p = some (v p)

namespace InRange

variable {α : Type*} {d : ℕ} {mem : Memory α} {v : ℕ → α} {first last a b k p : ℕ}

/-- A part of a range. -/
theorem sub {c : Segmentation d} (h : InRange c mem v first last) (ha : first ≤ a)
    (hab : a ≤ b) (hb : b ≤ last) : InRange c mem v a b :=
  ⟨hab, hb.trans h.le_size, fun p hp hpb => h.mem_eq p (ha.trans hp) (hpb.trans_le hb)⟩

/-- A part of a range that lies in one segment. -/
theorem child {c : Segmentation (d + 1)} (h : InRange c mem v first last) (hab : a ≤ b)
    (hb : b ≤ c.sizes.getD k 0) (ha : first ≤ compose c.sizes k a)
    (hlast : compose c.sizes k b ≤ last) :
    InRange (c.child k) (mem.dropTo (start c.sizes k)) (fun i => v (start c.sizes k + i)) a b where
  le := hab
  le_size := (size_child c k).symm ▸ hb
  mem_eq p hp hpb := h.mem_eq _ (by unfold compose at ha; omega) (by unfold compose at hlast; omega)

/-- A range of a sequence that is not cut. -/
theorem flat {c : Segmentation d} (h : InRange c mem v first last) :
    InRange (d := 0) (size d c) mem v first last := ⟨h.le, h.le_size, h.mem_eq⟩

end InRange

/-! ## `segmented_find_if` -/

variable {α : Type*}

/-- The loop over elements that are not cut into segments. -/
def findIfLoop (pred : α → Bool) (mem : Memory α) (first last : ℕ) : Option ℕ :=
  (Scan.forRange first last (fun p (_ : Unit) => (mem p).map (fun x =>
    if pred x then Scan.done p else Scan.more ())) ()).map (fun e => match e with
    | .more _ => last
    | .done r => r)

/-- **`segmented_find_if_dispatch`.** -/
def segmentedFindIfDispatch (pred : α → Bool) :
    (d : ℕ) → Segmentation d → Memory α → ℕ → ℕ → Option ℕ
  | 0, _, mem, first, last => findIfLoop pred mem first last
  | d + 1, c, mem, first, last =>
    (walk c.sizes first last (fun k a b (_ : Unit) =>
      (segmentedFindIfDispatch pred d (c.child k) (mem.dropTo (start c.sizes k)) a b).map
        (fun r => if r ≠ b then Scan.done (compose c.sizes k r) else Scan.more ())) ()).map
      (fun e => match e with
      | .more _ => last
      | .done r => r)

/-- **The first position of a range whose element satisfies the predicate**, or
its end. -/
structure IsFirst (pred : α → Bool) (v : ℕ → α) (first last r : ℕ) : Prop where
  ge : first ≤ r
  le : r ≤ last
  before : ∀ p, first ≤ p → p < r → pred (v p) = false
  at_lt : r < last → pred (v r) = true

section FindIf

variable {pred : α → Bool} {mem : Memory α} {v : ℕ → α} {first last : ℕ}

theorem isFirst_last (hle : first ≤ last)
    (h : ∀ p, first ≤ p → p < last → pred (v p) = false) : IsFirst pred v first last last :=
  ⟨hle, le_rfl, h, fun hlt => absurd hlt (lt_irrefl _)⟩

theorem findIfLoop_yields {d : ℕ} {c : Segmentation d} (h : InRange c mem v first last) :
    (findIfLoop pred mem first last).Yields (IsFirst pred v first last) := by
  refine (Scan.forRange_yields
    (P := fun p _ => ∀ q, first ≤ q → q < p → pred (v q) = false)
    (Q := IsFirst pred v first last) h.le ?_ ?_).map ?_
  · intro p s hfp hpl hP
    refine (Option.Yields.map (Q := (· = v p)) ⟨v p, h.mem_eq p hfp hpl, rfl⟩ ?_)
    rintro x rfl
    by_cases hp : pred (v p) = true
    · rw [if_pos hp]
      exact ⟨hfp, hpl.le, hP, fun _ => hp⟩
    · rw [if_neg hp]
      intro q hq hqp
      rcases Nat.lt_succ_iff_lt_or_eq.mp hqp with hlt | rfl
      · exact hP q hq hlt
      · exact Bool.eq_false_iff.mpr hp
  · exact fun q hq hqf => absurd hq (Nat.not_le.mpr hqf)
  · intro e he
    cases e with
    | more s => exact isFirst_last h.le he
    | done r => exact he

/-- **The dispatch finds the first**, whatever the segments are. -/
theorem segmentedFindIfDispatch_yields {d : ℕ} {c : Segmentation d}
    (h : InRange c mem v first last) :
    (segmentedFindIfDispatch pred d c mem first last).Yields (IsFirst pred v first last) := by
  induction d generalizing mem v first last with
  | zero => exact findIfLoop_yields h
  | succ d ih =>
    have hsize : last ≤ c.sizes.sum := h.le_size
    refine (walk_yields (P := fun p _ => ∀ q, first ≤ q → q < p → pred (v q) = false)
      (Q := IsFirst pred v first last) h.le hsize ?_ ?_).map ?_
    · intro k a b s hab hb ha hlast hP
      refine (ih (h.child hab hb ha hlast)).map (fun r hr => ?_)
      unfold compose at ha hlast hP ⊢
      have hle := hr.le
      have hge := hr.ge
      have hbefore : ∀ q, first ≤ q → q < start c.sizes k + r → pred (v q) = false := by
        intro q hq hqr
        rcases Nat.lt_or_ge q (start c.sizes k + a) with hlt | hge
        · exact hP q hq hlt
        · have hfalse := hr.before (q - start c.sizes k) (by omega) (by omega)
          rwa [Nat.add_sub_cancel' (by omega)] at hfalse
      by_cases hrb : r ≠ b
      · rw [if_pos hrb]
        exact ⟨by omega, by omega, hbefore, fun _ => hr.at_lt (by omega)⟩
      · rw [if_neg hrb]
        exact not_not.mp hrb ▸ hbefore
    · exact fun q hq hqf => absurd hq (Nat.not_le.mpr hqf)
    · intro e he
      cases e with
      | more s => exact isFirst_last h.le he
      | done r => exact he

end FindIf

end Segmented
