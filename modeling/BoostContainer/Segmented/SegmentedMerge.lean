import BoostContainer.Segmented.SegmentedCopy

/-!
# Merges of segmented ranges

A merge, and each of the set operations, reads two ranges and writes one. In
each turn it compares the elements at which it is in the two ranges, gets on in
one of them or in both, and may write one of the two elements. It is made until
one of the ranges is used up; what is left of the other is copied, or not.

What the code does is made in parts. The helper at the bottom makes turns until
a part of the first range, a part of the second or a part of the destination is
used up. Around it are a walk over the segments of the destination, a walk over
those of the second range and one over those of the first.
-/

namespace Segmented

open Segments Segmentation

variable {α : Type*}

/-! ## Turns -/

/-- **`segtrio`**: where a merge is in the two ranges, and its output. -/
structure Trio (α : Type*) where
  first : ℕ
  second : ℕ
  third : Output α

/-- What is done in a turn: in which of the ranges to get on, and what to write. -/
structure MergeTurn (α : Type*) where
  first : Bool
  second : Bool
  out : Option α

/-- An element may be written. -/
def Output.push (s : Output α) : Option α → Output α
  | some x => (Function.update s.1 s.2 (some x), s.2 + 1)
  | none => s

/-- A turn is made. -/
def Trio.advance (s : Trio α) (t : MergeTurn α) : Trio α :=
  ⟨s.first + t.first.toNat, s.second + t.second.toNat, Output.push s.third t.out⟩

/-- **One turn**: the two elements are compared. -/
def mergeStep (turn : α → α → MergeTurn α) (s : Trio α) : Option (Trio α) :=
  (s.third.1 s.first).bind (fun x1 => (s.third.1 s.second).map (fun x2 => s.advance (turn x1 x2)))

/-- The operations. -/
inductive SetOperation where
  | merge
  | setUnion
  | setIntersection
  | setDifference
  | setSymmetricDifference
  deriving DecidableEq

namespace SetOperation

/-- The turn of an operation. -/
def turn (comp : α → α → Bool) : SetOperation → α → α → MergeTurn α
  | merge, x1, x2 => if comp x2 x1 then ⟨false, true, some x2⟩ else ⟨true, false, some x1⟩
  | setUnion, x1, x2 =>
    if comp x1 x2 then ⟨true, false, some x1⟩
    else if comp x2 x1 then ⟨false, true, some x2⟩
    else ⟨true, true, some x1⟩
  | setIntersection, x1, x2 =>
    if comp x1 x2 then ⟨true, false, none⟩
    else if comp x2 x1 then ⟨false, true, none⟩
    else ⟨true, true, some x1⟩
  | setDifference, x1, x2 =>
    if comp x1 x2 then ⟨true, false, some x1⟩
    else ⟨!comp x2 x1, true, none⟩
  | setSymmetricDifference, x1, x2 =>
    if comp x1 x2 then ⟨true, false, some x1⟩
    else if comp x2 x1 then ⟨false, true, some x2⟩
    else ⟨true, true, none⟩

/-- Whether what is left of the first range is copied. -/
def drainsFirst : SetOperation → Bool
  | setIntersection => false
  | _ => true

/-- Whether what is left of the second range is copied. -/
def drainsSecond : SetOperation → Bool
  | setIntersection => false
  | setDifference => false
  | _ => true

end SetOperation

/-! ## Helpers at the bottom -/

/-- The helper of a set operation for a destination that is not cut, and that may
have no end: **`set_union_dst_bounded`** and its like. -/
def setDstBounded (turn : α → α → MergeTurn α) (last1 last2 : ℕ) (dstLast : Option ℕ)
    (s : Trio α) : Option (Trio α) :=
  Scan.loop (fun s =>
    if s.first = last1 ∨ s.second = last2 ∨ dstLast = some s.third.2 then some (Scan.done s)
    else (mergeStep turn s).map Scan.more)
    (last1 - s.first + (last2 - s.second) + 1) s

/-- **`merge_dst_bounded`** for a destination that is not cut: after a turn only the
range is asked that was read. -/
def mergeDstBounded (comp : α → α → Bool) (last1 last2 : ℕ) (dstLast : Option ℕ)
    (s : Trio α) : Option (Trio α) :=
  if s.first ≠ last1 ∧ s.second ≠ last2 ∧ dstLast ≠ some s.third.2 then
    Scan.loop (fun s => (s.third.1 s.first).bind (fun x1 => (s.third.1 s.second).map (fun x2 =>
      if comp x2 x1 then
        let s : Trio α := ⟨s.first, s.second + 1, Output.push s.third (some x2)⟩
        if s.second = last2 ∨ dstLast = some s.third.2 then Scan.done s else Scan.more s
      else
        let s : Trio α := ⟨s.first + 1, s.second, Output.push s.third (some x1)⟩
        if s.first = last1 ∨ dstLast = some s.third.2 then Scan.done s else Scan.more s)))
      (last1 - s.first + (last2 - s.second)) s
  else some s

/-- The helper at the bottom of an operation. -/
def SetOperation.dstBounded (op : SetOperation) (comp : α → α → Bool) (last1 last2 : ℕ)
    (dstLast : Option ℕ) (s : Trio α) : Option (Trio α) :=
  match op with
  | .merge => mergeDstBounded comp last1 last2 dstLast s
  | op => setDstBounded (op.turn comp) last1 last2 dstLast s

/-! ## Runs of turns -/

/-- A range is used up. -/
def Ended (last1 last2 : ℕ) (s : Trio α) : Prop := s.first = last1 ∨ s.second = last2

/-- A turn that is made before a range is used up. -/
def Turned (step : Trio α → Option (Trio α)) (last1 last2 : ℕ) (s t : Trio α) : Prop :=
  s.first < last1 ∧ s.second < last2 ∧ step s = some t

/-- **A run of turns**, before a range is used up. -/
abbrev Runs (step : Trio α → Option (Trio α)) (last1 last2 : ℕ) : Trio α → Trio α → Prop :=
  Relation.ReflTransGen (Turned step last1 last2)

/-- **A step gets on**: in a range or in both, by one element, and writes at most
one. -/
structure GetsOn (step : Trio α → Option (Trio α)) : Prop where
  reads : ∀ {s t}, step s = some t → s.first + s.second < t.first + t.second
    ∧ s.first ≤ t.first ∧ t.first ≤ s.first + 1 ∧ s.second ≤ t.second ∧ t.second ≤ s.second + 1
  writes : ∀ {s t}, step s = some t → s.third.2 ≤ t.third.2 ∧ t.third.2 ≤ s.third.2 + 1

/-- **A state on the way to the end `m` of a run.** -/
structure LeadsTo (step : Trio α → Option (Trio α)) (last1 last2 : ℕ) (m s : Trio α) : Prop where
  le1 : s.first ≤ last1
  le2 : s.second ≤ last2
  runs : Runs step last1 last2 s m

section Runs

variable {step : Trio α → Option (Trio α)} {last1 last2 l1 l2 : ℕ} {m s t : Trio α}

theorem Turned.mono (h1 : l1 ≤ last1) (h2 : l2 ≤ last2) (h : Turned step l1 l2 s t) :
    Turned step last1 last2 s t := ⟨h.1.trans_le h1, h.2.1.trans_le h2, h.2.2⟩

theorem Runs.mono (h1 : l1 ≤ last1) (h2 : l2 ≤ last2) (h : Runs step l1 l2 s t) :
    Runs step last1 last2 s t :=
  Relation.ReflTransGen.mono (fun _ _ hturn => Turned.mono h1 h2 hturn) _ _ h

/-- What a run never goes back behind. -/
theorem Runs.le (hstep : GetsOn step) (h : Runs step last1 last2 s t) :
    s.first ≤ t.first ∧ s.second ≤ t.second ∧ s.third.2 ≤ t.third.2 := by
  induction h with
  | refl => exact ⟨le_rfl, le_rfl, le_rfl⟩
  | tail _ hturn ih =>
    have hreads := hstep.reads hturn.2.2
    have hwrites := hstep.writes hturn.2.2
    exact ⟨ih.1.trans hreads.2.1, ih.2.1.trans hreads.2.2.2.1, ih.2.2.trans hwrites.1⟩

/-- On the way to an end where no range is used up yet, there is a turn to make. -/
theorem LeadsTo.turn (hstep : GetsOn step) (hm : Ended last1 last2 m)
    (h : LeadsTo step last1 last2 m s) (h1 : s.first < last1) (h2 : s.second < last2) :
    ∃ t, step s = some t ∧ LeadsTo step last1 last2 m t := by
  rcases Relation.ReflTransGen.cases_head h.runs with rfl | ⟨t, hturn, hruns⟩
  · rcases hm with hm | hm
    · exact absurd hm h1.ne
    · exact absurd hm h2.ne
  · have hreads := hstep.reads hturn.2.2
    exact ⟨t, hturn.2.2, by omega, by omega, hruns⟩

/-- At an end there is nothing more to do. -/
theorem LeadsTo.eq_of_ended (h : LeadsTo step last1 last2 m s) (hs : Ended last1 last2 s) :
    s = m := by
  rcases Relation.ReflTransGen.cases_head h.runs with rfl | ⟨t, hturn, -⟩
  · rfl
  · rcases hs with hs | hs
    · exact absurd hs hturn.1.ne
    · exact absurd hs hturn.2.1.ne

/-- Turns that are made stay on the way. -/
theorem LeadsTo.of_runs (hstep : GetsOn step) (hm : Ended last1 last2 m) (h1 : l1 ≤ last1)
    (h2 : l2 ≤ last2) (h : LeadsTo step last1 last2 m s) (hruns : Runs step l1 l2 s t) :
    LeadsTo step last1 last2 m t := by
  induction hruns with
  | refl => exact h
  | tail _ hturn ih =>
    obtain ⟨u, hu, hlead⟩ := ih.turn hstep hm (hturn.1.trans_le h1) (hturn.2.1.trans_le h2)
    exact Option.some.inj (hu.symm.trans hturn.2.2) ▸ hlead

/-- No more is written than at the end. -/
theorem LeadsTo.third_le (hstep : GetsOn step) (h : LeadsTo step last1 last2 m s) :
    s.third.2 ≤ m.third.2 := (h.runs.le hstep).2.2

end Runs

/-! ## The helpers make turns -/

/-- **Turns were made as far as there was room for**: until a range was used up, or
the destination. -/
structure MadeTurns (step : Trio α → Option (Trio α)) (l1 l2 : ℕ) (dstLast : Option ℕ)
    (s t : Trio α) : Prop where
  runs : Runs step l1 l2 s t
  le1 : t.first ≤ l1
  le2 : t.second ≤ l2
  le_dst : ∀ e, dstLast = some e → t.third.2 ≤ e
  stop : Ended l1 l2 t ∨ dstLast = some t.third.2

/-- **A helper makes turns as far as there is room for.** -/
def MakesTurns (step : Trio α → Option (Trio α))
    (leaf : ℕ → ℕ → Option ℕ → Trio α → Option (Trio α)) : Prop :=
  ∀ {last1 last2 m l1 l2 dstLast s}, Ended last1 last2 m → LeadsTo step last1 last2 m s →
    l1 ≤ last1 → l2 ≤ last2 → s.first ≤ l1 → s.second ≤ l2 →
    (∀ e, dstLast = some e → s.third.2 ≤ e) →
    (leaf l1 l2 dstLast s).Yields (MadeTurns step l1 l2 dstLast s)

section Turns

variable {turn : α → α → MergeTurn α} {comp : α → α → Bool} {s t : Trio α}

/-- Turns that read get on. -/
theorem getsOn_mergeStep
    (hturn : ∀ x1 x2, (turn x1 x2).first = true ∨ (turn x1 x2).second = true) :
    GetsOn (mergeStep turn) where
  reads := by
    intro s t h
    obtain ⟨x1, -, h⟩ := Option.bind_eq_some_iff.mp h
    obtain ⟨x2, -, rfl⟩ := Option.map_eq_some_iff.mp h
    have h1 := Bool.toNat_le (turn x1 x2).first
    have h2 := Bool.toNat_le (turn x1 x2).second
    have h12 : 0 < (turn x1 x2).first.toNat + (turn x1 x2).second.toNat := by
      rcases hturn x1 x2 with h | h
      · rw [h, Bool.toNat_true]
        omega
      · rw [h, Bool.toNat_true]
        omega
    simp only [Trio.advance]
    omega
  writes := by
    intro s t h
    obtain ⟨x1, -, h⟩ := Option.bind_eq_some_iff.mp h
    obtain ⟨x2, -, rfl⟩ := Option.map_eq_some_iff.mp h
    simp only [Trio.advance]
    cases (turn x1 x2).out with
    | none => exact ⟨le_rfl, Nat.le_succ _⟩
    | some x => exact ⟨Nat.le_succ _, le_rfl⟩

/-- Every operation reads in each turn. -/
theorem SetOperation.turn_reads (op : SetOperation) (comp : α → α → Bool) (x1 x2 : α) :
    (op.turn comp x1 x2).first = true ∨ (op.turn comp x1 x2).second = true := by
  cases op <;> simp only [SetOperation.turn] <;> split_ifs <;> simp

theorem SetOperation.getsOn (op : SetOperation) (comp : α → α → Bool) :
    GetsOn (mergeStep (op.turn comp)) :=
  getsOn_mergeStep (op.turn_reads comp)

/-- **The helper of a set operation makes turns as far as there is room for.** -/
theorem makesTurns_setDstBounded (hstep : GetsOn (mergeStep turn)) :
    MakesTurns (mergeStep turn) (setDstBounded turn) := by
  intro last1 last2 m l1 l2 dstLast s hm hs hl1 hl2 h1 h2 hdst
  refine Scan.loop_yields (I := fun t => Runs (mergeStep turn) l1 l2 s t ∧ t.first ≤ l1
      ∧ t.second ≤ l2 ∧ ∀ e, dstLast = some e → t.third.2 ≤ e)
    (fun t => l1 - t.first + (l2 - t.second)) ?_ (Nat.lt_succ_self _)
    ⟨Relation.ReflTransGen.refl, h1, h2, hdst⟩
  rintro t ⟨hruns, ht1, ht2, hdst⟩
  split
  · next hstop =>
    refine Option.yields_some ⟨hruns, ht1, ht2, hdst, ?_⟩
    rcases hstop with h | h | h
    · exact Or.inl (Or.inl h)
    · exact Or.inl (Or.inr h)
    · exact Or.inr h
  · next hgo =>
    have hlt1 : t.first < l1 := by omega
    have hlt2 : t.second < l2 := by omega
    obtain ⟨u, hu, -⟩ := (hs.of_runs hstep hm hl1 hl2 hruns).turn hstep hm (by omega) (by omega)
    have hreads := hstep.reads hu
    have hwrites := hstep.writes hu
    rw [hu, Option.map_some]
    refine Option.yields_some ⟨⟨hruns.tail ⟨hlt1, hlt2, hu⟩, by omega, by omega, ?_⟩, by omega⟩
    intro e he
    have hne : t.third.2 ≠ e := fun h => hgo (Or.inr (Or.inr (h ▸ he)))
    have := hdst e he
    omega

/-- The loop of a set operation ends with turns that were made. -/
theorem madeTurns_of_setDstBounded {last1 last2 : ℕ} (hstep : GetsOn (mergeStep turn))
    (h1 : s.first ≤ last1) (h2 : s.second ≤ last2)
    (h : setDstBounded turn last1 last2 none s = some t) :
    MadeTurns (mergeStep turn) last1 last2 none s t := by
  have hnone : ∀ (u : Trio α) e, (none : Option ℕ) = some e → u.third.2 ≤ e :=
    fun _ _ he => nomatch he
  refine Scan.loop_of_some (I := fun t => Runs (mergeStep turn) last1 last2 s t ∧ t.first ≤ last1
    ∧ t.second ≤ last2) ?_ ⟨Relation.ReflTransGen.refl, h1, h2⟩ h
  rintro u e ⟨hruns, hu1, hu2⟩ he
  split at he
  · next hstop =>
    rw [← Option.some.inj he]
    refine ⟨hruns, hu1, hu2, hnone u, ?_⟩
    rcases hstop with h | h | h
    · exact Or.inl (Or.inl h)
    · exact Or.inl (Or.inr h)
    · exact Or.inr h
  · next hgo =>
    obtain ⟨u', hu', rfl⟩ := Option.map_eq_some_iff.mp he
    have hreads := hstep.reads hu'
    exact ⟨hruns.tail ⟨by omega, by omega, hu'⟩, by omega, by omega⟩

/-- **`merge_dst_bounded` makes turns as far as there is room for.** -/
theorem makesTurns_mergeDstBounded :
    MakesTurns (mergeStep (SetOperation.merge.turn comp)) (mergeDstBounded comp) := by
  intro last1 last2 m l1 l2 dstLast s hm hs hl1 hl2 h1 h2 hdst
  have hstep := SetOperation.merge.getsOn comp
  unfold mergeDstBounded
  split
  · next hgo =>
    refine Scan.loop_yields (I := fun t => Runs (mergeStep (SetOperation.merge.turn comp)) l1 l2 s t
        ∧ t.first < l1 ∧ t.second < l2 ∧ ∀ e, dstLast = some e → t.third.2 < e)
      (fun t => l1 - t.first + (l2 - t.second) - 1) ?_ ?_
      ⟨Relation.ReflTransGen.refl, lt_of_le_of_ne h1 hgo.1, lt_of_le_of_ne h2 hgo.2.1, ?_⟩
    · rintro t ⟨hruns, hlt1, hlt2, hdst⟩
      obtain ⟨u, hu, -⟩ := (hs.of_runs hstep hm hl1 hl2 hruns).turn hstep hm (by omega) (by omega)
      have hruns' := hruns.tail ⟨hlt1, hlt2, hu⟩
      obtain ⟨x1, hx1, hu⟩ := Option.bind_eq_some_iff.mp hu
      obtain ⟨x2, hx2, rfl⟩ := Option.map_eq_some_iff.mp hu
      have hdst' : ∀ e, dstLast = some e → t.third.2 + 1 ≤ e := fun e he => hdst e he
      have hlt : ∀ e, dstLast ≠ some (t.third.2 + 1) → dstLast = some e → t.third.2 + 1 < e :=
        fun e hne he => lt_of_le_of_ne (hdst e he) (fun h => hne (h ▸ he))
      rw [hx1, hx2, Option.bind_some, Option.map_some]
      refine Option.yields_some ?_
      rw [SetOperation.turn] at hruns'
      by_cases hc : comp x2 x1 = true
      · rw [if_pos hc] at hruns' ⊢
        dsimp only [Output.push]
        by_cases hstop : t.second + 1 = l2 ∨ dstLast = some (t.third.2 + 1)
        · rw [if_pos hstop]
          exact ⟨hruns', hlt1.le, hlt2, hdst', hstop.imp_left Or.inr⟩
        · rw [if_neg hstop]
          obtain ⟨hne, hne'⟩ := not_or.mp hstop
          exact ⟨⟨hruns', hlt1, lt_of_le_of_ne hlt2 hne, fun e => hlt e hne'⟩, by simp only; omega⟩
      · rw [if_neg hc] at hruns' ⊢
        dsimp only [Output.push]
        by_cases hstop : t.first + 1 = l1 ∨ dstLast = some (t.third.2 + 1)
        · rw [if_pos hstop]
          exact ⟨hruns', hlt1, hlt2.le, hdst', hstop.imp_left Or.inl⟩
        · rw [if_neg hstop]
          obtain ⟨hne, hne'⟩ := not_or.mp hstop
          exact ⟨⟨hruns', lt_of_le_of_ne hlt1 hne, hlt2, fun e => hlt e hne'⟩, by simp only; omega⟩
    · omega
    · exact fun e he => lt_of_le_of_ne (hdst e he) (fun h => hgo.2.2 (h ▸ he))
  · next hstop =>
    refine Option.yields_some ⟨Relation.ReflTransGen.refl, h1, h2, hdst, ?_⟩
    rw [Ended]
    tauto

end Turns

end Segmented
