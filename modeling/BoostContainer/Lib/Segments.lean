import Mathlib

/-!
# Sequences cut into segments

A sequence that is stored in pieces is read piece by piece. A position in it is
the number of elements before it, and falls into one segment: a position
between two segments starts the later one, and an empty segment holds none. So
a position is a segment and a position in the segment, and is composed from the
two again.

An algorithm over a range walks its segments: what is left of the first, all
the segments between, what is used of the last. Its answer comes in the middle
of some segment or not at all, and the rest of the argument is the same each
time, so it is made here once (`walk_yields`): what the scan of a part of a
segment does to an invariant of positions, the walk does over its range. A
walk that nothing ends but its own task (`walkOn_yields`) needs in addition
that the task ends before the segments do.

A computation is partial: a read of an element that is not there, or a loop
that does not end, has no result.
-/

/-! ## Partial computations -/

/-- **A computation ends**, and its result is as it should be. -/
def Option.Yields {α : Type*} (x : Option α) (Q : α → Prop) : Prop := ∃ a, x = some a ∧ Q a

namespace Option

variable {α β : Type*} {x : Option α} {Q R : α → Prop} {S : β → Prop}

theorem yields_some {a : α} (h : Q a) : (some a).Yields Q := ⟨a, rfl, h⟩

/-- What follows a computation uses its result. -/
theorem Yields.bind {f : α → Option β} (h : x.Yields Q) (hf : ∀ a, Q a → (f a).Yields S) :
    (x.bind f).Yields S := by
  obtain ⟨a, rfl, ha⟩ := h
  exact hf a ha

theorem Yields.map {f : α → β} (h : x.Yields Q) (hf : ∀ a, Q a → S (f a)) :
    (x.map f).Yields S := by
  obtain ⟨a, rfl, ha⟩ := h
  exact ⟨f a, rfl, hf a ha⟩

theorem Yields.imp (h : x.Yields Q) (hqr : ∀ a, Q a → R a) : x.Yields R := by
  obtain ⟨a, rfl, ha⟩ := h
  exact ⟨a, rfl, hqr a ha⟩

theorem yields_iff_of_unique {a : α} (hQ : ∀ b, Q b → b = a) (h : x.Yields Q) : x = some a := by
  obtain ⟨b, rfl, hb⟩ := h
  rw [hQ b hb]

end Option

/-- **How a scan of a part ends**: with what the scan of the next part needs, or
with an answer. -/
inductive Scan (σ ρ : Type*) where
  | more (s : σ)
  | done (r : ρ)

namespace Scan

variable {σ τ ρ : Type*} {P : σ → Prop} {P' : τ → Prop} {Q : ρ → Prop}

/-- One fact for a scan that goes on, and one for a scan that has answered. -/
def Ends (P : σ → Prop) (Q : ρ → Prop) : Scan σ ρ → Prop
  | more s => P s
  | done r => Q r

/-- The result of a scan whose answers are of the kind of its states. -/
def result : Scan σ σ → σ
  | more s => s
  | done s => s

/-- The scan of the next part, where the first has not answered. -/
def andThen (x : Option (Scan σ ρ)) (f : σ → Option (Scan τ ρ)) : Option (Scan τ ρ) :=
  x.bind (fun e => match e with
    | more s => f s
    | done r => some (done r))

theorem andThen_yields {x : Option (Scan σ ρ)} {f : σ → Option (Scan τ ρ)}
    (hx : x.Yields (Ends P Q)) (hf : ∀ s, P s → (f s).Yields (Ends P' Q)) :
    (andThen x f).Yields (Ends P' Q) := by
  refine hx.bind (fun e he => ?_)
  cases e with
  | more s => exact hf s he
  | done r => exact Option.yields_some he

end Scan

/-! ## Loops -/

namespace Scan

variable {σ ρ : Type*} {Q : ρ → Prop}

/-- The loop over the positions up to `last`. -/
def forLoop (body : ℕ → σ → Option (Scan σ ρ)) (last : ℕ) :
    ℕ → ℕ → σ → Option (Scan σ ρ)
  | 0, first, s => if first = last then some (more s) else none
  | fuel + 1, first, s =>
    if first = last then some (more s)
    else andThen (body first s) (forLoop body last fuel (first + 1))

/-- **The loop over the positions of a range.** -/
def forRange (first last : ℕ) (body : ℕ → σ → Option (Scan σ ρ)) (s : σ) :
    Option (Scan σ ρ) :=
  forLoop body last (last - first) first s

theorem forRange_yields {first last : ℕ} {P : ℕ → σ → Prop}
    {body : ℕ → σ → Option (Scan σ ρ)} (hfl : first ≤ last)
    (hbody : ∀ p s, first ≤ p → p < last → P p s → (body p s).Yields (Ends (P (p + 1)) Q))
    {s : σ} (hs : P first s) : (forRange first last body s).Yields (Ends (P last) Q) := by
  have hloop : ∀ fuel p s, first ≤ p → p + fuel = last → P p s →
      (forLoop body last fuel p s).Yields (Ends (P last) Q) := by
    intro fuel
    induction fuel with
    | zero =>
      intro p s _ hp hs
      obtain rfl : p = last := hp
      rw [forLoop, if_pos rfl]
      exact Option.yields_some hs
    | succ fuel ih =>
      intro p s hfp hp hs
      rw [forLoop, if_neg (by omega)]
      exact andThen_yields (hbody p s hfp (by omega) hs)
        (fun s' hs' => ih (p + 1) s' (by omega) (by omega) hs')
  exact hloop (last - first) first s le_rfl (by omega) hs

/-- The loop back over the positions down to `first`. -/
def forLoopBack (body : ℕ → σ → Option (Scan σ ρ)) (first : ℕ) :
    ℕ → ℕ → σ → Option (Scan σ ρ)
  | 0, last, s => if last = first then some (more s) else none
  | fuel + 1, last, s =>
    if last = first then some (more s)
    else andThen (body (last - 1) s) (forLoopBack body first fuel (last - 1))

/-- **The loop back over the positions of a range.** -/
def forRangeBack (first last : ℕ) (body : ℕ → σ → Option (Scan σ ρ)) (s : σ) :
    Option (Scan σ ρ) :=
  forLoopBack body first (last - first) last s

theorem forRangeBack_yields {first last : ℕ} {P : ℕ → σ → Prop}
    {body : ℕ → σ → Option (Scan σ ρ)} (hfl : first ≤ last)
    (hbody : ∀ p s, first ≤ p → p < last → P (p + 1) s → (body p s).Yields (Ends (P p) Q))
    {s : σ} (hs : P last s) : (forRangeBack first last body s).Yields (Ends (P first) Q) := by
  have hloop : ∀ fuel p s, p ≤ last → first + fuel = p → P p s →
      (forLoopBack body first fuel p s).Yields (Ends (P first) Q) := by
    intro fuel
    induction fuel with
    | zero =>
      intro p s _ hp hs
      obtain rfl : first = p := hp
      rw [forLoopBack, if_pos rfl]
      exact Option.yields_some hs
    | succ fuel ih =>
      intro p s hpl hp hs
      rw [forLoopBack, if_neg (by omega)]
      have hsucc : p - 1 + 1 = p := by omega
      exact andThen_yields (hbody (p - 1) s (by omega) (by omega) (hsucc.symm ▸ hs))
        (fun s' hs' => ih (p - 1) s' (by omega) (by omega) hs')
  exact hloop (last - first) last s le_rfl (Nat.add_sub_cancel' hfl) hs

/-- **The loop until an answer**, as often as it may turn. -/
def loop (body : σ → Option (Scan σ ρ)) : ℕ → σ → Option ρ
  | 0, _ => none
  | fuel + 1, s => (body s).bind (fun e => match e with
    | more s => loop body fuel s
    | done r => some r)

/-- A loop each turn of which keeps an invariant and leaves less to do answers. -/
theorem loop_yields {I : σ → Prop} (m : σ → ℕ) {body : σ → Option (Scan σ ρ)}
    (hbody : ∀ s, I s → (body s).Yields (Ends (fun s' => I s' ∧ m s' < m s) Q))
    {fuel : ℕ} {s : σ} (hfuel : m s < fuel) (hs : I s) : (loop body fuel s).Yields Q := by
  induction fuel generalizing s with
  | zero => exact absurd hfuel (Nat.not_lt_zero _)
  | succ fuel ih =>
    rw [loop]
    refine (hbody s hs).bind (fun e he => ?_)
    cases e with
    | more s' => exact ih (by have := he.2; omega) he.1
    | done r => exact Option.yields_some he

/-- What each turn of a loop keeps, its answer is left with. -/
theorem loop_of_some {I : σ → Prop} {body : σ → Option (Scan σ ρ)}
    (hbody : ∀ s e, I s → body s = some e → Ends I Q e) {fuel : ℕ} {s : σ} {r : ρ}
    (hs : I s) (h : loop body fuel s = some r) : Q r := by
  induction fuel generalizing s with
  | zero => exact absurd h (Option.some_ne_none r).symm
  | succ fuel ih =>
    obtain ⟨e, he, h⟩ := Option.bind_eq_some_iff.mp h
    have hends := hbody s e hs he
    cases e with
    | more s' => exact ih hends h
    | done r' => exact Option.some.inj h ▸ hends

end Scan

/-! ## Loops that are made in parts -/

/-- **The loop over the positions of a range that nothing ends.** -/
def runRange {σ : Type*} (step : ℕ → σ → Option σ) (first last : ℕ) (s : σ) : Option σ :=
  (List.range' first (last - first)).foldlM (fun s p => step p s) s

section RunRange

variable {σ : Type*} {step : ℕ → σ → Option σ} {a b c : ℕ} {s t u : σ}

@[simp] theorem runRange_self (step : ℕ → σ → Option σ) (a : ℕ) (s : σ) :
    runRange step a a s = some s := by
  rw [runRange, Nat.sub_self]
  rfl

/-- **A loop over a range is a loop over a part and one over the rest.** -/
theorem runRange_append (step : ℕ → σ → Option σ) (hab : a ≤ b) (hbc : b ≤ c) (s : σ) :
    runRange step a c s = (runRange step a b s).bind (runRange step b c) := by
  have h : List.range' a (b - a) ++ List.range' b (c - b) = List.range' a (c - a) := by
    have := List.range'_append_1 (s := a) (m := b - a) (n := c - b)
    rwa [Nat.add_sub_cancel' hab, show b - a + (c - b) = c - a by omega] at this
  rw [runRange, ← h, List.foldlM_append]
  rfl

theorem runRange_succ (step : ℕ → σ → Option σ) (hab : a ≤ b) (s : σ) :
    runRange step a (b + 1) s = (runRange step a b s).bind (step b) := by
  rw [runRange_append step hab (Nat.le_add_right b 1)]
  congr 1
  funext t
  rw [runRange, Nat.add_sub_cancel_left]
  exact bind_pure (step b t)

theorem runRange_of_append (hab : a ≤ b) (hbc : b ≤ c) (h : runRange step a b s = some t) :
    runRange step a c s = runRange step b c t := by
  rw [runRange_append step hab hbc, h, Option.bind_some]

/-- A loop that comes through comes through a part of its range. -/
theorem exists_runRange (hab : a ≤ b) (hbc : b ≤ c) (h : runRange step a c s = some u) :
    ∃ t, runRange step a b s = some t ∧ runRange step b c t = some u := by
  rw [runRange_append step hab hbc] at h
  exact Option.bind_eq_some_iff.mp h

/-- A loop that comes through makes its first step. -/
theorem exists_step (hab : a < b) (h : runRange step a b s = some u) :
    ∃ t, step a s = some t ∧ runRange step (a + 1) b t = some u := by
  obtain ⟨t, ht, hu⟩ := exists_runRange (Nat.le_succ a) hab h
  rw [runRange_succ step le_rfl, runRange_self, Option.bind_some] at ht
  exact ⟨t, ht, hu⟩

end RunRange

/-! ## Positions, segments and places in them -/

namespace Segments

/-- The position at which a segment starts, from the sizes of the segments. -/
def start (ns : List ℕ) (k : ℕ) : ℕ := (ns.take k).sum

/-- The segment of a position: the one that holds it, or the last. -/
def segment : List ℕ → ℕ → ℕ
  | [], _ => 0
  | [_], _ => 0
  | n :: m :: ns, p => if p < n then 0 else segment (m :: ns) (p - n) + 1

/-- The place of a position in its segment. -/
def place (ns : List ℕ) (p : ℕ) : ℕ := p - start ns (segment ns p)

/-- The position of a place in a segment. The end of a segment is the start of
the next. -/
def compose (ns : List ℕ) (k l : ℕ) : ℕ := start ns k + l

variable {ns : List ℕ} {p q k j : ℕ}

@[simp] theorem start_zero (ns : List ℕ) : start ns 0 = 0 := rfl

@[simp] theorem start_cons_succ (n : ℕ) (ns : List ℕ) (k : ℕ) :
    start (n :: ns) (k + 1) = n + start ns k := List.sum_cons

/-- Where a segment ends, the next starts. -/
theorem start_succ (ns : List ℕ) (k : ℕ) : start ns (k + 1) = start ns k + ns.getD k 0 := by
  induction ns generalizing k with
  | nil => simp [start]
  | cons n ns ih =>
    cases k with
    | zero => simp [start]
    | succ k => rw [start_cons_succ, ih, start_cons_succ, List.getD_cons_succ, Nat.add_assoc]

theorem start_mono (ns : List ℕ) : Monotone (start ns) :=
  monotone_nat_of_le_succ (fun k => by rw [start_succ]; exact Nat.le_add_right _ _)

theorem start_length (ns : List ℕ) : start ns ns.length = ns.sum := by
  rw [start, List.take_length]

/-- No segment starts behind the end. -/
theorem start_le_sum (ns : List ℕ) (k : ℕ) : start ns k ≤ ns.sum := by
  rcases Nat.le_total k ns.length with h | h
  · exact start_length ns ▸ start_mono ns h
  · rw [start, List.take_of_length_le h]

/-- Before the end there are segments. -/
theorem lt_length_of_start_lt (h : start ns k < ns.sum) : k < ns.length := by
  by_contra hk
  rw [start, List.take_of_length_le (not_lt.mp hk)] at h
  exact lt_irrefl _ h

/-- **The segment of a position holds it**: the position is not before its
start. -/
theorem start_segment_le (ns : List ℕ) (p : ℕ) : start ns (segment ns p) ≤ p := by
  induction ns generalizing p with
  | nil => exact Nat.zero_le p
  | cons n ns ih =>
    cases ns with
    | nil => exact Nat.zero_le p
    | cons m ns =>
      rw [segment]
      split
      · exact Nat.zero_le p
      · next h =>
        rw [start_cons_succ]
        have := ih (p - n)
        omega

/-- A position is not behind the end of its segment. -/
theorem le_start_segment_succ (hp : p ≤ ns.sum) : p ≤ start ns (segment ns p + 1) := by
  induction ns generalizing p with
  | nil => exact hp
  | cons n ns ih =>
    cases ns with
    | nil =>
      rw [segment, start_cons_succ]
      exact hp
    | cons m ns =>
      rw [segment]
      split
      · next h =>
        rw [start_cons_succ]
        omega
      · next h =>
        rw [start_cons_succ]
        have := ih (p := p - n) (by rw [List.sum_cons] at hp; omega)
        omega

/-- A position of the sequence is before the end of its segment. -/
theorem lt_start_segment_succ (hp : p < ns.sum) : p < start ns (segment ns p + 1) := by
  induction ns generalizing p with
  | nil => exact absurd hp (Nat.not_lt_zero p)
  | cons n ns ih =>
    cases ns with
    | nil =>
      rw [segment, start_cons_succ]
      exact hp
    | cons m ns =>
      rw [segment]
      split
      · next h =>
        rw [start_cons_succ]
        omega
      · next h =>
        rw [start_cons_succ]
        have := ih (p := p - n) (by rw [List.sum_cons] at hp; omega)
        omega

/-- **A position is in one segment.** -/
theorem segment_eq (hk : start ns k ≤ p) (hp : p < start ns (k + 1)) : segment ns p = k := by
  have hlt := lt_start_segment_succ (hp.trans_le (start_le_sum ns (k + 1)))
  have hge := start_segment_le ns p
  rcases Nat.lt_trichotomy (segment ns p) k with h | h | h
  · exact absurd (hlt.trans_le ((start_mono ns h).trans hk)) (lt_irrefl p)
  · exact h
  · exact absurd (hp.trans_le ((start_mono ns h).trans hge)) (lt_irrefl p)

/-- The segment of a position is a segment, where there are any. -/
theorem segment_lt (h : ns ≠ []) (p : ℕ) : segment ns p < ns.length := by
  induction ns generalizing p with
  | nil => exact absurd rfl h
  | cons n ns ih =>
    cases ns with
    | nil => exact Nat.zero_lt_one
    | cons m ns =>
      rw [segment]
      split
      · exact Nat.zero_lt_succ _
      · exact Nat.succ_lt_succ (ih (List.cons_ne_nil m ns) (p - n))

/-- Segments follow each other as their positions do. -/
theorem segment_mono (ns : List ℕ) : Monotone (segment ns) := by
  induction ns with
  | nil => exact fun _ _ _ => le_rfl
  | cons n ns ih =>
    cases ns with
    | nil => exact fun _ _ _ => le_rfl
    | cons m ns =>
      intro p q hpq
      rw [segment, segment]
      split
      · exact Nat.zero_le _
      · next h =>
        rw [if_neg (by omega)]
        exact Nat.succ_le_succ (ih (by omega))

/-- **A position is composed from its segment and its place.** -/
theorem compose_place (ns : List ℕ) (p : ℕ) : compose ns (segment ns p) (place ns p) = p :=
  Nat.add_sub_cancel' (start_segment_le ns p)

/-- The place of a position is in its segment. -/
theorem place_le (hp : p ≤ ns.sum) : place ns p ≤ ns.getD (segment ns p) 0 := by
  have hle := le_start_segment_succ hp
  rw [start_succ] at hle
  unfold place
  omega

/-- A segment that starts after the segment of a position starts behind it. -/
theorem lt_start_of_segment_lt (hp : p ≤ ns.sum) (h : segment ns p < k) : p ≤ start ns k :=
  (le_start_segment_succ hp).trans (start_mono ns h)

/-! ## Walks over the segments of a range -/

variable {σ ρ : Type*}

/-- The segments after the first: whole segments, and a part of the last. -/
def walkLoop (ns : List ℕ) (slast llast : ℕ) (body : ℕ → ℕ → ℕ → σ → Option (Scan σ ρ)) :
    ℕ → ℕ → σ → Option (Scan σ ρ)
  | 0, _, _ => none
  | fuel + 1, scur, s =>
    if scur = slast then body scur 0 llast s
    else ns[scur]?.bind (fun n =>
      Scan.andThen (body scur 0 n s) (walkLoop ns slast llast body fuel (scur + 1)))

/-- **The walk over the segments of a range**, first segment, middle segments,
last segment. The body scans a part of a segment: it has the number of the
segment and two places in it. -/
def walk (ns : List ℕ) (first last : ℕ) (body : ℕ → ℕ → ℕ → σ → Option (Scan σ ρ)) (s : σ) :
    Option (Scan σ ρ) :=
  if segment ns first = segment ns last then
    body (segment ns first) (place ns first) (place ns last) s
  else ns[segment ns first]?.bind (fun n =>
    Scan.andThen (body (segment ns first) (place ns first) n s)
      (walkLoop ns (segment ns last) (place ns last) body ns.length (segment ns first + 1)))

/-- **A body keeps an invariant of positions** inside a range: what holds at the
position at which it starts to scan holds, if it does not answer, at the
position at which it stops. -/
def Keeps (ns : List ℕ) (first last : ℕ) (P : ℕ → σ → Prop) (Q : ρ → Prop)
    (body : ℕ → ℕ → ℕ → σ → Option (Scan σ ρ)) : Prop :=
  ∀ k a b s, a ≤ b → b ≤ ns.getD k 0 → first ≤ compose ns k a → compose ns k b ≤ last →
    P (compose ns k a) s → (body k a b s).Yields (Scan.Ends (P (compose ns k b)) Q)

/-- The parts of a walk begin where their segment begins, or with the range, and end
where their segment ends, or with the range. A body that brings about `R` at the
end of such a part, from `P` at its begin. -/
def KeepsTo (ns : List ℕ) (first last : ℕ) (P R : ℕ → σ → Prop) (Q : ρ → Prop)
    (body : ℕ → ℕ → ℕ → σ → Option (Scan σ ρ)) : Prop :=
  ∀ k a b s, a ≤ b → b ≤ ns.getD k 0 → a = 0 ∨ compose ns k a = first →
    b = ns.getD k 0 ∨ compose ns k b = last →
    first ≤ compose ns k a → compose ns k b ≤ last →
    P (compose ns k a) s → (body k a b s).Yields (Scan.Ends (R (compose ns k b)) Q)

variable {first last : ℕ} {P R : ℕ → σ → Prop} {Q : ρ → Prop}
  {body : ℕ → ℕ → ℕ → σ → Option (Scan σ ρ)}

theorem Keeps.keepsTo (h : Keeps ns first last P Q body) : KeepsTo ns first last P P Q body :=
  fun k a b s hab hb _ _ => h k a b s hab hb

/-- The same of the parts from the segment on that holds the begin of the range. -/
def KeepsFrom (ns : List ℕ) (first last : ℕ) (P R : ℕ → σ → Prop) (Q : ρ → Prop)
    (body : ℕ → ℕ → ℕ → σ → Option (Scan σ ρ)) : Prop :=
  ∀ k a b s, segment ns first ≤ k → a ≤ b → b ≤ ns.getD k 0 → a = 0 ∨ compose ns k a = first →
    b = ns.getD k 0 ∨ compose ns k b = last →
    first ≤ compose ns k a → compose ns k b ≤ last →
    P (compose ns k a) s → (body k a b s).Yields (Scan.Ends (R (compose ns k b)) Q)

theorem KeepsTo.keepsFrom (h : KeepsTo ns first last P R Q body) :
    KeepsFrom ns first last P R Q body :=
  fun k a b s _ => h k a b s

theorem walkLoop_yields (hP : ∀ p s, R p s → P p s) (hlast : last ≤ ns.sum)
    (hbody : KeepsFrom ns first last P R Q body)
    {fuel scur : ℕ} {s : σ} (hfuel : ns.length < fuel + scur) (hle : scur ≤ segment ns last)
    (hseg : segment ns first ≤ scur) (hfirst : first ≤ start ns scur)
    (hs : P (start ns scur) s) :
    (walkLoop ns (segment ns last) (place ns last) body fuel scur s).Yields
      (Scan.Ends (R last) Q) := by
  induction fuel generalizing scur s with
  | zero =>
    rcases eq_or_ne ns [] with rfl | hne
    · exact absurd hle (by simp only [segment]; simp only [List.length_nil] at hfuel; omega)
    · have := segment_lt hne last
      omega
  | succ fuel ih =>
    rw [walkLoop]
    split
    · next heq =>
      subst heq
      have hkeep := hbody (segment ns last) 0 (place ns last) s hseg (Nat.zero_le _)
        (place_le hlast) (Or.inl rfl) (Or.inr (compose_place ns last)) hfirst
        (compose_place ns last).le hs
      rwa [compose_place] at hkeep
    · next hne =>
      have hlt : scur < segment ns last := lt_of_le_of_ne hle hne
      have hnil : ns ≠ [] := by
        rintro rfl
        exact absurd hlt (Nat.not_lt_zero _)
      have hlen : scur < ns.length := hlt.trans (segment_lt hnil last)
      have hend : start ns (scur + 1) ≤ last :=
        (start_mono ns hlt).trans (start_segment_le ns last)
      rw [List.getElem?_eq_getElem hlen, Option.bind_some]
      have hget : ns.getD scur 0 = ns[scur] := List.getD_eq_getElem ns 0 hlen
      have hstart : compose ns scur ns[scur] = start ns (scur + 1) := by
        rw [start_succ, hget, compose]
      refine Scan.andThen_yields (hbody scur 0 ns[scur] s hseg (Nat.zero_le _) hget.ge
        (Or.inl rfl) (Or.inl hget.symm) hfirst (hstart ▸ hend) hs)
        (fun s' hs' => ih (by omega) hlt (hseg.trans (Nat.le_succ scur)) ?_
          (hP _ _ (hstart ▸ hs')))
      exact hfirst.trans (start_mono ns (Nat.le_succ scur))

/-- **What the scans of the parts bring about, the walk does**: there is at least
one part, and they end with their segments or with the range. -/
theorem walk_yields_from (hP : ∀ p s, R p s → P p s) (hfl : first ≤ last) (hlast : last ≤ ns.sum)
    (hbody : KeepsFrom ns first last P R Q body) {s : σ} (hs : P first s) :
    (walk ns first last body s).Yields (Scan.Ends (R last) Q) := by
  have hseg := segment_mono ns hfl
  have hplace := compose_place ns first
  have hplast := compose_place ns last
  rw [walk]
  split
  · next heq =>
    have hkeep := hbody (segment ns first) (place ns first) (place ns last) s le_rfl
      (by rw [heq] at hplace; unfold compose at hplace hplast; omega)
      (heq ▸ place_le hlast) (Or.inr hplace) (Or.inr (by rw [heq, hplast])) hplace.ge
      (by rw [heq, hplast]) (hplace.symm ▸ hs)
    rw [heq, hplast] at hkeep
    rwa [heq]
  · next hne =>
    have hlt : segment ns first < segment ns last := lt_of_le_of_ne hseg hne
    have hnil : ns ≠ [] := by
      rintro rfl
      exact absurd hlt (Nat.not_lt_zero _)
    have hlen : segment ns first < ns.length := hlt.trans (segment_lt hnil last)
    rw [List.getElem?_eq_getElem hlen, Option.bind_some]
    have hget : ns.getD (segment ns first) 0 = ns[segment ns first] :=
      List.getD_eq_getElem ns 0 hlen
    have hstart : compose ns (segment ns first) ns[segment ns first]
        = start ns (segment ns first + 1) := by
      rw [start_succ, hget, compose]
    have hpl : place ns first ≤ ns.getD (segment ns first) 0 := place_le (hfl.trans hlast)
    refine Scan.andThen_yields (hbody _ (place ns first) ns[segment ns first] s le_rfl (hget ▸ hpl)
      hget.ge (Or.inr hplace) (Or.inl hget.symm) hplace.ge
      (hstart ▸ (start_mono ns hlt).trans (start_segment_le ns last))
      (hplace.symm ▸ hs)) (fun s' hs' => ?_)
    exact walkLoop_yields hP hlast hbody (by omega) hlt (Nat.le_succ _)
      (le_start_segment_succ (hfl.trans hlast)) (hP _ _ (hstart ▸ hs'))

/-- The same, where no part is before the begin of the range. -/
theorem walk_yields_to (hP : ∀ p s, R p s → P p s) (hfl : first ≤ last) (hlast : last ≤ ns.sum)
    (hbody : KeepsTo ns first last P R Q body) {s : σ} (hs : P first s) :
    (walk ns first last body s).Yields (Scan.Ends (R last) Q) :=
  walk_yields_from hP hfl hlast hbody.keepsFrom hs

/-- **What the scans of the parts keep, the walk keeps.** -/
theorem walk_yields (hfl : first ≤ last) (hlast : last ≤ ns.sum)
    (hbody : Keeps ns first last P Q body) {s : σ} (hs : P first s) :
    (walk ns first last body s).Yields (Scan.Ends (P last) Q) :=
  walk_yields_to (fun _ _ h => h) hfl hlast hbody.keepsTo hs

/-! ## Walks that end with their task -/

/-- The segments from a place on, until the body answers. -/
def walkOnLoop (ns : List ℕ) (body : ℕ → ℕ → ℕ → σ → Option (Scan σ ρ)) :
    ℕ → ℕ → ℕ → σ → Option ρ
  | 0, _, _, _ => none
  | fuel + 1, scur, lcur, s =>
    ns[scur]?.bind (fun n => (body scur lcur n s).bind (fun e => match e with
      | .more s => walkOnLoop ns body fuel (scur + 1) 0 s
      | .done r => some r))

/-- **The walk from a position on**, until the body answers. -/
def walkOn (ns : List ℕ) (first : ℕ) (body : ℕ → ℕ → ℕ → σ → Option (Scan σ ρ)) (s : σ) :
    Option ρ :=
  walkOnLoop ns body ns.length (segment ns first) (place ns first) s

/-- **A body answers before the segments end**: it goes on only where there is a
position behind the segment. -/
def KeepsOn (ns : List ℕ) (first : ℕ) (P : ℕ → σ → Prop) (Q : ρ → Prop)
    (body : ℕ → ℕ → ℕ → σ → Option (Scan σ ρ)) : Prop :=
  ∀ k a s, k < ns.length → a ≤ ns.getD k 0 → a = 0 ∨ compose ns k a = first →
    P (compose ns k a) s →
    (body k a (ns.getD k 0) s).Yields
      (Scan.Ends (fun s' => start ns (k + 1) < ns.sum ∧ P (start ns (k + 1)) s') Q)

theorem walkOnLoop_yields (hbody : KeepsOn ns first P Q body) {fuel scur lcur : ℕ} {s : σ}
    (hfuel : ns.length ≤ fuel + scur) (hlen : scur < ns.length) (hle : lcur ≤ ns.getD scur 0)
    (hcur : lcur = 0 ∨ compose ns scur lcur = first) (hs : P (compose ns scur lcur) s) :
    (walkOnLoop ns body fuel scur lcur s).Yields Q := by
  induction fuel generalizing scur lcur s with
  | zero => omega
  | succ fuel ih =>
    rw [walkOnLoop, List.getElem?_eq_getElem hlen, Option.bind_some,
      ← List.getD_eq_getElem ns 0 hlen]
    refine (hbody scur lcur s hlen hle hcur hs).bind (fun e he => ?_)
    cases e with
    | more s' =>
      exact ih (by omega) (lt_length_of_start_lt he.1) (Nat.zero_le _) (Or.inl rfl) he.2
    | done r => exact Option.yields_some he

/-- **What the scans keep, the walk keeps to its answer.** -/
theorem walkOn_yields (hnil : ns ≠ []) (hfirst : first ≤ ns.sum)
    (hbody : KeepsOn ns first P Q body) {s : σ} (hs : P first s) :
    (walkOn ns first body s).Yields Q :=
  walkOnLoop_yields hbody (Nat.le_add_right _ _) (segment_lt hnil first) (place_le hfirst)
    (Or.inr (compose_place ns first)) ((compose_place ns first).symm ▸ hs)

end Segments

/-! ## Segments in segments -/

/-- **How a sequence is cut**, `d` levels deep: at the bottom the number of
elements, above it a segment after the other. -/
def Segmentation : ℕ → Type
  | 0 => ℕ
  | d + 1 => List (Segmentation d)

namespace Segmentation

/-- The number of elements. -/
def size : (d : ℕ) → Segmentation d → ℕ
  | 0, n => n
  | d + 1, ss => (List.map (size d) ss).sum

/-- The sequence with no elements. -/
def empty : (d : ℕ) → Segmentation d
  | 0 => (0 : ℕ)
  | d + 1 => ([] : List (Segmentation d))

variable {d : ℕ}

/-- The sizes of the segments. -/
def sizes (c : Segmentation (d + 1)) : List ℕ := List.map (size d) c

/-- A segment; behind the last there is nothing. -/
def child (c : Segmentation (d + 1)) (k : ℕ) : Segmentation d := List.getD c k (empty d)

theorem size_succ (c : Segmentation (d + 1)) : size (d + 1) c = c.sizes.sum := rfl

theorem size_empty : (d : ℕ) → size d (empty d) = 0
  | 0 => rfl
  | _ + 1 => rfl

theorem size_child (c : Segmentation (d + 1)) (k : ℕ) :
    size d (c.child k) = c.sizes.getD k 0 := by
  have h : (List.map (size d) c).getD k (size d (empty d)) = size d (List.getD c k (empty d)) :=
    List.getD_map _ (empty d) (size d)
  rw [size_empty] at h
  exact h.symm

/-! ### Seen from the begin of all -/

open Segments

/-- Where a segment begins, of a sequence that begins at `o`. -/
def beginAt (o : ℕ) (c : Segmentation (d + 1)) (k : ℕ) : ℕ := o + start c.sizes k

/-- Where a segment ends: the next begins there. -/
def endAt (o : ℕ) (c : Segmentation (d + 1)) (k : ℕ) : ℕ := o + start c.sizes (k + 1)

/-- The segment of a position. -/
def segmentAt (o : ℕ) (c : Segmentation (d + 1)) (p : ℕ) : ℕ := segment c.sizes (p - o)

variable {o p q k j : ℕ} {c : Segmentation (d + 1)}

/-- A segment in its place ends where its elements do. -/
theorem beginAt_add_size (o : ℕ) (c : Segmentation (d + 1)) (k : ℕ) :
    beginAt o c k + size d (c.child k) = endAt o c k := by
  rw [beginAt, endAt, start_succ, size_child, Nat.add_assoc]

theorem beginAt_le_endAt (o : ℕ) (c : Segmentation (d + 1)) (k : ℕ) :
    beginAt o c k ≤ endAt o c k := by
  rw [← beginAt_add_size]
  exact Nat.le_add_right _ _

theorem le_beginAt (o : ℕ) (c : Segmentation (d + 1)) (k : ℕ) : o ≤ beginAt o c k :=
  Nat.le_add_right _ _

/-- A segment ends before the next begins. -/
theorem endAt_le_beginAt (h : j < k) : endAt o c j ≤ beginAt o c k :=
  Nat.add_le_add_left (start_mono _ h) o

theorem endAt_le (o : ℕ) (c : Segmentation (d + 1)) (k : ℕ) : endAt o c k ≤ o + size (d + 1) c :=
  Nat.add_le_add_left (start_le_sum _ _) o

theorem beginAt_segmentAt_le (h : o ≤ p) : beginAt o c (segmentAt o c p) ≤ p := by
  have := start_segment_le c.sizes (p - o)
  unfold beginAt segmentAt
  omega

theorem le_endAt_segmentAt (hp : p ≤ o + size (d + 1) c) :
    p ≤ endAt o c (segmentAt o c p) := by
  rw [size_succ] at hp
  have := le_start_segment_succ (show p - o ≤ c.sizes.sum by omega)
  unfold endAt segmentAt
  omega

theorem lt_endAt_segmentAt (hp : p < o + size (d + 1) c) : p < endAt o c (segmentAt o c p) := by
  rw [size_succ] at hp
  rcases Nat.lt_or_ge p o with h | h
  · exact h.trans_le (Nat.le_add_right _ _)
  · have := lt_start_segment_succ (show p - o < c.sizes.sum by omega)
    unfold endAt segmentAt
    omega

theorem segmentAt_eq (hk : beginAt o c k ≤ p) (hp : p < endAt o c k) : segmentAt o c p = k := by
  unfold beginAt at hk
  unfold endAt at hp
  exact segment_eq (by omega) (by omega)

theorem segmentAt_mono (o : ℕ) (c : Segmentation (d + 1)) : Monotone (segmentAt o c) :=
  fun _ _ h => segment_mono c.sizes (Nat.sub_le_sub_right h o)

variable {σ ρ : Type*} {first last : ℕ} {P R : ℕ → σ → Prop} {Q : ρ → Prop}
  {body : ℕ → ℕ → ℕ → σ → Option (Scan σ ρ)} {s : σ}

/-- **The walk over the segments of a range**, whose parts are seen from the begin
of all. -/
def walkAt (o : ℕ) (c : Segmentation (d + 1)) (first last : ℕ)
    (body : ℕ → ℕ → ℕ → σ → Option (Scan σ ρ)) (s : σ) : Option (Scan σ ρ) :=
  walk c.sizes (first - o) (last - o)
    (fun k a b => body k (o + compose c.sizes k a) (o + compose c.sizes k b)) s

/-- A part that begins with the range is a part of the segment that holds the begin. -/
theorem lt_endAt_of_begin {a : ℕ} (hk : segmentAt o c first ≤ k) (hka : beginAt o c k ≤ a)
    (ha : a = first) : first < endAt o c k ∨ o + size (d + 1) c ≤ first := by
  subst ha
  rcases Nat.lt_or_ge a (o + size (d + 1) c) with hlt | hge
  · have hend := lt_endAt_segmentAt hlt
    rcases Nat.eq_or_lt_of_le hk with rfl | hlt'
    · exact Or.inl hend
    · exact absurd (hend.trans_le ((endAt_le_beginAt hlt').trans hka)) (lt_irrefl a)
  · exact Or.inr hge

/-- **What the scans of the parts bring about, the walk does**: a part begins with
its segment or the range, and ends with its segment or the range; and one that
begins with the range is of the segment that holds the begin. -/
theorem walkAt_yields_from (hP : ∀ p s, R p s → P p s) (ho : o ≤ first) (hfl : first ≤ last)
    (hlast : last ≤ o + size (d + 1) c)
    (hbody : ∀ k a b s, a ≤ b → beginAt o c k ≤ a → b ≤ endAt o c k →
      a = beginAt o c k ∨ a = first → b = endAt o c k ∨ b = last → first ≤ a → b ≤ last →
      (a = first → first < endAt o c k ∨ o + size (d + 1) c ≤ first) →
      P a s → (body k a b s).Yields (Scan.Ends (R b) Q)) (hs : P first s) :
    (walkAt o c first last body s).Yields (Scan.Ends (R last) Q) := by
  rw [size_succ] at hlast
  have hfirst : o + (first - o) = first := Nat.add_sub_cancel' ho
  have hend : o + (last - o) = last := Nat.add_sub_cancel' (ho.trans hfl)
  have hwalk : (walkAt o c first last body s).Yields (Scan.Ends (R (o + (last - o))) Q) := by
    refine walk_yields_from (P := fun p => P (o + p)) (R := fun p => R (o + p))
      (fun p => hP (o + p)) (by omega) (by omega)
      (fun k a b s hk hab hb hbegin hstop ha hbl hP => ?_) (hfirst.symm ▸ hs)
    have hstart := start_succ c.sizes k
    have hka : beginAt o c k ≤ o + compose c.sizes k a :=
      Nat.add_le_add_left (Nat.le_add_right _ _) o
    have hlt := lt_endAt_of_begin hk hka
    unfold compose at hbegin hstop ha hbl hP hka hlt ⊢
    refine hbody k _ _ s (by omega) hka ?_ ?_ ?_ (by omega) (by omega) hlt hP
    · unfold endAt
      omega
    · unfold beginAt
      omega
    · unfold endAt
      omega
  rwa [hend] at hwalk

theorem walkAt_yields_parts (hP : ∀ p s, R p s → P p s) (ho : o ≤ first) (hfl : first ≤ last)
    (hlast : last ≤ o + size (d + 1) c)
    (hbody : ∀ k a b s, a ≤ b → beginAt o c k ≤ a → b ≤ endAt o c k →
      a = beginAt o c k ∨ a = first → b = endAt o c k ∨ b = last → first ≤ a → b ≤ last →
      P a s → (body k a b s).Yields (Scan.Ends (R b) Q)) (hs : P first s) :
    (walkAt o c first last body s).Yields (Scan.Ends (R last) Q) :=
  walkAt_yields_from hP ho hfl hlast
    (fun k a b s hab hka hbk hbegin hstop hfa hbl _ =>
      hbody k a b s hab hka hbk hbegin hstop hfa hbl) hs

/-- What the scans of the parts bring about, the walk does. -/
theorem walkAt_yields_to (hP : ∀ p s, R p s → P p s) (ho : o ≤ first) (hfl : first ≤ last)
    (hlast : last ≤ o + size (d + 1) c)
    (hbody : ∀ k a b s, a ≤ b → beginAt o c k ≤ a → b ≤ endAt o c k → first ≤ a → b ≤ last →
      P a s → (body k a b s).Yields (Scan.Ends (R b) Q)) (hs : P first s) :
    (walkAt o c first last body s).Yields (Scan.Ends (R last) Q) :=
  walkAt_yields_parts hP ho hfl hlast (fun k a b s hab hka hbk _ _ => hbody k a b s hab hka hbk) hs

/-- **The walk over the rest of a sequence**: its parts begin with their segment or
with the walk, and end with their segment. -/
theorem walkAt_yields_rest_from (hP : ∀ p s, R p s → P p s) (ho : o ≤ first)
    (hfirst : first ≤ o + size (d + 1) c)
    (hbody : ∀ k a s, beginAt o c k ≤ a → a ≤ endAt o c k → a = beginAt o c k ∨ a = first →
      first ≤ a → (a = first → first < endAt o c k ∨ o + size (d + 1) c ≤ first) → P a s →
      (body k a (endAt o c k) s).Yields (Scan.Ends (R (endAt o c k)) Q))
    (hs : P first s) :
    (walkAt o c first (o + size (d + 1) c) body s).Yields
      (Scan.Ends (R (o + size (d + 1) c)) Q) := by
  refine walkAt_yields_from hP ho hfirst le_rfl ?_ hs
  intro k a b s hab hka hbk hbegin hstop hfa _ hlt hPa
  have hend : b = endAt o c k := by
    have := endAt_le o c k
    omega
  subst hend
  exact hbody k a s hka hab hbegin hfa hlt hPa

theorem walkAt_yields_rest (hP : ∀ p s, R p s → P p s) (ho : o ≤ first)
    (hfirst : first ≤ o + size (d + 1) c)
    (hbody : ∀ k a s, beginAt o c k ≤ a → a ≤ endAt o c k → a = beginAt o c k ∨ a = first →
      first ≤ a → P a s → (body k a (endAt o c k) s).Yields (Scan.Ends (R (endAt o c k)) Q))
    (hs : P first s) :
    (walkAt o c first (o + size (d + 1) c) body s).Yields
      (Scan.Ends (R (o + size (d + 1) c)) Q) :=
  walkAt_yields_rest_from hP ho hfirst
    (fun k a s hka hak hbegin hfa _ => hbody k a s hka hak hbegin hfa) hs

/-- What the scans of the parts keep, the walk keeps. -/
theorem walkAt_yields (ho : o ≤ first) (hfl : first ≤ last) (hlast : last ≤ o + size (d + 1) c)
    (hbody : ∀ k a b s, a ≤ b → beginAt o c k ≤ a → b ≤ endAt o c k → first ≤ a → b ≤ last →
      P a s → (body k a b s).Yields (Scan.Ends (P b) Q)) (hs : P first s) :
    (walkAt o c first last body s).Yields (Scan.Ends (P last) Q) :=
  walkAt_yields_to (fun _ _ h => h) ho hfl hlast hbody hs

/-- **The walk from a position on**, seen from the begin of all. -/
def walkOnAt (o : ℕ) (c : Segmentation (d + 1)) (first : ℕ)
    (body : ℕ → ℕ → ℕ → σ → Option (Scan σ ρ)) (s : σ) : Option ρ :=
  walkOn c.sizes (first - o)
    (fun k a b => body k (o + compose c.sizes k a) (o + compose c.sizes k b)) s

/-- **What the scans keep, the walk keeps to its answer**: a part begins with its
segment or with the walk. -/
theorem walkOnAt_yields (ho : o ≤ first) (hfirst : first ≤ o + size (d + 1) c)
    (hnil : c.sizes ≠ [])
    (hbody : ∀ k a s, beginAt o c k ≤ a → a ≤ endAt o c k → a = beginAt o c k ∨ a = first →
      P a s → (body k a (endAt o c k) s).Yields (Scan.Ends
        (fun s' => endAt o c k < o + size (d + 1) c ∧ P (endAt o c k) s') Q))
    (hs : P first s) : (walkOnAt o c first body s).Yields Q := by
  rw [size_succ] at hfirst hbody
  have ho' : o + (first - o) = first := Nat.add_sub_cancel' ho
  refine walkOn_yields (P := fun p => P (o + p)) hnil (by omega)
    (fun k a s hk ha hbegin hP => ?_) (ho'.symm ▸ hs)
  have hend : o + compose c.sizes k (c.sizes.getD k 0) = endAt o c k := by
    rw [compose, ← start_succ]
    rfl
  rw [hend]
  have hstart := start_succ c.sizes k
  unfold compose at hbegin hP ⊢
  refine (hbody k _ s ?_ ?_ ?_ hP).imp (fun e he => ?_)
  · exact Nat.add_le_add_left (Nat.le_add_right _ _) o
  · unfold endAt
    omega
  · unfold beginAt
    omega
  · cases e with
    | more s' => exact ⟨by have := he.1; unfold endAt at this; omega, he.2⟩
    | done r => exact he

/-! ### One scan through all the segments -/

/-- **The scan of a range at the bottom of all its segments**, one part after the
other. -/
def scanParts (scan : ℕ → ℕ → σ → Option σ) :
    (d : ℕ) → ℕ → Segmentation d → ℕ → ℕ → σ → Option σ
  | 0, _, _, first, last, s => scan first last s
  | d + 1, o, c, first, last, s =>
    (walkAt o c first last (fun k a b s =>
      (scanParts scan d (beginAt o c k) (c.child k) a b s).map Scan.more) s).map Scan.result

/-- **What the scan of a part keeps, the scan through all the segments keeps.** -/
theorem scanParts_yields {scan : ℕ → ℕ → σ → Option σ} {d o : ℕ} {c : Segmentation d} {a b : ℕ}
    (hscan : ∀ a b s, first ≤ a → a ≤ b → b ≤ last → P a s → (scan a b s).Yields (P b))
    (hoa : o ≤ a) (hfa : first ≤ a) (hab : a ≤ b) (hbl : b ≤ last) (hsize : b ≤ o + size d c)
    (hs : P a s) : (scanParts scan d o c a b s).Yields (P b) := by
  induction d generalizing o s a b with
  | zero => exact hscan a b s hfa hab hbl hs
  | succ d ih =>
    refine (walkAt_yields (P := P) (Q := P b) hoa hab hsize ?_ hs).map ?_
    · intro k a' b' s hab' hka hbk ha' hb' hP
      refine (ih hka (hfa.trans ha') hab' (hb'.trans hbl) ?_ hP).map (fun s hs => hs)
      rwa [beginAt_add_size]
    · intro e he
      cases e with
      | more s => exact he
      | done s => exact he

end Segmentation
