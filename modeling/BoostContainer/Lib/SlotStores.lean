import BoostContainer.Lib.SlotUnwind

/-!
# Stores into a range of slots

A loop that constructs and a loop that assigns store the same values, those of
their sources as they were before the loop, when nothing that is read later is
written, or moved from, before (`Untangled`). What they do to the slots differs
only in whether an element begins to live there (`Stored`), and is put together
from single stores.
-/

namespace Slots

variable {κ : Type} {α : Type*} {e : Env α} {s t u : State κ α} {p q f r n m k : ℕ}
  {src : Source α} {srcs : ℕ → Source α} {b : Bool}

/-! ## What is read -/

/-- The slot a source reads, if it reads one. -/
def Source.place : Source α → Option ℕ
  | .slot p => some p
  | .copyOf p => some p
  | _ => none

theorem shape_eq_some_true {h : Heap (Slot α)} :
    shape h q = some true ↔ ∃ v, cells h q = some v := by
  unfold shape cells
  cases h q with
  | none => simp
  | some slot => simp [Option.isSome_iff_exists]

/-- A slot is its allocator and its element. -/
theorem heap_eq_of_cells {h h' : Heap (Slot α)} (hc : cells h q = cells h' q)
    (ha : (h q).map Slot.allocator = (h' q).map Slot.allocator) : h q = h' q := by
  unfold cells at hc
  cases hq : h q with
  | none =>
    rw [hq] at ha
    exact (Option.map_eq_none_iff.mp ha.symm).symm
  | some x =>
    cases hq' : h' q with
    | none =>
      rw [hq, hq'] at ha
      exact absurd ha (by simp)
    | some y =>
      rw [hq, hq'] at ha hc
      obtain ⟨a, v⟩ := x
      obtain ⟨a', v'⟩ := y
      simp only [Option.map_some, Option.some.injEq, Option.bind_some] at ha hc
      rw [ha, hc]

/-- A slot that is there is raw or not. -/
theorem shape_eq_some_false {h h' : Heap (Slot α)} (hc : cells h q = none)
    (ha : (h q).map Slot.allocator = (h' q).map Slot.allocator) (hq : shape h' q ≠ none) :
    shape h q = some false := by
  unfold cells at hc
  unfold shape at hq ⊢
  cases hx : h q with
  | none =>
    rw [hx] at ha
    exact absurd (congrArg _ (Option.map_eq_none_iff.mp ha.symm)) hq
  | some x =>
    rw [hx, Option.bind_some] at hc
    rw [Option.map_some, hc]
    rfl

theorem Source.read_congr {h h' : Heap (Slot α)}
    (hc : ∀ q, src.place = some q → cells h q = cells h' q) : src.read h = src.read h' := by
  cases src with
  | value v => rfl
  | temporary v => rfl
  | slot p => exact hc p rfl
  | copyOf p => exact hc p rfl

theorem Source.place_of_eq_slot (h : src = .slot q) : src.place = some q := h ▸ rfl

theorem Source.copyOf_ne_slot : (.copyOf p : Source α) ≠ .slot q := by
  intro h
  cases h

/-- **Nothing is read late**: the sources are outside the slots that are written,
and none is moved from before it is read. -/
structure Untangled (srcs : ℕ → Source α) (f r n : ℕ) : Prop where
  apart : ∀ j < n, ∀ q, (srcs (f + j)).place = some q → q < r ∨ r + n ≤ q
  fresh : ∀ i j, i < j → j < n → ∀ q, srcs (f + i) = .slot q → (srcs (f + j)).place ≠ some q

namespace Untangled

theorem tail (h : Untangled srcs f r (n + 1)) : Untangled srcs (f + 1) (r + 1) n := by
  refine ⟨fun j hj q hq => ?_, fun i j hij hj q hq => ?_⟩
  · rw [Nat.add_assoc, Nat.add_comm 1 j] at hq
    have := h.apart (j + 1) (by omega) q hq
    omega
  · rw [Nat.add_assoc, Nat.add_comm 1 i] at hq
    rw [Nat.add_assoc, Nat.add_comm 1 j]
    exact h.fresh (i + 1) (j + 1) (by omega) (by omega) q hq

theorem mono (h : Untangled srcs f r n) (hm : m ≤ n) : Untangled srcs f r m :=
  ⟨fun j hj q hq => by
    have := h.apart j (by omega) q hq
    omega,
    fun i j hij hj => h.fresh i j hij (by omega)⟩

/-- Later slots may be written as well. -/
theorem drop (h : Untangled srcs f r n) (hm : m + k ≤ n) :
    Untangled srcs (f + m) (r + m) k := by
  refine ⟨fun j hj q hq => ?_, fun i j hij hj q hq => ?_⟩
  · rw [Nat.add_assoc] at hq
    have := h.apart (m + j) (by omega) q hq
    omega
  · rw [Nat.add_assoc] at hq ⊢
    exact h.fresh (m + i) (m + j) (by omega) (by omega) q hq

end Untangled

/-- Elements of a range apart can be moved one after the other. -/
theorem untangled_slots (hd : f + n ≤ r ∨ r + n ≤ f) :
    Untangled (.slot : ℕ → Source α) f r n := by
  refine ⟨fun j hj q hq => ?_, fun i j hij hj q hq hp => ?_⟩
  · have : f + j = q := Option.some.inj hq
    omega
  · have h₁ : f + i = q := Source.slot.inj hq
    have h₂ : f + j = q := Option.some.inj hp
    omega

/-! ## What a store does -/

/-- **Values are stored** in `n` slots from `r` on, in which elements begin to live
if they are `fresh`: they are what the sources were, and no other slot is
touched, unless its element was moved from. -/
structure Stored (fresh : Bool) (srcs : ℕ → Source α) (f r n : ℕ) (s t : State κ α) : Prop where
  value_eq : ∀ j < n, cells t.heap (r + j) = (srcs (f + j)).read s.heap
  kept : ∀ q, q < r ∨ r + n ≤ q → (∀ j < n, srcs (f + j) ≠ .slot q) →
    cells t.heap q = cells s.heap q
  shape_eq : ∀ q, q < r ∨ r + n ≤ q → shape t.heap q = shape s.heap q
  allocator_eq : ∀ q, (t.heap q).map Slot.allocator = (s.heap q).map Slot.allocator
  constructed_eq : ∀ q, t.constructed q = s.constructed q + if fresh then within r n q else 0
  destroyed_eq : t.destroyed = s.destroyed
  requests_eq : t.requests = s.requests
  object_eq : t.object = s.object

namespace Stored

theorem zero (b : Bool) (srcs : ℕ → Source α) (f r : ℕ) (s : State κ α) :
    Stored b srcs f r 0 s s :=
  ⟨fun _ hj => absurd hj (Nat.not_lt_zero _), fun _ _ _ => rfl, fun _ _ => rfl, fun _ => rfl,
    fun q => by rw [within_zero, ite_self, Nat.add_zero], rfl, rfl, rfl⟩

/-- What was read at first is read after a store. -/
theorem read_eq (h : Stored b srcs f r n s t) (hu : Untangled srcs f r m) (hk : n ≤ k)
    (hm : k < m) : (srcs (f + k)).read t.heap = (srcs (f + k)).read s.heap := by
  refine Source.read_congr (fun q hq => h.kept q ?_ (fun j hj hslot => ?_))
  · have := hu.apart k hm q hq
    omega
  · exact hu.fresh j k (by omega) hm q hslot hq

/-- **Stores follow one another.** -/
theorem append (h : Stored b srcs f r n s t) (h' : Stored b srcs (f + n) (r + n) m t u)
    (hu : Untangled srcs f r (n + m)) : Stored b srcs f r (n + m) s u := by
  refine ⟨fun j hj => ?_, fun q hq hs => ?_, fun q hq => ?_,
    fun q => (h'.allocator_eq q).trans (h.allocator_eq q), fun q => ?_,
    h'.destroyed_eq.trans h.destroyed_eq, h'.requests_eq.trans h.requests_eq,
    h'.object_eq.trans h.object_eq⟩
  · by_cases hjn : j < n
    · rw [h'.kept (r + j) (Or.inl (by omega)) (fun i hi hslot => ?_), h.value_eq j hjn]
      rw [Nat.add_assoc] at hslot
      have := hu.apart (n + i) (by omega) _ (Source.place_of_eq_slot hslot)
      omega
    · obtain ⟨i, rfl⟩ := Nat.exists_eq_add_of_le (Nat.le_of_not_lt hjn)
      rw [← Nat.add_assoc, h'.value_eq i (by omega), Nat.add_assoc,
        h.read_eq hu (Nat.le_add_right n i) hj]
  · rw [h'.kept q (by omega) (fun j hj => ?_), h.kept q (by omega) (fun j hj => hs j (by omega))]
    rw [Nat.add_assoc]
    exact hs (n + j) (by omega)
  · rw [h'.shape_eq q (by omega), h.shape_eq q (by omega)]
  · rw [h'.constructed_eq, h.constructed_eq]
    split
    · rw [within_add, Nat.add_assoc]
    · rfl

/-- **What was stored lives.** -/
theorem filled (h : Stored b srcs f r n s t)
    (hr : ∀ j < n, (srcs (f + j)).Readable {p | shape s.heap p = some true}) :
    ∀ j < n, shape t.heap (r + j) = some true := by
  intro j hj
  obtain ⟨v, hv⟩ := exists_read (hr j hj)
  exact shape_eq_some_true.mpr ⟨v, (h.value_eq j hj).trans hv⟩

/-- What lives elsewhere lives on. -/
theorem readable (h : Stored b srcs f r n s t)
    (hr : ∀ j < n, (srcs (f + j)).Readable {p | shape s.heap p = some true})
    (hsrc : src.Readable {p | shape s.heap p = some true}) :
    src.Readable {p | shape t.heap p = some true} := by
  refine hsrc.mono (fun q hq => ?_)
  by_cases hqr : r ≤ q ∧ q < r + n
  · obtain ⟨j, rfl⟩ := Nat.exists_eq_add_of_le hqr.1
    exact h.filled hr j (by omega)
  · exact (h.shape_eq q (by omega)).trans hq

/-- A copy of the bytes of an element is as good as a move. -/
theorem of_copies (h : Stored b .copyOf f r n s t) : Stored b .slot f r n s t :=
  { h with kept := fun q hq _ => h.kept q hq (fun _ _ => Source.copyOf_ne_slot) }

end Stored

/-! ## Loops of stores -/

/-- **A construction stores.** -/
theorem construct_stored (hraw : shape s.heap r = some false)
    (hsrc : (srcs f).Readable {p | shape s.heap p = some true}) (he : e.fuse = none) :
    ∃ t, construct e r (srcs f) s = .done () t ∧ Stored true srcs f r 1 s t := by
  have hf : e.fuse ≠ some s.ops := by
    rw [he]
    exact (Option.some_ne_none _).symm
  obtain ⟨t, hdone, ht⟩ := construct_built hraw hsrc hf
  have hturns : Turns (construct e r (srcs f) : Prog (State κ α) Unit) _ := turns_construct
  have hafter := hturns s
  rw [hdone] at hafter
  have hcells : cells t.heap = (srcs f).spendIn e
      (Function.update (cells s.heap) r ((srcs f).readIn (cells s.heap))) := hafter
  have hspend : ∀ q c, srcs f ≠ .slot q → (srcs f).spendIn e c q = c q := by
    intro q c hq
    cases hs : srcs f with
    | slot p =>
      rw [hs] at hq
      exact Function.update_of_ne (fun h => hq (congrArg Source.slot h.symm)) _ _
    | _ => rfl
  refine ⟨t, hdone, fun j hj => ?_, fun q hq hs => ?_, ht.kept, ht.allocator_eq,
    fun q => ht.constructed_eq q, ht.destroyed_eq, ht.requests_eq, ht.object_eq⟩
  · obtain rfl : j = 0 := by omega
    -- what is moved from lives, and the slot was raw
    have hne : srcs f ≠ .slot r := by
      intro h
      rw [h] at hsrc
      exact absurd (hraw.symm.trans hsrc) (by simp)
    rw [Nat.add_zero, Nat.add_zero, hcells, hspend r _ hne, Function.update_self,
      ← Source.read_eq]
  · rw [hcells, hspend q _ (hs 0 Nat.one_pos), Function.update_of_ne (by omega)]

/-- **A loop of constructions stores.** -/
theorem constructEach_stored (cleanup : ℕ → Prog (State κ α) Unit)
    (hs : Ready srcs f r n s) (hu : Untangled srcs f r n) (he : e.fuse = none) :
    ∃ t, constructEach e srcs cleanup f r n s = .done (f + n, r + n) t
      ∧ Stored true srcs f r n s t := by
  induction n generalizing f r s with
  | zero => exact ⟨s, rfl, Stored.zero true srcs f r s⟩
  | succ n ih =>
    obtain ⟨t, hdone, ht⟩ := construct_stored hs.raw_first hs.readable_first he
    have hready : Ready srcs (f + 1) (r + 1) n t := by
      refine ⟨fun j hj => ?_, fun j hj => ht.readable (fun i hi => ?_) ?_⟩
      · rw [ht.shape_eq _ (Or.inr (by omega)), Nat.add_assoc, Nat.add_comm 1 j]
        exact hs.raw (j + 1) (by omega)
      · exact hs.readable i (by omega)
      · rw [Nat.add_assoc, Nat.add_comm 1 j]
        exact hs.readable (j + 1) (by omega)
    obtain ⟨u, hrun, hstored⟩ := ih hready hu.tail
    have hguard : ((construct e r (srcs f)).onThrow (cleanup r)) s = .done () t := by
      rw [Prog.onThrow, hdone]
    have huc : Untangled srcs f r (1 + n) := by rwa [Nat.add_comm]
    refine ⟨u, ?_, ?_⟩
    · rw [constructEach, Prog.bind_of_done hguard, hrun, Nat.add_assoc, Nat.add_assoc,
        Nat.add_comm 1 n]
    · rw [Nat.add_comm n 1]
      exact ht.append hstored huc

/-- The loop of assignments: to elements from `r` on, from what `srcs` gives at `f`
and after it. -/
def assignEach (e : Env α) (srcs : ℕ → Source α) (f r : ℕ) : ℕ → Prog (State κ α) (ℕ × ℕ)
  | 0 => pure (f, r)
  | n + 1 => do
    assign e r (srcs f)
    assignEach e srcs (f + 1) (r + 1) n

/-- **An assignment stores.** -/
theorem assign_stored (hlive : shape s.heap r = some true)
    (hsrc : (srcs f).Readable {p | shape s.heap p = some true})
    (hr : (srcs f).place ≠ some r) (he : e.fuse = none) :
    ∃ t, assign e r (srcs f) s = .done () t ∧ Stored false srcs f r 1 s t := by
  obtain ⟨slot, hslot, helem⟩ := exists_of_shape_eq hlive
  obtain ⟨v, hv⟩ := exists_read hsrc
  have hdef : ¬ slot.element.isNone = true := by
    rw [Option.isNone_iff_eq_none]
    intro h
    rw [h] at helem
    exact Bool.noConfusion helem
  have htemp : ∃ i, makeTemporary e (srcs f) s = .done () { s with ops := i } := by
    cases srcs f with
    | temporary v =>
      refine ⟨s.ops + 1, ?_⟩
      show tick e s = _
      rw [tick, he, if_neg (Option.some_ne_none _).symm]
    | _ => exact ⟨s.ops, rfl⟩
  obtain ⟨i, hi⟩ := htemp
  have hdone : assign e r (srcs f) s = .done () { s with
      heap := (srcs f).spend e (Function.update s.heap r (some { slot with element := some v }))
      ops := i + 1 } := by
    rw [assign, Prog.bind_of_done hi]
    unfold assignFrom
    simp only [hslot, hv, if_neg hdef, he]
    rw [if_neg (Option.some_ne_none _).symm]
  have hne : srcs f ≠ .slot r := fun h => hr (Source.place_of_eq_slot h)
  refine ⟨_, hdone, fun j hj => ?_, fun q hq hs => ?_, fun q hq => ?_, fun q => ?_, fun _ => rfl,
    rfl, rfl, rfl⟩
  · obtain rfl : j = 0 := by omega
    show ((srcs f).spend e _ r).bind _ = (srcs f).read s.heap
    rw [hv, spend_of_ne hne, Function.update_self]
    rfl
  · have hneq : srcs f ≠ .slot q := hs 0 Nat.one_pos
    show ((srcs f).spend e _ q).bind _ = _
    rw [spend_of_ne hneq, Function.update_of_ne (by omega), cells]
  · rw [shape_spend, shape_update, Function.update_of_ne (by omega)]
  · rw [allocator_spend]
    by_cases hq : q = r
    · rw [hq, Function.update_self, hslot]
      rfl
    · rw [Function.update_of_ne hq]

/-- **A loop of assignments stores.** -/
theorem assignEach_stored (hlive : ∀ j < n, shape s.heap (r + j) = some true)
    (hr : ∀ j < n, (srcs (f + j)).Readable {p | shape s.heap p = some true})
    (hu : Untangled srcs f r n) (he : e.fuse = none) :
    ∃ t, assignEach e srcs f r n s = .done (f + n, r + n) t
      ∧ Stored false srcs f r n s t := by
  induction n generalizing f r s with
  | zero => exact ⟨s, rfl, Stored.zero false srcs f r s⟩
  | succ n ih =>
    have hplace : (srcs f).place ≠ some r := by
      intro h
      have := hu.apart 0 (Nat.succ_pos n) r h
      omega
    have hlive₀ : shape s.heap r = some true := hlive 0 (Nat.succ_pos n)
    have hr₀ : (srcs f).Readable {p | shape s.heap p = some true} := hr 0 (Nat.succ_pos n)
    obtain ⟨t, hdone, ht⟩ := assign_stored hlive₀ hr₀ hplace he
    have hfirst : ∀ i < 1, (srcs (f + i)).Readable {p | shape s.heap p = some true} :=
      fun i hi => hr i (by omega)
    have hlive' : ∀ j < n, shape t.heap (r + 1 + j) = some true := by
      intro j hj
      rw [ht.shape_eq _ (Or.inr (by omega)), Nat.add_assoc, Nat.add_comm 1 j]
      exact hlive (j + 1) (by omega)
    have hr' : ∀ j < n, (srcs (f + 1 + j)).Readable {p | shape t.heap p = some true} := by
      intro j hj
      rw [Nat.add_assoc, Nat.add_comm 1 j]
      exact ht.readable hfirst (hr (j + 1) (by omega))
    obtain ⟨u, hrun, hstored⟩ := ih hlive' hr' hu.tail
    have huc : Untangled srcs f r (1 + n) := by rwa [Nat.add_comm]
    refine ⟨u, ?_, ?_⟩
    · rw [assignEach, Prog.bind_of_done hdone, hrun, Nat.add_assoc, Nat.add_assoc,
        Nat.add_comm 1 n]
    · rw [Nat.add_comm n 1]
      exact ht.append hstored huc

end Slots
