import BoostContainer.Lib.SlotViews

/-!
# The values of elements

Most of what is promised about slots does not depend on the values of the
elements. Where it does, the values are told slot by slot: an assignment from
another slot takes the value over, and leaves there what a move leaves. An
element that is assigned to itself is left as a move leaves it.

A range that is moved onto another, one element after the other, arrives as it
was, provided that no element is assigned to before it is read. Where both
ranges are the same, every element is assigned to itself.
-/

namespace Slots

variable {κ : Type} {α : Type*} {e : Env α} {s s' u : State κ α} {own : Set ℕ} {addr : ℕ → ℕ}
  {a b d f m p q : ℕ}

/-- **The value in a slot**, if it holds an element. -/
def State.valueAt (s : State κ α) (p : ℕ) : Option α := (s.heap p).bind Slot.element

/-- What an element becomes that is assigned from a slot, at the address `p` of the
slot itself or at another. -/
def carried (e : Env α) (same : Bool) : α → α := if same then e.moved else id

theorem carried_false : carried e false = id := rfl

/-- **An assignment from a slot.** -/
theorem assign_value (s : State κ α) : (assign e p (.slot q) s).Permits
    (fun _ u => u.valueAt p = (s.valueAt q).map (carried e (p == q))
      ∧ ∀ x, x ≠ p → x ≠ q → u.valueAt x = s.valueAt x) (fun _ => True) := by
  show (assignFrom e p (.slot q) s).Permits _ _
  rw [assignFrom]
  cases hp : s.heap p with
  | none => trivial
  | some slot =>
    cases hv : (Source.slot q : Source α).read s.heap with
    | none => trivial
    | some v =>
      have hread : s.valueAt q = some v := hv
      show (if slot.element.isNone then _ else _ : Outcome _ _).Permits _ _
      split
      · trivial
      · split
        · trivial
        · refine ⟨?_, fun x hxp hxq => ?_⟩
          · rw [hread]
            by_cases hpq : p = q
            · subst hpq
              simp [State.valueAt, Source.spend, carried]
            · simp [State.valueAt, Source.spend, carried, hpq]
          · simp [State.valueAt, Source.spend, Function.update_of_ne hxp,
              Function.update_of_ne hxq]

/-! ## Ranges that are moved -/

/-- **A range was moved, from its start on**: `m` slots from number `d` on have the
values of those from `f` on, and the others of the object are as they were, those
excepted that were only read. -/
structure MovedUp (e : Env α) (addr : ℕ → ℕ) (own : Set ℕ) (f d m : ℕ) (s u : State κ α) :
    Prop where
  arrived : ∀ j < m, u.valueAt (addr (d + j)) = (s.valueAt (addr (f + j))).map (carried e (d == f))
  kept : ∀ x ∈ own, x < d ∨ f + m ≤ x → u.valueAt (addr x) = s.valueAt (addr x)

/-- **A range was moved, from its end on**: the `m` slots before number `b`, from
those before `a`. -/
structure MovedDown (e : Env α) (addr : ℕ → ℕ) (own : Set ℕ) (a b m : ℕ) (s u : State κ α) :
    Prop where
  arrived : ∀ j < m,
    u.valueAt (addr (b - 1 - j)) = (s.valueAt (addr (a - 1 - j))).map (carried e (b == a))
  kept : ∀ x ∈ own, b ≤ x ∨ x + m < a → u.valueAt (addr x) = s.valueAt (addr x)

theorem MovedUp.zero (s : State κ α) : MovedUp e addr own f d 0 s s :=
  ⟨fun _ hj => absurd hj (Nat.not_lt_zero _), fun _ _ _ => rfl⟩

theorem MovedDown.zero (s : State κ α) : MovedDown e addr own a b 0 s s :=
  ⟨fun _ hj => absurd hj (Nat.not_lt_zero _), fun _ _ _ => rfl⟩

/-- One more element is moved. -/
theorem MovedUp.step (h : MovedUp e addr own f d m s u) (hinj : Set.InjOn addr own) (hdf : d ≤ f)
    (hf : Set.Ico f (f + (m + 1)) ⊆ own) (hd : Set.Ico d (d + (m + 1)) ⊆ own) :
    (assign e (addr (d + m)) (.slot (addr (f + m))) u).Permits
      (fun _ w => MovedUp e addr own f d (m + 1) s w) (fun _ => True) := by
  have hfm : f + m ∈ own := hf ⟨by omega, by omega⟩
  have hdm : d + m ∈ own := hd ⟨by omega, by omega⟩
  have hne : ∀ x ∈ own, x ≠ d + m → addr x ≠ addr (d + m) := fun x hx h hxe => h (hinj hx hdm hxe)
  have hne' : ∀ x ∈ own, x ≠ f + m → addr x ≠ addr (f + m) := fun x hx h hxe => h (hinj hx hfm hxe)
  refine (assign_value u).imp (fun _ w hw => ⟨fun j hj => ?_, fun x hx hout => ?_⟩) (fun _ => id)
  · rcases Nat.eq_or_lt_of_le (Nat.le_of_lt_succ hj) with rfl | hlt
    · have hsame : (addr (d + j) == addr (f + j)) = (d == f) := by
        by_cases hdf' : d = f
        · rw [hdf', beq_self_eq_true, beq_self_eq_true]
        · rw [beq_false_of_ne (hne' _ hdm (by omega)), beq_false_of_ne hdf']
      rw [hw.1, hsame, h.kept _ hfm (Or.inr le_rfl)]
    · have hdj : d + j ∈ own := hd ⟨by omega, by omega⟩
      rw [hw.2 _ (hne _ hdj (by omega)) (hne' _ hdj (by omega)), h.arrived j hlt]
  · rw [hw.2 _ (hne _ hx (by omega)) (hne' _ hx (by omega)), h.kept x hx (by omega)]

theorem MovedDown.step (h : MovedDown e addr own a b m s u) (hinj : Set.InjOn addr own)
    (hab : a ≤ b) (hm : m < a) (ha : Set.Ico (a - (m + 1)) a ⊆ own)
    (hb : Set.Ico (b - (m + 1)) b ⊆ own) :
    (assign e (addr (b - 1 - m)) (.slot (addr (a - 1 - m))) u).Permits
      (fun _ w => MovedDown e addr own a b (m + 1) s w) (fun _ => True) := by
  have ham : a - 1 - m ∈ own := ha ⟨by omega, by omega⟩
  have hbm : b - 1 - m ∈ own := hb ⟨by omega, by omega⟩
  have hne : ∀ x ∈ own, x ≠ b - 1 - m → addr x ≠ addr (b - 1 - m) :=
    fun x hx h hxe => h (hinj hx hbm hxe)
  have hne' : ∀ x ∈ own, x ≠ a - 1 - m → addr x ≠ addr (a - 1 - m) :=
    fun x hx h hxe => h (hinj hx ham hxe)
  refine (assign_value u).imp (fun _ w hw => ⟨fun j hj => ?_, fun x hx hout => ?_⟩) (fun _ => id)
  · rcases Nat.eq_or_lt_of_le (Nat.le_of_lt_succ hj) with rfl | hlt
    · have hsame : (addr (b - 1 - j) == addr (a - 1 - j)) = (b == a) := by
        by_cases hab' : b = a
        · rw [hab', beq_self_eq_true, beq_self_eq_true]
        · rw [beq_false_of_ne (hne' _ hbm (by omega)), beq_false_of_ne hab']
      rw [hw.1, hsame, h.kept _ ham (Or.inr (by omega))]
    · have hbj : b - 1 - j ∈ own := hb ⟨by omega, by omega⟩
      rw [hw.2 _ (hne _ hbj (by omega)) (hne' _ hbj (by omega)), h.arrived j hlt]
  · rw [hw.2 _ (hne _ hx (by omega)) (hne' _ hx (by omega)), h.kept x hx (by omega)]

end Slots
