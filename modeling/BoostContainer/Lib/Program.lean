import Mathlib

/-!
# Programs that may throw

A program reads and changes a state. It returns, or throws, or does what has
no defined behaviour; only the first two leave a state. A cleanup runs when
the program it guards throws, and the exception goes on: that is all a
destructor of a guard object does.

What a program promises is a triple with two postconditions, one for a return
and one for an exception (`Prog.Meets`); that it also rules out undefined
behaviour makes a triple a promise of safety.
-/

/-- **How a program ends.** -/
inductive Outcome (σ : Type*) (β : Type)
  | done (b : β) (s : σ)
  | threw (s : σ)
  | undefined

namespace Outcome

variable {σ : Type*} {β : Type}

/-- What holds of the end of a program. -/
def Meets (Q : β → σ → Prop) (E : σ → Prop) : Outcome σ β → Prop
  | done b s => Q b s
  | threw s => E s
  | undefined => False

@[simp] theorem meets_done {Q : β → σ → Prop} {E : σ → Prop} {b : β} {s : σ} :
    (done b s).Meets Q E ↔ Q b s := Iff.rfl

@[simp] theorem meets_threw {Q : β → σ → Prop} {E : σ → Prop} {s : σ} :
    (threw s : Outcome σ β).Meets Q E ↔ E s := Iff.rfl

@[simp] theorem not_meets_undefined {Q : β → σ → Prop} {E : σ → Prop} :
    ¬ (undefined : Outcome σ β).Meets Q E := id

theorem Meets.imp {Q Q' : β → σ → Prop} {E E' : σ → Prop} {r : Outcome σ β}
    (h : r.Meets Q E) (hQ : ∀ b s, Q b s → Q' b s) (hE : ∀ s, E s → E' s) :
    r.Meets Q' E' := by
  cases r with
  | done b s => exact hQ b s h
  | threw s => exact hE s h
  | undefined => exact h

/-- What holds of the end of a program, if it is defined. -/
def Permits (Q : β → σ → Prop) (E : σ → Prop) : Outcome σ β → Prop
  | done b s => Q b s
  | threw s => E s
  | undefined => True

theorem Permits.imp {Q Q' : β → σ → Prop} {E E' : σ → Prop} {r : Outcome σ β}
    (h : r.Permits Q E) (hQ : ∀ b s, Q b s → Q' b s) (hE : ∀ s, E s → E' s) :
    r.Permits Q' E' := by
  cases r with
  | done b s => exact hQ b s h
  | threw s => exact hE s h
  | undefined => trivial

theorem Permits.and {Q Q' : β → σ → Prop} {E E' : σ → Prop} {r : Outcome σ β}
    (h : r.Permits Q E) (h' : r.Permits Q' E') :
    r.Permits (fun b s => Q b s ∧ Q' b s) (fun s => E s ∧ E' s) := by
  cases r with
  | done b s => exact ⟨h, h'⟩
  | threw s => exact ⟨h, h'⟩
  | undefined => trivial

/-- A call that must throw, and what it leaves if it does. -/
theorem Meets.elim_of_permits {E E' : σ → Prop} {r : Outcome σ β}
    (h : r.Meets (fun _ _ => False) E) (h' : r.Permits (fun _ _ => True) E') : ∃ s, E s ∧ E' s := by
  cases r with
  | done b s => exact h.elim
  | threw s => exact ⟨s, h, h'⟩
  | undefined => exact h.elim

theorem Meets.permits {Q : β → σ → Prop} {E : σ → Prop} {r : Outcome σ β} (h : r.Meets Q E) :
    r.Permits Q E := by
  cases r with
  | done b s => exact h
  | threw s => exact h
  | undefined => exact h.elim

theorem Meets.and_permits {Q Q' : β → σ → Prop} {E E' : σ → Prop} {r : Outcome σ β}
    (h : r.Meets Q E) (h' : r.Permits Q' E') :
    r.Meets (fun b s => Q b s ∧ Q' b s) (fun s => E s ∧ E' s) := by
  cases r with
  | done b s => exact ⟨h, h'⟩
  | threw s => exact ⟨h, h'⟩
  | undefined => exact h

/-- What is known at every end is known. -/
theorem Meets.const {p : Prop} {r : Outcome σ β} (h : r.Meets (fun _ _ => p) (fun _ => p)) : p := by
  cases r with
  | done b s => exact h
  | threw s => exact h
  | undefined => exact h.elim

end Outcome

/-- **A program** over a state. -/
def Prog (σ : Type*) (β : Type) := σ → Outcome σ β

namespace Prog

variable {σ : Type*} {β γ : Type}

/-- Programs run one after the other, until one throws. -/
def bind (c : Prog σ β) (k : β → Prog σ γ) : Prog σ γ := fun s =>
  match c s with
  | .done b t => k b t
  | .threw t => .threw t
  | .undefined => .undefined

instance : Monad (Prog σ) where
  pure b := fun s => .done b s
  bind := Prog.bind

@[simp] theorem pure_bind (b : β) (k : β → Prog σ γ) : (pure b : Prog σ β) >>= k = k b := rfl

theorem bind_assoc {δ : Type} (c : Prog σ β) (k : β → Prog σ γ) (l : γ → Prog σ δ) :
    (c >>= k) >>= l = c >>= fun b => k b >>= l := by
  funext s
  show Prog.bind (Prog.bind c k) l s = Prog.bind c (fun b => Prog.bind (k b) l) s
  unfold Prog.bind
  cases c s <;> rfl

/-- What the program reads of the state. -/
def gets (f : σ → β) : Prog σ β := fun s => .done (f s) s

@[simp] theorem gets_bind (f : σ → β) (k : β → Prog σ γ) (s : σ) :
    (gets f >>= k) s = k (f s) s := rfl

/-- The state, changed. -/
def modify (f : σ → σ) : Prog σ Unit := fun s => .done () (f s)

@[simp] theorem modify_bind (f : σ → σ) (k : Unit → Prog σ γ) (s : σ) :
    (modify f >>= k) s = k () (f s) := rfl

/-- An exception. -/
def throw : Prog σ β := fun s => .threw s

/-- What has no defined behaviour. -/
def undefined : Prog σ β := fun _ => .undefined

/-- **A guard**: if the program throws, the cleanup runs, and the exception goes
on. A cleanup that throws ends the process. -/
def onThrow (c : Prog σ β) (cleanup : Prog σ Unit) : Prog σ β := fun s =>
  match c s with
  | .done b t => .done b t
  | .threw t =>
    match cleanup t with
    | .done _ u => .threw u
    | .threw _ => .undefined
    | .undefined => .undefined
  | .undefined => .undefined

/-- `catch (...)`, when the handler does not rethrow. -/
def catchAll (c handler : Prog σ β) : Prog σ β := fun s =>
  match c s with
  | .done b t => .done b t
  | .threw t => handler t
  | .undefined => .undefined

/-! ## Triples -/

/-- **A triple**: from a state with `P` the program is defined, leaves `Q` if it
returns, and `E` if it throws. -/
def Meets (P : σ → Prop) (c : Prog σ β) (Q : β → σ → Prop) (E : σ → Prop) : Prop :=
  ∀ s, P s → (c s).Meets Q E

variable {P P' : σ → Prop} {c : Prog σ β} {Q Q' : β → σ → Prop} {E E' F : σ → Prop}

theorem Meets.conseq (h : Meets P c Q E) (hP : ∀ s, P' s → P s)
    (hQ : ∀ b s, Q b s → Q' b s) (hE : ∀ s, E s → E' s) : Meets P' c Q' E' :=
  fun s hs => (h s (hP s hs)).imp hQ hE

theorem Meets.pre (h : Meets P c Q E) (hP : ∀ s, P' s → P s) : Meets P' c Q E :=
  fun s hs => h s (hP s hs)

theorem Meets.post (h : Meets P c Q E) (hQ : ∀ b s, Q b s → Q' b s) : Meets P c Q' E :=
  fun s hs => (h s hs).imp hQ (fun _ => id)

theorem Meets.except (h : Meets P c Q E) (hE : ∀ s, E s → E' s) : Meets P c Q E' :=
  fun s hs => (h s hs).imp (fun _ _ => id) hE

/-- What a precondition says about everything but the state is a hypothesis. -/
theorem Meets.of_pre {p : Prop} (h : p → Meets P c Q E) :
    Meets (fun s => p ∧ P s) c Q E :=
  fun s hs => h hs.1 s hs.2

/-- The same, where the state comes first. -/
theorem Meets.of_pre_right {p : Prop} (h : p → Meets P c Q E) :
    Meets (fun s => P s ∧ p) c Q E :=
  fun s hs => h hs.2 s hs.1

theorem Meets.of_exists {ι : Sort*} {R : ι → σ → Prop} (h : ∀ i, Meets (R i) c Q E) :
    Meets (fun s => ∃ i, R i s) c Q E :=
  fun s ⟨i, hs⟩ => h i s hs

theorem meets_pure {b : β} (h : ∀ s, P s → Q b s) : Meets P (pure b) Q E := h

theorem Meets.bind {R : β → σ → Prop} {k : β → Prog σ γ} {Q : γ → σ → Prop}
    (hc : Meets P c R E) (hk : ∀ b, Meets (R b) (k b) Q E) : Meets P (c >>= k) Q E := by
  intro s hs
  have hcs := hc s hs
  show Outcome.Meets Q E (Prog.bind c k s)
  unfold Prog.bind
  cases hr : c s with
  | done b t =>
    rw [hr] at hcs
    exact hk b t hcs
  | threw t =>
    rw [hr] at hcs
    exact hcs
  | undefined =>
    rw [hr] at hcs
    exact hcs

theorem meets_gets {f : σ → β} (h : ∀ s, P s → Q (f s) s) : Meets P (gets f) Q E := h

theorem meets_modify {f : σ → σ} {Q : Unit → σ → Prop} (h : ∀ s, P s → Q () (f s)) :
    Meets P (modify f) Q E := h

theorem meets_throw (h : ∀ s, P s → E s) : Meets P (throw : Prog σ β) Q E := h

/-- **The rule of guards**: the cleanup turns what the program leaves when it
throws into what is promised. -/
theorem Meets.onThrow {cleanup : Prog σ Unit} (hc : Meets P c Q F)
    (hcl : Meets F cleanup (fun _ => E) (fun _ => False)) :
    Meets P (c.onThrow cleanup) Q E := by
  intro s hs
  have hcs := hc s hs
  unfold Prog.onThrow
  cases hr : c s with
  | done b t =>
    rw [hr] at hcs
    exact hcs
  | threw t =>
    rw [hr] at hcs
    have hclt := hcl t hcs
    simp only
    cases hu : cleanup t with
    | done _ u =>
      rw [hu] at hclt
      exact hclt
    | threw u =>
      rw [hu] at hclt
      exact hclt
    | undefined =>
      rw [hu] at hclt
      exact hclt
  | undefined =>
    rw [hr] at hcs
    exact hcs

theorem Meets.catchAll {handler : Prog σ β} (hc : Meets P c Q F)
    (hh : Meets F handler Q E) : Meets P (c.catchAll handler) Q E := by
  intro s hs
  have hcs := hc s hs
  unfold Prog.catchAll
  cases hr : c s with
  | done b t =>
    rw [hr] at hcs
    exact hcs
  | threw t =>
    rw [hr] at hcs
    exact hh t hcs
  | undefined =>
    rw [hr] at hcs
    exact hcs

theorem Meets.ite {p : Prop} [Decidable p] {c' : Prog σ β} (h : p → Meets P c Q E)
    (h' : ¬ p → Meets P c' Q E) : Meets P (if p then c else c') Q E := by
  by_cases hp : p
  · rw [if_pos hp]
    exact h hp
  · rw [if_neg hp]
    exact h' hp

/-- A program that cannot throw keeps any promise about exceptions. -/
theorem Meets.no_throw (h : Meets P c Q (fun _ => False)) : Meets P c Q E :=
  h.except (fun _ hs => hs.elim)

/-! ## Running a program -/

/-- A program that returned goes on with the rest. -/
theorem bind_of_done {k : β → Prog σ γ} {s t : σ} {b : β} (h : c s = .done b t) :
    (c >>= k) s = k b t := by
  show Prog.bind c k s = k b t
  rw [Prog.bind, h]

theorem bind_of_threw {k : β → Prog σ γ} {s t : σ} (h : c s = .threw t) :
    (c >>= k) s = .threw t := by
  show Prog.bind c k s = _
  rw [Prog.bind, h]

theorem bind_of_undefined {k : β → Prog σ γ} {s : σ} (h : c s = .undefined) :
    (c >>= k) s = .undefined := by
  show Prog.bind c k s = _
  rw [Prog.bind, h]

theorem onThrow_of_undefined {cleanup : Prog σ Unit} {s : σ} (h : c s = .undefined) :
    (c.onThrow cleanup) s = .undefined := by
  rw [Prog.onThrow, h]

/-- A program that throws does not go on. -/
theorem bind_meets_of_throws {k : β → Prog σ γ} {s : σ} {Q : γ → σ → Prop}
    (h : (c s).Meets (fun _ _ => False) E) : ((c >>= k) s).Meets Q E := by
  show (Prog.bind c k s).Meets Q E
  rw [Prog.bind]
  cases hr : c s with
  | done b t =>
    rw [hr] at h
    exact h.elim
  | threw t =>
    rw [hr] at h
    exact h
  | undefined =>
    rw [hr] at h
    exact h

/-- What a call that throws leaves does not depend on what is returned. -/
theorem bind_pure_meets_iff {s : σ} {b : γ} :
    ((c >>= fun _ => (pure b : Prog σ γ)) s).Meets (fun _ _ => False) E
      ↔ (c s).Meets (fun _ _ => False) E := by
  show (Prog.bind c _ s).Meets _ _ ↔ _
  rw [Prog.bind]
  cases c s with
  | done b t => exact Iff.rfl
  | threw t => exact Iff.rfl
  | undefined => exact Iff.rfl

/-- **A cleanup that goes wrong.** -/
theorem onThrow_of_meets {cleanup : Prog σ Unit} {s : σ}
    (hc : (c s).Meets (fun _ _ => False) F) (hcl : ∀ t, F t → cleanup t = .undefined) :
    (c.onThrow cleanup) s = .undefined := by
  rw [Prog.onThrow]
  cases hr : c s with
  | done b t =>
    rw [hr] at hc
    exact hc.elim
  | threw t =>
    rw [hr] at hc
    simp only [hcl t hc]
  | undefined => rfl

/-- What a cleanup leaves, if it is defined, is what the guarded program leaves
when it throws. -/
theorem onThrow_permits {cleanup : Prog σ Unit} {s : σ} (hc : (c s).Permits Q F)
    (hcl : ∀ t, F t → (cleanup t).Permits (fun _ => E) (fun _ => True)) :
    ((c.onThrow cleanup) s).Permits Q E := by
  rw [Prog.onThrow]
  cases hr : c s with
  | done b t =>
    rw [hr] at hc
    exact hc
  | threw t =>
    rw [hr] at hc
    have ht := hcl t hc
    simp only
    cases hu : cleanup t with
    | done _ u =>
      rw [hu] at ht
      exact ht
    | threw u => trivial
    | undefined => trivial
  | undefined => trivial

/-- The rest of a program, where it is reached. -/
theorem bind_meets {k : β → Prog σ γ} {s : σ} {R : γ → σ → Prop} (hc : (c s).Meets Q E)
    (hk : ∀ b t, Q b t → (k b t).Meets R E) : ((c >>= k) s).Meets R E := by
  show (Prog.bind c k s).Meets _ _
  rw [Prog.bind]
  cases hr : c s with
  | done b t =>
    rw [hr] at hc
    exact hk b t hc
  | threw t =>
    rw [hr] at hc
    exact hc
  | undefined =>
    rw [hr] at hc
    exact hc

/-- What was thrown stays thrown. -/
theorem bind_permits {k : β → Prog σ γ} {s : σ} {R : γ → σ → Prop} (hc : (c s).Permits Q E)
    (hk : ∀ b t, Q b t → (k b t).Permits R E) : ((c >>= k) s).Permits R E := by
  show (Prog.bind c k s).Permits _ _
  rw [Prog.bind]
  cases hr : c s with
  | done b t =>
    rw [hr] at hc
    exact hk b t hc
  | threw t =>
    rw [hr] at hc
    exact hc
  | undefined => trivial

/-- What follows a program may be exchanged where it is reached. -/
theorem bind_congr {k k' : β → Prog σ γ} {s : σ} (h : ∀ b t, c s = .done b t → k b t = k' b t) :
    (c >>= k) s = (c >>= k') s := by
  show Prog.bind c k s = Prog.bind c k' s
  rw [Prog.bind, Prog.bind]
  cases hr : c s with
  | done b t => exact h b t hr
  | threw t => rfl
  | undefined => rfl

/-- A program may be exchanged where it starts. -/
theorem bind_congr_left {c' : Prog σ β} {k : β → Prog σ γ} {s : σ} (h : c s = c' s) :
    (c >>= k) s = (c' >>= k) s := by
  show Prog.bind c k s = Prog.bind c' k s
  rw [Prog.bind, Prog.bind, h]

/-- A guard sees of a program only how it ends. -/
theorem onThrow_congr {c' : Prog σ β} {cl : Prog σ Unit} {s s' : σ} (h : c s = c' s') :
    (c.onThrow cl) s = (c'.onThrow cl) s' := by
  rw [onThrow, onThrow, h]

/-! ## What a program keeps -/

/-- **A program keeps what is read of the state**, however it ends. -/
def Keeps {δ : Type*} (f : σ → δ) (c : Prog σ β) : Prop :=
  ∀ s, (c s).Permits (fun _ t => f t = f s) (fun t => f t = f s)

section Keeps

variable {δ : Type*} {f : σ → δ}

theorem Keeps.eq (h : Keeps f c) {s t : σ} {b : β} (hr : c s = .done b t) : f t = f s := by
  have hs := h s
  rw [hr] at hs
  exact hs

theorem keeps_pure (b : β) : Keeps f (pure b : Prog σ β) := fun _ => rfl

theorem keeps_gets (g : σ → β) : Keeps f (gets g) := fun _ => rfl

theorem keeps_throw : Keeps f (throw : Prog σ β) := fun _ => rfl

theorem keeps_undefined : Keeps f (undefined : Prog σ β) := fun _ => trivial

theorem keeps_modify {g : σ → σ} (h : ∀ s, f (g s) = f s) : Keeps f (modify g) := h

/-- What is kept is kept in part. -/
theorem Keeps.comp {ε : Type*} (h : Keeps f c) (g : δ → ε) : Keeps (fun s => g (f s)) c :=
  fun s => (h s).imp (fun _ _ hu => congrArg g hu) (fun _ hu => congrArg g hu)

theorem Keeps.bind {k : β → Prog σ γ} (hc : Keeps f c) (hk : ∀ b, Keeps f (k b)) :
    Keeps f (c >>= k) := by
  intro s
  show (Prog.bind c k s).Permits _ _
  have hcs := hc s
  rw [Prog.bind]
  cases hr : c s with
  | done b t =>
    rw [hr] at hcs
    exact (hk b t).imp (fun _ u hu => hu.trans hcs) (fun u hu => hu.trans hcs)
  | threw t =>
    rw [hr] at hcs
    exact hcs
  | undefined => trivial

theorem Keeps.onThrow {cleanup : Prog σ Unit} (hc : Keeps f c) (hcl : Keeps f cleanup) :
    Keeps f (c.onThrow cleanup) := by
  intro s
  have hcs := hc s
  rw [Prog.onThrow]
  cases hr : c s with
  | done b t =>
    rw [hr] at hcs
    exact hcs
  | threw t =>
    rw [hr] at hcs
    have hclt := hcl t
    simp only
    cases hu : cleanup t with
    | done _ u =>
      rw [hu] at hclt
      exact hclt.trans hcs
    | threw u => trivial
    | undefined => trivial
  | undefined => trivial

theorem Keeps.ite {p : Prop} [Decidable p] {c' : Prog σ β} (h : Keeps f c) (h' : Keeps f c') :
    Keeps f (if p then c else c') := by
  split
  · exact h
  · exact h'

end Keeps

end Prog
