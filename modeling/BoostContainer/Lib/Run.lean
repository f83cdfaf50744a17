import Mathlib

/-!
# Transition systems and their runs

A component that is called over and over is a transition system: a set of
states it may start in and, for each call, the states that call may lead
to. What a component promises over whole runs is a property of every state
that some run reaches, and it is proved once per component from two facts:
the property holds at the start, and no single step destroys it.

A promise that only survives under a condition on the steps is a promise
about the system *restricted* to those steps (`TransitionSystem.restrict`),
so a conditional result and an unconditional one are read the same way.
-/

/-- **A transition system**: the states a run may start in, and the states
each event may lead to. -/
structure TransitionSystem (σ ε : Type*) where
  /-- Where a run may start. -/
  Init : σ → Prop
  /-- What an event may do to a state. -/
  Step : σ → ε → σ → Prop

namespace TransitionSystem

variable {σ ε τ : Type*}

/-- **A run**: the events it takes, in order, between its two end states. -/
inductive Run (T : TransitionSystem σ ε) (s : σ) : List ε → σ → Prop
  | nil : Run T s [] s
  | snoc {es : List ε} {m s' : σ} {e : ε} :
      Run T s es m → T.Step m e s' → Run T s (es ++ [e]) s'

/-- **A reachable state**: one that some run ends in. -/
def Reachable (T : TransitionSystem σ ε) (s : σ) : Prop :=
  ∃ s₀ es, T.Init s₀ ∧ T.Run s₀ es s

/-- The system whose steps all meet a condition on the state they leave and
the event they take. -/
def restrict (T : TransitionSystem σ ε) (C : σ → ε → Prop) :
    TransitionSystem σ ε where
  Init := T.Init
  Step s e s' := T.Step s e s' ∧ C s e

variable {T : TransitionSystem σ ε}

/-- A run may be extended at its front as well as at its end. -/
theorem Run.cons {s m s' : σ} {e : ε} {es : List ε} (hstep : T.Step s e m)
    (hrun : T.Run m es s') : T.Run s (e :: es) s' := by
  induction hrun with
  | nil => exact Run.snoc Run.nil hstep
  | snoc _ hlast ih => exact ih.snoc hlast

/-- What one step preserves, a run preserves. -/
theorem Run.preserves {I : σ → Prop}
    (hstep : ∀ s e s', I s → T.Step s e s' → I s') {s s' : σ} {es : List ε}
    (hrun : T.Run s es s') (hs : I s) : I s' := by
  induction hrun with
  | nil => exact hs
  | snoc _ hm ih => exact hstep _ _ _ ih hm

/-- **The invariant rule**: what holds at the start and is preserved by
every step holds in every reachable state. -/
theorem Reachable.invariant {I : σ → Prop} (hinit : ∀ s, T.Init s → I s)
    (hstep : ∀ s e s', I s → T.Step s e s' → I s') {s : σ}
    (hs : T.Reachable s) : I s := by
  obtain ⟨s₀, es, h₀, hrun⟩ := hs
  exact hrun.preserves hstep (hinit s₀ h₀)

/-- A start state is reachable, by the run that takes no event. -/
theorem Reachable.of_init {s : σ} (hs : T.Init s) : T.Reachable s :=
  ⟨s, [], hs, Run.nil⟩

/-- A step from a reachable state reaches a reachable state. -/
theorem Reachable.step {s s' : σ} {e : ε} (hs : T.Reachable s)
    (hstep : T.Step s e s') : T.Reachable s' := by
  obtain ⟨s₀, es, h₀, hrun⟩ := hs
  exact ⟨s₀, es ++ [e], h₀, hrun.snoc hstep⟩

/-- A run of the restricted system is a run of the system. -/
theorem Run.of_restrict {C : σ → ε → Prop} {s s' : σ} {es : List ε}
    (hrun : (T.restrict C).Run s es s') : T.Run s es s' := by
  induction hrun with
  | nil => exact Run.nil
  | snoc _ hm ih => exact ih.snoc hm.1

theorem Reachable.of_restrict {C : σ → ε → Prop} {s : σ}
    (hs : (T.restrict C).Reachable s) : T.Reachable s := by
  obtain ⟨s₀, es, h₀, hrun⟩ := hs
  exact ⟨s₀, es, h₀, hrun.of_restrict⟩

/-- **When a condition on the steps is exactly what a property needs.**
Suppose `J` survives every step. If from a state with `J` and `I` a step
keeps `I` precisely when the step meets the condition, and a state that lost
`I` never regains it, then a run ends with `I` precisely when all its steps
meet the condition. -/
theorem Run.iff_restrict {I J : σ → Prop} {C : σ → ε → Prop}
    (hJ : ∀ s e s', J s → T.Step s e s' → J s')
    (hstep : ∀ s e s', J s → I s → T.Step s e s' → (I s' ↔ C s e))
    (hlost : ∀ s e s', ¬ I s → T.Step s e s' → ¬ I s') {s s' : σ}
    {es : List ε} (hs : J s) (hI : I s) (hrun : T.Run s es s') :
    I s' ↔ (T.restrict C).Run s es s' := by
  constructor
  · intro hs'
    induction hrun with
    | nil => exact Run.nil
    | snoc hm hlast ih =>
      rename_i m t e
      have hIm : I m := by
        by_contra hne
        exact hlost _ _ _ hne hlast hs'
      have hJm : J m := hm.preserves hJ hs
      exact (ih hIm).snoc ⟨hlast, (hstep _ _ _ hJm hIm hlast).mp hs'⟩
  · intro hres
    have hkeep : ∀ a e b, J a ∧ I a → (T.restrict C).Step a e b → J b ∧ I b := by
      rintro a e b ⟨ha, hIa⟩ hab
      exact ⟨hJ a e b ha hab.1, (hstep a e b ha hIa hab.1).mpr hab.2⟩
    exact (hres.preserves hkeep ⟨hs, hI⟩).2

/-- **The simulation rule.** If every start state has a counterpart and
every step from a related pair is matched by steps of the other system, then
every reachable state is related to a reachable one. -/
theorem Reachable.simulation {U : TransitionSystem τ ε} {R : σ → τ → Prop}
    (hinit : ∀ s, T.Init s → ∃ t, U.Init t ∧ R s t)
    (hstep : ∀ s t e s', R s t → T.Step s e s' → ∃ t', U.Step t e t' ∧ R s' t')
    {s : σ} (hs : T.Reachable s) : ∃ t, U.Reachable t ∧ R s t := by
  obtain ⟨s₀, es, h₀, hrun⟩ := hs
  induction hrun with
  | nil =>
    obtain ⟨t, ht, hR⟩ := hinit _ h₀
    exact ⟨t, Reachable.of_init ht, hR⟩
  | snoc _ hm ih =>
    obtain ⟨t, ht, hR⟩ := ih
    obtain ⟨t', hstep', hR'⟩ := hstep _ _ _ _ hR hm
    exact ⟨t', ht.step hstep', hR'⟩

end TransitionSystem
