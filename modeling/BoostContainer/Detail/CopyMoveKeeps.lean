import BoostContainer.Detail.CopyMoveAlgo

/-!
# What operations on elements leave alone

To construct, assign and destroy elements changes slots, and counts what was
done. Whatever else there is of a state stays as it was: the fields of the
object, and how many requests for memory were made. What holds of the single
operations holds of the algorithms, which are made of nothing else.
-/

namespace Slots

variable {κ : Type} {α : Type*} {δ : Type*}

/-- What is read of a state does not depend on its slots and on what is counted about them. -/
def Aside (f : State κ α → δ) : Prop :=
  ∀ s h o c d, f { s with heap := h, ops := o, constructed := c, destroyed := d } = f s

theorem aside_object : Aside (State.object : State κ α → κ) := fun _ _ _ _ _ => rfl

theorem aside_requests : Aside (State.requests : State κ α → ℕ) := fun _ _ _ _ _ => rfl

section Aside

variable {f : State κ α → δ} (hf : Aside f) {e : Env α} {src : Source α} {srcs : List (Source α)}
  {p n r l q back : ℕ} {t : Bool}

include hf

theorem Aside.construct : Prog.Keeps f (construct e p src) := by
  intro s
  unfold Slots.construct
  split
  · split
    · trivial
    · split
      · exact hf s _ _ s.constructed s.destroyed
      · exact hf s _ _ _ s.destroyed
  · trivial

theorem Aside.tick : Prog.Keeps f (tick e) := by
  intro s
  unfold Slots.tick
  split
  · exact hf s s.heap _ s.constructed s.destroyed
  · exact hf s s.heap _ s.constructed s.destroyed

theorem Aside.assign : Prog.Keeps f (assign e p src) := by
  refine Prog.Keeps.bind ?_ (fun _ s => ?_)
  · cases src with
    | temporary v => exact hf.tick
    | copyOf q => exact Prog.keeps_pure ()
    | value v => exact Prog.keeps_pure ()
    | slot q => exact Prog.keeps_pure ()
  · unfold assignFrom
    split
    · split
      · trivial
      · split
        · exact hf s s.heap _ s.constructed s.destroyed
        · exact hf s _ _ s.constructed s.destroyed
    · trivial

theorem Aside.destroy : Prog.Keeps f (destroy e p) := by
  intro s
  unfold Slots.destroy
  split
  · split
    · trivial
    · exact hf s _ s.ops s.constructed _
  · trivial

/-! ## Loops -/

theorem Aside.destroyN : Prog.Keeps f (destroyN e p n) := by
  induction n generalizing p with
  | zero => exact Prog.keeps_pure ()
  | succ n ih => exact hf.destroy.bind fun _ => ih

theorem Aside.uninitializedCopyLoop : Prog.Keeps f (uninitializedCopyLoop e back r srcs) := by
  induction srcs generalizing r with
  | nil => exact Prog.keeps_pure ()
  | cons src srcs ih => exact (hf.construct.onThrow hf.destroyN).bind fun _ => ih

theorem Aside.uninitializedCopy : Prog.Keeps f (uninitializedCopy e r srcs) :=
  hf.uninitializedCopyLoop

theorem Aside.copy : Prog.Keeps f (copy e r srcs) := by
  induction srcs generalizing r with
  | nil => exact Prog.keeps_pure ()
  | cons src srcs ih => exact hf.assign.bind fun _ => ih

theorem Aside.moveBackward : Prog.Keeps f (moveBackward e l r n) := by
  induction n generalizing l r with
  | zero => exact Prog.keeps_pure ()
  | succ n ih => exact hf.assign.bind fun _ => ih

/-! ## Algorithms -/

theorem Aside.scopedDestructorN : Prog.Keeps f (scopedDestructorN e p n) :=
  Prog.Keeps.ite (Prog.keeps_pure ()) hf.destroyN

theorem Aside.destroyMoved : Prog.Keeps f (destroyMoved e t p n) :=
  Prog.Keeps.ite hf.destroyN hf.destroyN

theorem Aside.scopedDestroyMoved : Prog.Keeps f (scopedDestroyMoved e t p n) :=
  Prog.Keeps.ite hf.destroyN hf.scopedDestructorN

theorem Aside.uninitializedMove : Prog.Keeps f (uninitializedMove e p n r) :=
  hf.uninitializedCopy

theorem Aside.moveForward : Prog.Keeps f (moveForward e p n r) := hf.copy

theorem Aside.moveForwardOverlapping : Prog.Keeps f (moveForwardOverlapping e p n r) :=
  Prog.Keeps.ite hf.moveForward (Prog.keeps_pure ())

theorem Aside.moveBackwardOverlapping : Prog.Keeps f (moveBackwardOverlapping e l n r) :=
  Prog.Keeps.ite hf.moveBackward (Prog.keeps_pure ())

theorem Aside.uninitializedMoveAndInsertAlloc :
    Prog.Keeps f (uninitializedMoveAndInsertAlloc e p q l r srcs) :=
  hf.uninitializedMove.bind fun _ =>
    (hf.uninitializedCopy.onThrow hf.scopedDestructorN).bind fun _ =>
      hf.uninitializedMove.onThrow hf.scopedDestructorN

theorem Aside.expandBackwardAndInsertSingle :
    Prog.Keeps f (expandBackwardAndInsertSingle e p q src) :=
  hf.construct.bind fun _ => (hf.moveForward.onThrow hf.scopedDestructorN).bind fun _ =>
    hf.copy.onThrow hf.scopedDestructorN

theorem Aside.expandBackwardAndInsertRange :
    Prog.Keeps f (expandBackwardAndInsertRange e p q srcs) := by
  refine Prog.Keeps.ite ?_ ?_
  · exact hf.uninitializedMove.bind fun _ =>
      (hf.moveForward.onThrow hf.scopedDestructorN).bind fun _ =>
        hf.copy.onThrow hf.scopedDestructorN
  · exact hf.uninitializedMove.bind fun _ =>
      (hf.uninitializedCopy.onThrow hf.scopedDestructorN).bind fun _ =>
        hf.copy.onThrow hf.scopedDestructorN

theorem Aside.expandForwardAndInsertSingle :
    Prog.Keeps f (expandForwardAndInsertSingle e p q src) :=
  hf.construct.bind fun _ => (hf.moveBackward.onThrow hf.scopedDestructorN).bind fun _ =>
    hf.copy.onThrow hf.scopedDestructorN

theorem Aside.expandForwardAndInsertRange :
    Prog.Keeps f (expandForwardAndInsertRange e p q srcs) := by
  refine Prog.Keeps.ite ?_ ?_
  · exact hf.uninitializedMove.bind fun _ =>
      (hf.moveBackward.onThrow hf.scopedDestructorN).bind fun _ =>
        hf.copy.onThrow hf.scopedDestructorN
  · exact hf.uninitializedMove.bind fun _ =>
      (hf.copy.onThrow hf.scopedDestructorN).bind fun _ =>
        hf.uninitializedCopy.onThrow hf.scopedDestructorN

/-- Two guards, one after the other. -/
theorem Aside.guards {p' n' : ℕ} : Prog.Keeps f (do
    Slots.scopedDestructorN e p n
    Slots.scopedDestructorN e p' n' : Prog (State κ α) Unit) :=
  hf.scopedDestructorN.bind fun _ => hf.scopedDestructorN

theorem Aside.expandMoveBackward : Prog.Keeps f (expandMoveBackward e t p n r q srcs) := by
  refine Prog.Keeps.ite ?_ ?_
  · refine (hf.uninitializedMove.onThrow hf.scopedDestructorN).bind fun _ => ?_
    refine (hf.uninitializedCopy.onThrow hf.guards).bind fun _ => ?_
    refine Prog.Keeps.ite ?_ (Prog.Keeps.ite ?_ ?_)
    · refine Prog.Keeps.bind (Prog.Keeps.ite ?_ (Prog.keeps_pure ())) fun _ =>
        hf.scopedDestroyMoved
      exact hf.uninitializedMove.onThrow hf.guards
    · refine (hf.uninitializedMove.onThrow hf.guards).bind fun _ => ?_
      exact (hf.moveForwardOverlapping.onThrow hf.scopedDestructorN).bind fun _ =>
        hf.destroyMoved
    · exact hf.uninitializedMove.onThrow hf.guards
  · refine Prog.Keeps.bind (Prog.Keeps.ite ?_ ?_) fun _ => Prog.Keeps.ite ?_ (Prog.keeps_pure ())
    · refine (hf.uninitializedMove.onThrow hf.scopedDestructorN).bind fun _ => ?_
      refine (hf.moveForward.onThrow hf.scopedDestructorN).bind fun _ => ?_
      refine (hf.copy.onThrow hf.scopedDestructorN).bind fun _ => ?_
      refine Prog.Keeps.ite ?_ (Prog.keeps_pure ())
      exact (hf.moveForwardOverlapping.onThrow hf.scopedDestructorN).bind fun _ =>
        hf.destroyMoved
    · refine (hf.uninitializedMove.onThrow hf.scopedDestructorN).bind fun _ => ?_
      refine (hf.uninitializedCopy.onThrow hf.guards).bind fun _ => ?_
      refine Prog.Keeps.ite (hf.copy.onThrow hf.scopedDestructorN) ?_
      refine (hf.copy.onThrow hf.scopedDestructorN).bind fun _ => ?_
      exact (hf.moveForwardOverlapping.onThrow hf.scopedDestructorN).bind fun _ =>
        hf.destroyMoved
    · refine Prog.Keeps.ite ?_ ?_
      · exact (hf.uninitializedMove.onThrow hf.scopedDestructorN).bind fun _ =>
          (hf.moveBackwardOverlapping.onThrow hf.scopedDestructorN).bind fun _ =>
            hf.copy.onThrow hf.scopedDestructorN
      · exact (hf.uninitializedMove.onThrow hf.scopedDestructorN).bind fun _ =>
          (hf.copy.onThrow hf.guards).bind fun _ => hf.uninitializedCopy.onThrow hf.guards

theorem Aside.expandMoveForward : Prog.Keeps f (expandMoveForward e t p n r q srcs) := by
  refine Prog.Keeps.ite ?_ (Prog.Keeps.ite ?_ ?_)
  · refine (hf.uninitializedCopy.onThrow hf.scopedDestructorN).bind fun _ => ?_
    refine (hf.uninitializedMove.onThrow hf.guards).bind fun _ => ?_
    refine Prog.Keeps.ite ?_ ?_
    · exact (hf.uninitializedMove.onThrow hf.guards).bind fun _ => hf.scopedDestroyMoved
    · exact (hf.uninitializedMove.onThrow hf.guards).bind fun _ =>
        (hf.moveBackwardOverlapping.onThrow hf.scopedDestructorN).bind fun _ => hf.destroyMoved
  · refine (hf.uninitializedMove.onThrow hf.scopedDestructorN).bind fun _ => ?_
    refine (hf.copy.onThrow hf.guards).bind fun _ => ?_
    refine (hf.uninitializedCopy.onThrow hf.guards).bind fun _ => ?_
    exact (hf.moveBackwardOverlapping.onThrow hf.scopedDestructorN).bind fun _ => hf.destroyMoved
  · refine (hf.uninitializedMove.onThrow hf.scopedDestructorN).bind fun _ => ?_
    refine (hf.moveBackwardOverlapping.onThrow hf.scopedDestructorN).bind fun _ => ?_
    refine (hf.copy.onThrow hf.scopedDestructorN).bind fun _ => ?_
    exact (hf.moveBackwardOverlapping.onThrow hf.scopedDestructorN).bind fun _ => hf.destroyMoved

theorem Aside.expandBackwardForwardAndInsertAlloc :
    Prog.Keeps f (expandBackwardForwardAndInsertAlloc e t p n r q srcs) :=
  Prog.Keeps.ite hf.expandMoveBackward hf.expandMoveForward

end Aside

end Slots
