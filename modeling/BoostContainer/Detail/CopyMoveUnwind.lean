import BoostContainer.Detail.CopyMoveInsert

/-!
# Insertion that throws

When elements are shifted in a buffer, a caller gives up what it knows of them
first: whatever the algorithm leaves when it throws, nobody destroys it later.
So the guards have to destroy every element there is at that time, those that
were not moved yet and those that were constructed already, and no raw slot.

They do, except in one part of one algorithm. Towards the back, if the elements
after the position do not fit behind the old end, the guard of the old elements
should grow at its end, by the slots that were filled there, and grows at its
start instead. What is thrown from there on leaves elements that nobody knows.
-/

namespace Slots

variable {κ : Type} {α : Type*} {e : Env α} {trivialDctrAfterMove : Bool}
  {s₀ s : State κ α} {S₀ own live : Set ℕ} {k : κ} {E : State κ α → Prop}
  {os ns sz eb n f p q r m l rl : ℕ} {srcs : List (Source α)}

/-! ## Guards -/

/-- **A guard that holds all there is.** -/
theorem scopedDestructorN_empties (h : e.trivialDestructor = false → live = Set.Ico p (p + n)) :
    Prog.Meets (Owns e.trivialDestructor s₀ S₀ k own live) (scopedDestructorN e p n)
      (fun _ => Owns e.trivialDestructor s₀ S₀ k own ∅) (fun _ => False) := by
  unfold scopedDestructorN
  refine Prog.Meets.ite (fun ht => ?_) (fun ht => ?_)
  · exact Prog.meets_pure (fun s hs => hs.forget (Set.empty_subset _)
      (fun hf => Bool.noConfusion (hf.symm.trans ht)))
  · rw [h (by simpa using ht)]
    exact (destroyN_meets subset_rfl).post (fun _ s hs => hs.congr rfl Set.sdiff_self)

/-- **Two guards that hold all there is.** -/
theorem scopedDestructors_empty
    (h : e.trivialDestructor = false → live = Set.Ico p (p + n) ∪ Set.Ico q (q + m))
    (hd : p + n ≤ q ∨ q + m ≤ p) :
    Prog.Meets (Owns e.trivialDestructor s₀ S₀ k own live)
      (do
        scopedDestructorN e p n
        scopedDestructorN e q m)
      (fun _ => Owns e.trivialDestructor s₀ S₀ k own ∅) (fun _ => False) := by
  by_cases ht : e.trivialDestructor = true
  · have hpure : ∀ p n, (scopedDestructorN e p n : Prog (State κ α) Unit) = pure () :=
      fun _ _ => if_pos ht
    rw [hpure, hpure]
    exact Prog.meets_pure (fun s hs => hs.forget (Set.empty_subset _)
      (fun hf => Bool.noConfusion (hf.symm.trans ht)))
  · have hf : e.trivialDestructor = false := by simpa using ht
    have hrest : (Set.Ico p (p + n) ∪ Set.Ico q (q + m)) \ Set.Ico p (p + n)
        = Set.Ico q (q + m) := by
      ext x
      simp only [Set.mem_sdiff, Set.mem_union, Set.mem_Ico]
      omega
    have hfirst : (scopedDestructorN e p n : Prog (State κ α) Unit) = destroyN e p n := if_neg ht
    rw [hfirst, h hf]
    refine Prog.Meets.bind (destroyN_meets Set.subset_union_left) (fun _ => ?_)
    rw [hrest]
    exact scopedDestructorN_empties (fun _ => rfl)

/-! ## What is owned after a step -/

theorem uninitializedMove_owns (hin : Set.Ico r (r + n) ⊆ own)
    (hd : Disjoint live (Set.Ico r (r + n))) (hf : Set.Ico f (f + n) ⊆ live) :
    Prog.Meets (Owns e.trivialDestructor s₀ S₀ k own live) (uninitializedMove e f n r)
      (fun _ => Owns e.trivialDestructor s₀ S₀ k own (live ∪ Set.Ico r (r + n)))
      (Owns e.trivialDestructor s₀ S₀ k own live) := by
  have hlen : (slots f n : List (Source α)).length = n := length_slots f n
  have hm := @uninitializedCopy_meets κ α e s₀ S₀ own live k r (slots f n)
    (hlen.symm ▸ hin) (hlen.symm ▸ hd) (readable_slots hf)
  rw [hlen] at hm
  exact hm

theorem moveForward_owns (hr : Set.Ico r (r + n) ⊆ live) (hf : Set.Ico f (f + n) ⊆ live) :
    Prog.Meets (Owns e.trivialDestructor s₀ S₀ k own live) (moveForward e f n r)
      (fun _ => Owns e.trivialDestructor s₀ S₀ k own live)
      (Owns e.trivialDestructor s₀ S₀ k own live) := by
  have hlen : (slots f n : List (Source α)).length = n := length_slots f n
  exact copy_meets (hlen.symm ▸ hr) (readable_slots hf)

theorem moveForwardOverlapping_owns (hr : Set.Ico r (r + n) ⊆ live)
    (hf : Set.Ico f (f + n) ⊆ live) :
    Prog.Meets (Owns e.trivialDestructor s₀ S₀ k own live) (moveForwardOverlapping e f n r)
      (fun _ => Owns e.trivialDestructor s₀ S₀ k own live)
      (Owns e.trivialDestructor s₀ S₀ k own live) :=
  Prog.Meets.ite (fun _ => moveForward_owns hr hf) (fun _ => Prog.meets_pure (fun _ => id))

theorem moveBackwardOverlapping_owns (hn : n ≤ l) (hn' : n ≤ rl) (hl : Set.Ico (l - n) l ⊆ live)
    (hrl : Set.Ico (rl - n) rl ⊆ live) :
    Prog.Meets (Owns e.trivialDestructor s₀ S₀ k own live) (moveBackwardOverlapping e l n rl)
      (fun _ => Owns e.trivialDestructor s₀ S₀ k own live)
      (Owns e.trivialDestructor s₀ S₀ k own live) :=
  Prog.Meets.ite (fun _ => moveBackward_meets hn hn' hl hrl)
    (fun _ => Prog.meets_pure (fun _ => id))

theorem destroyMoved_owns (hl : Set.Ico p (p + n) ⊆ live) :
    Prog.Meets (Owns e.trivialDestructor s₀ S₀ k own live)
      (destroyMoved e trivialDctrAfterMove p n)
      (fun _ => Owns e.trivialDestructor s₀ S₀ k own (live \ Set.Ico p (p + n))) E := by
  unfold destroyMoved abandonN
  rw [ite_self]
  exact (destroyN_meets hl).no_throw

theorem scopedDestroyMoved_owns (hl : Set.Ico p (p + n) ⊆ live) :
    Prog.Meets (Owns e.trivialDestructor s₀ S₀ k own live)
      (scopedDestroyMoved e trivialDctrAfterMove p n)
      (fun _ => Owns e.trivialDestructor s₀ S₀ k own (live \ Set.Ico p (p + n))) E := by
  unfold scopedDestroyMoved scopedDestructorN abandonN
  refine Prog.Meets.ite (fun _ => (destroyN_meets hl).no_throw) (fun _ => Prog.Meets.ite
    (fun ht => Prog.meets_pure (fun s hs => hs.forget Set.sdiff_subset
      (fun hf => Bool.noConfusion (hf.symm.trans ht))))
    (fun _ => (destroyN_meets hl).no_throw))

/-- **A guard that holds some of what there is.** -/
theorem scopedDestructorN_owns (hl : Set.Ico p (p + n) ⊆ live) :
    Prog.Meets (Owns e.trivialDestructor s₀ S₀ k own live) (scopedDestructorN e p n)
      (fun _ => Owns e.trivialDestructor s₀ S₀ k own (live \ Set.Ico p (p + n)))
      (fun _ => False) := by
  unfold scopedDestructorN
  exact Prog.Meets.ite (fun ht => Prog.meets_pure (fun s hs => hs.forget Set.sdiff_subset
    (fun hf => Bool.noConfusion (hf.symm.trans ht)))) (fun _ => destroyN_meets hl)

/-! ## In a new buffer -/

/-- **The new buffer is left without elements**, and the old elements live. -/
theorem uninitializedMoveAndInsertAlloc_unwinds (heb : eb ≤ sz)
    (hnew : Set.Ico ns (ns + (sz + srcs.length)) ⊆ own)
    (hd : Disjoint (Set.Ico os (os + sz)) (Set.Ico ns (ns + (sz + srcs.length))))
    (hr : ∀ src ∈ srcs, src.Readable (Set.Ico os (os + sz))) :
    Prog.Meets (Owns e.trivialDestructor s₀ S₀ k own (Set.Ico os (os + sz)))
      (uninitializedMoveAndInsertAlloc e os (os + eb) (os + sz) ns srcs)
      (fun _ => Owns e.trivialDestructor s₀ S₀ k own
        (Set.Ico os (os + sz) ∪ Set.Ico ns (ns + (sz + srcs.length))))
      (Owns e.trivialDestructor s₀ S₀ k own (Set.Ico os (os + sz))) := by
  have hcount : os + sz - (os + eb) = sz - eb := by omega
  have hpart : ∀ {a b : ℕ}, ns ≤ a → b ≤ ns + (sz + srcs.length) → ∀ x ∈ Set.Ico a b,
      x ∈ own ∧ x ∉ Set.Ico os (os + sz) := by
    intro a b ha hb x hx
    have hmem : x ∈ Set.Ico ns (ns + (sz + srcs.length)) := ⟨ha.trans hx.1, hx.2.trans_le hb⟩
    exact ⟨hnew hmem, Set.disjoint_right.mp hd hmem⟩
  -- what was constructed so far is destroyed
  have hguard : ∀ {j : ℕ}, j ≤ sz + srcs.length →
      Prog.Meets (Owns e.trivialDestructor s₀ S₀ k own
        (Set.Ico os (os + sz) ∪ Set.Ico ns (ns + j)))
        (scopedDestructorN e ns (ns + j - ns))
        (fun _ => Owns e.trivialDestructor s₀ S₀ k own (Set.Ico os (os + sz)))
        (fun _ => False) := by
    intro j hj
    rw [Nat.add_sub_cancel_left]
    refine (scopedDestructorN_owns Set.subset_union_right).post (fun _ s hs => hs.congr rfl ?_)
    rw [Set.union_sdiff_right]
    exact (hd.mono_right (Set.Ico_subset_Ico le_rfl (by omega))).sdiff_eq_left
  have hfill : Set.Ico os (os + sz) ∪ Set.Ico ns (ns + eb)
      ∪ Set.Ico (ns + eb) (ns + eb + srcs.length)
      = Set.Ico os (os + sz) ∪ Set.Ico ns (ns + (eb + srcs.length)) := by
    ext x
    simp only [Set.mem_union, Set.mem_Ico]
    omega
  unfold uninitializedMoveAndInsertAlloc
  dsimp only
  rw [Nat.add_sub_cancel_left, hcount]
  refine Prog.Meets.bind (uninitializedMove_owns (fun x hx => (hpart le_rfl (by omega) x hx).1)
    (Set.disjoint_right.mpr (fun x hx => (hpart le_rfl (by omega) x hx).2))
    (Set.Ico_subset_Ico le_rfl (by omega))) (fun _ => ?_)
  refine Prog.Meets.bind (Prog.Meets.onThrow (uninitializedCopy_meets
    (fun x hx => (hpart (by omega) (by omega) x hx).1)
    (Set.disjoint_right.mpr (fun x hx hx' => ?_))
    (fun src hsrc => (hr src hsrc).mono Set.subset_union_left)) (hguard (by omega))) (fun _ => ?_)
  · rcases hx' with hx' | hx'
    · exact (hpart (by omega) (by omega) x hx).2 hx'
    · rw [Set.mem_Ico] at hx hx'
      omega
  have hdone : ns + eb + srcs.length = ns + (eb + srcs.length) := Nat.add_assoc _ _ _
  rw [hfill, hdone]
  refine Prog.Meets.onThrow ((uninitializedMove_owns
    (fun x hx => (hpart (by omega) (by omega) x hx).1)
    (Set.disjoint_right.mpr (fun x hx hx' => ?_)) (fun x hx => ?_)).post
      (fun _ s hs => hs.congr rfl ?_)) (hguard (by omega))
  · rcases hx' with hx' | hx'
    · exact (hpart (by omega) (by omega) x hx).2 hx'
    · rw [Set.mem_Ico] at hx hx'
      omega
  · simp only [Set.mem_union, Set.mem_Ico] at hx ⊢
    omega
  · ext x
    simp only [Set.mem_union, Set.mem_Ico]
    omega

/-! ## Towards the front -/

section MoveBackward

variable (hns : ns < os) (heb : eb ≤ sz) (hr : ∀ src ∈ srcs, src.Readable (Set.Ico os (os + sz)))

include hns heb hr

/-- The new place of the elements before the position and of the new ones is before the old
one. -/
theorem expandMoveBackward_apart_unwinds (hold : Set.Ico ns (os + sz) ⊆ own)
    (h : eb + srcs.length ≤ os - ns) :
    Prog.Meets (Owns e.trivialDestructor s₀ S₀ k own (Set.Ico os (os + sz)))
      (expandMoveBackward e trivialDctrAfterMove os sz ns (os + eb) srcs)
      (fun _ => Owns e.trivialDestructor s₀ S₀ k own (Set.Ico ns (ns + (sz + srcs.length))))
      (Owns e.trivialDestructor s₀ S₀ k own ∅) := by
  have hafter : os + sz - (os + eb) = sz - eb := by omega
  have hold₁ : Set.Ico ns (ns + eb) ⊆ own := (Set.Ico_subset_Ico le_rfl (by omega)).trans hold
  unfold expandMoveBackward
  dsimp only
  rw [Nat.add_sub_cancel_left, if_pos h, hafter]
  refine Prog.Meets.bind (Prog.Meets.onThrow (uninitializedMove_owns hold₁
    (Set.disjoint_left.mpr (fun x hx hx' => ?_)) (Set.Ico_subset_Ico le_rfl (by omega)))
    (scopedDestructorN_empties (fun _ => rfl))) (fun _ => ?_)
  · rw [Set.mem_Ico] at hx hx'
    omega
  refine Prog.Meets.bind (Prog.Meets.onThrow (uninitializedCopy_meets
    ((Set.Ico_subset_Ico (by omega) (by omega)).trans hold)
    (Set.disjoint_left.mpr (fun x hx hx' => ?_))
    (fun src hsrc => (hr src hsrc).mono Set.subset_union_left))
    (scopedDestructors_empty (fun _ => Set.union_comm _ _) (by omega))) (fun _ => ?_)
  · simp only [Set.mem_union, Set.mem_Ico] at hx hx'
    omega
  have hlive : Set.Ico os (os + sz) ∪ Set.Ico ns (ns + eb)
      ∪ Set.Ico (ns + eb) (ns + eb + srcs.length)
      = Set.Ico ns (ns + (eb + srcs.length)) ∪ Set.Ico os (os + sz) := by
    ext x
    simp only [Set.mem_union, Set.mem_Ico]
    omega
  rw [hlive]
  have hguard : Prog.Meets (Owns e.trivialDestructor s₀ S₀ k own
      (Set.Ico ns (ns + (eb + srcs.length)) ∪ Set.Ico os (os + sz)))
      (do
        scopedDestructorN e ns (eb + srcs.length)
        scopedDestructorN e os sz)
      (fun _ => Owns e.trivialDestructor s₀ S₀ k own ∅) (fun _ => False) :=
    scopedDestructors_empty (fun _ => rfl) (by omega)
  refine Prog.Meets.ite (fun hfar => ?_) (fun hnear => ?_)
  · refine Prog.Meets.bind (R := fun _ => Owns e.trivialDestructor s₀ S₀ k own
      (Set.Ico ns (ns + (sz + srcs.length)) ∪ Set.Ico os (os + sz)))
      (Prog.Meets.ite (fun _ => ?_) (fun heq => Prog.meets_pure (fun s hs => ?_))) (fun _ => ?_)
    · refine Prog.Meets.onThrow ((uninitializedMove_owns
        ((Set.Ico_subset_Ico (by omega) (by omega)).trans hold)
        (Set.disjoint_left.mpr (fun x hx hx' => ?_)) (fun x hx => ?_)).post
          (fun _ s hs => hs.congr rfl ?_)) hguard
      · simp only [Set.mem_union, Set.mem_Ico] at hx hx'
        omega
      · simp only [Set.mem_union, Set.mem_Ico] at hx ⊢
        omega
      · ext x
        simp only [Set.mem_union, Set.mem_Ico]
        omega
    · rwa [not_not.mp heq] at hs
    · refine (scopedDestroyMoved_owns Set.subset_union_right).post
        (fun _ s hs => hs.congr rfl ?_)
      ext x
      simp only [Set.mem_union, Set.mem_sdiff, Set.mem_Ico]
      omega
  refine Prog.Meets.ite (fun ht => ?_) (fun ht => ?_)
  · have hall : os - (os - ns) = ns := by omega
    refine Prog.Meets.bind (Prog.Meets.onThrow (uninitializedMove_owns
      ((Set.Ico_subset_Ico (by omega) (by omega)).trans hold)
      (Set.disjoint_left.mpr (fun x hx hx' => ?_)) (fun x hx => ?_)) hguard) (fun _ => ?_)
    · simp only [Set.mem_union, Set.mem_Ico] at hx hx'
      omega
    · simp only [Set.mem_union, Set.mem_Ico] at hx ⊢
      omega
    have hlive' : Set.Ico ns (ns + (eb + srcs.length)) ∪ Set.Ico os (os + sz)
        ∪ Set.Ico (ns + (eb + srcs.length))
          (ns + (eb + srcs.length) + (os - ns - (eb + srcs.length)))
        = Set.Ico ns (ns + (sz + (os - ns))) := by
      ext x
      simp only [Set.mem_union, Set.mem_Ico]
      omega
    rw [hlive', hall]
    refine Prog.Meets.bind (Prog.Meets.onThrow (moveForwardOverlapping_owns
      (Set.Ico_subset_Ico (by omega) (by omega)) (Set.Ico_subset_Ico (by omega) (by omega)))
      (scopedDestructorN_empties (fun _ => rfl))) (fun _ => ?_)
    refine (destroyMoved_owns (Set.Ico_subset_Ico (by omega) (by omega))).post
      (fun _ s hs => hs.congr rfl ?_)
    ext x
    simp only [Set.mem_sdiff, Set.mem_Ico]
    omega
  · -- elements without destructors are constructed over others
    have htriv : e.trivialDestructor = true := by simpa using ht
    have hlen : (slots (os + eb) (sz - eb) : List (Source α)).length = sz - eb :=
      length_slots _ _
    have hforget : ∀ {t : State κ α} {live live' : Set ℕ}, live' ⊆ live →
        Owns e.trivialDestructor s₀ S₀ k own live t →
        Owns e.trivialDestructor s₀ S₀ k own live' t :=
      fun hsub hs => hs.forget hsub (fun hf => Bool.noConfusion (hf.symm.trans htriv))
    refine Prog.Meets.onThrow ((uninitializedCopy_meets_of_trivial htriv ?_
      (readable_slots (fun x hx => ?_))).conseq (fun _ => id) (fun _ s hs => hforget ?_ hs)
        (fun s ⟨_, _, hs⟩ => hforget (Set.empty_subset _) hs))
        (scopedDestructors_empty (fun hf => Bool.noConfusion (hf.symm.trans htriv)) (by omega))
    · rw [hlen]
      exact (Set.Ico_subset_Ico (by omega) (by omega)).trans hold
    · simp only [Set.mem_union, Set.mem_Ico] at hx ⊢
      omega
    · rw [hlen]
      intro x hx
      simp only [Set.mem_union, Set.mem_Ico] at hx ⊢
      omega

/-- The raw slots before the elements are filled, and the elements there are assigned to. -/
theorem expandMoveBackward_near_unwinds
    (hold : Set.Ico ns (max (os + sz) (ns + (sz + srcs.length))) ⊆ own)
    (h : os - ns < eb + srcs.length) :
    Prog.Meets (Owns e.trivialDestructor s₀ S₀ k own (Set.Ico os (os + sz)))
      (expandMoveBackward e trivialDctrAfterMove os sz ns (os + eb) srcs)
      (fun _ => Owns e.trivialDestructor s₀ S₀ k own (Set.Ico ns (ns + (sz + srcs.length))))
      (Owns e.trivialDestructor s₀ S₀ k own ∅) := by
  have hafter : os + sz - (os + eb) = sz - eb := by omega
  have hall : Prog.Meets (Owns e.trivialDestructor s₀ S₀ k own (Set.Ico ns (os + sz)))
      (scopedDestructorN e (os - (os - ns)) (sz + (os - ns)))
      (fun _ => Owns e.trivialDestructor s₀ S₀ k own ∅) (fun _ => False) := by
    have hstart : os - (os - ns) = ns := by omega
    have hend : ns + (sz + (os - ns)) = os + sz := by omega
    refine scopedDestructorN_empties (fun _ => ?_)
    rw [hstart, hend]
  have hread : ∀ src ∈ srcs, src.Readable (Set.Ico ns (os + sz)) :=
    fun src hsrc => (hr src hsrc).mono (Set.Ico_subset_Ico hns.le le_rfl)
  have hcopy : ∀ {r : ℕ} {new : List (Source α)}, new.Sublist srcs → os ≤ r →
      r + new.length ≤ os + sz →
      Prog.Meets (Owns e.trivialDestructor s₀ S₀ k own (Set.Ico ns (os + sz)))
        ((copy e r new).onThrow (scopedDestructorN e (os - (os - ns)) (sz + (os - ns))))
        (fun _ => Owns e.trivialDestructor s₀ S₀ k own (Set.Ico ns (os + sz)))
        (Owns e.trivialDestructor s₀ S₀ k own ∅) :=
    fun hnew hle hfit => Prog.Meets.onThrow (copy_meets (Set.Ico_subset_Ico (by omega) hfit)
      (fun src hsrc => hread src (hnew.subset hsrc))) hall
  -- what follows where all new elements found a slot
  have hrest : ∀ {f : ℕ}, f = ns + eb + srcs.length → srcs.length ≤ os - ns →
      Prog.Meets (Owns e.trivialDestructor s₀ S₀ k own (Set.Ico ns (os + sz)))
        (do
          (moveForwardOverlapping e (os + eb) (sz - eb) f).onThrow
            (scopedDestructorN e (os - (os - ns)) (sz + (os - ns)))
          destroyMoved e trivialDctrAfterMove (f + (sz - eb)) (os + sz - (f + (sz - eb))))
        (fun _ => Owns e.trivialDestructor s₀ S₀ k own (Set.Ico ns (ns + (sz + srcs.length))))
        (Owns e.trivialDestructor s₀ S₀ k own ∅) := by
    intro f hf hn
    refine Prog.Meets.bind (Prog.Meets.onThrow (moveForwardOverlapping_owns
      (Set.Ico_subset_Ico (by omega) (by omega)) (Set.Ico_subset_Ico (by omega) (by omega)))
      hall) (fun _ => ?_)
    refine (destroyMoved_owns (Set.Ico_subset_Ico (by omega) (by omega))).post
      (fun _ s hs => hs.congr rfl ?_)
    ext x
    simp only [Set.mem_sdiff, Set.mem_Ico]
    omega
  unfold expandMoveBackward
  dsimp only
  rw [Nat.add_sub_cancel_left, if_neg (by omega), hafter]
  refine Prog.Meets.bind (R := fun _ => Owns e.trivialDestructor s₀ S₀ k own
    (if os - ns < srcs.length then Set.Ico ns (os + sz)
      else Set.Ico ns (ns + (sz + srcs.length))))
    (Prog.Meets.ite (fun hle => ?_) (fun hgt => ?_)) (fun _ => ?_)
  · have htake : ∀ {m : ℕ}, (srcs.take m).length ≤ m := fun {m} => List.length_take_le m srcs
    have hfirst : Set.Ico os (os + sz) ∪ Set.Ico ns (ns + (os - ns)) = Set.Ico ns (os + sz) := by
      ext x
      simp only [Set.mem_union, Set.mem_Ico]
      omega
    refine Prog.Meets.bind (Prog.Meets.onThrow (uninitializedMove_owns
      ((Set.Ico_subset_Ico le_rfl (by omega)).trans hold)
      (Set.disjoint_left.mpr (fun x hx hx' => ?_)) (Set.Ico_subset_Ico le_rfl (by omega)))
      (scopedDestructorN_empties (fun _ => rfl))) (fun _ => ?_)
    · rw [Set.mem_Ico] at hx hx'
      omega
    rw [hfirst]
    refine Prog.Meets.bind (Prog.Meets.onThrow (moveForward_owns
      (Set.Ico_subset_Ico (by omega) (by omega)) (Set.Ico_subset_Ico (by omega) (by omega)))
      hall) (fun _ => ?_)
    by_cases hn : os - ns < srcs.length
    · have hlen := @htake (os - ns)
      simp only [if_pos hn, if_neg (not_not_intro hn)]
      exact Prog.Meets.bind (hcopy (List.take_sublist _ _) (by omega) (by omega))
        (fun _ => Prog.meets_pure (fun _ => id))
    · have hlen := @htake srcs.length
      simp only [if_neg hn, if_pos hn]
      exact Prog.Meets.bind (hcopy (List.take_sublist _ _) (by omega) (by omega))
        (fun _ => hrest (by omega) (by omega))
  · have hfirst : Set.Ico os (os + sz) ∪ Set.Ico ns (ns + eb)
        ∪ Set.Ico (ns + eb) (ns + eb + (os - ns - eb)) = Set.Ico ns (os + sz) := by
      ext x
      simp only [Set.mem_union, Set.mem_Ico]
      omega
    have htake : (srcs.take (os - ns - eb)).length = os - ns - eb :=
      List.length_take_of_le (by omega)
    have hfill := @uninitializedCopy_meets κ α e s₀ S₀ own
      (Set.Ico os (os + sz) ∪ Set.Ico ns (ns + eb)) k (ns + eb) (srcs.take (os - ns - eb))
    rw [htake, hfirst] at hfill
    refine Prog.Meets.bind (Prog.Meets.onThrow (uninitializedMove_owns
      ((Set.Ico_subset_Ico le_rfl (by omega)).trans hold)
      (Set.disjoint_left.mpr (fun x hx hx' => ?_)) (Set.Ico_subset_Ico le_rfl (by omega)))
      (scopedDestructorN_empties (fun _ => rfl))) (fun _ => ?_)
    · rw [Set.mem_Ico] at hx hx'
      omega
    refine Prog.Meets.bind (Prog.Meets.onThrow (hfill
      ((Set.Ico_subset_Ico (by omega) (by omega)).trans hold)
      (Set.disjoint_left.mpr (fun x hx hx' => ?_))
      (fun src hsrc => (hr src (List.mem_of_mem_take hsrc)).mono Set.subset_union_left))
      (scopedDestructors_empty (fun _ => Set.union_comm _ _) (by omega))) (fun _ => ?_)
    · simp only [Set.mem_union, Set.mem_Ico] at hx hx'
      omega
    have hsub : ∀ {m : ℕ}, ((srcs.drop (os - ns - eb)).take m).Sublist srcs :=
      (List.take_sublist _ _).trans (List.drop_sublist _ _)
    have hlen : ∀ {m : ℕ}, ((srcs.drop (os - ns - eb)).take m).length ≤ m :=
      fun {m} => List.length_take_le m _
    by_cases hn : os - ns < srcs.length
    · have hlen' := @hlen eb
      simp only [if_pos hn]
      exact hcopy hsub le_rfl (by omega)
    · have hlen' := @hlen (srcs.length - (os - ns - eb))
      simp only [if_neg hn]
      exact Prog.Meets.bind (hcopy hsub le_rfl (by omega))
        (fun _ => hrest (by omega) (by omega))
  · refine Prog.Meets.ite (fun hn => ?_) (fun hn => ?_)
    · have hrest : (srcs.drop (os - ns)).length = srcs.length - (os - ns) := List.length_drop
      have hreadAfter : ∀ src ∈ srcs.drop (os - ns), src.Readable (Set.Ico ns (os + sz)) :=
        fun src hsrc => hread src (List.mem_of_mem_drop hsrc)
      rw [if_pos hn]
      refine Prog.Meets.ite (fun hle => ?_) (fun hgt => ?_)
      · have hmoved : Set.Ico ns (os + sz)
            ∪ Set.Ico (os + sz) (os + sz + (srcs.length - (os - ns)))
            = Set.Ico ns (ns + (sz + srcs.length)) := by
          ext x
          simp only [Set.mem_union, Set.mem_Ico]
          omega
        have hstart : os - (os - ns) = ns := by omega
        have hend : ns + (sz + (os - ns) + (srcs.length - (os - ns)))
            = ns + (sz + srcs.length) := by omega
        have htake : ((srcs.drop (os - ns)).take (srcs.length - (os - ns))).length
            ≤ srcs.length - (os - ns) := List.length_take_le _ _
        have hafterAll : Prog.Meets (Owns e.trivialDestructor s₀ S₀ k own
            (Set.Ico ns (ns + (sz + srcs.length))))
            (scopedDestructorN e (os - (os - ns)) (sz + (os - ns) + (srcs.length - (os - ns))))
            (fun _ => Owns e.trivialDestructor s₀ S₀ k own ∅) (fun _ => False) := by
          refine scopedDestructorN_empties (fun _ => ?_)
          rw [hstart, hend]
        refine Prog.Meets.bind (Prog.Meets.onThrow (uninitializedMove_owns
          ((Set.Ico_subset_Ico (by omega) (by omega)).trans hold)
          (Set.disjoint_left.mpr (fun x hx hx' => ?_)) (Set.Ico_subset_Ico (by omega) (by omega)))
          hall) (fun _ => ?_)
        · rw [Set.mem_Ico] at hx hx'
          omega
        rw [hmoved]
        refine Prog.Meets.bind (Prog.Meets.onThrow (moveBackwardOverlapping_owns (by omega)
          (by omega) (Set.Ico_subset_Ico (by omega) (by omega))
          (Set.Ico_subset_Ico (by omega) (by omega))) hafterAll) (fun _ => ?_)
        exact Prog.Meets.onThrow (copy_meets (Set.Ico_subset_Ico (by omega) (by omega))
          (fun src hsrc => (hreadAfter src (List.mem_of_mem_take hsrc)).mono
            (Set.Ico_subset_Ico le_rfl (by omega)))) hafterAll
      · obtain ⟨mid, hmid⟩ : ∃ mid, mid = os + sz + (srcs.length - (os - ns) - (sz - eb)) :=
          ⟨_, rfl⟩
        have hboth : Prog.Meets (Owns e.trivialDestructor s₀ S₀ k own
            (Set.Ico ns (os + sz) ∪ Set.Ico mid (mid + (sz - eb))))
            (do
              scopedDestructorN e mid (sz - eb)
              scopedDestructorN e (os - (os - ns)) (sz + (os - ns)))
            (fun _ => Owns e.trivialDestructor s₀ S₀ k own ∅) (fun _ => False) := by
          have hstart : os - (os - ns) = ns := by omega
          have hend : ns + (sz + (os - ns)) = os + sz := by omega
          refine scopedDestructors_empty (fun _ => ?_) (by omega)
          rw [hstart, hend, Set.union_comm]
        have htake : (((srcs.drop (os - ns)).drop (sz - eb)).take
            (srcs.length - (os - ns) - (sz - eb))).length
            = srcs.length - (os - ns) - (sz - eb) :=
          List.length_take_of_le (by rw [List.length_drop, hrest])
        have hlen : ((srcs.drop (os - ns)).take (sz - eb)).length ≤ sz - eb :=
          List.length_take_le _ _
        rw [← hmid]
        refine Prog.Meets.bind (Prog.Meets.onThrow (uninitializedMove_owns
          ((Set.Ico_subset_Ico (by omega) (by omega)).trans hold)
          (Set.disjoint_left.mpr (fun x hx hx' => ?_)) (Set.Ico_subset_Ico (by omega) (by omega)))
          hall) (fun _ => ?_)
        · rw [Set.mem_Ico] at hx hx'
          omega
        refine Prog.Meets.bind (Prog.Meets.onThrow (copy_meets (fun x hx => Or.inl ?_)
          (fun src hsrc => (hreadAfter src (List.mem_of_mem_take hsrc)).mono
            Set.subset_union_left)) hboth) (fun _ => ?_)
        · rw [Set.mem_Ico] at hx ⊢
          omega
        refine Prog.Meets.onThrow ((uninitializedCopy_meets (fun x hx => hold ?_)
          (Set.disjoint_left.mpr (fun x hx hx' => ?_))
          (fun src hsrc => (hreadAfter src (List.mem_of_mem_drop
            (List.mem_of_mem_take hsrc))).mono Set.subset_union_left)).post
              (fun _ s hs => hs.congr rfl ?_)) hboth
        · rw [htake, Set.mem_Ico] at hx
          rw [Set.mem_Ico]
          omega
        · rw [htake] at hx'
          simp only [Set.mem_union, Set.mem_Ico] at hx hx'
          omega
        · rw [htake]
          ext x
          simp only [Set.mem_union, Set.mem_Ico]
          omega
    · rw [if_neg hn]
      exact Prog.meets_pure (fun _ => id)

end MoveBackward

/-! ## Towards the back, beyond the old end -/

section MoveForward

variable (hns : os ≤ ns) (heb : eb ≤ sz) (hold : Set.Ico os (ns + (sz + srcs.length)) ⊆ own)
  (hr : ∀ src ∈ srcs, src.Readable (Set.Ico os (os + sz)))

include hns heb hold hr

/-- The elements after the position are moved to raw slots, behind the new ones. -/
theorem expandMoveForward_beyond_unwinds (h : sz - eb ≤ ns - os) :
    Prog.Meets (Owns e.trivialDestructor s₀ S₀ k own (Set.Ico os (os + sz)))
      (expandMoveForward e trivialDctrAfterMove os sz ns (os + eb) srcs)
      (fun _ => Owns e.trivialDestructor s₀ S₀ k own (Set.Ico ns (ns + (sz + srcs.length))))
      (Owns e.trivialDestructor s₀ S₀ k own ∅) := by
  have hraw : ns + (sz + srcs.length) - (os + sz) = ns - os + srcs.length := by omega
  have hafter : os + sz - (os + eb) = sz - eb := by omega
  have hnew : ns + (sz + srcs.length) - (sz - eb + srcs.length) = ns + eb := by omega
  unfold expandMoveForward
  dsimp only
  rw [hafter, hraw, if_pos (by omega), hnew, Nat.add_sub_cancel_left]
  refine Prog.Meets.bind (Prog.Meets.onThrow (uninitializedCopy_meets
    ((Set.Ico_subset_Ico (by omega) (by omega)).trans hold)
    (Set.disjoint_left.mpr (fun x hx hx' => ?_)) hr)
    (scopedDestructorN_empties (fun _ => rfl))) (fun _ => ?_)
  · rw [Set.mem_Ico] at hx hx'
    omega
  refine Prog.Meets.bind (Prog.Meets.onThrow (uninitializedMove_owns
    ((Set.Ico_subset_Ico (by omega) (by omega)).trans hold)
    (Set.disjoint_left.mpr (fun x hx hx' => ?_)) (fun x hx => ?_))
    (scopedDestructors_empty (fun _ => Set.union_comm _ _) (by omega))) (fun _ => ?_)
  · simp only [Set.mem_union, Set.mem_Ico] at hx hx'
    omega
  · simp only [Set.mem_union, Set.mem_Ico] at hx ⊢
    omega
  have hlive : Set.Ico os (os + sz) ∪ Set.Ico (ns + eb) (ns + eb + srcs.length)
      ∪ Set.Ico (ns + eb + srcs.length) (ns + eb + srcs.length + (sz - eb))
      = Set.Ico (ns + eb) (ns + eb + (sz - eb + srcs.length)) ∪ Set.Ico os (os + sz) := by
    ext x
    simp only [Set.mem_union, Set.mem_Ico]
    omega
  have hguard : Prog.Meets (Owns e.trivialDestructor s₀ S₀ k own
      (Set.Ico (ns + eb) (ns + eb + (sz - eb + srcs.length)) ∪ Set.Ico os (os + sz)))
      (do
        scopedDestructorN e (ns + eb) (sz - eb + srcs.length)
        scopedDestructorN e os sz)
      (fun _ => Owns e.trivialDestructor s₀ S₀ k own ∅) (fun _ => False) :=
    scopedDestructors_empty (fun _ => rfl) (by omega)
  rw [hlive]
  refine Prog.Meets.ite (fun hfar => ?_) (fun hnear => ?_)
  · refine Prog.Meets.bind (Prog.Meets.onThrow (uninitializedMove_owns
      ((Set.Ico_subset_Ico (by omega) (by omega)).trans hold)
      (Set.disjoint_left.mpr (fun x hx hx' => ?_)) (fun x hx => ?_)) hguard) (fun _ => ?_)
    · simp only [Set.mem_union, Set.mem_Ico] at hx hx'
      omega
    · simp only [Set.mem_union, Set.mem_Ico] at hx ⊢
      omega
    refine (scopedDestroyMoved_owns (Set.subset_union_right.trans Set.subset_union_left)).post
      (fun _ s hs => hs.congr rfl ?_)
    ext x
    simp only [Set.mem_union, Set.mem_sdiff, Set.mem_Ico]
    omega
  · have hgap : ns - os + srcs.length - (sz - eb + srcs.length) = ns - os - (sz - eb) := by omega
    have hall : Set.Ico (ns + eb) (ns + eb + (sz - eb + srcs.length)) ∪ Set.Ico os (os + sz)
        ∪ Set.Ico (os + sz) (os + sz + (ns - os - (sz - eb)))
        = Set.Ico os (os + (sz + (ns - os + srcs.length))) := by
      ext x
      simp only [Set.mem_union, Set.mem_Ico]
      omega
    rw [hgap]
    refine Prog.Meets.bind (Prog.Meets.onThrow (uninitializedMove_owns
      ((Set.Ico_subset_Ico (by omega) (by omega)).trans hold)
      (Set.disjoint_left.mpr (fun x hx hx' => ?_)) (fun x hx => ?_)) hguard) (fun _ => ?_)
    · simp only [Set.mem_union, Set.mem_Ico] at hx hx'
      omega
    · simp only [Set.mem_union, Set.mem_Ico] at hx ⊢
      omega
    rw [hall]
    refine Prog.Meets.bind (Prog.Meets.onThrow (moveBackwardOverlapping_owns (by omega) (by omega)
      (Set.Ico_subset_Ico (by omega) (by omega)) (Set.Ico_subset_Ico (by omega) (by omega)))
      (scopedDestructorN_empties (fun _ => rfl))) (fun _ => ?_)
    refine (destroyMoved_owns (Set.Ico_subset_Ico le_rfl (by omega))).post
      (fun _ s hs => hs.congr rfl ?_)
    ext x
    simp only [Set.mem_sdiff, Set.mem_Ico]
    omega

end MoveForward

/-! ## Towards the back, over the old end -/

section Within

variable (e trivialDctrAfterMove)

/-- What is done before the guard of the old elements grows. -/
def forwardOpening (os sz ns eb : ℕ) (srcs : List (Source α)) : Prog (State κ α) Unit :=
  if sz - eb < ns - os + srcs.length then do
    (uninitializedMove e (os + eb) (sz - eb) (ns + eb + srcs.length)).onThrow
      (scopedDestructorN e os sz)
    (copy e (ns + eb) (srcs.take (sz - eb - (ns - os)))).onThrow do
      scopedDestructorN e (ns + eb + srcs.length) (sz - eb)
      scopedDestructorN e os sz
    (uninitializedCopy e (os + sz) (srcs.drop (sz - eb - (ns - os)))).onThrow do
      scopedDestructorN e (ns + eb + srcs.length) (sz - eb)
      scopedDestructorN e os sz
  else
    (uninitializedMove e (os + sz - (ns - os + srcs.length)) (ns - os + srcs.length)
      (os + sz)).onThrow (scopedDestructorN e os sz)

/-- What is done after that. -/
def forwardClosing (os sz ns eb : ℕ) (srcs : List (Source α)) : Prog (State κ α) Unit :=
  let raw := ns - os + srcs.length
  let all := scopedDestructorN e (os - raw) (sz + raw)
  if sz - eb < raw then do
    (moveBackwardOverlapping e (os + eb) eb (ns + eb)).onThrow all
    destroyMoved e trivialDctrAfterMove os (ns - os)
  else do
    (moveBackwardOverlapping e (os + sz - raw) (sz - raw - eb) (os + sz)).onThrow all
    (copy e (ns + eb) srcs).onThrow all
    (moveBackwardOverlapping e (os + eb) eb (ns + eb)).onThrow all
    destroyMoved e trivialDctrAfterMove os (ns - os)

/-- The operations on elements before the guard grows. -/
def opsOpening (os sz ns eb : ℕ) (srcs : List (Source α)) : ℕ :=
  if sz - eb < ns - os + srcs.length then
    sz - eb + (cost (srcs.take (sz - eb - (ns - os)))
      + (srcs.drop (sz - eb - (ns - os))).length)
  else ns - os + srcs.length

/-- The operations on elements after that. -/
def opsClosing (os sz ns eb : ℕ) (srcs : List (Source α)) : ℕ :=
  let raw := ns - os + srcs.length
  if sz - eb < raw then if os ≠ ns then eb else 0
  else (if raw ≠ 0 then sz - raw - eb else 0) + (cost srcs + if os ≠ ns then eb else 0)

variable {e trivialDctrAfterMove}

/-- The algorithm, in two parts. -/
theorem expandMoveForward_eq (hns : os ≤ ns) (heb : eb ≤ sz) (h : ns - os < sz - eb) :
    (expandMoveForward e trivialDctrAfterMove os sz ns (os + eb) srcs : Prog (State κ α) Unit)
      = (do
        forwardOpening e os sz ns eb srcs
        forwardClosing e trivialDctrAfterMove os sz ns eb srcs) := by
  have hraw : ns + (sz + srcs.length) - (os + sz) = ns - os + srcs.length := by omega
  have hafter : os + sz - (os + eb) = sz - eb := by omega
  have hsub : ns + eb - eb - os = ns - os := by omega
  unfold expandMoveForward forwardOpening forwardClosing
  dsimp only
  rw [hafter, hraw, if_neg (by omega), Nat.add_sub_cancel_left]
  by_cases hlt : sz - eb < ns - os + srcs.length
  · have hp : ns + (sz + srcs.length) - (sz - eb) = ns + eb + srcs.length := by omega
    have hrest : srcs.length - (ns - os + srcs.length - (sz - eb)) = sz - eb - (ns - os) := by omega
    have hbeg : os + sz - (sz - eb - (ns - os)) = ns + eb := by omega
    have hdrop : (srcs.drop (sz - eb - (ns - os))).take (ns - os + srcs.length - (sz - eb))
        = srcs.drop (sz - eb - (ns - os)) :=
      List.take_of_length_le (by rw [List.length_drop]; omega)
    simp only [if_pos hlt, hp, hrest, hbeg, hdrop, hsub, Prog.bind_assoc]
  · have hcount : os + sz - (ns - os + srcs.length) - (os + eb)
        = sz - (ns - os + srcs.length) - eb := by omega
    have hbeg : os + sz - (sz - (ns - os + srcs.length) - eb) - srcs.length = ns + eb := by omega
    simp only [if_neg hlt, hcount, hbeg, hsub]

theorem takes_moveBackwardOverlapping :
    Takes e (moveBackwardOverlapping e l n rl : Prog (State κ α) Unit)
      (if l ≠ rl then n else 0) := by
  unfold moveBackwardOverlapping
  split
  · exact takes_moveBackward
  · exact takes_pure ()

theorem takes_destroyMoved :
    Takes e (destroyMoved e trivialDctrAfterMove p n : Prog (State κ α) Unit) 0 := by
  unfold destroyMoved abandonN
  rw [ite_self]
  exact takes_destroyN

theorem takes_uninitializedMove :
    Takes e (uninitializedMove e f n r : Prog (State κ α) Unit) n := by
  have h := @takes_uninitializedCopy κ α e r (slots f n)
  rwa [length_slots] at h

theorem takes_forwardOpening :
    Takes e (forwardOpening e os sz ns eb srcs : Prog (State κ α) Unit)
      (opsOpening os sz ns eb srcs) := by
  unfold forwardOpening opsOpening
  split
  · exact takes_uninitializedMove.onThrow.bind (fun _ => takes_copy.onThrow.bind
      (fun _ => takes_uninitializedCopy.onThrow))
  · exact takes_uninitializedMove.onThrow

/-- The elements before the position are moved, unless they stay where they are. -/
theorem takes_moveBefore :
    Takes e (moveBackwardOverlapping e (os + eb) eb (ns + eb) : Prog (State κ α) Unit)
      (if os ≠ ns then eb else 0) := by
  have hne : os + eb ≠ ns + eb ↔ os ≠ ns := by omega
  have h := @takes_moveBackwardOverlapping κ α e eb (os + eb) (ns + eb)
  simp only [hne] at h
  exact h

/-- The elements after the position are moved, unless they stay where they are. -/
theorem takes_moveAfter (h : r ≤ os + sz) :
    Takes e (moveBackwardOverlapping e (os + sz - r) n (os + sz) : Prog (State κ α) Unit)
      (if r ≠ 0 then n else 0) := by
  have hne : os + sz - r ≠ os + sz ↔ r ≠ 0 := by omega
  have h := @takes_moveBackwardOverlapping κ α e n (os + sz - r) (os + sz)
  simp only [hne] at h
  exact h

theorem takes_forwardClosing (heb : eb ≤ sz) :
    Takes e (forwardClosing e trivialDctrAfterMove os sz ns eb srcs : Prog (State κ α) Unit)
      (opsClosing os sz ns eb srcs) := by
  unfold forwardClosing opsClosing
  dsimp only
  split
  · exact takes_moveBefore.onThrow.bind (fun _ => takes_destroyMoved)
  · exact (takes_moveAfter (by omega)).onThrow.bind (fun _ => takes_copy.onThrow.bind
      (fun _ => takes_moveBefore.onThrow.bind (fun _ => takes_destroyMoved)))

/-- **A guard may be wrong** where nothing throws, or nothing has to be destroyed. -/
theorem onThrow_owns {a : Prog (State κ α) Unit} {j : ℕ} (ht : Takes e a n)
    (h : Prog.Meets (Owns e.trivialDestructor s₀ S₀ k own live) a
      (fun _ => Owns e.trivialDestructor s₀ S₀ k own live)
      (Owns e.trivialDestructor s₀ S₀ k own live))
    (hq : e.trivialDestructor = false → ¬ e.Blows j n) :
    Prog.Meets (fun s => Owns e.trivialDestructor s₀ S₀ k own live s ∧ s.ops = j)
      (a.onThrow (scopedDestructorN e p m))
      (fun _ s => Owns e.trivialDestructor s₀ S₀ k own live s ∧ s.ops = j + n)
      (Owns e.trivialDestructor s₀ S₀ k own ∅) := by
  by_cases htriv : e.trivialDestructor = true
  · have hguard := Prog.Meets.onThrow h (scopedDestructorN_empties (p := p) (n := m)
      (fun hf => Bool.noConfusion (hf.symm.trans htriv)))
    exact (ht.onThrow.meets hguard).conseq (fun _ => id) (fun _ _ hs => hs.1) (fun _ hs => hs.1)
  · have hf : e.trivialDestructor = false := by simpa using htriv
    exact Prog.Meets.onThrow (F := fun _ => False) (ht.meets_of_quiet h (hq hf))
      (fun _ h => h.elim)

variable (hns : os ≤ ns) (heb : eb ≤ sz) (hold : Set.Ico os (ns + (sz + srcs.length)) ⊆ own)
  (hr : ∀ src ∈ srcs, src.Readable (Set.Ico os (os + sz))) (h : ns - os < sz - eb)

include hns heb hold hr h

/-- **Until the guard grows**, it holds all there is. -/
theorem forwardOpening_owns :
    Prog.Meets (Owns e.trivialDestructor s₀ S₀ k own (Set.Ico os (os + sz)))
      (forwardOpening e os sz ns eb srcs)
      (fun _ => Owns e.trivialDestructor s₀ S₀ k own (Set.Ico os (ns + (sz + srcs.length))))
      (Owns e.trivialDestructor s₀ S₀ k own ∅) := by
  unfold forwardOpening
  refine Prog.Meets.ite (fun hlt => ?_) (fun hge => ?_)
  · have hdrop : (srcs.drop (sz - eb - (ns - os))).length
        = srcs.length - (sz - eb - (ns - os)) := List.length_drop
    have htake : (srcs.take (sz - eb - (ns - os))).length ≤ sz - eb - (ns - os) :=
      List.length_take_le _ _
    have hguard : Prog.Meets (Owns e.trivialDestructor s₀ S₀ k own
        (Set.Ico os (os + sz) ∪ Set.Ico (ns + eb + srcs.length)
          (ns + eb + srcs.length + (sz - eb))))
        (do
          scopedDestructorN e (ns + eb + srcs.length) (sz - eb)
          scopedDestructorN e os sz)
        (fun _ => Owns e.trivialDestructor s₀ S₀ k own ∅) (fun _ => False) :=
      scopedDestructors_empty (fun _ => Set.union_comm _ _) (by omega)
    refine Prog.Meets.bind (Prog.Meets.onThrow (uninitializedMove_owns
      ((Set.Ico_subset_Ico (by omega) (by omega)).trans hold)
      (Set.disjoint_left.mpr (fun x hx hx' => ?_)) (Set.Ico_subset_Ico (by omega) (by omega)))
      (scopedDestructorN_empties (fun _ => rfl))) (fun _ => ?_)
    · rw [Set.mem_Ico] at hx hx'
      omega
    refine Prog.Meets.bind (Prog.Meets.onThrow (copy_meets
      ((Set.Ico_subset_Ico (by omega) (by omega)).trans Set.subset_union_left)
      (fun src hsrc => (hr src (List.mem_of_mem_take hsrc)).mono Set.subset_union_left)) hguard)
      (fun _ => ?_)
    refine Prog.Meets.onThrow ((uninitializedCopy_meets
      ((Set.Ico_subset_Ico (by omega) (by omega)).trans hold)
      (Set.disjoint_left.mpr (fun x hx hx' => ?_))
      (fun src hsrc => (hr src (List.mem_of_mem_drop hsrc)).mono Set.subset_union_left)).post
        (fun _ s hs => hs.congr rfl ?_)) hguard
    · rw [hdrop] at hx'
      simp only [Set.mem_union, Set.mem_Ico] at hx hx'
      omega
    · rw [hdrop]
      ext x
      simp only [Set.mem_union, Set.mem_Ico]
      omega
  · refine Prog.Meets.onThrow ((uninitializedMove_owns
      ((Set.Ico_subset_Ico (by omega) (by omega)).trans hold)
      (Set.disjoint_left.mpr (fun x hx hx' => ?_)) (Set.Ico_subset_Ico (by omega)
        (by omega))).post (fun _ s hs => hs.congr rfl ?_))
      (scopedDestructorN_empties (fun _ => rfl))
    · rw [Set.mem_Ico] at hx hx'
      omega
    · ext x
      simp only [Set.mem_union, Set.mem_Ico]
      omega

/-- **After that**, all is well where no operation throws. -/
theorem forwardClosing_owns {j : ℕ}
    (hq : e.trivialDestructor = false → ¬ e.Blows j (opsClosing os sz ns eb srcs)) :
    Prog.Meets (fun s => Owns e.trivialDestructor s₀ S₀ k own
        (Set.Ico os (ns + (sz + srcs.length))) s ∧ s.ops = j)
      (forwardClosing e trivialDctrAfterMove os sz ns eb srcs)
      (fun _ => Owns e.trivialDestructor s₀ S₀ k own (Set.Ico ns (ns + (sz + srcs.length))))
      (Owns e.trivialDestructor s₀ S₀ k own ∅) := by
  have hne : os + eb ≠ ns + eb ↔ os ≠ ns := by omega
  have hmove : Takes e (moveBackwardOverlapping e (os + eb) eb (ns + eb) : Prog (State κ α) Unit)
      (if os ≠ ns then eb else 0) := takes_moveBefore
  have hlast : ∀ {j : ℕ}, Prog.Meets (fun s => Owns e.trivialDestructor s₀ S₀ k own
        (Set.Ico os (ns + (sz + srcs.length))) s ∧ s.ops = j)
      (destroyMoved e trivialDctrAfterMove os (ns - os))
      (fun _ => Owns e.trivialDestructor s₀ S₀ k own (Set.Ico ns (ns + (sz + srcs.length))))
      (Owns e.trivialDestructor s₀ S₀ k own ∅) := by
    intro j
    refine ((destroyMoved_owns (Set.Ico_subset_Ico le_rfl (by omega))).post
      (fun _ s hs => hs.congr rfl ?_)).pre (fun _ hs => hs.1)
    ext x
    simp only [Set.mem_sdiff, Set.mem_Ico]
    omega
  have hbefore := @moveBackwardOverlapping_owns κ α e s₀ S₀ own
    (Set.Ico os (ns + (sz + srcs.length))) k eb (os + eb) (ns + eb) (by omega) (by omega)
    (Set.Ico_subset_Ico (by omega) (by omega)) (Set.Ico_subset_Ico (by omega) (by omega))
  unfold opsClosing at hq
  unfold forwardClosing
  dsimp only at hq ⊢
  by_cases hlt : sz - eb < ns - os + srcs.length
  · rw [if_pos hlt] at hq ⊢
    exact Prog.Meets.bind (onThrow_owns hmove hbefore hq) (fun _ => hlast)
  · rw [if_neg hlt] at hq ⊢
    have hfirst : Takes e (moveBackwardOverlapping e (os + sz - (ns - os + srcs.length))
        (sz - (ns - os + srcs.length) - eb) (os + sz) : Prog (State κ α) Unit)
        (if ns - os + srcs.length ≠ 0 then sz - (ns - os + srcs.length) - eb else 0) :=
      takes_moveAfter (by omega)
    rw [Env.blows_add, Env.blows_add, not_or, not_or] at hq
    refine Prog.Meets.bind (onThrow_owns hfirst (moveBackwardOverlapping_owns (by omega) (by omega)
      (Set.Ico_subset_Ico (by omega) (by omega)) (Set.Ico_subset_Ico (by omega) (by omega)))
      (fun hf => (hq hf).1)) (fun _ => ?_)
    refine Prog.Meets.bind (onThrow_owns takes_copy (copy_meets
      (Set.Ico_subset_Ico (by omega) (by omega))
      (fun src hsrc => (hr src hsrc).mono (Set.Ico_subset_Ico le_rfl (by omega))))
      (fun hf => (hq hf).2.1)) (fun _ => ?_)
    exact Prog.Meets.bind (onThrow_owns hmove hbefore (fun hf => (hq hf).2.2)) (fun _ => hlast)

omit heb hold hr in
/-- **What the guard misses**: the last of the slots that were filled behind the old end. -/
theorem guard_misses (hpos : 0 < os) (hraw : ns - os + srcs.length ≠ 0) {s : State κ α}
    (hs : Owns e.trivialDestructor s₀ S₀ k own (Set.Ico os (ns + (sz + srcs.length))) s) :
    (destroyN e (os - (ns - os + srcs.length)) (sz + (ns - os + srcs.length)) s).Permits
      (fun _ t => cells t.heap (ns + (sz + srcs.length) - 1) ≠ none) (fun _ => True) := by
  have hmem : ns + (sz + srcs.length) - 1 ∈ Set.Ico os (ns + (sz + srcs.length)) :=
    ⟨by omega, by omega⟩
  obtain ⟨slot, hslot, hfull⟩ := exists_of_shape_eq (hs.full _ hmem)
  refine (turns_destroyN s).imp (fun _ t ht => ?_) (fun _ => id)
  rw [ht, clearCells_of_notMem (by omega), cells, hslot]
  exact Option.isSome_iff_ne_none.mp hfull

/-- **What is thrown after the guard grew** leaves an element behind, if it leaves anything. -/
theorem forwardClosing_strays (hf : e.trivialDestructor = false) (hpos : 0 < os) {s : State κ α}
    (hraw : ns - os + srcs.length ≠ 0)
    (hs : Owns e.trivialDestructor s₀ S₀ k own (Set.Ico os (ns + (sz + srcs.length))) s) :
    (forwardClosing e trivialDctrAfterMove os sz ns eb srcs s).Permits (fun _ _ => True)
      (fun t => cells t.heap (ns + (sz + srcs.length) - 1) ≠ none) := by
  have hguard : ∀ p n, (scopedDestructorN e p n : Prog (State κ α) Unit) = destroyN e p n :=
    fun p n => if_neg (by rw [hf]; exact Bool.false_ne_true)
  have hstep : ∀ {a : Prog (State κ α) Unit} {t : State κ α},
      Prog.Meets (Owns e.trivialDestructor s₀ S₀ k own (Set.Ico os (ns + (sz + srcs.length)))) a
        (fun _ => Owns e.trivialDestructor s₀ S₀ k own (Set.Ico os (ns + (sz + srcs.length))))
        (Owns e.trivialDestructor s₀ S₀ k own (Set.Ico os (ns + (sz + srcs.length)))) →
      Owns e.trivialDestructor s₀ S₀ k own (Set.Ico os (ns + (sz + srcs.length))) t →
      (a.onThrow (destroyN e (os - (ns - os + srcs.length)) (sz + (ns - os + srcs.length)))
        t).Permits
        (fun _ => Owns e.trivialDestructor s₀ S₀ k own (Set.Ico os (ns + (sz + srcs.length))))
        (fun u => cells u.heap (ns + (sz + srcs.length) - 1) ≠ none) :=
    fun ha ht => Prog.onThrow_permits (ha _ ht).permits
      (fun _ hu => guard_misses hns h hpos hraw hu)
  have hlast : ∀ {t : State κ α},
      Owns e.trivialDestructor s₀ S₀ k own (Set.Ico os (ns + (sz + srcs.length))) t →
      (destroyMoved e trivialDctrAfterMove os (ns - os) t).Permits (fun _ _ => True)
        (fun u => cells u.heap (ns + (sz + srcs.length) - 1) ≠ none) :=
    fun ht => (destroyMoved_owns (E := fun _ => False) (Set.Ico_subset_Ico le_rfl (by omega)) _
      ht).permits.imp (fun _ _ _ => trivial) (fun _ hu => hu.elim)
  have hbefore := @moveBackwardOverlapping_owns κ α e s₀ S₀ own
    (Set.Ico os (ns + (sz + srcs.length))) k eb (os + eb) (ns + eb) (by omega) (by omega)
    (Set.Ico_subset_Ico (by omega) (by omega)) (Set.Ico_subset_Ico (by omega) (by omega))
  unfold forwardClosing
  simp only [hguard]
  split
  · exact Prog.bind_permits (hstep hbefore hs) (fun _ _ ht => hlast ht)
  · refine Prog.bind_permits (hstep (moveBackwardOverlapping_owns (by omega) (by omega)
      (Set.Ico_subset_Ico (by omega) (by omega)) (Set.Ico_subset_Ico (by omega) (by omega))) hs)
      (fun _ t ht => Prog.bind_permits (hstep (copy_meets
        (Set.Ico_subset_Ico (by omega) (by omega)) (fun src hsrc => (hr src hsrc).mono
          (Set.Ico_subset_Ico le_rfl (by omega)))) ht)
        (fun _ u hu => Prog.bind_permits (hstep hbefore hu) (fun _ _ hv => hlast hv)))

end Within

/-! ## Every shift -/

/-- **The operation that throws comes after the guard grew at the wrong end.** -/
def Strays (e : Env α) (os sz ns eb : ℕ) (srcs : List (Source α)) (j : ℕ) : Prop :=
  e.trivialDestructor = false ∧ os ≤ ns ∧ ns - os < sz - eb
    ∧ e.Blows (j + opsOpening os sz ns eb srcs) (opsClosing os sz ns eb srcs)

section Shift

variable (hold : Set.Ico (min os ns) (max (os + sz) (ns + (sz + srcs.length))) ⊆ own)
  (hr : ∀ src ∈ srcs, src.Readable (Set.Ico os (os + sz)))

include hold hr

/-- All that lived or was constructed is destroyed. -/
theorem expandBackwardForward_unwinds (heb : eb ≤ sz)
    (hs : Owns e.trivialDestructor s₀ S₀ k own (Set.Ico os (os + sz)) s)
    (h : ¬ Strays e os sz ns eb srcs s.ops) :
    (expandBackwardForwardAndInsertAlloc e trivialDctrAfterMove os sz ns (os + eb) srcs s).Meets
      (fun _ => Owns e.trivialDestructor s₀ S₀ k own (Set.Ico ns (ns + (sz + srcs.length))))
      (Owns e.trivialDestructor s₀ S₀ k own ∅) := by
  unfold expandBackwardForwardAndInsertAlloc
  by_cases hns : ns < os
  · rw [if_pos hns]
    by_cases hn : eb + srcs.length ≤ os - ns
    · exact expandMoveBackward_apart_unwinds hns heb hr
        ((Set.Ico_subset_Ico (by omega) (by omega)).trans hold) hn s hs
    · exact expandMoveBackward_near_unwinds hns heb hr
        ((Set.Ico_subset_Ico (by omega) (by omega)).trans hold) (by omega) s hs
  · have hold' : Set.Ico os (ns + (sz + srcs.length)) ⊆ own :=
      (Set.Ico_subset_Ico (by omega) (by omega)).trans hold
    rw [if_neg hns]
    by_cases hn : sz - eb ≤ ns - os
    · exact expandMoveForward_beyond_unwinds (by omega) heb hold' hr hn s hs
    · rw [expandMoveForward_eq (by omega) heb (by omega)]
      refine (takes_forwardOpening.bind_meets (forwardOpening_owns (by omega) heb hold' hr
        (by omega)) (fun _ _ => forwardClosing_owns (by omega) heb hold' hr (by omega)
          (fun hf hb => h ⟨hf, by omega, by omega, hb⟩))) s ⟨hs, rfl⟩

/-- An element is left behind, or what is not there is destroyed. -/
theorem expandBackwardForward_not_unwinds (heb : eb ≤ sz) (hnull : 0 ∉ own)
    (hs : Owns e.trivialDestructor s₀ S₀ k own (Set.Ico os (os + sz)) s)
    (h : Strays e os sz ns eb srcs s.ops) {Q : Unit → State κ α → Prop} :
    ¬ (expandBackwardForwardAndInsertAlloc e trivialDctrAfterMove os sz ns (os + eb) srcs s).Meets
      Q (Owns e.trivialDestructor s₀ S₀ k own ∅) := by
  obtain ⟨hf, hns, hn, hb⟩ := h
  have hold' : Set.Ico os (ns + (sz + srcs.length)) ⊆ own :=
    (Set.Ico_subset_Ico (by omega) (by omega)).trans hold
  have hpos : 0 < os := by
    by_contra hzero
    exact hnull (hold' ⟨by omega, by omega⟩)
  have hraw : ns - os + srcs.length ≠ 0 := by
    intro hzero
    have hsrcs : srcs = [] := List.length_eq_zero_iff.mp (by omega)
    have hnone : opsClosing os sz ns eb srcs = 0 := by
      unfold opsClosing
      rw [hsrcs, if_neg (by rw [List.length_nil]; omega), if_neg (by rw [List.length_nil]; omega),
        if_neg (by omega)]
      rfl
    rw [hnone] at hb
    exact Env.not_blows_zero _ hb
  intro hmeets
  unfold expandBackwardForwardAndInsertAlloc at hmeets
  rw [if_neg (by omega), expandMoveForward_eq hns heb hn] at hmeets
  have hopen : (forwardOpening e os sz ns eb srcs s).Meets
      (fun _ t => Owns e.trivialDestructor s₀ S₀ k own (Set.Ico os (ns + (sz + srcs.length))) t
        ∧ t.ops = s.ops + opsOpening os sz ns eb srcs) (fun _ => False) :=
    takes_forwardOpening.meets_of_quiet (forwardOpening_owns hns heb hold' hr hn) hb.not_before s
      ⟨hs, rfl⟩
  have hrun : ((do
      forwardOpening e os sz ns eb srcs
      forwardClosing e trivialDctrAfterMove os sz ns eb srcs) s).Permits (fun _ _ => False)
      (fun t : State κ α => cells t.heap (ns + (sz + srcs.length) - 1) ≠ none) := by
    refine Prog.bind_permits (hopen.permits.imp (fun _ _ => id)
      (fun _ ht => ht.elim)) (fun _ t ht => ?_)
    exact ((takes_forwardClosing heb t).and (forwardClosing_strays hns heb hold' hr hn hf hpos
      hraw ht.1)).imp (fun _ _ hd => hd.1.2 (ht.2 ▸ hb)) (fun _ hu => hu.2)
  refine Outcome.Meets.const ((hmeets.and_permits hrun).imp (fun _ _ hd => hd.2) (fun t ht => ?_))
  obtain ⟨slot, hslot, hvacant⟩ := exists_of_shape_eq (ht.1.vacant hf
    (ns + (sz + srcs.length) - 1) (hold' ⟨by omega, by omega⟩) (Set.notMem_empty _))
  refine ht.2 ?_
  rw [cells, hslot, Option.bind_some]
  exact Option.not_isSome_iff_eq_none.mp (by rw [hvacant]; exact Bool.false_ne_true)

/-- **Every element is destroyed once, and no raw slot is**, whichever operation throws, unless
it comes after the guard of the old elements grew at the wrong end. -/
theorem expand_unwinds_iff (heb : eb ≤ sz) (hnull : 0 ∉ own)
    (hs : Owns e.trivialDestructor s own s.object own (Set.Ico os (os + sz)) s) :
    (expandBackwardForwardAndInsertAlloc e trivialDctrAfterMove os sz ns (os + eb) srcs s).Meets
      (fun _ => Owns e.trivialDestructor s own s.object own
        (Set.Ico ns (ns + (sz + srcs.length))))
      (Owns e.trivialDestructor s own s.object own ∅)
    ↔ ¬ Strays e os sz ns eb srcs s.ops :=
  ⟨fun h hstrays => expandBackwardForward_not_unwinds hold hr heb hnull hs hstrays h,
    expandBackwardForward_unwinds hold hr heb hs⟩

end Shift

/-- A buffer without the slot at null. -/
theorem owns_bufferOf {size : ℕ} {xs : List α} (t : Bool) (hp : 1 ≤ p) (h : p + xs.length ≤ size) :
    Owns t (bufferOf size p xs) (Set.Ico 1 size) () (Set.Ico 1 size) (Set.Ico p (p + xs.length))
      (bufferOf size p xs) := by
  have hsub : Set.Ico 1 size ⊆ Set.Iio size := fun _ hq => hq.2
  refine ((stands_bufferOf t h).owns.restrict hsub).congr rfl ?_
  exact Set.inter_eq_left.mpr (Set.Ico_subset_Ico hp h)

/-- Elements with destructors, and an operation that throws. -/
def bursting (i : ℕ) : Env ℕ where
  fuse := some i
  refusal := none
  address _ _ := none
  moved x := x
  trivialDestructor := false

theorem expand_unwinds_iff_bufferOf :
    (expandBackwardForwardAndInsertAlloc (bursting 2) false 3 2 2 3 [.value 8]
      (bufferOf 6 3 [5, 6])).Meets
      (fun _ => Owns false (bufferOf 6 3 [5, 6]) (Set.Ico 1 6) () (Set.Ico 1 6) (Set.Ico 2 5))
      (Owns false (bufferOf 6 3 [5, 6]) (Set.Ico 1 6) () (Set.Ico 1 6) ∅)
    ↔ ¬ Strays (bursting 2) 3 2 2 0 [.value 8] 0 :=
  @expand_unwinds_iff Unit ℕ (bursting 2) false (bufferOf 6 3 [5, 6]) (Set.Ico 1 6) 3 2 2 0
    [.value 8] (Set.Ico_subset_Ico (by decide) (by decide))
    (fun src hsrc => by rw [List.mem_singleton.mp hsrc]; trivial) (by decide)
    (fun h => absurd h.1 (by decide)) (owns_bufferOf false (by decide) (by decide))

/-- One element is inserted before two, which move towards the back; the second operation throws.
The guard destroys a raw slot before them, and the element that was moved stays behind. -/
theorem expand_strays :
    ¬ (expandBackwardForwardAndInsertAlloc (bursting 1) false 2 2 2 2 [.value 8]
      (bufferOf 5 2 [5, 6])).Meets
      (fun _ => Owns false (bufferOf 5 2 [5, 6]) (Set.Ico 1 5) () (Set.Ico 1 5) (Set.Ico 2 5))
      (Owns false (bufferOf 5 2 [5, 6]) (Set.Ico 1 5) () (Set.Ico 1 5) ∅) :=
  @expandBackwardForward_not_unwinds Unit ℕ (bursting 1) false (bufferOf 5 2 [5, 6])
    (bufferOf 5 2 [5, 6]) (Set.Ico 1 5) (Set.Ico 1 5) () 2 2 2 0 [.value 8]
    (Set.Ico_subset_Ico (by decide) (by decide))
    (fun src hsrc => by rw [List.mem_singleton.mp hsrc]; trivial) (by decide)
    (fun h => absurd h.1 (by decide)) (owns_bufferOf false (by decide) (by decide))
    ⟨rfl, le_rfl, by decide, 1, by decide, by decide, rfl⟩ _

end Slots
