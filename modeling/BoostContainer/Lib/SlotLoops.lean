import BoostContainer.Lib.Slots

/-!
# Loops over slots

What the loops of `Slots` do to the slots of an object, and how many of their
operations may throw. The first says what a call leaves when it throws; the
second says in which part of a call an operation falls, given its number.
-/

namespace Slots

variable {κ : Type} {α : Type*} {e : Env α} {t : Bool} {s₀ : State κ α}
  {S₀ own live : Set ℕ} {k : κ} {p r n : ℕ} {src : Source α} {srcs : List (Source α)}

/-! ## What loops leave -/

theorem destroyN_meets (hl : Set.Ico p (p + n) ⊆ live) :
    Prog.Meets (Owns t s₀ S₀ k own live) (destroyN e p n)
      (fun _ => Owns t s₀ S₀ k own (live \ Set.Ico p (p + n))) (fun _ => False) := by
  induction n generalizing p live with
  | zero =>
    refine Prog.meets_pure (fun s hs => hs.congr rfl ?_)
    rw [Nat.add_zero, Set.Ico_self, Set.sdiff_empty]
  | succ n ih =>
    have hsub : Set.Ico (p + 1) (p + 1 + n) ⊆ Set.Ico p (p + (n + 1)) :=
      Set.Ico_subset_Ico (by omega) (by omega)
    have hp' : p ∉ Set.Ico (p + 1) (p + 1 + n) := fun h => absurd h.1 (by omega)
    refine Prog.Meets.bind (destroy_meets (hl ⟨le_rfl, by omega⟩)) (fun _ => ?_)
    refine (ih (Set.subset_sdiff_singleton (hsub.trans hl) hp')).post
      (fun _ s hs => hs.congr rfl ?_)
    ext q
    simp only [Set.mem_sdiff, Set.mem_singleton_iff, Set.mem_Ico]
    grind

/-- **Construction, all or none**: the loop, which has filled the slots from
`back` on. -/
theorem uninitializedCopyLoop_meets {back : ℕ} (hr : back ≤ r)
    (hin : Set.Ico back (r + srcs.length) ⊆ own)
    (hd : Disjoint live (Set.Ico back (r + srcs.length)))
    (hsrcs : ∀ src ∈ srcs, src.Readable live) :
    Prog.Meets (Owns e.trivialDestructor s₀ S₀ k own (live ∪ Set.Ico back r))
      (uninitializedCopyLoop e back r srcs)
      (fun _ => Owns e.trivialDestructor s₀ S₀ k own (live ∪ Set.Ico back (r + srcs.length)))
      (Owns e.trivialDestructor s₀ S₀ k own live) := by
  induction srcs generalizing r with
  | nil => exact Prog.meets_pure (fun s hs => hs)
  | cons src srcs ih =>
    rw [List.length_cons] at hin hd
    have hrmem : r ∈ Set.Ico back (r + (srcs.length + 1)) := ⟨hr, by omega⟩
    have hrl : r ∉ live := Set.disjoint_right.mp hd hrmem
    have hlen : r + 1 + srcs.length = r + (srcs.length + 1) := by omega
    have hrn : r ∉ live ∪ Set.Ico back r := by
      rintro (h | h)
      · exact hrl h
      · exact absurd h.2 (lt_irrefl r)
    refine Prog.Meets.bind (Prog.Meets.onThrow (construct_meets (hin hrmem) (Or.inr hrn)
      ((hsrcs src List.mem_cons_self).mono Set.subset_union_left)) ?_) (fun _ => ?_)
    · rw [Set.sdiff_singleton_eq_self hrn]
      refine (destroyN_meets ?_).post (fun _ s hs => hs.congr rfl ?_)
      · rw [Nat.add_sub_cancel' hr]
        exact Set.subset_union_right
      · rw [Nat.add_sub_cancel' hr, Set.union_sdiff_right]
        exact (hd.mono_right (Set.Ico_subset_Ico le_rfl (by omega))).sdiff_eq_left
    · have hins : insert r (live ∪ Set.Ico back r) = live ∪ Set.Ico back (r + 1) := by
        ext q
        simp only [Set.mem_insert_iff, Set.mem_union, Set.mem_Ico]
        grind
      rw [hins, List.length_cons, ← hlen]
      exact ih (by omega) (hlen ▸ hin) (hlen ▸ hd)
        (fun src hsrc => hsrcs src (List.mem_cons_of_mem _ hsrc))

/-- **Construction, all or none.** -/
theorem uninitializedCopy_meets (hin : Set.Ico r (r + srcs.length) ⊆ own)
    (hd : Disjoint live (Set.Ico r (r + srcs.length)))
    (hsrcs : ∀ src ∈ srcs, src.Readable live) :
    Prog.Meets (Owns e.trivialDestructor s₀ S₀ k own live) (uninitializedCopy e r srcs)
      (fun _ => Owns e.trivialDestructor s₀ S₀ k own (live ∪ Set.Ico r (r + srcs.length)))
      (Owns e.trivialDestructor s₀ S₀ k own live) := by
  refine Prog.Meets.pre (uninitializedCopyLoop_meets le_rfl hin hd hsrcs) (fun s hs => ?_)
  rwa [Set.Ico_self, Set.union_empty]

/-- The loop, where elements may be forgotten: what it writes over is lost when
it throws. -/
theorem uninitializedCopyLoop_meets_of_trivial {back : ℕ} (ht : e.trivialDestructor = true)
    (hr : back ≤ r) (hin : Set.Ico back (r + srcs.length) ⊆ own)
    (hsrcs : ∀ src ∈ srcs, src.Readable live) :
    Prog.Meets (Owns e.trivialDestructor s₀ S₀ k own (live ∪ Set.Ico back r))
      (uninitializedCopyLoop e back r srcs)
      (fun _ => Owns e.trivialDestructor s₀ S₀ k own (live ∪ Set.Ico back (r + srcs.length)))
      (fun s => ∃ lost ⊆ Set.Ico back (r + srcs.length), Owns e.trivialDestructor s₀ S₀ k own
        (live \ lost) s) := by
  induction srcs generalizing r with
  | nil => exact Prog.meets_pure (fun s hs => hs)
  | cons src srcs ih =>
    rw [List.length_cons] at hin
    have hrmem : r ∈ Set.Ico back (r + (srcs.length + 1)) := ⟨hr, by omega⟩
    have hlen : r + 1 + srcs.length = r + (srcs.length + 1) := by omega
    refine Prog.Meets.bind (Prog.Meets.onThrow (construct_meets (hin hrmem) (Or.inl ht)
      ((hsrcs src List.mem_cons_self).mono Set.subset_union_left)) ?_) (fun _ => ?_)
    · refine (destroyN_meets ?_).post
        (fun _ s hs => ⟨Set.Ico back (r + 1), Set.Ico_subset_Ico le_rfl ?_, hs.congr rfl ?_⟩)
      · intro q hq
        rw [Nat.add_sub_cancel' hr] at hq
        exact ⟨Or.inr hq, hq.2.ne⟩
      · rw [List.length_cons]
        omega
      · ext q
        simp only [Set.mem_sdiff, Set.mem_union, Set.mem_singleton_iff, Set.mem_Ico]
        grind
    · have hins : insert r (live ∪ Set.Ico back r) = live ∪ Set.Ico back (r + 1) := by
        ext q
        simp only [Set.mem_insert_iff, Set.mem_union, Set.mem_Ico]
        grind
      rw [hins, List.length_cons, ← hlen]
      exact ih (by omega) (hlen ▸ hin)
        (fun src hsrc => hsrcs src (List.mem_cons_of_mem _ hsrc))

theorem uninitializedCopy_meets_of_trivial (ht : e.trivialDestructor = true)
    (hin : Set.Ico r (r + srcs.length) ⊆ own)
    (hsrcs : ∀ src ∈ srcs, src.Readable live) :
    Prog.Meets (Owns e.trivialDestructor s₀ S₀ k own live) (uninitializedCopy e r srcs)
      (fun _ => Owns e.trivialDestructor s₀ S₀ k own (live ∪ Set.Ico r (r + srcs.length)))
      (fun s => ∃ lost ⊆ Set.Ico r (r + srcs.length), Owns e.trivialDestructor s₀ S₀ k own
        (live \ lost) s) := by
  refine Prog.Meets.pre (uninitializedCopyLoop_meets_of_trivial ht le_rfl hin hsrcs)
    (fun s hs => ?_)
  rwa [Set.Ico_self, Set.union_empty]

/-- **Assignments leave every element an element**, whether they throw or not. -/
theorem copy_meets (hl : Set.Ico r (r + srcs.length) ⊆ live)
    (hsrcs : ∀ src ∈ srcs, src.Readable live) :
    Prog.Meets (Owns t s₀ S₀ k own live) (copy e r srcs)
      (fun _ => Owns t s₀ S₀ k own live) (Owns t s₀ S₀ k own live) := by
  induction srcs generalizing r with
  | nil => exact Prog.meets_pure (fun s hs => hs)
  | cons src srcs ih =>
    rw [List.length_cons] at hl
    refine Prog.Meets.bind (assign_meets (hl ⟨le_rfl, by omega⟩)
      (hsrcs src List.mem_cons_self)) (fun _ => ?_)
    exact ih ((Set.Ico_subset_Ico (by omega) (by omega)).trans hl)
      (fun src hsrc => hsrcs src (List.mem_cons_of_mem _ hsrc))

theorem moveBackward_meets {l rl : ℕ} (hn : n ≤ l) (hn' : n ≤ rl)
    (hl : Set.Ico (l - n) l ⊆ live) (hrl : Set.Ico (rl - n) rl ⊆ live) :
    Prog.Meets (Owns t s₀ S₀ k own live) (moveBackward e l rl n)
      (fun _ => Owns t s₀ S₀ k own live) (Owns t s₀ S₀ k own live) := by
  induction n generalizing l rl with
  | zero => exact Prog.meets_pure (fun s hs => hs)
  | succ n ih =>
    refine Prog.Meets.bind (assign_meets (hrl ⟨by omega, by omega⟩)
      (hl ⟨by omega, by omega⟩)) (fun _ => ?_)
    exact ih (by omega) (by omega) ((Set.Ico_subset_Ico (by omega) (by omega)).trans hl)
      ((Set.Ico_subset_Ico (by omega) (by omega)).trans hrl)

/-! ## How many operations may throw -/

/-- The operation that throws is one of `n` from some on. -/
def Env.Blows (e : Env α) (j n : ℕ) : Prop := ∃ i, j ≤ i ∧ i < j + n ∧ e.fuse = some i

theorem Env.not_blows_zero (j : ℕ) : ¬ e.Blows j 0 := by
  rintro ⟨i, h₁, h₂, _⟩
  omega

theorem Env.Blows.mono {j m : ℕ} (h : e.Blows j m) (hm : m ≤ n) : e.Blows j n := by
  obtain ⟨i, h₁, h₂, h₃⟩ := h
  exact ⟨i, h₁, by omega, h₃⟩

theorem Env.blows_add (j n m : ℕ) : e.Blows j (n + m) ↔ e.Blows j n ∨ e.Blows (j + n) m := by
  constructor
  · rintro ⟨i, h₁, h₂, h₃⟩
    by_cases hi : i < j + n
    · exact Or.inl ⟨i, h₁, hi, h₃⟩
    · exact Or.inr ⟨i, by omega, by omega, h₃⟩
  · rintro (⟨i, h₁, h₂, h₃⟩ | ⟨i, h₁, h₂, h₃⟩)
    · exact ⟨i, h₁, by omega, h₃⟩
    · exact ⟨i, by omega, by omega, h₃⟩

/-- One operation throws at most. -/
theorem Env.Blows.not_before {j m : ℕ} (h : e.Blows (j + n) m) : ¬ e.Blows j n := by
  rintro ⟨i, h₁, h₂, h₃⟩
  obtain ⟨i', h₁', h₂', h₃'⟩ := h
  have := Option.some.inj (h₃.symm.trans h₃')
  omega

theorem Env.blows_one (j : ℕ) : e.Blows j 1 ↔ e.fuse = some j := by
  constructor
  · rintro ⟨i, h₁, h₂, h₃⟩
    rwa [show j = i by omega]
  · intro h
    exact ⟨j, le_rfl, by omega, h⟩

/-- **A count of operations**: a program makes `n` of them, and throws if one of
these does, and only then. -/
def Takes {β : Type} (e : Env α) (c : Prog (State κ α) β) (n : ℕ) : Prop :=
  ∀ s, (c s).Permits (fun _ t => t.ops = s.ops + n ∧ ¬ e.Blows s.ops n)
    (fun _ => e.Blows s.ops n)

variable {β γ : Type} {m : ℕ}

theorem takes_pure (b : β) : Takes e (pure b : Prog (State κ α) β) 0 :=
  fun _ => ⟨rfl, Env.not_blows_zero _⟩

theorem Takes.bind {c : Prog (State κ α) β} {f : β → Prog (State κ α) γ} (hc : Takes e c n)
    (hf : ∀ b, Takes e (f b) m) : Takes e (c >>= f) (n + m) := by
  intro s
  show (Prog.bind c f s).Permits _ _
  have hcs := hc s
  unfold Prog.bind
  cases hr : c s with
  | undefined => trivial
  | threw t =>
    rw [hr] at hcs
    exact (Env.blows_add _ _ _).mpr (Or.inl hcs)
  | done b t =>
    rw [hr] at hcs
    obtain ⟨ht, hn⟩ := hcs
    refine (hf b t).imp (fun _ u hu => ⟨?_, ?_⟩) (fun u hu => ?_)
    · rw [hu.1, ht, Nat.add_assoc]
    · rw [Env.blows_add, not_or, ← ht]
      exact ⟨hn, hu.2⟩
    · rw [ht] at hu
      exact (Env.blows_add _ _ _).mpr (Or.inr hu)

/-- Cleaning up does not count. -/
theorem Takes.onThrow {c : Prog (State κ α) β} {cleanup : Prog (State κ α) Unit}
    (hc : Takes e c n) : Takes e (c.onThrow cleanup) n := by
  intro s
  have hcs := hc s
  unfold Prog.onThrow
  cases hr : c s with
  | undefined => trivial
  | done b t =>
    rw [hr] at hcs
    exact hcs
  | threw t =>
    rw [hr] at hcs
    simp only
    cases cleanup t with
    | undefined => trivial
    | threw u => trivial
    | done _ u => exact hcs

theorem takes_tick : Takes e (tick e : Prog (State κ α) Unit) 1 := by
  intro s
  unfold tick
  split
  · rename_i h
    exact (Env.blows_one _).mpr h
  · rename_i h
    exact ⟨rfl, fun hb => h ((Env.blows_one _).mp hb)⟩

theorem takes_construct : Takes e (construct e p src : Prog (State κ α) Unit) 1 := by
  intro s
  unfold construct
  split
  · split
    · trivial
    · split
      · rename_i h
        exact (Env.blows_one _).mpr h
      · rename_i h
        exact ⟨rfl, fun hb => h ((Env.blows_one _).mp hb)⟩
  · trivial

theorem takes_assignFrom : Takes e (assignFrom e p src : Prog (State κ α) Unit) 1 := by
  intro s
  unfold assignFrom
  split
  · split
    · trivial
    · split
      · rename_i h
        exact (Env.blows_one _).mpr h
      · rename_i h
        exact ⟨rfl, fun hb => h ((Env.blows_one _).mp hb)⟩
  · trivial

theorem takes_destroy : Takes e (destroy e p : Prog (State κ α) Unit) 0 := by
  intro s
  unfold destroy
  split
  · split
    · trivial
    · exact ⟨rfl, Env.not_blows_zero _⟩
  · trivial

theorem takes_destroyN : Takes e (destroyN e p n : Prog (State κ α) Unit) 0 := by
  induction n generalizing p with
  | zero => exact takes_pure ()
  | succ n ih => exact takes_destroy.bind (fun _ => ih)

theorem takes_deallocate : Takes e (deallocate p n : Prog (State κ α) Unit) 0 := by
  intro s
  unfold deallocate
  split
  · exact ⟨rfl, Env.not_blows_zero _⟩
  · trivial

theorem takes_object : Takes e (object : Prog (State κ α) κ) 0 :=
  fun _ => ⟨rfl, Env.not_blows_zero _⟩

theorem takes_setObject {f : κ → κ} : Takes e (setObject f : Prog (State κ α) Unit) 0 :=
  fun _ => ⟨rfl, Env.not_blows_zero _⟩

/-- The operations of an assignment. -/
def Source.cost : Source α → ℕ
  | .temporary _ => 2
  | _ => 1

/-- The operations of assignments. -/
def cost (srcs : List (Source α)) : ℕ := (srcs.map Source.cost).sum

theorem takes_assign : Takes e (assign e p src : Prog (State κ α) Unit) src.cost := by
  have h : Takes e (makeTemporary e src : Prog (State κ α) Unit) (src.cost - 1) := by
    cases src with
    | temporary v => exact takes_tick
    | value v => exact takes_pure ()
    | slot q => exact takes_pure ()
    | copyOf q => exact takes_pure ()
  have hsum : src.cost - 1 + 1 = src.cost := by
    cases src <;> rfl
  exact hsum ▸ h.bind (fun _ => takes_assignFrom)

theorem takes_uninitializedCopyLoop {back : ℕ} :
    Takes e (uninitializedCopyLoop e back r srcs : Prog (State κ α) Unit) srcs.length := by
  induction srcs generalizing r with
  | nil => exact takes_pure ()
  | cons src srcs ih =>
    rw [List.length_cons, Nat.add_comm]
    exact takes_construct.onThrow.bind (fun _ => ih)

theorem takes_uninitializedCopy :
    Takes e (uninitializedCopy e r srcs : Prog (State κ α) Unit) srcs.length :=
  takes_uninitializedCopyLoop

theorem takes_copy : Takes e (copy e r srcs : Prog (State κ α) Unit) (cost srcs) := by
  induction srcs generalizing r with
  | nil => exact takes_pure ()
  | cons src srcs ih =>
    rw [cost, List.map_cons, List.sum_cons]
    exact takes_assign.bind (fun _ => ih)

theorem takes_moveBackward {l rl : ℕ} :
    Takes e (moveBackward e l rl n : Prog (State κ α) Unit) n := by
  induction n generalizing l rl with
  | zero => exact takes_pure ()
  | succ n ih =>
    have h : Takes e (moveBackward e l rl (n + 1) : Prog (State κ α) Unit) (1 + n) :=
      takes_assign.bind (fun _ => ih)
    rwa [Nat.add_comm 1 n] at h

theorem cost_slots (f n : ℕ) : cost (slots f n : List (Source α)) = n := by
  induction n generalizing f with
  | zero => rfl
  | succ n ih =>
    rw [slots, cost, List.map_cons, List.sum_cons, Nat.add_comm]
    exact congrArg (· + 1) (ih (f + 1))

theorem cost_values (vs : List α) : cost (vs.map Source.value) = vs.length := by
  induction vs with
  | nil => rfl
  | cons v vs ih =>
    rw [List.map_cons, cost, List.map_cons, List.sum_cons, List.length_cons, Nat.add_comm]
    exact congrArg (· + 1) ih

/-- **Counting along a triple**: what is known of the number of the first
operation is known of the number of the next. -/
theorem Takes.meets {P : State κ α → Prop} {c : Prog (State κ α) β}
    {Q : β → State κ α → Prop} {E : State κ α → Prop} {j : ℕ} (ht : Takes e c n)
    (h : Prog.Meets P c Q E) :
    Prog.Meets (fun s => P s ∧ s.ops = j) c
      (fun b s => (Q b s ∧ s.ops = j + n) ∧ ¬ e.Blows j n) (fun s => E s ∧ e.Blows j n) := by
  rintro s ⟨hs, rfl⟩
  exact ((h s hs).and_permits (ht s)).imp (fun _ _ hq => ⟨⟨hq.1, hq.2.1⟩, hq.2.2⟩)
    (fun _ he => he)

/-- **A stretch of operations in which none throws.** -/
theorem Takes.meets_of_quiet {P : State κ α → Prop} {c : Prog (State κ α) β}
    {Q : β → State κ α → Prop} {E E' : State κ α → Prop} {j : ℕ} (ht : Takes e c n)
    (h : Prog.Meets P c Q E) (hq : ¬ e.Blows j n) :
    Prog.Meets (fun s => P s ∧ s.ops = j) c (fun b s => Q b s ∧ s.ops = j + n) E' :=
  (ht.meets h).conseq (fun _ => id) (fun _ _ hs => hs.1) (fun _ hs => absurd hs.2 hq)

/-- **A stretch of operations in which one throws.** -/
theorem Takes.meets_of_blows {P : State κ α → Prop} {c : Prog (State κ α) β}
    {Q Q' : β → State κ α → Prop} {E : State κ α → Prop} {j : ℕ} (ht : Takes e c n)
    (h : Prog.Meets P c Q E) (hb : e.Blows j n) :
    Prog.Meets (fun s => P s ∧ s.ops = j) c Q' E :=
  (ht.meets h).conseq (fun _ => id) (fun _ _ hs => absurd hb hs.2) (fun _ hs => hs.1)

/-- **The rule of sequences, with a count**: the rest is reached only when none of
the operations threw. -/
theorem Takes.bind_meets {P : State κ α → Prop} {c : Prog (State κ α) β}
    {f : β → Prog (State κ α) γ} {R : β → State κ α → Prop} {Q : γ → State κ α → Prop}
    {E : State κ α → Prop} {j : ℕ} (ht : Takes e c n) (h : Prog.Meets P c R E)
    (hf : ¬ e.Blows j n → ∀ b, Prog.Meets (fun s => R b s ∧ s.ops = j + n) (f b) Q E) :
    Prog.Meets (fun s => P s ∧ s.ops = j) (c >>= f) Q E :=
  Prog.Meets.bind ((ht.meets h).except (fun _ hs => hs.1))
    (fun b => Prog.Meets.of_pre_right (fun hq => hf hq b))

/-! ## Programs without operations on elements -/

/-- **A program that makes no operation on elements that may throw**, unless it
throws for another reason. -/
def Calm {β : Type} (c : Prog (State κ α) β) : Prop :=
  ∀ s, (c s).Permits (fun _ u => u.ops = s.ops) (fun _ => True)

theorem calm_pure (b : β) : Calm (pure b : Prog (State κ α) β) := fun _ => rfl

theorem calm_throw : Calm (Prog.throw : Prog (State κ α) β) := fun _ => trivial

theorem calm_object : Calm (object : Prog (State κ α) κ) := fun _ => rfl

theorem calm_setObject {f : κ → κ} : Calm (setObject f : Prog (State κ α) Unit) := fun _ => rfl

theorem Calm.bind {c : Prog (State κ α) β} {f : β → Prog (State κ α) γ} (hc : Calm c)
    (hf : ∀ b, Calm (f b)) : Calm (c >>= f) := by
  intro s
  show (Prog.bind c f s).Permits _ _
  have hcs := hc s
  unfold Prog.bind
  cases hr : c s with
  | undefined => trivial
  | threw u => trivial
  | done b u =>
    rw [hr] at hcs
    exact (hf b u).imp (fun _ v hv => hv.trans hcs) (fun _ => id)

theorem Calm.onThrow {c : Prog (State κ α) β} {cleanup : Prog (State κ α) Unit} (hc : Calm c) :
    Calm (c.onThrow cleanup) := by
  intro s
  have hcs := hc s
  unfold Prog.onThrow
  cases hr : c s with
  | undefined => trivial
  | threw u =>
    simp only
    cases cleanup u <;> trivial
  | done b u =>
    rw [hr] at hcs
    exact hcs

theorem Calm.ite {p : Prop} [Decidable p] {c d : Prog (State κ α) β} (hc : Calm c) (hd : Calm d) :
    Calm (if p then c else d) := by
  split
  · exact hc
  · exact hd

theorem calm_request : Calm (request e : Prog (State κ α) Unit) := by
  intro s
  unfold request
  split <;> trivial

theorem calm_allocate {a : ℕ} : Calm (allocate e a n : Prog (State κ α) ℕ) := by
  intro s
  unfold allocate
  split
  · trivial
  · cases e.address s.heap n <;> trivial

/-- What is known of the number of the next operation stays known. -/
theorem Calm.meets {P : State κ α → Prop} {c : Prog (State κ α) β} {Q : β → State κ α → Prop}
    {E : State κ α → Prop} {j : ℕ} (hc : Calm c) (h : Prog.Meets P c Q E) :
    Prog.Meets (fun s => P s ∧ s.ops = j) c (fun b s => Q b s ∧ s.ops = j) E := by
  rintro s ⟨hs, rfl⟩
  exact ((h s hs).and_permits (hc s)).imp (fun _ _ hq => hq) (fun _ he => he.1)

end Slots
