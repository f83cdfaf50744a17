import BoostContainer.Lib.SlotUnwind

/-!
# The `uninitialized_*` algorithms

Elements are constructed in raw slots from an iterator, from a value or from
nothing, and when a construction throws, those that were made so far are
destroyed before the exception goes on. Each algorithm is a loop of its own,
with a `catch (...)` of its own; where the bytes of an element are all there is
to it, an overload writes bytes instead, and there is nothing to catch.

All loops remember where they started and destroy from there up to the slot
whose construction threw, but one: `uninitialized_fill_alloc` destroys up to
the end of its range (`unwinds_iff`).
-/

namespace Slots

variable {κ : Type} {α : Type*}

/-! ## The overloads that construct -/

section Algorithms

variable (e : Env α)

/-- `boost::move(*f)` -/
def Source.moveOf : Source α → Source α
  | .copyOf p => .slot p
  | src => src

/-- `for (; back != r; ++back) destroy(a, back);` -/
def destroyBack (back r : ℕ) : Prog (State κ α) Unit := destroyN e back (r - back)

/-- `uninitialized_move_alloc`, where `it` is what an iterator gives at a position. -/
def uninitializedMoveAlloc (it : ℕ → Source α) (f l r : ℕ) : Prog (State κ α) ℕ := do
  let p ← constructEach e (fun f => (it f).moveOf) (destroyBack e r) f r (l - f)
  return p.2

/-- `uninitialized_move_alloc_n` -/
def uninitializedMoveAllocN (it : ℕ → Source α) (f n r : ℕ) : Prog (State κ α) ℕ := do
  let p ← constructEach e (fun f => (it f).moveOf) (destroyBack e r) f r n
  return p.2

/-- `uninitialized_move_alloc_n_source` -/
def uninitializedMoveAllocNSource (it : ℕ → Source α) (f n r : ℕ) : Prog (State κ α) ℕ := do
  let p ← constructEach e (fun f => (it f).moveOf) (destroyBack e r) f r n
  return p.1

/-- `uninitialized_copy_alloc` -/
def uninitializedCopyAlloc (it : ℕ → Source α) (f l r : ℕ) : Prog (State κ α) ℕ := do
  let p ← constructEach e it (destroyBack e r) f r (l - f)
  return p.2

/-- `uninitialized_copy_alloc_n` -/
def uninitializedCopyAllocN (it : ℕ → Source α) (f n r : ℕ) : Prog (State κ α) ℕ := do
  let p ← constructEach e it (destroyBack e r) f r n
  return p.2

/-- `uninitialized_copy_alloc_n_source`. An iterator of its own kind says what
`construct_in_place` makes the element from. -/
def uninitializedCopyAllocNSource (it : ℕ → Source α) (f n r : ℕ) : Prog (State κ α) ℕ := do
  let p ← constructEach e it (destroyBack e r) f r n
  return p.1

/-- `uninitialized_value_init_alloc_n` -/
def uninitializedValueInitAllocN (init : α) (n r : ℕ) : Prog (State κ α) ℕ := do
  let p ← constructEach e (fun _ => .value init) (destroyBack e r) 0 r n
  return p.2

/-- `uninitialized_default_init_alloc_n`. What default initialization gives is any
value. -/
def uninitializedDefaultInitAllocN (init : α) (n r : ℕ) : Prog (State κ α) ℕ := do
  let p ← constructEach e (fun _ => .value init) (destroyBack e r) 0 r n
  return p.2

/-- `uninitialized_fill_alloc`, whose cleanup is
`for (; back != l; ++back) destroy(a, back);` -/
def uninitializedFillAlloc (f l : ℕ) (t : Source α) : Prog (State κ α) Unit := do
  let _ ← constructEach e (fun _ => t) (fun _ => destroyBack e f l) f f (l - f)
  return ()

/-- `uninitialized_fill_alloc_n` -/
def uninitializedFillAllocN (v : Source α) (n r : ℕ) : Prog (State κ α) ℕ := do
  let p ← constructEach e (fun _ => v) (destroyBack e r) 0 r n
  return p.2

end Algorithms

/-! ## The overloads that write bytes -/

/-- **Bytes are written** over `n` slots, which gives them these elements. In a
slot that was raw an element begins to live. -/
def writeElements (dst n : ℕ) (v : Cells α → ℕ → Option α) : Prog (State κ α) Unit := fun s =>
  if ∀ i < n, (v (cells s.heap) i).isSome ∧ (s.heap (dst + i)).isSome then
    .done () { s with
      heap := fun q => if dst ≤ q ∧ q < dst + n
        then (s.heap q).map fun x => { x with element := v (cells s.heap) (q - dst) }
        else s.heap q
      constructed := fun q =>
        if (dst ≤ q ∧ q < dst + n) ∧ shape s.heap q = some false then s.constructed q + 1
        else s.constructed q }
  else .undefined

/-- `std::memmove`, which reads before it writes. -/
def stdMemmove (dst src n : ℕ) : Prog (State κ α) Unit :=
  writeElements dst n (fun c i => c (src + i))

/-- `if (dst && src) std::memmove(dst, src, n);` -/
def memmoveNonNull (dst src n : ℕ) : Prog (State κ α) Unit :=
  if dst ≠ 0 ∧ src ≠ 0 then stdMemmove dst src n else pure ()

/-- `std::memset` with zero, which is the element `zero`. -/
def stdMemset (dst : ℕ) (zero : α) (n : ℕ) : Prog (State κ α) Unit :=
  writeElements dst n (fun _ _ => some zero)

/-- `dtl::memmove` -/
def memmove (f l r : ℕ) : Prog (State κ α) ℕ :=
  if f ≠ l ∧ r ≠ 0 ∧ f ≠ 0 then do
    stdMemmove r f (l - f)
    return r + (l - f)
  else pure r

/-- `memmove_n` -/
def memmoveN (f n r : ℕ) : Prog (State κ α) ℕ :=
  if n ≠ 0 then do
    memmoveNonNull r f n
    return r + n
  else pure r

/-- `memmove_n_source` -/
def memmoveNSource (f n r : ℕ) : Prog (State κ α) ℕ :=
  if n ≠ 0 then do
    memmoveNonNull r f n
    return f + n
  else pure f

/-- `uninitialized_value_init_alloc_n`, where a value is initialized by zero bytes. -/
def memzeroN (zero : α) (n r : ℕ) : Prog (State κ α) ℕ :=
  if n ≠ 0 then do
    stdMemset r zero n
    return r + n
  else pure r

/-! ## Calls -/

/-- **A call of one of the algorithms**, in the overload that the types choose.
Iterators that are moved by bytes are pointers. -/
inductive Call (α : Type*)
  | moveAlloc (it : ℕ → Source α) (f l r : ℕ)
  | moveAllocMem (f l r : ℕ)
  | moveAllocN (it : ℕ → Source α) (f n r : ℕ)
  | moveAllocNMem (f n r : ℕ)
  | moveAllocNSource (it : ℕ → Source α) (f n r : ℕ)
  | moveAllocNSourceMem (f n r : ℕ)
  | copyAlloc (it : ℕ → Source α) (f l r : ℕ)
  | copyAllocMem (f l r : ℕ)
  | copyAllocN (it : ℕ → Source α) (f n r : ℕ)
  | copyAllocNMem (f n r : ℕ)
  | copyAllocNSource (it : ℕ → Source α) (f n r : ℕ)
  | copyAllocNSourceMem (f n r : ℕ)
  | valueInitAllocN (init : α) (n r : ℕ)
  | valueInitAllocNMem (zero : α) (n r : ℕ)
  | defaultInitAllocN (init : α) (n r : ℕ)
  | fillAlloc (f l : ℕ) (t : Source α)
  | fillAllocN (v : Source α) (n r : ℕ)

namespace Call

/-- What a call does; what it returns is left out. -/
def run (e : Env α) : Call α → Prog (State κ α) Unit
  | moveAlloc it f l r => do let _ ← uninitializedMoveAlloc e it f l r; return ()
  | moveAllocMem f l r => do let _ ← memmove f l r; return ()
  | moveAllocN it f n r => do let _ ← uninitializedMoveAllocN e it f n r; return ()
  | moveAllocNMem f n r => do let _ ← memmoveN f n r; return ()
  | moveAllocNSource it f n r => do let _ ← uninitializedMoveAllocNSource e it f n r; return ()
  | moveAllocNSourceMem f n r => do let _ ← memmoveNSource f n r; return ()
  | copyAlloc it f l r => do let _ ← uninitializedCopyAlloc e it f l r; return ()
  | copyAllocMem f l r => do let _ ← memmove f l r; return ()
  | copyAllocN it f n r => do let _ ← uninitializedCopyAllocN e it f n r; return ()
  | copyAllocNMem f n r => do let _ ← memmoveN f n r; return ()
  | copyAllocNSource it f n r => do let _ ← uninitializedCopyAllocNSource e it f n r; return ()
  | copyAllocNSourceMem f n r => do let _ ← memmoveNSource f n r; return ()
  | valueInitAllocN init n r => do let _ ← uninitializedValueInitAllocN e init n r; return ()
  | valueInitAllocNMem zero n r => do let _ ← memzeroN zero n r; return ()
  | defaultInitAllocN init n r => do let _ ← uninitializedDefaultInitAllocN e init n r; return ()
  | fillAlloc f l t => uninitializedFillAlloc e f l t
  | fillAllocN v n r => do let _ ← uninitializedFillAllocN e v n r; return ()

/-- Where a call constructs. -/
def target : Call α → ℕ
  | moveAlloc _ _ _ r | moveAllocMem _ _ r | moveAllocN _ _ _ r | moveAllocNMem _ _ r
  | moveAllocNSource _ _ _ r | moveAllocNSourceMem _ _ r | copyAlloc _ _ _ r
  | copyAllocMem _ _ r | copyAllocN _ _ _ r | copyAllocNMem _ _ r | copyAllocNSource _ _ _ r
  | copyAllocNSourceMem _ _ r | valueInitAllocN _ _ r | valueInitAllocNMem _ _ r
  | defaultInitAllocN _ _ r | fillAllocN _ _ r => r
  | fillAlloc f _ _ => f

/-- How many elements it constructs. -/
def length : Call α → ℕ
  | moveAlloc _ f l _ | moveAllocMem f l _ | copyAlloc _ f l _ | copyAllocMem f l _
  | fillAlloc f l _ => l - f
  | moveAllocN _ _ n _ | moveAllocNMem _ n _ | moveAllocNSource _ _ n _
  | moveAllocNSourceMem _ n _ | copyAllocN _ _ n _ | copyAllocNMem _ n _
  | copyAllocNSource _ _ n _ | copyAllocNSourceMem _ n _ | valueInitAllocN _ n _
  | valueInitAllocNMem _ n _ | defaultInitAllocN _ n _ | fillAllocN _ n _ => n

/-- Where it starts to read. -/
def first : Call α → ℕ
  | moveAlloc _ f _ _ | moveAllocMem f _ _ | moveAllocN _ f _ _ | moveAllocNMem f _ _
  | moveAllocNSource _ f _ _ | moveAllocNSourceMem f _ _ | copyAlloc _ f _ _
  | copyAllocMem f _ _ | copyAllocN _ f _ _ | copyAllocNMem f _ _ | copyAllocNSource _ f _ _
  | copyAllocNSourceMem f _ _ | fillAlloc f _ _ => f
  | valueInitAllocN _ _ _ | valueInitAllocNMem _ _ _ | defaultInitAllocN _ _ _
  | fillAllocN _ _ _ => 0

/-- What it makes an element from. -/
def srcs : Call α → ℕ → Source α
  | moveAlloc it _ _ _ | moveAllocN it _ _ _ | moveAllocNSource it _ _ _ => fun f => (it f).moveOf
  | copyAlloc it _ _ _ | copyAllocN it _ _ _ | copyAllocNSource it _ _ _ => it
  | moveAllocMem _ _ _ | moveAllocNMem _ _ _ | moveAllocNSourceMem _ _ _ | copyAllocMem _ _ _
  | copyAllocNMem _ _ _ | copyAllocNSourceMem _ _ _ => .copyOf
  | valueInitAllocN v _ _ | valueInitAllocNMem v _ _ | defaultInitAllocN v _ _ =>
    fun _ => .value v
  | fillAlloc _ _ t => fun _ => t
  | fillAllocN v _ _ => fun _ => v

/-- Whether it constructs elements, and does not only write bytes. -/
def Constructs : Call α → Prop
  | moveAllocMem _ _ _ | moveAllocNMem _ _ _ | moveAllocNSourceMem _ _ _ | copyAllocMem _ _ _
  | copyAllocNMem _ _ _ | copyAllocNSourceMem _ _ _ | valueInitAllocNMem _ _ _ => False
  | _ => True

/-- `uninitialized_fill_alloc` -/
def IsFillAlloc : Call α → Prop
  | fillAlloc _ _ _ => True
  | _ => False

/-- The `catch (...)` of an algorithm. -/
def cleanup (e : Env α) : Call α → ℕ → Prog (State κ α) Unit
  | fillAlloc f l _ => fun _ => destroyBack e f l
  | c => destroyBack e c.target

/-- **A state a call may be made in**: the slots are raw, and what is read is there. -/
def ReadyIn (c : Call α) (s : State κ α) : Prop := Ready c.srcs c.first c.target c.length s

/-- **The construction of element `k` throws**, in a call made in this state. -/
def Throws (e : Env α) (c : Call α) (s : State κ α) (k : ℕ) : Prop :=
  c.Constructs ∧ k < c.length ∧ e.fuse = some (s.ops + k)

/-- **A call unwinds**: when the construction of element `k` throws, the exception
goes on, and exactly the `k` elements made before it were destroyed. Nothing
else throws. -/
def Unwinds (e : Env α) (c : Call α) (s : State κ α) : Prop :=
  (∀ k, c.Throws e s k →
    ∃ t, c.run e s = .threw t ∧ TakenBack c.srcs c.first c.target k s t)
  ∧ ((∀ k, ¬ c.Throws e s k) → ∀ t, c.run e s ≠ .threw t)

variable {e : Env α} {c : Call α} {s t u : State κ α} {k : ℕ}

/-! ## Calls that construct -/

/-- The results of a loop are not looked at. -/
theorem forget_bind {β γ : Type} (a : Prog (State κ α) β) (g : β → γ) :
    ((a >>= fun b => (pure (g b) : Prog (State κ α) γ)) >>= fun _ => pure ())
      = (a >>= fun _ => (pure () : Prog (State κ α) Unit)) := by
  rw [Prog.bind_assoc]
  rfl

/-- **All algorithms are one loop**, with their own cleanups. -/
theorem run_eq (hc : c.Constructs) :
    (c.run e : Prog (State κ α) Unit)
      = (constructEach e c.srcs (c.cleanup e) c.first c.target c.length >>= fun _ => pure ()) := by
  cases c with
  | moveAlloc it f l r => exact forget_bind _ _
  | moveAllocN it f n r => exact forget_bind _ _
  | moveAllocNSource it f n r => exact forget_bind _ _
  | copyAlloc it f l r => exact forget_bind _ _
  | copyAllocN it f n r => exact forget_bind _ _
  | copyAllocNSource it f n r => exact forget_bind _ _
  | valueInitAllocN init n r => exact forget_bind _ _
  | defaultInitAllocN init n r => exact forget_bind _ _
  | fillAlloc f l t => rfl
  | fillAllocN v n r => exact forget_bind _ _
  | moveAllocMem f l r => exact hc.elim
  | moveAllocNMem f n r => exact hc.elim
  | moveAllocNSourceMem f n r => exact hc.elim
  | copyAllocMem f l r => exact hc.elim
  | copyAllocNMem f n r => exact hc.elim
  | copyAllocNSourceMem f n r => exact hc.elim
  | valueInitAllocNMem zero n r => exact hc.elim

/-- All but one clean up what they constructed. -/
theorem cleanup_eq (hf : ¬ c.IsFillAlloc) :
    (c.cleanup e : ℕ → Prog (State κ α) Unit) = destroyBack e c.target := by
  cases c with
  | fillAlloc f l t => exact absurd trivial hf
  | _ => rfl

/-- **A call up to the construction that throws.** -/
theorem run_throws (hs : c.ReadyIn s) (hk : c.Throws e s k) :
    ∃ t, Built c.srcs c.first c.target k s t ∧ c.run e s
      = (Prog.throw : Prog (State κ α) Unit).onThrow (c.cleanup e (c.target + k))
        { t with ops := t.ops + 1 } := by
  obtain ⟨t, ht, hrun⟩ := constructEach_throws (c.cleanup e) hs hk.2.1 hk.2.2
  refine ⟨t, ht, ?_⟩
  rw [run_eq hk.1]
  exact Prog.bind_of_throw_onThrow hrun

theorem takes_constructEach {srcs : ℕ → Source α} {cleanup : ℕ → Prog (State κ α) Unit}
    {f r n : ℕ} : Takes e (constructEach e srcs cleanup f r n) n := by
  induction n generalizing f r with
  | zero => exact takes_pure _
  | succ n ih =>
    have h : Takes e (constructEach e srcs cleanup f r (n + 1)) (1 + n) :=
      takes_construct.onThrow.bind (fun _ => ih)
    rwa [Nat.add_comm 1 n] at h

/-! ## Calls that write bytes -/

theorem writeElements_ne_threw {dst n : ℕ} {v : Cells α → ℕ → Option α} :
    writeElements dst n v s ≠ .threw t := by
  unfold writeElements
  split
  · exact Outcome.done_ne_threw
  · exact Outcome.undefined_ne_threw

theorem memmove_ne_threw (f l r : ℕ) (s t : State κ α) : memmove f l r s ≠ .threw t := by
  unfold memmove
  split
  · exact Prog.bind_ne_threw (fun _ _ => writeElements_ne_threw) (fun _ => Prog.pure_ne_threw _) s t
  · exact Prog.pure_ne_threw _ s t

theorem memmoveNonNull_ne_threw {dst src n : ℕ} (s t : State κ α) :
    memmoveNonNull dst src n s ≠ .threw t := by
  unfold memmoveNonNull
  split
  · exact writeElements_ne_threw
  · exact Prog.pure_ne_threw _ s t

theorem memmoveN_ne_threw (f n r : ℕ) (s t : State κ α) : memmoveN f n r s ≠ .threw t := by
  unfold memmoveN
  split
  · exact Prog.bind_ne_threw memmoveNonNull_ne_threw (fun _ => Prog.pure_ne_threw _) s t
  · exact Prog.pure_ne_threw _ s t

theorem memmoveNSource_ne_threw (f n r : ℕ) (s t : State κ α) :
    memmoveNSource f n r s ≠ .threw t := by
  unfold memmoveNSource
  split
  · exact Prog.bind_ne_threw memmoveNonNull_ne_threw (fun _ => Prog.pure_ne_threw _) s t
  · exact Prog.pure_ne_threw _ s t

theorem memzeroN_ne_threw (zero : α) (n r : ℕ) (s t : State κ α) :
    memzeroN zero n r s ≠ .threw t := by
  unfold memzeroN
  split
  · exact Prog.bind_ne_threw (fun _ _ => writeElements_ne_threw) (fun _ => Prog.pure_ne_threw _) s t
  · exact Prog.pure_ne_threw _ s t

/-- **Bytes are written without an exception.** -/
theorem run_ne_threw_of_not_constructs (hc : ¬ c.Constructs) (s t : State κ α) :
    c.run e s ≠ .threw t := by
  cases c with
  | moveAllocMem f l r =>
    exact Prog.bind_ne_threw (memmove_ne_threw f l r) (fun _ => Prog.pure_ne_threw ()) s t
  | moveAllocNMem f n r =>
    exact Prog.bind_ne_threw (memmoveN_ne_threw f n r) (fun _ => Prog.pure_ne_threw ()) s t
  | moveAllocNSourceMem f n r =>
    exact Prog.bind_ne_threw (memmoveNSource_ne_threw f n r) (fun _ => Prog.pure_ne_threw ()) s t
  | copyAllocMem f l r =>
    exact Prog.bind_ne_threw (memmove_ne_threw f l r) (fun _ => Prog.pure_ne_threw ()) s t
  | copyAllocNMem f n r =>
    exact Prog.bind_ne_threw (memmoveN_ne_threw f n r) (fun _ => Prog.pure_ne_threw ()) s t
  | copyAllocNSourceMem f n r =>
    exact Prog.bind_ne_threw (memmoveNSource_ne_threw f n r) (fun _ => Prog.pure_ne_threw ()) s t
  | valueInitAllocNMem zero n r =>
    exact Prog.bind_ne_threw (memzeroN_ne_threw zero n r) (fun _ => Prog.pure_ne_threw ()) s t
  | _ => exact absurd trivial hc

/-- **Only a construction throws.** -/
theorem run_ne_threw (h : ∀ k, ¬ c.Throws e s k) : c.run e s ≠ .threw t := by
  by_cases hc : c.Constructs
  · rw [run_eq hc]
    have htakes : Takes e (constructEach e c.srcs (c.cleanup e) c.first c.target c.length
        >>= fun _ => (pure () : Prog (State κ α) Unit)) (c.length + 0) :=
      takes_constructEach.bind (fun _ => takes_pure ())
    have hends := htakes s
    intro hthrew
    rw [hthrew] at hends
    obtain ⟨i, hi, hin, hfuse⟩ := hends
    refine h (i - s.ops) ⟨hc, by omega, ?_⟩
    rw [hfuse]
    congr 1
    omega
  · exact run_ne_threw_of_not_constructs hc s t

/-! ## What is destroyed -/

/-- **The cleanup that stops at the failure** takes back what was constructed. -/
theorem takenBack_of_destroyBack (hs : c.ReadyIn s) (hk : c.Throws e s k)
    (hf : ¬ c.IsFillAlloc) :
    ∃ t, c.run e s = .threw t ∧ TakenBack c.srcs c.first c.target k s t := by
  obtain ⟨t, ht, hrun⟩ := run_throws hs hk
  refine ⟨_, ?_, ht.takenBack (hs.mono hk.2.1.le)⟩
  have hdestroy : destroyBack e c.target (c.target + k) { t with ops := t.ops + 1 }
      = .done () { t with
        ops := t.ops + 1
        heap := rawRange t.heap c.target k
        destroyed := fun q => t.destroyed q + within c.target k q } := by
    rw [destroyBack, Nat.add_sub_cancel_left]
    exact destroyN_eq ht.destroyable
  rw [hrun, cleanup_eq hf]
  exact Prog.throw_onThrow_of_done hdestroy

/-- **The cleanup that goes on to the end** destroys what was not constructed. -/
theorem not_takenBack_of_fillAlloc {f l : ℕ} {v : Source α}
    (hs : (fillAlloc f l v).ReadyIn s) (hk : (fillAlloc f l v).Throws e s k) (u : State κ α) :
    ¬ ((fillAlloc f l v).run e s = .threw u
      ∧ TakenBack (fillAlloc f l v).srcs f f k s u) := by
  rintro ⟨hthrew, hback⟩
  obtain ⟨t, ht, hrun⟩ := run_throws hs hk
  have hlen : k < l - f := hk.2.1
  have hrest : ∀ j, k ≤ j → j < l - f → shape t.heap (f + j) = some false := by
    intro j hkj hj
    rw [ht.kept (f + j) (Or.inr (Nat.add_le_add_left hkj f))]
    exact hs.raw j hj
  rw [hthrew] at hrun
  cases htriv : e.trivialDestructor with
  | false =>
    have hundef : destroyBack e f l { t with ops := t.ops + 1 } = .undefined :=
      destroyN_undefined htriv hlen ht.filled (hrest k le_rfl hlen)
    exact Outcome.undefined_ne_threw (hrun.trans (Prog.throw_onThrow_of_undefined hundef)).symm
  | true =>
    have hall : ∀ j < l - f, Destroyable e t.heap (f + j) := by
      intro j hj
      by_cases hjk : j < k
      · exact Or.inl (ht.filled j hjk)
      · refine Or.inr ⟨htriv, ?_⟩
        rw [hrest j (by omega) hj]
        exact Option.some_ne_none _
    have hdone : destroyBack e f l { t with ops := t.ops + 1 } = .done () { t with
        ops := t.ops + 1
        heap := rawRange t.heap f (l - f)
        destroyed := fun q => t.destroyed q + within f (l - f) q } := destroyN_eq hall
    have heq := Outcome.threw.inj (hrun.trans (Prog.throw_onThrow_of_done hdone))
    -- the slot whose construction threw was destroyed
    have hcount := hback.destroyed_eq (f + k)
    rw [heq] at hcount
    simp only [ht.destroyed_eq, within] at hcount
    rw [if_pos (by omega), if_neg (by omega)] at hcount
    omega

/-- **The algorithms unwind**, but `uninitialized_fill_alloc`, which does not
where a construction throws. -/
theorem unwinds_iff (hs : c.ReadyIn s) :
    c.Unwinds e s ↔ ¬ (c.IsFillAlloc ∧ ∃ k, c.Throws e s k) := by
  constructor
  · rintro ⟨hunwinds, _⟩ ⟨hfill, k, hk⟩
    obtain ⟨t, hrun, hback⟩ := hunwinds k hk
    cases c with
    | fillAlloc f l v => exact not_takenBack_of_fillAlloc hs hk t ⟨hrun, hback⟩
    | _ => exact hfill
  · intro h
    refine ⟨fun k hk => takenBack_of_destroyBack hs hk (fun hf => h ⟨hf, k, hk⟩), ?_⟩
    exact fun hnone t => run_ne_threw hnone

/-- Three raw slots. -/
def threeRaw : State Unit ℕ :=
  State.start (fun p => if 1 ≤ p ∧ p < 4 then some ⟨0, none⟩ else none) ()

/-- The second operation throws. -/
def secondThrows : Env ℕ := ⟨some 1, none, fun _ _ => none, id, false⟩

theorem threeRaw_raw {j : ℕ} (hj : j < 3) : shape threeRaw.heap (1 + j) = some false := by
  have hin : 1 ≤ 1 + j ∧ 1 + j < 4 := by omega
  show Option.map _ (if 1 ≤ 1 + j ∧ 1 + j < 4 then _ else _) = _
  rw [if_pos hin]
  rfl

/-- Of three copies the second throws, and the first is destroyed. -/
theorem copyAllocN_unwinds_of_three :
    (copyAllocN .value 0 3 1 : Call ℕ).Unwinds secondThrows threeRaw := by
  have hready : (copyAllocN .value 0 3 1 : Call ℕ).ReadyIn threeRaw :=
    ⟨fun _ hj => threeRaw_raw hj, fun _ _ => trivial⟩
  exact (unwinds_iff hready).mpr (fun h => h.1)

/-- **Of three elements filled in, the second throws**: the cleanup destroys a
second and a third that were never made. -/
theorem fillAlloc_destroys_to_the_end :
    (fillAlloc 1 4 (.value 7) : Call ℕ).ReadyIn threeRaw
      ∧ (fillAlloc 1 4 (.value 7) : Call ℕ).run secondThrows threeRaw = .undefined
      ∧ ¬ (fillAlloc 1 4 (.value 7) : Call ℕ).Unwinds secondThrows threeRaw := by
  have hundef : (fillAlloc 1 4 (.value 7) : Call ℕ).run secondThrows threeRaw = .undefined := rfl
  refine ⟨⟨fun _ hj => threeRaw_raw hj, fun _ _ => trivial⟩, hundef, fun h => ?_⟩
  obtain ⟨t, hrun, -⟩ := h.1 1 ⟨trivial, by decide, rfl⟩
  rw [hundef] at hrun
  exact Outcome.undefined_ne_threw hrun

end Call

end Slots
