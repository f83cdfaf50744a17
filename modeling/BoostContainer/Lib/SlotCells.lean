import BoostContainer.Lib.SlotValues

/-!
# What the slots hold

The values of elements do not depend on how their lifetimes are kept: a
program turns what the slots hold into what they hold afterwards, whatever was
promised about them. `Turns` says by which function, for every state in which
the program returns. Programs that follow one another compose, so what an
algorithm does to the values is read off its loops, one function for each:
elements that are moved, slots that are filled, slots that are made raw.

Where nothing throws, a guard does nothing, and a program is the sequence of
its loops (`Quiet`).
-/

namespace Slots

variable {κ : Type} {α : Type*}

/-- **What every slot holds.** -/
abbrev Cells (α : Type*) := ℕ → Option α

/-- What the slots of a heap hold. -/
def cells (h : Heap (Slot α)) : Cells α := fun p => (h p).bind Slot.element

/-- The value that is read. -/
def Source.readIn (c : Cells α) : Source α → Option α
  | .value v => some v
  | .slot p => c p
  | .copyOf p => c p
  | .temporary v => some v

/-- What moving leaves behind. -/
def Source.spendIn (e : Env α) (c : Cells α) : Source α → Cells α
  | .slot p => Function.update c p ((c p).map e.moved)
  | _ => c

/-- A source outside the slots. -/
def Source.External : Source α → Prop
  | .value _ => True
  | .temporary _ => True
  | _ => False

/-- **Sources that can be read one after the other**: all of them are outside the
slots, or all are copies of one element. -/
def Steady (srcs : List (Source α)) : Prop :=
  (∀ src ∈ srcs, src.External) ∨ ∃ p, ∀ src ∈ srcs, src = .copyOf p

variable {e : Env α} {f r n p q l rl : ℕ} {src : Source α} {srcs : List (Source α)} {c : Cells α}

theorem Source.External.readIn_eq (h : src.External) (c c' : Cells α) :
    src.readIn c = src.readIn c' := by
  cases src with
  | value v => rfl
  | temporary v => rfl
  | slot p => exact h.elim
  | copyOf p => exact h.elim

theorem Source.External.spendIn_eq (h : src.External) (e : Env α) (c : Cells α) :
    src.spendIn e c = c := by
  cases src with
  | value v => rfl
  | temporary v => rfl
  | slot p => exact h.elim
  | copyOf p => exact h.elim

/-- An element that is read from outside is as readable as can be. -/
theorem Source.External.readable (h : src.External) {live : Set ℕ} : src.Readable live := by
  cases src with
  | value v => trivial
  | temporary v => trivial
  | slot p => exact h.elim
  | copyOf p => exact h.elim

theorem Steady.sublist {srcs' : List (Source α)} (h : Steady srcs) (hs : srcs'.Sublist srcs) :
    Steady srcs' := by
  rcases h with h | ⟨p, h⟩
  · exact Or.inl (fun src hsrc => h src (hs.subset hsrc))
  · exact Or.inr ⟨p, fun src hsrc => h src (hs.subset hsrc)⟩

theorem Steady.take (h : Steady srcs) (n : ℕ) : Steady (srcs.take n) :=
  h.sublist (List.take_sublist n srcs)

theorem Steady.drop (h : Steady srcs) (n : ℕ) : Steady (srcs.drop n) :=
  h.sublist (List.drop_sublist n srcs)

/-- Nothing is moved from. -/
theorem Steady.spendIn_eq (h : Steady srcs) (hsrc : src ∈ srcs) (e : Env α) (c : Cells α) :
    src.spendIn e c = c := by
  rcases h with h | ⟨p, h⟩
  · exact (h src hsrc).spendIn_eq e c
  · rw [h src hsrc]
    rfl

theorem steady_values (vs : List α) : Steady (vs.map Source.value) :=
  Or.inl (fun src hsrc => by
    obtain ⟨v, -, rfl⟩ := List.mem_map.mp hsrc
    trivial)

theorem steady_replicate (n p : ℕ) : Steady (List.replicate n (Source.copyOf p : Source α)) :=
  Or.inr ⟨p, fun _ hsrc => List.eq_of_mem_replicate hsrc⟩

theorem Source.read_eq (h : Heap (Slot α)) : src.read h = src.readIn (cells h) := by
  cases src <;> rfl

theorem cells_update (h : Heap (Slot α)) (p : ℕ) (slot : Slot α) :
    cells (Function.update h p (some slot)) = Function.update (cells h) p slot.element := by
  funext q
  by_cases hq : q = p
  · subst hq
    simp [cells]
  · simp [cells, Function.update_of_ne hq]

theorem cells_spend (h : Heap (Slot α)) : cells (src.spend e h) = src.spendIn e (cells h) := by
  cases src with
  | value v => rfl
  | copyOf p => rfl
  | temporary v => rfl
  | slot p =>
    funext q
    by_cases hq : q = p
    · subst hq
      cases hs : h q <;> simp [cells, Source.spend, Source.spendIn, hs]
    · simp [cells, Source.spend, Source.spendIn, Function.update_of_ne hq]

/-! ## Functions of cells -/

/-- `n` elements are moved, from `f` on to `r` on. -/
def moveCells (e : Env α) (f r n : ℕ) (c : Cells α) : Cells α := fun q =>
  if r ≤ q ∧ q < r + n then c (f + (q - r))
  else if f ≤ q ∧ q < f + n then (c q).map e.moved
  else c q

/-- Slots from `r` on are filled. -/
def fillCells (r : ℕ) (srcs : List (Source α)) (c : Cells α) : Cells α := fun q =>
  if r ≤ q ∧ q < r + srcs.length then (srcs[q - r]?).bind (Source.readIn c) else c q

/-- `n` slots from `p` on are made raw. -/
def clearCells (p n : ℕ) (c : Cells α) : Cells α := fun q =>
  if p ≤ q ∧ q < p + n then none else c q

theorem moveCells_zero : moveCells e f r 0 c = c := by
  funext q
  rw [moveCells, if_neg (by omega), if_neg (by omega)]

theorem moveCells_of_mem (hq : r ≤ q) (hq' : q < r + n) :
    moveCells e f r n c q = c (f + (q - r)) := if_pos ⟨hq, hq'⟩

theorem moveCells_of_notMem (hr : q < r ∨ r + n ≤ q) (hf : q < f ∨ f + n ≤ q) :
    moveCells e f r n c q = c q := by
  rw [moveCells, if_neg (by omega), if_neg (by omega)]

theorem moveCells_of_spent (hr : q < r ∨ r + n ≤ q) (hf : f ≤ q) (hf' : q < f + n) :
    moveCells e f r n c q = (c q).map e.moved := by
  rw [moveCells, if_neg (by omega), if_pos ⟨hf, hf'⟩]

theorem fillCells_nil : fillCells r [] c = c := by
  funext q
  rw [fillCells, List.length_nil, if_neg (by omega)]

theorem fillCells_of_mem (hq : r ≤ q) (hq' : q < r + srcs.length) :
    fillCells r srcs c q = (srcs[q - r]?).bind (Source.readIn c) := if_pos ⟨hq, hq'⟩

theorem fillCells_of_notMem (hq : q < r ∨ r + srcs.length ≤ q) : fillCells r srcs c q = c q :=
  if_neg (by omega)

theorem clearCells_of_notMem (hq : q < p ∨ p + n ≤ q) : clearCells p n c q = c q :=
  if_neg (by omega)

theorem clearCells_of_mem (hq : p ≤ q) (hq' : q < p + n) : clearCells p n c q = none :=
  if_pos ⟨hq, hq'⟩

/-- Elements that are moved nowhere stay. -/
theorem moveCells_self : moveCells e f f n c = c := by
  funext q
  unfold moveCells
  split
  · rw [Nat.add_sub_cancel' (by omega)]
  · rfl

/-- **Moving towards the front in two steps**, the front first. -/
theorem moveCells_moveCells_of_le {m : ℕ} (h : r ≤ f) :
    moveCells e (f + m) (r + m) n (moveCells e f r m c) = moveCells e f r (m + n) c := by
  rcases Nat.eq_or_lt_of_le h with rfl | h
  · rw [moveCells_self, moveCells_self, moveCells_self]
  funext q
  by_cases hr : r ≤ q ∧ q < r + (m + n)
  · rw [moveCells_of_mem hr.1 hr.2]
    by_cases hm : q < r + m
    · rw [moveCells_of_notMem (by omega) (by omega), moveCells_of_mem hr.1 hm]
    · have hidx : f + m + (q - (r + m)) = f + (q - r) := by omega
      rw [moveCells_of_mem (by omega) (by omega), hidx, moveCells_of_notMem (by omega) (by omega)]
  · by_cases hf : f ≤ q ∧ q < f + (m + n)
    · rw [moveCells_of_spent (by omega) hf.1 hf.2]
      by_cases hm : q < f + m
      · rw [moveCells_of_notMem (by omega) (by omega), moveCells_of_spent (by omega) hf.1 hm]
      · rw [moveCells_of_spent (by omega) (by omega) (by omega),
          moveCells_of_notMem (by omega) (by omega)]
    · rw [moveCells_of_notMem (by omega) (by omega), moveCells_of_notMem (by omega) (by omega),
        moveCells_of_notMem (by omega) (by omega)]

/-- **Moving towards the back in two steps**, the back first. -/
theorem moveCells_moveCells_of_ge {m : ℕ} (h : f ≤ r) :
    moveCells e f r n (moveCells e (f + n) (r + n) m c) = moveCells e f r (n + m) c := by
  rcases Nat.eq_or_lt_of_le h with rfl | h
  · rw [moveCells_self, moveCells_self, moveCells_self]
  funext q
  by_cases hr : r ≤ q ∧ q < r + (n + m)
  · rw [moveCells_of_mem hr.1 hr.2]
    by_cases hn : q < r + n
    · rw [moveCells_of_mem hr.1 hn, moveCells_of_notMem (by omega) (by omega)]
    · have hidx : f + n + (q - (r + n)) = f + (q - r) := by omega
      rw [moveCells_of_notMem (by omega) (by omega), moveCells_of_mem (by omega) (by omega), hidx]
  · by_cases hf : f ≤ q ∧ q < f + (n + m)
    · rw [moveCells_of_spent (by omega) hf.1 hf.2]
      by_cases hn : q < f + n
      · rw [moveCells_of_spent (by omega) hf.1 hn, moveCells_of_notMem (by omega) (by omega)]
      · rw [moveCells_of_notMem (by omega) (by omega),
          moveCells_of_spent (by omega) (by omega) (by omega)]
    · rw [moveCells_of_notMem (by omega) (by omega), moveCells_of_notMem (by omega) (by omega),
        moveCells_of_notMem (by omega) (by omega)]

/-- Copies of one element leave it as it is. -/
theorem fillCells_of_copies (h : ∀ src ∈ srcs, src = .copyOf p) : fillCells r srcs c p = c p := by
  by_cases hin : r ≤ p ∧ p < r + srcs.length
  · rw [fillCells_of_mem hin.1 hin.2, List.getElem?_eq_getElem (by omega), Option.bind_some,
      h _ (List.getElem_mem _)]
    rfl
  · exact fillCells_of_notMem (by omega)

/-- What steady sources give does not depend on what was filled from them. -/
theorem Steady.readIn_fillCells (h : Steady srcs) {m : ℕ} (hsrc : src ∈ srcs) :
    src.readIn (fillCells r (srcs.take m) c) = src.readIn c := by
  rcases h with h | ⟨p, h⟩
  · exact (h src hsrc).readIn_eq _ _
  · rw [h src hsrc]
    exact fillCells_of_copies (fun src' hsrc' => h src' (List.mem_of_mem_take hsrc'))

/-- **Filling in two steps.** -/
theorem fillCells_fillCells (h : Steady srcs) {m : ℕ} (hm : m ≤ srcs.length) :
    fillCells (r + m) (srcs.drop m) (fillCells r (srcs.take m) c) = fillCells r srcs c := by
  have htake : (srcs.take m).length = m := List.length_take_of_le hm
  have hdrop : (srcs.drop m).length = srcs.length - m := List.length_drop
  funext q
  by_cases hin : r ≤ q ∧ q < r + srcs.length
  · rw [fillCells_of_mem hin.1 hin.2]
    by_cases hlt : q < r + m
    · rw [fillCells_of_notMem (by omega), fillCells_of_mem hin.1 (by omega),
        List.getElem?_take_of_lt (by omega)]
    · have hidx : m + (q - (r + m)) = q - r := by omega
      rw [fillCells_of_mem (by omega) (by omega), List.getElem?_drop, hidx,
        List.getElem?_eq_getElem (by omega), Option.bind_some, Option.bind_some]
      exact h.readIn_fillCells (List.getElem_mem _)
  · rw [fillCells_of_notMem (by omega), fillCells_of_notMem (by omega),
      fillCells_of_notMem (by omega)]

/-- The same, where not everything is filled. -/
theorem fillCells_take (h : Steady srcs) {l m : ℕ} (hl : l ≤ srcs.length) :
    fillCells (r + l) ((srcs.drop l).take m) (fillCells r (srcs.take l) c)
      = fillCells r (srcs.take (l + m)) c := by
  have htwo := @fillCells_fillCells α r (srcs.take (l + m)) c (h.take _) l
    (by rw [List.length_take]; omega)
  rwa [List.take_take, Nat.min_eq_left (Nat.le_add_right _ _), List.drop_take,
    Nat.add_sub_cancel_left] at htwo

/-! ## Programs as functions of cells -/

/-- **A program turns the cells by a function**, if it returns. -/
def Turns {β : Type} (c : Prog (State κ α) β) (F : Cells α → Cells α) : Prop :=
  ∀ s, (c s).Permits (fun _ t => cells t.heap = F (cells s.heap)) (fun _ => True)

section Turns

variable {β γ : Type} {F G : Cells α → Cells α}

theorem turns_pure (b : β) : Turns (pure b : Prog (State κ α) β) id := fun _ => rfl

theorem Turns.congr {a : Prog (State κ α) β} (h : Turns a F) (hFG : ∀ c, F c = G c) :
    Turns a G :=
  fun s => (h s).imp (fun _ _ ht => ht.trans (hFG _)) (fun _ => id)

theorem Turns.bind {a : Prog (State κ α) β} {k : β → Prog (State κ α) γ} (h : Turns a F)
    (hk : ∀ b, Turns (k b) G) : Turns (a >>= k) (G ∘ F) := by
  intro s
  refine Prog.bind_permits (h s) (fun b t ht => (hk b t).imp (fun _ u hu => ?_) (fun _ => id))
  rw [hu, ht]
  rfl

theorem Turns.ite {p : Prop} [Decidable p] {a b : Prog (State κ α) β} (ha : Turns a F)
    (hb : Turns b G) : Turns (if p then a else b) (if p then F else G) := by
  split
  · exact ha
  · exact hb

/-- A guard changes nothing where the program returns. -/
theorem Turns.onThrow {a : Prog (State κ α) β} {cl : Prog (State κ α) Unit} (h : Turns a F) :
    Turns (a.onThrow cl) F :=
  fun s => Prog.onThrow_permits (h s) (fun t _ => by cases cl t <;> trivial)

theorem turns_tick : Turns (tick e : Prog (State κ α) Unit) id := by
  intro s
  unfold tick
  split <;> trivial

theorem turns_construct : Turns (construct e p src : Prog (State κ α) Unit)
    (fun c => src.spendIn e (Function.update c p (src.readIn c))) := by
  intro s
  unfold construct
  split
  · rename_i slot v hslot hv
    split
    · trivial
    · split
      · trivial
      · show cells (src.spend e (Function.update _ _ _)) = Source.spendIn _ _ _
        rw [cells_spend, cells_update, ← Source.read_eq, hv]
  · trivial

theorem turns_assign : Turns (assign e p src : Prog (State κ α) Unit)
    (fun c => src.spendIn e (Function.update c p (src.readIn c))) := by
  have htemp : Turns (makeTemporary e src : Prog (State κ α) Unit) id := by
    cases src with
    | temporary v => exact turns_tick
    | copyOf q => exact turns_pure ()
    | value v => exact turns_pure ()
    | slot q => exact turns_pure ()
  have hassign : Turns (assignFrom e p src : Prog (State κ α) Unit)
      (fun c => src.spendIn e (Function.update c p (src.readIn c))) := by
    intro s
    unfold assignFrom
    split
    · rename_i slot v hslot hv
      split
      · trivial
      · split
        · trivial
        · show cells (src.spend e (Function.update _ _ _)) = Source.spendIn _ _ _
          rw [cells_spend, cells_update, ← Source.read_eq, hv]
    · trivial
  exact htemp.bind (fun _ => hassign)

theorem turns_destroy : Turns (destroy e p : Prog (State κ α) Unit)
    (fun c => Function.update c p none) := by
  intro s
  unfold destroy
  split
  · split
    · trivial
    · exact cells_update _ _ _
  · trivial

theorem turns_object : Turns (object : Prog (State κ α) κ) id := fun _ => rfl

/-- A program that reads the object first. -/
theorem Turns.object_bind {k : κ → Prog (State κ α) β} {s : State κ α} (h : Turns (k s.object) F) :
    ((object >>= k) s).Permits (fun _ t => cells t.heap = F (cells s.heap)) (fun _ => True) :=
  h s

theorem turns_setObject {g : κ → κ} : Turns (setObject g : Prog (State κ α) Unit) id :=
  fun _ => rfl

/-- Memory that is allocated holds nothing, as before. -/
theorem keeps_cells_allocate {a : ℕ} :
    Prog.Keeps (fun s => cells s.heap) (allocate e a n : Prog (State κ α) ℕ) := by
  intro s
  unfold allocate
  split
  · rfl
  cases e.address s.heap n with
  | none => rfl
  | some p =>
    obtain ⟨p, -, hnone⟩ := p
    funext q
    show (setRange s.heap p n (some ⟨a, none⟩) q).bind Slot.element = (s.heap q).bind Slot.element
    by_cases hq : p ≤ q ∧ q < p + n
    · rw [setRange, if_pos hq, hnone q hq]
      rfl
    · rw [setRange, if_neg hq]

theorem turns_allocate {a : ℕ} : Turns (allocate e a n : Prog (State κ α) ℕ) id :=
  fun s => (keeps_cells_allocate s).imp (fun _ _ => id) (fun _ _ => trivial)

theorem turns_deallocate : Turns (deallocate p n : Prog (State κ α) Unit) (clearCells p n) := by
  intro s
  unfold deallocate
  split
  · funext q
    show (setRange s.heap p n none q).bind Slot.element = clearCells p n (cells s.heap) q
    unfold setRange clearCells
    split
    · rfl
    · rfl
  · trivial

theorem turns_destroyN : Turns (destroyN e p n : Prog (State κ α) Unit) (clearCells p n) := by
  induction n generalizing p with
  | zero =>
    refine (turns_pure ()).congr (fun c => ?_)
    funext q
    exact (clearCells_of_notMem (by omega)).symm
  | succ n ih =>
    refine (turns_destroy.bind (fun _ => ih)).congr (fun c => ?_)
    funext q
    show clearCells (p + 1) n (Function.update c p none) q = _
    by_cases hq : q = p
    · rw [hq, clearCells_of_notMem (by omega), clearCells_of_mem le_rfl (by omega),
        Function.update_self]
    · by_cases hq' : p ≤ q ∧ q < p + (n + 1)
      · rw [clearCells_of_mem (by omega) (by omega), clearCells_of_mem hq'.1 hq'.2]
      · rw [clearCells_of_notMem (by omega), clearCells_of_notMem (by omega),
          Function.update_of_ne hq]

/-- One element is moved, and then the others. -/
theorem moveCells_succ (h : r < f ∨ f + (n + 1) ≤ r) :
    moveCells e (f + 1) (r + 1) n
      (Source.spendIn e (Function.update c r (c f)) (.slot f)) = moveCells e f r (n + 1) c := by
  have hone : Source.spendIn e (Function.update c r (c f)) (.slot f)
      = Function.update (Function.update c f ((c f).map e.moved)) r (c f) := by
    show Function.update (Function.update c r (c f)) f
      ((Function.update c r (c f) f).map e.moved) = _
    rw [Function.update_of_ne (show f ≠ r by omega), Function.update_comm (by omega)]
  rw [hone]
  funext q
  by_cases hqr : q = r
  · subst hqr
    rw [moveCells_of_notMem (by omega) (by omega), Function.update_self,
      moveCells_of_mem le_rfl (by omega), Nat.sub_self, Nat.add_zero]
  · by_cases hin : r ≤ q ∧ q < r + (n + 1)
    · have hidx : f + 1 + (q - (r + 1)) = f + (q - r) := by omega
      rw [moveCells_of_mem (by omega) (by omega), moveCells_of_mem hin.1 hin.2, hidx,
        Function.update_of_ne (by omega), Function.update_of_ne (by omega)]
    · by_cases hqf : q = f
      · subst hqf
        rw [moveCells_of_notMem (by omega) (by omega), Function.update_of_ne hqr,
          Function.update_self, moveCells_of_spent (by omega) le_rfl (by omega)]
      · by_cases hfin : f ≤ q ∧ q < f + (n + 1)
        · rw [moveCells_of_spent (by omega) (by omega) (by omega),
            moveCells_of_spent (by omega) hfin.1 hfin.2, Function.update_of_ne hqr,
            Function.update_of_ne hqf]
        · rw [moveCells_of_notMem (by omega) (by omega), moveCells_of_notMem (by omega) (by omega),
            Function.update_of_ne hqr, Function.update_of_ne hqf]

/-- **Elements are moved into raw slots**, none before it is read. -/
theorem turns_uninitializedMove (h : r < f ∨ f + n ≤ r) :
    Turns (uninitializedCopy e r (slots f n) : Prog (State κ α) Unit) (moveCells e f r n) := by
  have hloop : ∀ (n f r back : ℕ), r < f ∨ f + n ≤ r →
      Turns (uninitializedCopyLoop e back r (slots f n) : Prog (State κ α) Unit)
        (moveCells e f r n) := by
    intro n
    induction n with
    | zero => exact fun f r back _ => (turns_pure ()).congr (fun c => moveCells_zero.symm)
    | succ n ih =>
      intro f r back h
      refine (turns_construct.onThrow.bind (fun _ => ih (f + 1) (r + 1) back (by omega))).congr
        (fun c => ?_)
      exact moveCells_succ h
  exact hloop n f r r h

/-- **Elements are moved onto others**, from the first on. -/
theorem turns_move (h : r < f ∨ f + n ≤ r) :
    Turns (copy e r (slots f n) : Prog (State κ α) Unit) (moveCells e f r n) := by
  induction n generalizing f r with
  | zero => exact (turns_pure ()).congr (fun c => moveCells_zero.symm)
  | succ n ih =>
    refine (turns_assign.bind (fun _ => ih (by omega))).congr (fun c => ?_)
    exact moveCells_succ h

/-- `n` elements from `p` on are left as a move leaves them. -/
def spendCells (e : Env α) (p n : ℕ) (c : Cells α) : Cells α := fun q =>
  if p ≤ q ∧ q < p + n then (c q).map e.moved else c q

/-- **Elements that are constructed from themselves**, where they stand. -/
theorem turns_uninitializedMove_self :
    Turns (uninitializedCopy e f (slots f n) : Prog (State κ α) Unit) (spendCells e f n) := by
  have hloop : ∀ (n f back : ℕ),
      Turns (uninitializedCopyLoop e back f (slots f n) : Prog (State κ α) Unit)
        (spendCells e f n) := by
    intro n
    induction n with
    | zero =>
      refine fun f back => (turns_pure ()).congr (fun c => ?_)
      funext q
      exact (if_neg (by omega)).symm
    | succ n ih =>
      intro f back
      refine (turns_construct.onThrow.bind (fun _ => ih (f + 1) back)).congr (fun c => ?_)
      funext q
      show spendCells e (f + 1) n (Function.update (Function.update c f (c f)) f
        ((Function.update c f (c f) f).map e.moved)) q = _
      rw [Function.update_idem, Function.update_self]
      unfold spendCells
      by_cases hq : q = f
      · rw [hq, if_neg (by omega), if_pos (by omega), Function.update_self]
      · rw [Function.update_of_ne hq]
        by_cases hin : f ≤ q ∧ q < f + (n + 1)
        · rw [if_pos hin, if_pos (by omega)]
        · rw [if_neg hin, if_neg (by omega)]
  exact hloop n f f

/-- **Elements are moved onto others**, from the last on. -/
theorem turns_moveBackward (hn : n ≤ l) (hn' : n ≤ rl) (h : l < rl ∨ rl + n ≤ l) :
    Turns (moveBackward e l rl n : Prog (State κ α) Unit) (moveCells e (l - n) (rl - n) n) := by
  induction n generalizing l rl with
  | zero => exact (turns_pure ()).congr (fun c => moveCells_zero.symm)
  | succ n ih =>
    refine (turns_assign.bind (fun _ => ih (by omega) (by omega) (by omega))).congr (fun c => ?_)
    funext q
    show moveCells e (l - 1 - n) (rl - 1 - n) n (Function.update (Function.update c (rl - 1)
      (c (l - 1))) (l - 1) ((Function.update c (rl - 1) (c (l - 1)) (l - 1)).map e.moved)) q = _
    rw [Function.update_of_ne (show l - 1 ≠ rl - 1 by omega)]
    by_cases hqr : q = rl - 1
    · subst hqr
      have hidx : l - (n + 1) + (rl - 1 - (rl - (n + 1))) = l - 1 := by omega
      rw [moveCells_of_notMem (by omega) (by omega), Function.update_of_ne (by omega),
        Function.update_self, moveCells_of_mem (by omega) (by omega), hidx]
    · by_cases hin : rl - (n + 1) ≤ q ∧ q < rl - (n + 1) + (n + 1)
      · have hidx : l - 1 - n + (q - (rl - 1 - n)) = l - (n + 1) + (q - (rl - (n + 1))) := by omega
        rw [moveCells_of_mem (by omega) (by omega), moveCells_of_mem hin.1 hin.2, hidx,
          Function.update_of_ne (by omega), Function.update_of_ne (by omega)]
      · by_cases hql : q = l - 1
        · subst hql
          rw [moveCells_of_notMem (by omega) (by omega), Function.update_self,
            moveCells_of_spent (by omega) (by omega) (by omega)]
        · by_cases hfin : l - (n + 1) ≤ q ∧ q < l - (n + 1) + (n + 1)
          · rw [moveCells_of_spent (by omega) (by omega) (by omega),
              moveCells_of_spent (by omega) hfin.1 hfin.2, Function.update_of_ne hql,
              Function.update_of_ne hqr]
          · rw [moveCells_of_notMem (by omega) (by omega),
              moveCells_of_notMem (by omega) (by omega), Function.update_of_ne hql,
              Function.update_of_ne hqr]

/-- One slot is filled, and then the others. -/
theorem fillCells_succ (h : Steady (src :: srcs)) :
    fillCells (r + 1) srcs (Function.update c r (src.readIn c)) = fillCells r (src :: srcs) c := by
  have hread : ∀ src' ∈ srcs,
      src'.readIn (Function.update c r (src.readIn c)) = src'.readIn c := by
    intro src' hsrc'
    rcases h with h | ⟨p, h⟩
    · exact (h src' (List.mem_cons_of_mem _ hsrc')).readIn_eq _ _
    · rw [h src' (List.mem_cons_of_mem _ hsrc'), h src List.mem_cons_self]
      show Function.update c r (c p) p = c p
      by_cases hp : p = r
      · rw [hp, Function.update_self]
      · rw [Function.update_of_ne hp]
  funext q
  by_cases hqr : q = r
  · subst hqr
    rw [fillCells_of_notMem (by omega), Function.update_self,
      fillCells_of_mem le_rfl (by rw [List.length_cons]; omega), Nat.sub_self]
    rfl
  · by_cases hin : r ≤ q ∧ q < r + (src :: srcs).length
    · have hlen : (src :: srcs).length = srcs.length + 1 := List.length_cons
      have hidx : q - r = q - (r + 1) + 1 := by omega
      rw [fillCells_of_mem (by omega) (by omega), fillCells_of_mem hin.1 hin.2, hidx,
        List.getElem?_cons_succ, List.getElem?_eq_getElem (by omega)]
      exact hread _ (List.getElem_mem _)
    · have hlen : (src :: srcs).length = srcs.length + 1 := List.length_cons
      rw [fillCells_of_notMem (by omega), fillCells_of_notMem (by omega),
        Function.update_of_ne hqr]

/-- **Raw slots are filled.** -/
theorem turns_uninitializedFill (h : Steady srcs) :
    Turns (uninitializedCopy e r srcs : Prog (State κ α) Unit) (fillCells r srcs) := by
  have hloop : ∀ (srcs : List (Source α)) (r back : ℕ), Steady srcs →
      Turns (uninitializedCopyLoop e back r srcs : Prog (State κ α) Unit) (fillCells r srcs) := by
    intro srcs
    induction srcs with
    | nil => exact fun r back _ => (turns_pure ()).congr (fun c => fillCells_nil.symm)
    | cons src srcs ih =>
      intro r back h
      refine (turns_construct.onThrow.bind
        (fun _ => ih (r + 1) back (h.sublist (List.sublist_cons_self _ _)))).congr (fun c => ?_)
      show fillCells (r + 1) srcs (src.spendIn e (Function.update c r (src.readIn c))) = _
      rw [h.spendIn_eq List.mem_cons_self, fillCells_succ h]
  exact hloop srcs r r h

/-- **Elements are assigned to.** -/
theorem turns_fill (h : Steady srcs) :
    Turns (copy e r srcs : Prog (State κ α) Unit) (fillCells r srcs) := by
  induction srcs generalizing r with
  | nil => exact (turns_pure ()).congr (fun c => fillCells_nil.symm)
  | cons src srcs ih =>
    refine (turns_assign.bind
      (fun _ => ih (h.sublist (List.sublist_cons_self _ _)))).congr (fun c => ?_)
    show fillCells (r + 1) srcs (src.spendIn e (Function.update c r (src.readIn c))) = _
    rw [h.spendIn_eq List.mem_cons_self, fillCells_succ h]

end Turns

/-! ## What assignments keep -/

theorem keeps_constructed_copy :
    Prog.Keeps State.constructed (copy e r srcs : Prog (State κ α) Unit) := by
  induction srcs generalizing r with
  | nil => exact Prog.keeps_pure ()
  | cons src srcs ih => exact keeps_constructed_assign.bind (fun _ => ih)

/-! ## Where lists are -/

/-- **A list stands in consecutive slots.** -/
def At (c : Cells α) (p : ℕ) (xs : List α) : Prop := ∀ j < xs.length, c (p + j) = xs[j]?

/-- **Sources give values**, if they are read in some cells. -/
def Reads (c : Cells α) (srcs : List (Source α)) (vs : List α) : Prop :=
  srcs.map (Source.readIn c) = vs.map some

section At

variable {xs ys vs : List α}

theorem at_nil : At c p [] := fun _ hj => absurd hj (Nat.not_lt_zero _)

theorem at_append : At c p (xs ++ ys) ↔ At c p xs ∧ At c (p + xs.length) ys := by
  constructor
  · intro h
    refine ⟨fun j hj => ?_, fun j hj => ?_⟩
    · rw [h j (by rw [List.length_append]; omega), List.getElem?_append_left hj]
    · rw [Nat.add_assoc, h (xs.length + j) (by rw [List.length_append]; omega),
        List.getElem?_append_right (Nat.le_add_right _ _), Nat.add_sub_cancel_left]
  · rintro ⟨hx, hy⟩ j hj
    rw [List.length_append] at hj
    by_cases hlt : j < xs.length
    · rw [hx j hlt, List.getElem?_append_left hlt]
    · have hidx : p + j = p + xs.length + (j - xs.length) := by omega
      rw [hidx, hy (j - xs.length) (by omega), List.getElem?_append_right (by omega)]

/-- The cells of a list are all that matters. -/
theorem At.congr {c' : Cells α} (h : At c p xs)
    (hc : ∀ q, p ≤ q → q < p + xs.length → c' q = c q) : At c' p xs :=
  fun j hj => (hc _ (by omega) (by omega)).trans (h j hj)

/-- **A list that is moved arrives.** -/
theorem At.moved (h : At c f xs) (hn : n = xs.length) : At (moveCells e f r n c) r xs := by
  intro j hj
  rw [moveCells_of_mem (by omega) (by omega), Nat.add_sub_cancel_left, h j hj]

/-- Part of a list that is moved arrives as well. -/
theorem At.moved_part (h : At c p xs) (hf : f ≤ p) (hn : p + xs.length ≤ f + n)
    (hq : q + f = p + r) : At (moveCells e f r n c) q xs := by
  intro j hj
  have hidx : f + (q + j - r) = p + j := by omega
  rw [moveCells_of_mem (by omega) (by omega), hidx, h j hj]

/-- Elsewhere lists stay. -/
theorem At.moveCells_of_disjoint (h : At c p xs) (hr : p + xs.length ≤ r ∨ r + n ≤ p)
    (hf : p + xs.length ≤ f ∨ f + n ≤ p) : At (moveCells e f r n c) p xs :=
  h.congr (fun _ _ _ => moveCells_of_notMem (by omega) (by omega))

theorem At.fillCells_of_disjoint (h : At c p xs)
    (hr : p + xs.length ≤ r ∨ r + srcs.length ≤ p) : At (fillCells r srcs c) p xs :=
  h.congr (fun _ _ _ => fillCells_of_notMem (by omega))

theorem At.clearCells_of_disjoint (h : At c p xs) (hr : p + xs.length ≤ r ∨ r + n ≤ p) :
    At (clearCells r n c) p xs :=
  h.congr (fun _ _ _ => clearCells_of_notMem (by omega))

/-- Slots that are made raw elsewhere do not matter. -/
theorem At.clearCells_of_apart (h : At c p xs)
    (hd : Disjoint (Set.Ico r (r + n)) (Set.Ico p (p + xs.length))) :
    At (clearCells r n c) p xs :=
  h.congr (fun _ hq hq' => if_neg (fun hin => Set.disjoint_left.mp hd hin ⟨hq, hq'⟩))

theorem Reads.length_eq (h : Reads c srcs vs) : srcs.length = vs.length := by
  simpa only [List.length_map] using congrArg List.length h

/-- **Slots that are filled hold what was read.** -/
theorem Reads.at_fillCells (h : Reads c srcs vs) : At (fillCells r srcs c) r vs := by
  intro j hj
  have hlen := h.length_eq
  have hget := congrArg (fun l => l[j]?) h
  simp only [List.getElem?_map] at hget
  rw [List.getElem?_eq_getElem (hlen ▸ hj), List.getElem?_eq_getElem hj, Option.map_some,
    Option.map_some, Option.some_inj] at hget
  rw [fillCells_of_mem (by omega) (by omega), Nat.add_sub_cancel_left,
    List.getElem?_eq_getElem (hlen ▸ hj), List.getElem?_eq_getElem hj, Option.bind_some, hget]

theorem Reads.take (h : Reads c srcs vs) (n : ℕ) : Reads c (srcs.take n) (vs.take n) := by
  rw [Reads, List.map_take, List.map_take]
  exact congrArg (List.take n) h

theorem Reads.drop (h : Reads c srcs vs) (n : ℕ) : Reads c (srcs.drop n) (vs.drop n) := by
  rw [Reads, List.map_drop, List.map_drop]
  exact congrArg (List.drop n) h

/-- Only the cells that are read matter. -/
theorem Reads.congr {c' : Cells α} {L : Set ℕ} (h : Reads c srcs vs)
    (hs : ∀ src ∈ srcs, src.Readable L) (hc : ∀ q ∈ L, c' q = c q) : Reads c' srcs vs := by
  rw [Reads, ← h]
  refine List.map_congr_left (fun src hsrc => ?_)
  have hread := hs src hsrc
  cases src with
  | value v => rfl
  | temporary v => rfl
  | slot q => exact hc q hread
  | copyOf q => exact hc q hread

/-- What is read last, where the others filled slots. -/
theorem Reads.after_fill (h : Reads c srcs vs) (hs : Steady srcs) (m : ℕ) :
    Reads (fillCells r (srcs.take m) c) (srcs.drop m) (vs.drop m) := by
  rw [Reads, ← h.drop m]
  exact List.map_congr_left
    (fun src hsrc => hs.readIn_fillCells (List.mem_of_mem_drop hsrc))

/-- What is read from outside does not depend on the cells. -/
theorem Reads.of_external (h : Reads c srcs vs) (hs : ∀ src ∈ srcs, src.External)
    (c' : Cells α) : Reads c' srcs vs := by
  rw [Reads, ← h]
  exact List.map_congr_left (fun src hsrc => (hs src hsrc).readIn_eq _ _)

end At

/-! ## Where nothing throws -/

section Quiet

variable {β γ : Type}

/-- **A program that does not throw.** -/
def Quiet (c : Prog (State κ α) β) : Prop :=
  ∀ s, (c s).Permits (fun _ _ => True) (fun _ => False)

/-- What makes a number of operations on elements is quiet where none of them
throws. -/
theorem Takes.quiet {a : Prog (State κ α) β} (h : Takes e a n) (he : e.fuse = none) : Quiet a := by
  refine fun s => (h s).imp (fun _ _ _ => trivial) (fun t ht => ?_)
  obtain ⟨i, -, -, hi⟩ := ht
  rw [he] at hi
  cases hi

/-- **A triple for what returns**: whatever a program leaves when it returns is as
promised, and where no operation on elements throws it is defined, and leaves as
promised what it leaves when it throws for another reason. -/
def Ensures (e : Env α) (P : State κ α → Prop) (a : Prog (State κ α) β)
    (Q : β → State κ α → Prop) (E : State κ α → Prop) : Prop :=
  ∀ s, P s → (a s).Permits Q (fun _ => True) ∧ (e.fuse = none → (a s).Meets Q E)

variable {P P' : State κ α → Prop} {a : Prog (State κ α) β} {Q Q' : β → State κ α → Prop}
  {E E' : State κ α → Prop}

theorem ensures_of_meets (h : Prog.Meets P a Q E) : Ensures e P a Q E :=
  fun s hs => ⟨(h s hs).permits.imp (fun _ _ => id) (fun _ _ => trivial), fun _ => h s hs⟩

/-- Where nothing throws, what is left then does not matter. -/
theorem ensures_of_quiet (h : Prog.Meets P a Q E') (hq : e.fuse = none → Quiet a) :
    Ensures e P a Q E :=
  fun s hs => ⟨(h s hs).permits.imp (fun _ _ => id) (fun _ _ => trivial),
    fun he => ((h s hs).and_permits (hq he s)).imp (fun _ _ hb => hb.1) (fun _ hf => hf.2.elim)⟩

theorem Ensures.conseq (h : Ensures e P a Q E) (hP : ∀ s, P' s → P s)
    (hQ : ∀ b s, Q b s → Q' b s) (hE : ∀ s, E s → E' s) : Ensures e P' a Q' E' :=
  fun s hs => ⟨(h s (hP s hs)).1.imp hQ (fun _ => id), fun he => ((h s (hP s hs)).2 he).imp hQ hE⟩

theorem Ensures.pre (h : Ensures e P a Q E) (hP : ∀ s, P' s → P s) : Ensures e P' a Q E :=
  h.conseq hP (fun _ _ => id) (fun _ => id)

theorem Ensures.post (h : Ensures e P a Q E) (hQ : ∀ b s, Q b s → Q' b s) :
    Ensures e P a Q' E := h.conseq (fun _ => id) hQ (fun _ => id)

theorem Ensures.of_exists {ι : Sort*} {R : ι → State κ α → Prop}
    (h : ∀ i, Ensures e (R i) a Q E) : Ensures e (fun s => ∃ i, R i s) a Q E :=
  fun s ⟨i, hs⟩ => h i s hs

/-- What a precondition says about everything but the state is a hypothesis. -/
theorem Ensures.of_pre {p : Prop} (h : p → Ensures e P a Q E) :
    Ensures e (fun s => p ∧ P s) a Q E := fun s hs => h hs.1 s hs.2

theorem Ensures.of_pre_right {p : Prop} (h : p → Ensures e P a Q E) :
    Ensures e (fun s => P s ∧ p) a Q E := fun s hs => h hs.2 s hs.1

theorem ensures_pure {b : β} (h : ∀ s, P s → Q b s) : Ensures e P (pure b) Q E :=
  fun s hs => ⟨h s hs, fun _ => h s hs⟩

theorem Ensures.bind {R : β → State κ α → Prop} {k : β → Prog (State κ α) γ}
    {Q : γ → State κ α → Prop} (h : Ensures e P a R E) (hk : ∀ b, Ensures e (R b) (k b) Q E) :
    Ensures e P (a >>= k) Q E :=
  fun s hs => ⟨Prog.bind_permits (h s hs).1 (fun b t hb => (hk b t hb).1),
    fun he => Prog.bind_meets ((h s hs).2 he) (fun b t hb => (hk b t hb).2 he)⟩

/-- **A guard is not needed** where nothing throws. -/
theorem Ensures.onThrow {cl : Prog (State κ α) Unit} (h : Ensures e P a Q (fun _ => False)) :
    Ensures e P (a.onThrow cl) Q E := by
  refine fun s hs => ⟨Prog.onThrow_permits (h s hs).1 (fun t _ => by cases cl t <;> trivial),
    fun he => ?_⟩
  have hr := (h s hs).2 he
  unfold Prog.onThrow
  cases ha : a s with
  | done b t =>
    rw [ha] at hr
    exact hr
  | threw t =>
    rw [ha] at hr
    exact hr.elim
  | undefined =>
    rw [ha] at hr
    exact hr.elim

theorem Ensures.ite {p : Prop} [Decidable p] {b : Prog (State κ α) β} (h : p → Ensures e P a Q E)
    (h' : ¬ p → Ensures e P b Q E) : Ensures e P (if p then a else b) Q E := by
  split
  · exact h ‹_›
  · exact h' ‹_›

end Quiet

/-! ## Slots and values together -/

section Holds

variable {t : Bool} {s₀ : State κ α} {S₀ own live live' : Set ℕ} {k : κ} {E : State κ α → Prop}

/-- **The slots of an object and what they hold.** -/
structure Holds (t : Bool) (s₀ : State κ α) (S₀ : Set ℕ) (k : κ) (own live : Set ℕ) (c : Cells α)
    (s : State κ α) : Prop where
  owns : Owns t s₀ S₀ k own live s
  cells_eq : cells s.heap = c

theorem Holds.congr {s : State κ α} (h : Holds t s₀ S₀ k own live c s) (hl : live = live') :
    Holds t s₀ S₀ k own live' c s := hl ▸ h

/-- **The slots of an object and what the elements in them are**; what other slots
hold is left open. -/
def HoldsOn (t : Bool) (s₀ : State κ α) (S₀ : Set ℕ) (k : κ) (own live : Set ℕ) (c : Cells α)
    (s : State κ α) : Prop :=
  ∃ c', Holds t s₀ S₀ k own live c' s ∧ ∀ q ∈ live, c' q = c q

theorem Holds.on {s : State κ α} (h : Holds t s₀ S₀ k own live c s) :
    HoldsOn t s₀ S₀ k own live c s := ⟨c, h, fun _ _ => rfl⟩

theorem HoldsOn.congr {s : State κ α} {c' : Cells α} (h : HoldsOn t s₀ S₀ k own live c s)
    (hl : live = live') (hc : ∀ q ∈ live', c q = c' q) : HoldsOn t s₀ S₀ k own live' c' s := by
  subst hl
  obtain ⟨d, hd, hdc⟩ := h
  exact ⟨d, hd, fun q hq => (hdc q hq).trans (hc q hq)⟩

/-- A list that stands where elements live stands in the slots. -/
theorem HoldsOn.at {s : State κ α} {xs : List α} (h : HoldsOn t s₀ S₀ k own live c s)
    (hx : At c p xs) (hl : Set.Ico p (p + xs.length) ⊆ live) : At (cells s.heap) p xs := by
  obtain ⟨d, hd, hdc⟩ := h
  refine hx.congr (fun q hq hq' => ?_)
  rw [hd.cells_eq, hdc q (hl ⟨hq, hq'⟩)]

/-- What is known of the slots, and what is done to the values. -/
theorem meets_holds {β : Type} {a : Prog (State κ α) β} {F : Cells α → Cells α}
    (hm : Prog.Meets (Owns t s₀ S₀ k own live) a (fun _ => Owns t s₀ S₀ k own live') E)
    (ht : Turns a F) :
    Prog.Meets (Holds t s₀ S₀ k own live c) a (fun _ => Holds t s₀ S₀ k own live' (F c)) E :=
  fun s hs => ((hm s hs.owns).and_permits (ht s)).imp
    (fun _ _ hu => ⟨hu.1, hu.2.trans (congrArg F hs.cells_eq)⟩) (fun _ hu => hu.1)

/-- The same, for what returns. -/
theorem ensures_holds {a : Prog (State κ α) Unit} {F : Cells α → Cells α}
    {E' : State κ α → Prop} (hm : Prog.Meets (Owns t s₀ S₀ k own live) a
      (fun _ => Owns t s₀ S₀ k own live') E') (ht : Turns a F)
    (hn : Takes e a n) : Ensures e (Holds t s₀ S₀ k own live c) a
      (fun _ => Holds t s₀ S₀ k own live' (F c)) E :=
  ensures_of_quiet (meets_holds hm ht) hn.quiet

/-- Elements that live are a list. -/
theorem Owns.exists_at {s : State κ α} (h : Owns t s₀ S₀ k own live s)
    (hl : Set.Ico p (p + n) ⊆ live) : ∃ xs : List α, xs.length = n ∧ At (cells s.heap) p xs := by
  induction n with
  | zero => exact ⟨[], rfl, at_nil⟩
  | succ n ih =>
    obtain ⟨xs, hlen, hxs⟩ := ih ((Set.Ico_subset_Ico le_rfl (by omega)).trans hl)
    have hmem : (Source.copyOf (p + n) : Source α).Readable live := hl ⟨by omega, by omega⟩
    obtain ⟨v, hv⟩ := h.read_ne_none hmem
    refine ⟨xs ++ [v], by rw [List.length_append, hlen, List.length_singleton],
      at_append.mpr ⟨hxs, fun j hj => ?_⟩⟩
    have hj₀ : j = 0 := by simpa using hj
    rw [hj₀, Nat.add_zero, hlen]
    exact hv

/-- Two ranges, of which one holds elements and the other does not. -/
theorem apart_of_disjoint (hf : Set.Ico f (f + n) ⊆ live)
    (hd : Disjoint live (Set.Ico r (r + n))) : r < f ∨ f + n ≤ r := by
  by_contra hne
  have hmem : r ∈ live := hf ⟨by omega, by omega⟩
  exact Set.disjoint_left.mp hd hmem ⟨le_rfl, by omega⟩

theorem holds_uninitializedMove (hin : Set.Ico r (r + n) ⊆ own)
    (hd : Disjoint live (Set.Ico r (r + n))) (hf : Set.Ico f (f + n) ⊆ live) :
    Ensures e (Holds e.trivialDestructor s₀ S₀ k own live c) (uninitializedCopy e r (slots f n))
      (fun _ => Holds e.trivialDestructor s₀ S₀ k own (live ∪ Set.Ico r (r + n))
        (moveCells e f r n c)) E := by
  have hlen : (slots f n : List (Source α)).length = n := length_slots f n
  have hm := @uninitializedCopy_meets κ α e s₀ S₀ own live k r (slots f n)
    (hlen.symm ▸ hin) (hlen.symm ▸ hd) (readable_slots hf)
  rw [hlen] at hm
  exact ensures_holds hm (turns_uninitializedMove (apart_of_disjoint hf hd)) takes_uninitializedCopy

/-- Where elements may be forgotten, raw or not. -/
theorem holds_uninitializedMove_of_trivial (ht : e.trivialDestructor = true)
    (hin : Set.Ico r (r + n) ⊆ own) (hf : Set.Ico f (f + n) ⊆ live) (h : r < f ∨ f + n ≤ r) :
    Ensures e (Holds e.trivialDestructor s₀ S₀ k own live c) (uninitializedCopy e r (slots f n))
      (fun _ => Holds e.trivialDestructor s₀ S₀ k own (live ∪ Set.Ico r (r + n))
        (moveCells e f r n c)) E := by
  have hlen : (slots f n : List (Source α)).length = n := length_slots f n
  have hm := @uninitializedCopy_meets_of_trivial κ α e s₀ S₀ own live k r (slots f n) ht
    (hlen.symm ▸ hin) (readable_slots hf)
  rw [hlen] at hm
  exact ensures_holds hm (turns_uninitializedMove h) takes_uninitializedCopy

/-- Elements may be constructed where they stand, if nothing has to be destroyed. -/
theorem holds_uninitializedMove_self (ht : e.trivialDestructor = true)
    (hin : Set.Ico f (f + n) ⊆ own) (hf : Set.Ico f (f + n) ⊆ live) :
    Ensures e (Holds e.trivialDestructor s₀ S₀ k own live c) (uninitializedCopy e f (slots f n))
      (fun _ => Holds e.trivialDestructor s₀ S₀ k own (live ∪ Set.Ico f (f + n))
        (spendCells e f n c)) E := by
  have hlen : (slots f n : List (Source α)).length = n := length_slots f n
  have hm := @uninitializedCopy_meets_of_trivial κ α e s₀ S₀ own live k f (slots f n) ht
    (hlen.symm ▸ hin) (readable_slots hf)
  rw [hlen] at hm
  exact ensures_holds hm turns_uninitializedMove_self takes_uninitializedCopy

theorem holds_uninitializedFill (hin : Set.Ico r (r + srcs.length) ⊆ own)
    (hd : Disjoint live (Set.Ico r (r + srcs.length))) (hs : Steady srcs)
    (hr : ∀ src ∈ srcs, src.Readable live) :
    Ensures e (Holds e.trivialDestructor s₀ S₀ k own live c) (uninitializedCopy e r srcs)
      (fun _ => Holds e.trivialDestructor s₀ S₀ k own (live ∪ Set.Ico r (r + srcs.length))
        (fillCells r srcs c)) E :=
  ensures_holds (uninitializedCopy_meets hin hd hr) (turns_uninitializedFill hs)
    takes_uninitializedCopy

theorem holds_move (hr : Set.Ico r (r + n) ⊆ live) (hf : Set.Ico f (f + n) ⊆ live)
    (h : r < f ∨ f + n ≤ r) :
    Ensures e (Holds t s₀ S₀ k own live c) (copy e r (slots f n))
      (fun _ => Holds t s₀ S₀ k own live (moveCells e f r n c)) E := by
  have hlen : (slots f n : List (Source α)).length = n := length_slots f n
  exact ensures_holds (copy_meets (hlen.symm ▸ hr) (readable_slots hf)) (turns_move h) takes_copy

theorem holds_moveBackward (hn : n ≤ l) (hn' : n ≤ rl) (hl : Set.Ico (l - n) l ⊆ live)
    (hrl : Set.Ico (rl - n) rl ⊆ live) (h : l < rl ∨ rl + n ≤ l) :
    Ensures e (Holds t s₀ S₀ k own live c) (moveBackward e l rl n)
      (fun _ => Holds t s₀ S₀ k own live (moveCells e (l - n) (rl - n) n c)) E :=
  ensures_holds (moveBackward_meets hn hn' hl hrl) (turns_moveBackward hn hn' h)
    takes_moveBackward

theorem holds_fill (hin : Set.Ico r (r + srcs.length) ⊆ live) (hs : Steady srcs)
    (hr : ∀ src ∈ srcs, src.Readable live) :
    Ensures e (Holds t s₀ S₀ k own live c) (copy e r srcs)
      (fun _ => Holds t s₀ S₀ k own live (fillCells r srcs c)) E :=
  ensures_holds (copy_meets hin hr) (turns_fill hs) takes_copy

/-- A program that reads the fields of the object. -/
theorem holds_object_bind {β : Type} {a : κ → Prog (State κ α) β} {Q : β → State κ α → Prop}
    (h : Ensures e (Holds t s₀ S₀ k own live c) (a k) Q E) :
    Ensures e (Holds t s₀ S₀ k own live c) (object >>= a) Q E := by
  intro s hs
  show ((a s.object) s).Permits _ _ ∧ (_ → ((a s.object) s).Meets _ _)
  rw [hs.owns.object_eq]
  exact h s hs

theorem meets_object_bind {β : Type} {a : κ → Prog (State κ α) β} {Q : β → State κ α → Prop}
    (h : Prog.Meets (Holds t s₀ S₀ k own live c) (a k) Q E) :
    Prog.Meets (Holds t s₀ S₀ k own live c) (object >>= a) Q E := by
  intro s hs
  show ((a s.object) s).Meets _ _
  rw [hs.owns.object_eq]
  exact h s hs

theorem meets_setHolder {f : κ → κ} :
    Prog.Meets (Holds t s₀ S₀ k own live c) (setObject f : Prog (State κ α) Unit)
      (fun _ => Holds t s₀ S₀ (f k) own live c) E :=
  Prog.meets_modify (fun _ hs => ⟨⟨congrArg f hs.owns.object_eq, hs.owns.exchange,
    hs.owns.live_sub, hs.owns.present, hs.owns.full, hs.owns.vacant, hs.owns.ledger⟩,
      hs.cells_eq⟩)

theorem holds_setObject {f : κ → κ} :
    Ensures e (Holds t s₀ S₀ k own live c) (setObject f : Prog (State κ α) Unit)
      (fun _ => Holds t s₀ S₀ (f k) own live c) E := ensures_of_meets meets_setHolder

theorem holdsOn_setObject {f : κ → κ} :
    Ensures e (HoldsOn t s₀ S₀ k own live c) (setObject f : Prog (State κ α) Unit)
      (fun _ => HoldsOn t s₀ S₀ (f k) own live c) E :=
  Ensures.of_exists (fun d => Ensures.of_pre_right
    (fun hd => holds_setObject.post (fun _ _ h => ⟨d, h, hd⟩)))

/-- **Memory is allocated**, or nothing is changed. -/
theorem holds_allocate {a : ℕ} :
    Ensures e (Holds t s₀ S₀ k own live c) (allocate e a n)
      (fun p s => (p ≠ 0 ∧ Disjoint own (Set.Ico p (p + n)))
        ∧ Holds t s₀ S₀ k (own ∪ Set.Ico p (p + n)) live c s)
      (Holds t s₀ S₀ k own live c) := by
  refine ensures_of_meets (fun s hs => ((allocate_meets s hs.owns).and_permits
    (keeps_cells_allocate s)).imp (fun _ _ h => ⟨h.1.1, h.1.2, h.2.trans hs.cells_eq⟩)
      (fun _ h => ⟨h.1, h.2.trans hs.cells_eq⟩))

theorem holds_deallocate (hin : Set.Ico p (p + n) ⊆ own)
    (hl : Disjoint live (Set.Ico p (p + n))) :
    Ensures e (Holds t s₀ S₀ k own live c) (deallocate p n : Prog (State κ α) Unit)
      (fun _ => Holds t s₀ S₀ k (own \ Set.Ico p (p + n)) live (clearCells p n c)) E :=
  ensures_of_meets (fun s hs => ((deallocate_meets hin hl s hs.owns).and_permits
    (turns_deallocate s)).imp (fun _ _ h => ⟨h.1, h.2.trans (hs.cells_eq ▸ rfl)⟩)
      (fun _ h => h.1.elim))

theorem holds_destroyN (hl : Set.Ico p (p + n) ⊆ live) :
    Ensures e (Holds t s₀ S₀ k own live c) (destroyN e p n)
      (fun _ => Holds t s₀ S₀ k own (live \ Set.Ico p (p + n)) (clearCells p n c)) E :=
  ensures_holds (destroyN_meets hl) turns_destroyN takes_destroyN

end Holds

end Slots
