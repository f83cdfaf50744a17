import BoostContainer.Devector.DevectorAllocators

/-!
# Buffers of devectors go back where they are from

What every call keeps is that each devector holds a buffer of its own, from an
allocator that equals the devector's. A buffer changes hands only where the
allocator goes with it or the allocators are equal, but for the constructor
that moves to a given allocator.
-/

open Function (update)

namespace Devector

variable {A : Type} (K : Allocators A) (T : Traits) (h : Chance A)

/-! ## What a call keeps -/

/-- Who holds which buffer. -/
def World.titles (w : World A) (i : ℕ) : Option (A × ℕ) :=
  (w.containers i).map fun c => (c.allocator, c.impl.buffer)

/-- **The devectors keep their buffers**: every buffer is there, from an allocator that equals
the devector's, and no two devectors share one. -/
def World.Kept (w : World A) : Prop := w.ledger.Kept K.equal w.titles

/-- A buffer that no devector holds, or null. -/
def World.Loose (w : World A) (a : A) (p : ℕ) : Prop :=
  p ≠ 0 → w.ledger.Loose K.equal w.titles a p

/-- **What a call promises**: however it ends, buffers are kept. -/
def World.Keeps (w : World A) (call : Prog (World A) Unit) : Prop :=
  (call w).Permits (fun _ => World.Kept K) (World.Kept K)

/-- A program that does nothing but rearrange the devectors. -/
def Rearranges (k : Prog (World A) Unit) : Prop :=
  ∃ g : (ℕ → Option (Container A)) → ℕ → Option (Container A),
    ∀ w, k w = .done () { w with containers := g w.containers }

variable {K T h} {w t : World A} {a b : A} {c d x : Container A} {i j n p : ℕ}
  {β : Type} {Q : β → World A → Prop} {E : World A → Prop}

theorem titles_put (w : World A) (i : ℕ) (c : Container A) :
    (w.put i c).titles = update w.titles i (some (c.allocator, c.impl.buffer)) := by
  funext k
  show Option.map _ (update w.containers i (some c) k) = _
  obtain rfl | hk := eq_or_ne k i
  · rw [Function.update_self, Function.update_self]
    rfl
  · rw [Function.update_of_ne hk, Function.update_of_ne hk]
    rfl

theorem titles_of_some (hc : w.containers i = some c) :
    w.titles i = some (c.allocator, c.impl.buffer) := by
  rw [World.titles, hc]
  rfl

theorem World.put_self (w : World A) (i : ℕ) (c : Container A) :
    (w.put i c).containers i = some c := Function.update_self _ _ _

theorem World.put_put (w : World A) (i : ℕ) (c d : Container A) :
    (w.put i c).put i d = w.put i d := by
  unfold World.put
  rw [Function.update_idem]

theorem World.put_comm (w : World A) (hij : i ≠ j) (c d : Container A) :
    (w.put i c).put j d = (w.put j d).put i c := by
  unfold World.put
  rw [Function.update_comm hij]

theorem World.put_of_ne (hij : i ≠ j) (hx : w.containers j = some x) (c : Container A) :
    (w.put i c).containers j = some x := (Function.update_of_ne hij.symm _ _).trans hx

theorem World.loose_zero (w : World A) (a : A) : w.Loose K a 0 := fun h0 => (h0 rfl).elim

theorem World.Kept.put (hw : w.Kept K) (hl : w.Loose K c.allocator c.impl.buffer) :
    (w.put i c).Kept K := by
  unfold World.Kept
  rw [titles_put]
  exact BlockLedger.Kept.put hw (fun hp => (hl hp).backs) (fun hp j _ b => (hl hp).free j b)

/-- A title after the devector at `i` is another. -/
theorem titles_put_cases {k : ℕ} (hk : (w.put i c).titles k = some (a, p)) :
    (k = i ∧ c.allocator = a ∧ c.impl.buffer = p) ∨ (k ≠ i ∧ w.titles k = some (a, p)) := by
  rw [titles_put] at hk
  obtain rfl | hne := eq_or_ne k i
  · rw [Function.update_self] at hk
    obtain ⟨ha, hp⟩ := Prod.mk.inj (Option.some.inj hk)
    exact Or.inl ⟨rfl, ha, hp⟩
  · rw [Function.update_of_ne hne] at hk
    exact Or.inr ⟨hne, hk⟩

/-- A devector that keeps its buffer, with an equal allocator, is kept. -/
theorem World.Kept.put_same (hw : w.Kept K) (hc : w.containers i = some c)
    (ha : K.equal d.allocator c.allocator = true) (hb : d.impl.buffer = c.impl.buffer) :
    (w.put i d).Kept K := by
  refine hw.transfer id Function.injective_id K.equal_trans ?_
  intro k a p hk hp
  obtain ⟨rfl, rfl, rfl⟩ | ⟨hne, hk⟩ := titles_put_cases hk
  · rw [hb]
    exact ⟨c.allocator, titles_of_some hc, ha⟩
  · exact ⟨a, hk, K.equal_refl a⟩

/-- **A buffer is handed over** from one devector to another. -/
theorem World.Kept.handOver (hw : w.Kept K) (hx : w.containers j = some x) (hij : i ≠ j)
    (ha : x.impl.buffer ≠ 0 → K.equal a x.allocator = true) :
    ((w.put i ⟨a, x.impl⟩).put j ⟨b, Impl.null⟩).Kept K := by
  refine hw.transfer (Equiv.swap i j) (Equiv.injective _) K.equal_trans ?_
  intro k d p hk hp
  obtain ⟨-, -, rfl⟩ | ⟨hkj, hk⟩ := titles_put_cases hk
  · exact (hp rfl).elim
  · obtain ⟨rfl, rfl, rfl⟩ | ⟨hki, hk⟩ := titles_put_cases hk
    · rw [Equiv.swap_apply_left]
      exact ⟨x.allocator, titles_of_some hx, ha hp⟩
    · rw [Equiv.swap_apply_of_ne_of_ne hki hkj]
      exact ⟨d, hk, K.equal_refl d⟩

/-- **Two devectors exchange their buffers.** -/
theorem World.Kept.exchange (hw : w.Kept K) (hc : w.containers i = some c)
    (hx : w.containers j = some x) (ha : K.equal a x.allocator = true)
    (hb : K.equal b c.allocator = true) :
    ((w.put i ⟨a, x.impl⟩).put j ⟨b, c.impl⟩).Kept K := by
  refine hw.transfer (Equiv.swap i j) (Equiv.injective _) K.equal_trans ?_
  intro k d p hk hp
  obtain ⟨rfl, rfl, rfl⟩ | ⟨hkj, hk⟩ := titles_put_cases hk
  · rw [Equiv.swap_apply_right]
    exact ⟨c.allocator, titles_of_some hc, hb⟩
  · obtain ⟨rfl, rfl, rfl⟩ | ⟨hki, hk⟩ := titles_put_cases hk
    · rw [Equiv.swap_apply_left]
      exact ⟨x.allocator, titles_of_some hx, ha⟩
    · rw [Equiv.swap_apply_of_ne_of_ne hki hkj]
      exact ⟨d, hk, K.equal_refl d⟩

/-- Where a buffer was handed over, the one that was there is nobody's. -/
theorem World.Kept.handOver_free (hw : w.Kept K) (hc : w.containers i = some c)
    (hx : w.containers j = some x) (hij : i ≠ j) (hp : c.impl.buffer ≠ 0) (k : ℕ) (d : A) :
    ((w.put i ⟨a, x.impl⟩).put j ⟨b, Impl.null⟩).titles k ≠ some (d, c.impl.buffer) := by
  intro hk
  obtain ⟨-, -, h0⟩ | ⟨hkj, hk⟩ := titles_put_cases hk
  · exact hp h0.symm
  · obtain ⟨-, -, hb⟩ | ⟨hki, hk⟩ := titles_put_cases hk
    · have hxc : w.titles j = some (x.allocator, c.impl.buffer) := hb ▸ titles_of_some hx
      exact hij (hw.apart (titles_of_some hc) hxc hp)
    · exact hki (hw.apart hk (titles_of_some hc) hp)

/-! ### The steps -/

theorem container_permits {k : Container A → Prog (World A) β}
    (hk : ∀ c, w.containers i = some c → (k c w).Permits Q E) :
    ((container i >>= k) w).Permits Q E := by
  show (Prog.bind (container i) k w).Permits Q E
  unfold Prog.bind container
  cases hc : w.containers i with
  | none => trivial
  | some c => exact hk c hc

theorem container_bind {k : Container A → Prog (World A) β} (hc : w.containers i = some c) :
    (container i >>= k) w = k c w := by
  refine Prog.bind_of_done (b := c) (t := w) ?_
  unfold container
  rw [hc]

theorem emerge_permits {Q : Unit → World A → Prop}
    (hq : w.containers i = none → Q () (w.put i c)) : (emerge i c w).Permits Q E := by
  unfold emerge
  cases hc : w.containers i with
  | none => exact hq hc
  | some d => trivial

theorem setContainer_eq {f : Container A → Container A} (hc : w.containers i = some c) :
    setContainer i f w = .done () (w.put i (f c)) := by
  show Outcome.done () { w with containers := update w.containers i ((w.containers i).map f) } = _
  rw [hc]
  rfl

theorem setImpl_eq {f : Impl → Impl} (hc : w.containers i = some c) :
    setImpl i f w = .done () (w.put i { c with impl := f c.impl }) := setContainer_eq hc

theorem setAllocator_eq (hc : w.containers i = some c) :
    setAllocator i a w = .done () (w.put i { c with allocator := a }) := setContainer_eq hc

theorem elements_permits {Q : Unit → World A → Prop} (hq : Q () w) (he : E w) :
    (elements h w).Permits Q E := by
  unfold elements
  split_ifs with ht
  · exact he
  · exact hq

/-- What is allocated is nobody's. -/
theorem doAllocate_permits (hw : w.Kept K) :
    (doAllocate T h a n w).Permits
      (fun p t => t.Kept K ∧ t.Loose K a p ∧ t.containers = w.containers) (· = w) := by
  unfold doAllocate
  by_cases hn : n ≠ 0
  · rw [if_pos hn]
    by_cases hmax : T.storedMax < n
    · rw [if_pos hmax]
      rfl
    · rw [if_neg hmax]
      unfold allocateBlock
      cases hp : h.address w.ledger.blocks with
      | none => rfl
      | some p =>
        refine ⟨BlockLedger.Kept.allocate hw p.2.2, fun hp => ?_, rfl⟩
        exact BlockLedger.Kept.loose_allocate hw p.2.2 hp (K.equal_refl a)
  · rw [if_neg hn]
    exact ⟨hw, w.loose_zero a, rfl⟩

theorem deallocateWith_meets (hw : w.Kept K) (hl : w.Loose K a p) :
    (deallocateWith a p w).Meets (fun _ t => t.Kept K ∧ t.containers = w.containers)
      (fun _ => False) := by
  unfold deallocateWith
  by_cases hp : p ≠ 0
  · rw [if_pos hp]
    exact ⟨BlockLedger.Kept.deallocate hw (hl hp), rfl⟩
  · rw [if_neg hp]
    exact ⟨hw, rfl⟩

/-- Elements are made in a buffer that a guard holds. -/
theorem guarded_permits (hw : w.Kept K) (hl : w.Loose K a p) :
    (((elements h).onThrow (deallocateWith a p)) w).Permits (fun _ t => t = w)
      (World.Kept K) := by
  refine Prog.onThrow_permits (F := (· = w)) (elements_permits rfl rfl) ?_
  rintro t rfl
  exact (deallocateWith_meets hw hl).permits.imp (fun _ _ h => h.1) (fun _ => False.elim)

theorem rearranges_setContainer (i : ℕ) (f : Container A → Container A) :
    Rearranges (setContainer i f) :=
  ⟨fun cs => update cs i ((cs i).map f), fun _ => rfl⟩

theorem Rearranges.bind {k l : Prog (World A) Unit} (hk : Rearranges k) (hl : Rearranges l) :
    Rearranges (do k; l) := by
  obtain ⟨g, hg⟩ := hk
  obtain ⟨g', hg'⟩ := hl
  exact ⟨fun cs => g' (g cs), fun w => (Prog.bind_of_done (hg w)).trans (hg' _)⟩

theorem rearranges_ite {p : Bool} (i : ℕ) (a : A) :
    Rearranges (if p then setAllocator i a else pure ()) := by
  cases p with
  | true => exact rearranges_setContainer i _
  | false => exact ⟨id, fun _ => rfl⟩

/-- **A devector gives its buffer back**, and after the devectors are rearranged nobody
holds it. -/
theorem release_meets {k : Prog (World A) Unit} (hk : Rearranges k) (hw : w.Kept K)
    (hc : w.containers i = some c) (hrun : k w = .done () t) (ht : t.Kept K)
    (hfree : c.impl.buffer ≠ 0 → ∀ l b, t.titles l ≠ some (b, c.impl.buffer)) :
    ((do deallocateOwn i; k) w).Meets
      (fun _ (u : World A) => u.Kept K ∧ u.containers = t.containers) (fun _ => False) := by
  obtain ⟨g, hg⟩ := hk
  obtain rfl : { w with containers := g w.containers } = t := by
    rw [hg] at hrun
    exact (Outcome.done.inj hrun).2
  -- The order of the two steps does not matter.
  have hswap : (do deallocateOwn i; k : Prog (World A) Unit) w
      = deallocateWith c.allocator c.impl.buffer { w with containers := g w.containers } := by
    have hown : deallocateOwn i w = deallocateWith c.allocator c.impl.buffer w :=
      container_bind hc
    rw [Prog.bind_congr_left hown]
    unfold deallocateWith
    split_ifs with hp
    · exact hg _
    · exact hg _
  rw [hswap]
  exact deallocateWith_meets ht fun hp => ⟨hw.backs (titles_of_some hc) hp, hfree hp⟩

/-- **A devector gives its buffer back and gets another**, or none. -/
theorem replace_meets {f : Container A → Container A} (hw : w.Kept K)
    (hc : w.containers i = some c) (hl : w.Loose K (f c).allocator (f c).impl.buffer) :
    ((do deallocateOwn i; setContainer i f) w).Meets
      (fun _ (t : World A) => t.Kept K ∧ t.containers = (w.put i (f c)).containers)
      (fun _ => False) := by
  refine release_meets (rearranges_setContainer i f) hw hc (setContainer_eq hc) (hw.put hl) ?_
  intro hp k b hk
  obtain ⟨rfl, -, hb⟩ | ⟨hne, hk⟩ := titles_put_cases hk
  · exact (hl (hb ▸ hp)).free k c.allocator (hb ▸ titles_of_some hc)
  · exact hne (hw.apart hk (titles_of_some hc) hp)

/-! ### The calls -/

theorem World.Kept.setImpl {f : Impl → Impl} (hw : w.Kept K) (hc : w.containers i = some c)
    (hf : (f c.impl).buffer = c.impl.buffer) : w.Keeps K (setImpl i f) := by
  unfold World.Keeps
  rw [Devector.setImpl, setContainer_eq hc]
  exact hw.put_same hc (K.equal_refl _) hf

theorem overwriteBuffer_keeps (hw : w.Kept K) (hc : w.containers i = some c) :
    w.Keeps K (overwriteBuffer h i n) := by
  refine Prog.bind_permits (elements_permits (Q := fun _ => (· = w)) rfl hw) ?_
  rintro - t rfl
  exact hw.setImpl hc rfl

/-- **A devector moves to a new buffer**, whatever the indices there. -/
theorem reallocate_keeps (newImpl : ℕ → Impl) (hbuffer : ∀ p, (newImpl p).buffer = p)
    (hw : w.Kept K) (hc : w.containers i = some c) {allocation : Prog (World A) ℕ}
    (halloc : (allocation w).Permits
      (fun p t => t.Kept K ∧ t.Loose K c.allocator p ∧ t.containers = w.containers) (· = w)) :
    w.Keeps K (do
      let newBuffer ← allocation
      (elements h).onThrow (deallocateWith c.allocator newBuffer)
      deallocateOwn i
      setImpl i fun _ => newImpl newBuffer) := by
  refine Prog.bind_permits (halloc.imp (fun _ _ => id) (fun t ht => ht ▸ hw)) ?_
  rintro p t ⟨ht, hl, hcont⟩
  refine Prog.bind_permits (guarded_permits ht hl) ?_
  rintro - u rfl
  have hcu : u.containers i = some c := hcont ▸ hc
  refine ((replace_meets ht hcu ?_).imp (fun _ _ h => h.1) fun _ => False.elim).permits
  show u.Loose K c.allocator (newImpl p).buffer
  rw [hbuffer]
  exact hl

theorem allocateAndCopyRange_keeps (hw : w.Kept K) : w.Keeps K (allocateAndCopyRange T h i n) := by
  refine container_permits fun c hc => ?_
  refine reallocate_keeps (fun p => ⟨p, 0, n, n⟩) (fun _ => rfl) hw hc ?_
  split_ifs with hn
  · exact doAllocate_permits hw
  · exact ⟨hw, w.loose_zero _, rfl⟩

theorem assign_keeps (hw : w.Kept K) : w.Keeps K (assign T h i n) := by
  refine container_permits fun c hc => ?_
  split_ifs with hn
  · exact overwriteBuffer_keeps hw hc
  · exact allocateAndCopyRange_keeps hw

theorem constructSized_keeps (hw : w.Kept K) : w.Keeps K (constructSized T h i n a) := by
  refine Prog.bind_permits ((doAllocate_permits hw).imp (fun _ _ => id) (fun t ht => ht ▸ hw)) ?_
  rintro p t ⟨ht, hl, -⟩
  refine Prog.bind_permits (guarded_permits ht hl) ?_
  rintro - u rfl
  exact emerge_permits fun _ => ht.put hl

theorem constructReserved_keeps {front back cap : ℕ} (hw : w.Kept K) :
    w.Keeps K (do
      let buffer ← doAllocate T h a n
      emerge i ⟨a, buffer, front, back, cap⟩) := by
  refine Prog.bind_permits ((doAllocate_permits hw).imp (fun _ _ => id) (fun t ht => ht ▸ hw)) ?_
  rintro p t ⟨ht, hl, -⟩
  exact emerge_permits fun _ => ht.put hl

/-- **A buffer changes hands** between equal allocators. -/
theorem moveConstructWith_keeps (hw : w.Kept K)
    (hf : ∀ c, w.containers j = some c → c.impl.buffer ≠ 0 → K.equal a c.allocator = true) :
    w.Keeps K (moveConstructWith i j a) := by
  refine container_permits fun c hc => ?_
  refine Prog.bind_permits (Q := fun _ t => w.containers i = none ∧ t = w.put i ⟨a, c.impl⟩)
    (emerge_permits fun hi => ⟨hi, rfl⟩) ?_
  rintro - t ⟨hi, rfl⟩
  have hne : i ≠ j := by
    rintro rfl
    exact Option.some_ne_none c (hc.symm.trans hi)
  have hcj : (w.put i ⟨a, c.impl⟩).containers j = some c := World.put_of_ne hne hc _
  rw [Devector.setImpl, setContainer_eq hcj]
  exact hw.handOver hc hne (hf c hc)

theorem insertSlowPath_keeps (hw : w.Kept K) : w.Keeps K (insertSlowPath T h i) := by
  refine container_permits fun c hc => ?_
  dsimp only
  split_ifs with hroom
  · -- While the elements are moved the indices say that there are none.
    have hput : (w.put i { c with impl := { c.impl with frontIdx := 0, backIdx := 0 } }).Kept K :=
      hw.put_same hc (K.equal_refl _) rfl
    rw [Prog.bind_of_done (setImpl_eq hc)]
    refine Prog.bind_permits (Q := fun _ => (· = _)) (elements_permits rfl hput) ?_
    rintro - t rfl
    exact hput.setImpl (w.put_self _ _) rfl
  · cases newCapacity T c.impl (c.impl.capacity + 1) with
    | none => exact hw
    | some newCap =>
      exact reallocate_keeps (fun p => ⟨p, _, _, newCap⟩) (fun _ => rfl) hw hc
        (doAllocate_permits hw)

theorem emplaceBackAt_keeps (hw : w.Kept K) : w.Keeps K (emplaceBackAt T h i) := by
  refine container_permits fun c hc => ?_
  split_ifs with hback
  · refine Prog.bind_permits (elements_permits (Q := fun _ => (· = w)) rfl hw) ?_
    rintro - t rfl
    exact hw.setImpl hc rfl
  · exact insertSlowPath_keeps hw

theorem emplaceAll_keeps (i : ℕ) (input : List (Chance A)) (hw : w.Kept K) :
    w.Keeps K (emplaceAll T i input) := by
  induction input generalizing w with
  | nil => exact hw
  | cons h input ih => exact Prog.bind_permits (emplaceBackAt_keeps hw) fun _ t ht => ih ht

theorem constructInput_keeps {input : List (Chance A)} (hw : w.Kept K)
    (hf : ∀ t c, emplaceAll T i input (w.put i ⟨a, Impl.null⟩) = .threw t →
      t.containers i = some c → c.impl.buffer = 0) : w.Keeps K (constructInput T i input a) := by
  refine Prog.bind_permits (Q := fun _ => (· = w.put i ⟨a, Impl.null⟩))
    (emerge_permits fun _ => rfl) ?_
  rintro - t rfl
  have hput : (w.put i ⟨a, Impl.null⟩).Kept K := hw.put (w.loose_zero a)
  have hloop := emplaceAll_keeps (T := T) i input hput
  unfold World.Keeps at hloop
  unfold Prog.catchAll
  cases hr : emplaceAll T i input (w.put i ⟨a, Impl.null⟩) with
  | done b t =>
    rw [hr] at hloop
    exact hloop
  | threw t =>
    rw [hr] at hloop
    refine container_permits fun c hc => ?_
    rw [hf t c hr hc]
    exact hloop
  | undefined => trivial

theorem destruct_keeps (hw : w.Kept K) : w.Keeps K (destruct i) := by
  have hk : Rearranges (Prog.modify fun w : World A =>
      { w with containers := update w.containers i none }) :=
    ⟨fun cs => update cs i none, fun _ => rfl⟩
  have hheld : ∀ {k b p}, World.titles { w with containers := update w.containers i none } k
      = some (b, p) → k ≠ i ∧ w.titles k = some (b, p) := by
    intro k b p hk
    obtain rfl | hne := eq_or_ne k i
    · change Option.map _ (update w.containers k none k) = _ at hk
      rw [Function.update_self] at hk
      exact (Option.some_ne_none _ hk.symm).elim
    · change Option.map _ (update w.containers i none k) = _ at hk
      rw [Function.update_of_ne hne] at hk
      exact ⟨hne, hk⟩
  unfold World.Keeps
  cases hc : w.containers i with
  | none =>
    have hown : deallocateOwn i w = .undefined := by
      refine Prog.bind_of_undefined ?_
      unfold container
      rw [hc]
    rw [destruct, Prog.bind_of_undefined hown]
    trivial
  | some c =>
    refine ((release_meets hk hw hc rfl ?_ ?_).imp (fun _ _ h => h.1) fun _ => False.elim).permits
    · refine hw.transfer id Function.injective_id K.equal_trans fun {k a p} hk _ => ?_
      exact ⟨a, (hheld hk).2, K.equal_refl a⟩
    · intro hp k b hk
      exact (hheld hk).1 (hw.apart (hheld hk).2 (titles_of_some hc) hp)

/-! ### Assignment and swap -/

theorem World.Kept.clear (hw : w.Kept K) (hc : w.containers i = some c) :
    ∃ m : Impl, m.buffer = c.impl.buffer
      ∧ Devector.clear i w = .done () (w.put i { c with impl := m })
      ∧ (w.put i { c with impl := m }).Kept K :=
  ⟨{ c.impl with backIdx := c.impl.frontIdx }, rfl, setImpl_eq hc,
    hw.put_same hc (K.equal_refl _) rfl⟩

theorem copyAssign_keeps (hw : w.Kept K) : w.Keeps K (copyAssign K T h i j) := by
  refine container_permits fun c hc => ?_
  refine container_permits fun x hx => ?_
  by_cases hij : i = j
  · rw [if_pos hij]
    exact hw
  rw [if_neg hij]
  refine Prog.bind_permits (Q := fun _ => World.Kept K) ?_ fun _ t ht => assign_keeps ht
  split_ifs with hprop heq
  · rw [Prog.pure_bind, setAllocator_eq hc]
    exact hw.put_same hc (K.equal_symm _ _ heq) rfl
  · -- The buffer goes before the allocator does.
    obtain ⟨m, hm, hclear, hput⟩ := hw.clear hc
    rw [Prog.bind_assoc, Prog.bind_of_done hclear]
    have hself := w.put_self i { c with impl := m }
    refine Prog.bind_permits ((replace_meets hput hself (World.loose_zero _ _)).imp
      (fun _ _ => id) fun _ => False.elim).permits ?_
    rintro - t ⟨ht, hcont⟩
    rw [setAllocator_eq (hcont ▸ World.put_self _ _ _)]
    exact ht.put (World.loose_zero _ _)
  · exact hw

theorem rearranges_takeResources (i j : ℕ) (x : Container A) :
    Rearranges (takeResources K i j x) :=
  (rearranges_ite i x.allocator).bind
    ((rearranges_setContainer i _).bind (rearranges_setContainer j _))

/-- The allocator that the resources are held with is the old one, or the other's where it
propagates. -/
theorem takeResources_eq (hc : w.containers i = some c) (hx : w.containers j = some x)
    (hij : i ≠ j)
    (ha : K.propagateOnContainerMoveAssignment = true ∨ K.equal c.allocator x.allocator = true) :
    ∃ a, K.equal a x.allocator = true ∧ takeResources K i j x w
      = .done () ((w.put i ⟨a, x.impl⟩).put j ⟨x.allocator, Impl.null⟩) := by
  have hxp : ∀ d, (w.put i d).containers j = some x := World.put_of_ne hij hx
  unfold takeResources
  obtain hprop | hprop := Bool.eq_false_or_eq_true K.propagateOnContainerMoveAssignment
  · refine ⟨x.allocator, K.equal_refl _, ?_⟩
    rw [hprop, if_pos rfl, Prog.bind_of_done (setAllocator_eq hc),
      Prog.bind_of_done (setImpl_eq (w.put_self _ _)), World.put_put]
    exact setImpl_eq (hxp _)
  · refine ⟨c.allocator, ha.resolve_left (by rw [hprop]; exact Bool.false_ne_true), ?_⟩
    rw [hprop, if_neg Bool.false_ne_true, Prog.pure_bind, Prog.bind_of_done (setImpl_eq hc)]
    exact setImpl_eq (hxp _)

/-- **Resources are taken over** by a devector that gives its own back. -/
theorem privMoveAssignSteal_keeps (hw : w.Kept K) (hc : w.containers i = some c)
    (hx : w.containers j = some x) (hij : i ≠ j)
    (ha : K.propagateOnContainerMoveAssignment = true ∨ K.equal c.allocator x.allocator = true) :
    w.Keeps K (privMoveAssignSteal K i j) := by
  obtain ⟨m, hm, hclear, hput⟩ := hw.clear hc
  have hself := w.put_self i { c with impl := m }
  have hxp : (w.put i { c with impl := m }).containers j = some x := World.put_of_ne hij hx _
  unfold World.Keeps
  rw [privMoveAssignSteal, container_bind hx, Prog.bind_of_done hclear]
  obtain ⟨a, hax, hrun⟩ := takeResources_eq hself hxp hij ha
  refine ((release_meets (rearranges_takeResources i j x) hput hself hrun
    (hput.handOver hxp hij fun _ => hax) ?_).imp (fun _ _ h => h.1) fun _ => False.elim).permits
  exact fun hp k d => hput.handOver_free hself hxp hij hp k d

theorem moveAssign_keeps (hw : w.Kept K) : w.Keeps K (moveAssign K T h i j) := by
  refine container_permits fun c hc => ?_
  refine container_permits fun x hx => ?_
  split_ifs with hij hsteal heq hprop
  · exact hw
  · refine privMoveAssignSteal_keeps hw hc hx hij ?_
    obtain hp | he := Bool.or_eq_true_iff.mp hsteal
    · exact Or.inl hp
    · exact Or.inr (K.equal_of_isAlwaysEqual he _ _)
  · exact privMoveAssignSteal_keeps hw hc hx hij (Or.inr heq)
  · exact (hsteal (by rw [hprop]; rfl)).elim
  · rw [Prog.pure_bind]
    exact assign_keeps hw

theorem swap_keeps (hw : w.Kept K) : w.Keeps K (swap K i j) := by
  refine container_permits fun c hc => ?_
  refine container_permits fun b hb => ?_
  have hself := w.put_self i c
  obtain rfl | hij := eq_or_ne i j
  · -- A devector that is swapped with itself stays as it is.
    obtain rfl := Option.some.inj (hc.symm.trans hb)
    split_ifs with hok hprop
    · rw [Prog.bind_of_done (setImpl_eq hc), Prog.bind_of_done (setImpl_eq hself), World.put_put,
        Prog.bind_of_done (setAllocator_eq hself), World.put_put, setAllocator_eq hself,
        World.put_put]
      exact hw.put_same hc (K.equal_refl _) rfl
    · rw [Prog.bind_of_done (setImpl_eq hc), Prog.bind_of_done (setImpl_eq hself), World.put_put]
      exact hw.put_same hc (K.equal_refl _) rfl
    · trivial
  · have hbi := World.put_of_ne hij hb { c with impl := b.impl }
    have hci := (w.put i { c with impl := b.impl }).put_self j { b with impl := c.impl }
    split_ifs with hok hprop
    · have hi := World.put_of_ne hij.symm (w.put_self i { c with impl := b.impl })
        { b with impl := c.impl }
      have hj := World.put_of_ne hij hci { b with impl := b.impl }
      rw [Prog.bind_of_done (setImpl_eq hc), Prog.bind_of_done (setImpl_eq hbi),
        Prog.bind_of_done (setAllocator_eq hi), setAllocator_eq hj,
        World.put_comm _ hij.symm, World.put_put, World.put_put]
      exact hw.exchange (c := c) (x := b) hc hb (K.equal_refl _) (K.equal_refl _)
    · have hequal : K.equal c.allocator b.allocator = true :=
        (Bool.or_eq_true_iff.mp hok).resolve_left hprop
      rw [Prog.bind_of_done (setImpl_eq hc), Prog.bind_of_done (setImpl_eq hbi)]
      exact hw.exchange hc hb hequal (K.equal_symm _ _ hequal)
    · trivial

/-! ### Runs -/

theorem run_keeps (hw : w.Kept K) {call : Call A} (hf : call.Faithful K T w) :
    w.Keeps K (call.run K T) := by
  cases call with
  | constructEmpty i a => exact emerge_permits fun _ => hw.put (w.loose_zero a)
  | constructReserved h i front back a => exact constructReserved_keeps hw
  | constructReservedMiddle h i n a => exact constructReserved_keeps hw
  | constructSized h i n a => exact constructSized_keeps hw
  | constructInput i input a => exact constructInput_keeps hw hf
  | copyConstruct h i j =>
    exact container_permits fun _ _ => container_permits fun _ _ => constructSized_keeps hw
  | copyConstructWith h i j a => exact container_permits fun _ _ => constructSized_keeps hw
  | moveConstruct i j =>
    refine container_permits fun c hc => moveConstructWith_keeps hw fun d hd _ => ?_
    obtain rfl := Option.some.inj (hc.symm.trans hd)
    exact K.equal_refl _
  | moveConstructWith i j a => exact moveConstructWith_keeps hw hf
  | copyAssign h i j => exact copyAssign_keeps hw
  | moveAssign h i j => exact moveAssign_keeps hw
  | swap i j => exact swap_keeps hw
  | assign h i n => exact assign_keeps hw
  | emplaceBack h i => exact emplaceBackAt_keeps hw
  | destruct i => exact destruct_keeps hw

theorem beq_nat_refl (a : ℕ) : (a == a) = true := beq_self_eq_true a

theorem beq_nat_symm (a b : ℕ) (h : (a == b) = true) : (b == a) = true := BEq.comm.trans h

theorem beq_nat_trans (a b c : ℕ) (h : (a == b) = true) (h' : (b == c) = true) :
    (a == c) = true := by
  rw [eq_of_beq h]
  exact h'

theorem beq_nat_of_false (h : false = true) (a b : ℕ) : (a == b) = true :=
  (Bool.false_ne_true h).elim

/-- Allocators that are equal where they are the same, and never propagate. -/
def distinctAllocators : Allocators ℕ where
  equal a b := a == b
  isAlwaysEqual := false
  propagateOnContainerCopyAssignment := false
  propagateOnContainerMoveAssignment := false
  propagateOnContainerSwap := false
  selectOnContainerCopyConstruction := id
  equal_refl := beq_nat_refl
  equal_symm := beq_nat_symm
  equal_trans := beq_nat_trans
  equal_of_isAlwaysEqual := beq_nat_of_false

/-- Memory at 1, as long as it is nobody's. -/
def atOne : Chance ℕ where
  address blocks := if h : blocks 1 = none then some ⟨1, one_ne_zero, h⟩ else none
  throws := false

/-- No devectors. -/
def nowhere : World ℕ := ⟨fun _ => none, BlockLedger.empty⟩

/-- A devector of two elements, made with an allocator. -/
def madeWith (a : ℕ) : World ℕ :=
  { nowhere with ledger := BlockLedger.empty.allocate a 1 }.put 0 ⟨a, 1, 0, 2, 2⟩

/-- The same, moved to a given allocator. -/
def movedTo (a b : ℕ) : World ℕ :=
  ((madeWith a).put 1 ⟨b, 1, 0, 2, 2⟩).put 0 ⟨a, Impl.null⟩

/-- The same, after the devector that it was moved to is gone. -/
def goneAfter (a b : ℕ) : World ℕ where
  containers := update (movedTo a b).containers 1 none
  ledger := (BlockLedger.empty.allocate a 1).deallocate b 1

theorem step_madeWith (a : ℕ) : (devectors distinctAllocators defaultTraits).Step nowhere
    (.constructSized atOne 0 2 a) (madeWith a) := Or.inl rfl

theorem step_movedTo (a b : ℕ) : (devectors distinctAllocators defaultTraits).Step (madeWith a)
    (.moveConstructWith 1 0 b) (movedTo a b) := Or.inl rfl

theorem step_goneAfter (a b : ℕ) : (devectors distinctAllocators defaultTraits).Step (movedTo a b)
    (.destruct 1) (goneAfter a b) := Or.inl rfl

end Devector
