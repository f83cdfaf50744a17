import BoostContainer.Hub.HubShrink
import BoostContainer.Lib.Cycles
import BoostContainer.Lib.SortedList

/-!
# Sorting a hub

A hub is sorted in one of three ways. The elements go to a buffer, are sorted there and go
back. Or an array of pointers to them is sorted, each pointer with its index, and the
elements are moved along the cycles of the permutation that the indices are. Or the hub is
compacted, and what is sorted are its slots. The first two take memory, and where there is
none the third is taken.

`std::sort` is what the standard says of it: it leaves the elements of an array in some order
in which none is less than one before it, or the comparison throws and it leaves whatever it
leaves. It is not stable.

Apart from the compaction, none of the three touches a list of blocks or a mask, so that a
hub where something throws is well formed and has as many elements as before.
-/

open Function

namespace Hub

variable {α : Type}

/-- **`std::sort`** of an array: whether something throws, and what is left. -/
structure StdSort where
  run {β : Type} (less : β → β → Bool) (l : List β) : Bool × List β
  length {β : Type} (less : β → β → Bool) (l : List β) : (run less l).2.length = l.length
  perm {β : Type} (less : β → β → Bool) (l : List β) :
    (run less l).1 = false → (run less l).2.Perm l
  sorted {β : Type} (less : β → β → Bool) (l : List β) :
    IsStrictWeakOrder β (fun a b => less a b = true) → (run less l).1 = false →
      (run less l).2.SortedBy fun a b => less a b = true

/-- **What a sort depends on.** -/
structure Sorting where
  std : StdSort
  /-- `sizeof(T)` -/
  sizeOfT : ℕ
  /-- `sizeof(sort_proxy)` -/
  sizeOfProxy : ℕ
  /-- Whether there is memory for the buffer. -/
  buffer : Bool
  /-- Whether there is memory for the pointers with their indices. -/
  proxies : Bool
  /-- Whether there is memory for the pointers to data. -/
  chunks : Bool

/-- `sort_proxy` -/
structure Proxy where
  p : ℕ × ℕ
  n : ℕ

section Programs

variable (e : Env α) (c : Sorting) (less : α → α → Bool) (h : ℕ)

/-- An operation on elements that are in no hub. -/
def tick : Prog (State α) Unit := fun s =>
  if e.fuse = some s.ops then .threw { s with ops := s.ops + 1 }
  else .done () { s with ops := s.ops + 1 }

/-- `T x = std::move(*p)` -/
def takeValue (p : ℕ × ℕ) : Prog (State α) α := do
  let v ← read p
  tick e
  Prog.modify fun s => { s with slot := update s.slot p (some (e.moved v)) }
  pure v

/-- `*q = std::move(*p)` -/
def moveTo (q p : ℕ × ℕ) : Prog (State α) Unit := do
  let v ← read p
  assign e q v
  Prog.modify fun s => { s with slot := update s.slot p (some (e.moved v)) }

/-- `x = std::move(*buf.begin()); buf.erase_front();` -/
def assignFront (p : ℕ × ℕ) : List α → Prog (State α) (List α)
  | [] => Prog.undefined
  | v :: buf => do
    assign e p v
    pure buf

/-- `transfer_sort`, and whether it was done. -/
def transferSort : Prog (State α) Bool := do
  let size ← Prog.gets fun s => s.size h
  let rounds ← Prog.gets fun s => s.rounds h
  if size > 1 then
    if c.buffer = false then pure false
    else do
      let buf ← forEachAll (fun buf p => do
        let v ← takeValue e p
        pure (buf ++ [v])) rounds h []
      if (c.std.run less buf).1 = true then Prog.throw
      else do
        let _ ← forEachAll (fun buf p => assignFront e p buf) rounds h (c.std.run less buf).2
        pure true
  else pure true

/-- `p[i]` -/
def proxyAt (ps : List Proxy) (i : ℕ) : Prog (State α) Proxy :=
  match ps[i]? with
  | some x => pure x
  | none => Prog.undefined

/-- The loop that moves the elements of a cycle, `do { ... } while(p[j].n != i);` -/
def cycleLoop (i : ℕ) : ℕ → ℕ → List Proxy → Prog (State α) (ℕ × List Proxy)
  | 0, _, _ => Prog.undefined
  | rounds + 1, j, ps => do
    let x ← proxyAt ps j
    let k := x.n
    let y ← proxyAt ps k
    moveTo e x.p y.p
    let ps := ps.set j ⟨x.p, j⟩
    let j := k
    let z ← proxyAt ps j
    if z.n ≠ i then cycleLoop i rounds j ps else pure (j, ps)

/-- The elements of a cycle are moved, the first of them by way of `x`. -/
def turnCycle (size i : ℕ) (ps : List Proxy) : Prog (State α) (List Proxy) := do
  let x ← proxyAt ps i
  let v ← takeValue e x.p
  let (j, ps) ← cycleLoop e i size i ps
  let y ← proxyAt ps j
  assign e y.p v
  pure (ps.set j ⟨y.p, j⟩)

/-- The loop over the pointers, `for(; i < size_; ++i)` -/
def proxyLoop (size : ℕ) : ℕ → ℕ → List Proxy → Prog (State α) Unit
  | 0, _, _ => Prog.undefined
  | rounds + 1, i, ps =>
    if i < size then do
      let x ← proxyAt ps i
      if x.n ≠ i then do
        let ps ← turnCycle e size i ps
        proxyLoop size rounds (i + 1) ps
      else proxyLoop size rounds (i + 1) ps
    else pure ()

/-- The elements in some slots, as a comparison reads them. -/
def readAll : List (ℕ × ℕ) → Prog (State α) (List α)
  | [] => pure []
  | p :: ps => do
    let v ← read p
    let vs ← readAll ps
    pure (v :: vs)

/-- `proxy_sort`, and whether it was done. -/
def proxySort : Prog (State α) Bool := do
  let size ← Prog.gets fun s => s.size h
  let rounds ← Prog.gets fun s => s.rounds h
  if size > 1 then
    if c.proxies = false then pure false
    else do
      let ps ← forEachAll (fun ps p => pure (ps ++ [⟨p, ps.length⟩])) rounds h []
      let vs ← readAll (ps.map Proxy.p)
      let sorted := c.std.run (fun x y => less x.1 y.1) (vs.zip ps)
      if sorted.1 = true then Prog.throw
      else do
        proxyLoop e size (size + 1) 0 (sorted.2.map Prod.snd)
        pure true
  else pure true

/-- What `std::sort` leaves in slots. -/
def putAll : List ((ℕ × ℕ) × α) → Prog (State α) Unit
  | [] => pure ()
  | (p, v) :: rest => do
    let _ ← read p
    Prog.modify fun s => { s with slot := update s.slot p (some v) }
    putAll rest

/-- `*sort_iterator{p, i}`, for every index. -/
def sortSlots (chunks : List ℕ) (size : ℕ) : List (ℕ × ℕ) :=
  (List.range size).map fun i => (chunks.getD (i / N) 0, i % N)

/-- `compact_sort` -/
def compactSort : Prog (State α) Unit := do
  let size ← Prog.gets fun s => s.size h
  if size > 1 then
    if c.chunks = false then Prog.throw
    else do
      let chunks ← compact e h
      if chunks.length ≠ (size + N - 1) / N then Prog.undefined
      else do
        let vs ← readAll (sortSlots chunks size)
        putAll ((sortSlots chunks size).zip (c.std.run less vs).2)
        if (c.std.run less vs).1 = true then Prog.throw else pure ()
  else pure ()

/-- **`sort`** -/
def sort : Prog (State α) Unit := do
  let size ← Prog.gets fun s => s.size h
  let done ← (if c.sizeOfT ≤ c.sizeOfProxy then transferSort e c less h
    else if size * c.sizeOfProxy ≤ 2 * 1024 * 1024 then proxySort e c less h
    else pure false)
  if done = true then pure () else compactSort e c less h

end Programs

variable {e : Env α} {c : Sorting} {less : α → α → Bool} {s t u : State α} {h m i j rounds : ℕ}
  {L L' : Lists} {A : List ℕ} {p q : ℕ × ℕ} {v : α} {vs ws buf : List α} {xs : List Iterator}

/-! ## What stays -/

/-- **Elements get other values**, those in some blocks, and nothing else is touched. -/
structure Rewritten (s : State α) (A : List ℕ) (t : State α) : Prop where
  same : t = { s with slot := t.slot, ops := t.ops, log := t.log }
  isSome : ∀ p, (t.slot p).isSome = (s.slot p).isSome
  slot : ∀ p : ℕ × ℕ, (∀ a ∈ A, s.data a ≠ p.1) → t.slot p = s.slot p

namespace Rewritten

theorem refl (s : State α) (A : List ℕ) : Rewritten s A s := ⟨rfl, fun _ => rfl, fun _ _ => rfl⟩

theorem data (k : Rewritten s A t) : t.data = s.data := by rw [k.same]

theorem mask (k : Rewritten s A t) : t.mask = s.mask := by rw [k.same]

theorem size (k : Rewritten s A t) : t.size = s.size := by rw [k.same]

theorem slotAt (k : Rewritten s A t) : t.slotAt = s.slotAt := by
  funext x
  rw [State.slotAt, State.slotAt, k.data]

theorem positions (k : Rewritten s A t) (bs : List ℕ) : t.positions bs = s.positions bs :=
  State.positions_congr fun b _ => by rw [k.mask]

theorem trans (k : Rewritten s A t) (k' : Rewritten t A u) : Rewritten s A u where
  same := by
    rw [k'.same, k.same]
  isSome p := (k'.isSome p).trans (k.isSome p)
  slot p hp := (k'.slot p (k.data ▸ hp)).trans (k.slot p hp)

/-- One slot is written. -/
theorem write {log : List Event} {ops : ℕ} (hlive : (s.slot p).isSome = true)
    (hp : ∃ a ∈ A, s.data a = p.1) (v : α) :
    Rewritten s A { s with slot := update s.slot p (some v), ops := ops, log := log } where
  same := rfl
  isSome q := by
    show (update s.slot p (some v) q).isSome = (s.slot q).isSome
    by_cases hq : q = p
    · rw [hq, update_self, hlive]
      rfl
    · rw [update_of_ne hq]
  slot q hq := update_of_ne (fun heq => by
    obtain ⟨a, ha, hd⟩ := hp
    exact hq a ha (heq ▸ hd)) _ _

theorem of_ops (s : State α) (A : List ℕ) (n : ℕ) : Rewritten s A { s with ops := n } :=
  ⟨rfl, fun _ => rfl, fun _ _ => rfl⟩

/-- **The hub is well formed**, and all else is as it was. -/
theorem becomes (k : Rewritten s L.blocks t) (hs : Shape s h L) : Becomes s h L t L := by
  obtain ⟨hsame, hlive, hslot⟩ := k
  rw [hsame]
  have hshape : Shape { s with slot := t.slot, ops := t.ops, log := t.log } h L :=
    { ring := hs.ring
      ringAvailable := hs.ringAvailable
      mask_header := hs.mask_header
      mask_active := hs.mask_active
      mem_partly := hs.mem_partly
      mask_reserved := hs.mask_reserved
      stored := ⟨hs.stored.block, hs.stored.chunk, hs.stored.data_inj, fun b hb n hn =>
        (hlive _).trans (hs.stored.isSome b hb n hn)⟩
      header := hs.header
      numBlocks := hs.numBlocks
      size := hs.size }
  refine ⟨hshape, ?_, fun b hb => ?_, fun c hc => ?_, fun c n _ hl => ?_⟩
  · exact
      { list := fun _ _ => ⟨rfl, rfl⟩
        available := fun _ _ => ⟨rfl, rfl⟩
        block := fun b hb => ⟨hb.1, rfl, rfl⟩
        slot := fun c hc hnot => ⟨hc, fun n => hslot (c, n) hnot⟩
        counters := fun _ _ => ⟨rfl, rfl⟩
        header := id
        grown := fun b hb => Or.inl hb
        data := fun b hb => Or.inl ⟨b, hb, rfl⟩ }
  · exact or_iff_not_imp_right.mpr fun hnot => ⟨hb, hnot⟩
  · exact or_iff_not_imp_right.mpr fun hnot => ⟨hc, fun a ha heq => hnot ⟨a, ha, heq⟩⟩
  · exact or_iff_not_imp_right.mpr fun hnot =>
      ⟨(hlive _).symm.trans hl, fun a ha heq => hnot ⟨a, ha, heq⟩⟩

end Rewritten

/-- The slots of some blocks. -/
def slotsOf (s : State α) (A : List ℕ) : Set (ℕ × ℕ) := {p | ∃ a ∈ A, s.data a = p.1}

/-! ## One element -/

theorem tick_cases (e : Env α) (s : State α) :
    tick e s = .done () { s with ops := s.ops + 1 }
      ∨ tick e s = .threw { s with ops := s.ops + 1 } := by
  unfold tick
  split
  · exact Or.inr rfl
  · exact Or.inl rfl

theorem assign_cases (e : Env α) (v : α) (hlive : (s.slot p).isSome = true) :
    assign e p v s = .done () (assignedState s p v)
      ∨ assign e p v s = .threw { s with ops := s.ops + 1 } := by
  unfold assign
  rw [if_pos hlive]
  split
  · exact Or.inr rfl
  · exact Or.inl rfl

/-- An element is assigned to, or keeps its value. -/
theorem assign_run (e : Env α) (v : α) (hlive : (s.slot p).isSome = true) (hp : p ∈ slotsOf s A) :
    (assign e p v s).Meets
      (fun _ t => Rewritten s A t ∧ t.slot = update s.slot p (some v)) (Rewritten s A) := by
  rcases assign_cases e v hlive with hrun | hrun
  · rw [hrun]
    exact ⟨Rewritten.write hlive hp v, rfl⟩
  · rw [hrun]
    exact Rewritten.of_ops s A _

/-- An element is moved out, or keeps its value. -/
theorem takeValue_run (e : Env α) (hv : s.slot p = some v) (hp : p ∈ slotsOf s A) :
    (takeValue e p s).Meets
      (fun w t => w = v ∧ Rewritten s A t ∧ t.slot = update s.slot p (some (e.moved v)))
      (Rewritten s A) := by
  unfold takeValue
  rw [Prog.bind_of_done (read_run hv)]
  rcases tick_cases e s with hrun | hrun
  · rw [Prog.bind_of_done hrun]
    exact ⟨rfl, Rewritten.write (hv ▸ rfl) hp _, rfl⟩
  · rw [Prog.bind_of_threw hrun]
    exact Rewritten.of_ops s A _

/-- **An element is moved to another**, or both keep their values. -/
theorem moveTo_run (e : Env α) (hv : s.slot p = some v) (hlive : (s.slot q).isSome = true)
    (hp : p ∈ slotsOf s A) (hq : q ∈ slotsOf s A) :
    (moveTo e q p s).Meets
      (fun _ t => Rewritten s A t
        ∧ t.slot = update (update s.slot q (some v)) p (some (e.moved v)))
      (Rewritten s A) := by
  unfold moveTo
  rw [Prog.bind_of_done (read_run hv)]
  rcases assign_cases e v hlive with hrun | hrun
  · rw [Prog.bind_of_done hrun]
    have hk : Rewritten s A (assignedState s q v) := Rewritten.write hlive hq v
    refine ⟨hk.trans (Rewritten.write (s := assignedState s q v) ?_ hp _), rfl⟩
    rw [hk.isSome, hv]
    rfl
  · rw [Prog.bind_of_threw hrun]
    exact Rewritten.of_ops s A _

/-! ## Along the cycles -/

section Cycles

variable {σ n o : ℕ → ℕ} {f V : ℕ → α} {q : ℕ → ℕ × ℕ} {a b k d r : ℕ}

/-- **The array of pointers**: `σ` says which element each of them points to. -/
def proxies (q : ℕ → ℕ × ℕ) (σ n : ℕ → ℕ) (m : ℕ) : List Proxy :=
  (List.range m).map fun j => ⟨q (σ j), n j⟩

theorem proxyAt_proxies (hj : j < m) :
    (proxyAt (proxies q σ n m) j : Prog (State α) Proxy) = pure ⟨q (σ j), n j⟩ := by
  have hget : (proxies q σ n m)[j]? = some ⟨q (σ j), n j⟩ := by
    rw [proxies, List.getElem?_map, List.getElem?_range hj]
    rfl
  unfold proxyAt
  rw [hget]

theorem proxies_set (j x : ℕ) :
    (proxies q σ n m).set j ⟨q (σ j), x⟩ = proxies q σ (update n j x) m := by
  refine List.ext_getElem? fun i => ?_
  rw [proxies, proxies, List.getElem?_set, List.getElem?_map, List.getElem?_map, List.length_map,
    List.length_range]
  by_cases hi : i < m
  · rw [List.getElem?_range hi, Option.map_some, Option.map_some]
    by_cases hji : j = i
    · rw [if_pos hji, if_pos (hji ▸ hi), hji, update_self]
    · rw [if_neg hji, update_of_ne (Ne.symm hji)]
  · rw [List.getElem?_eq_none (by simpa using hi)]
    by_cases hji : j = i
    · rw [if_pos hji, if_neg (hji ▸ hi)]
      rfl
    · rw [if_neg hji]
      rfl

/-- **Places in some blocks**, each of them once. -/
structure Places (s : State α) (A : List ℕ) (q : ℕ → ℕ × ℕ) (m : ℕ) : Prop where
  inj : ∀ j < m, ∀ k < m, q j = q k → j = k
  mem : ∀ j < m, q j ∈ slotsOf s A

/-- **The values at the places**, where nothing else was touched. -/
structure Holds (s : State α) (A : List ℕ) (q : ℕ → ℕ × ℕ) (m : ℕ) (f : ℕ → α) (t : State α) :
    Prop where
  rewritten : Rewritten s A t
  value : ∀ j < m, t.slot (q j) = some (f j)

theorem Places.update_value (hq : Places s A q m) {g : ℕ × ℕ → Option α} (ha : a < m)
    (hg : ∀ j < m, g (q j) = some (f j)) (v : α) :
    ∀ j < m, update g (q a) (some v) (q j) = some (update f a v j) := by
  intro j hj
  by_cases hja : j = a
  · rw [hja, update_self, update_self]
  · rw [update_of_ne hja, update_of_ne fun heq => hja (hq.inj j hj a ha heq), hg j hj]

namespace Holds

theorem mem (k : Holds s A q m f t) (hq : Places s A q m) (ha : a < m) : q a ∈ slotsOf t A := by
  obtain ⟨b, hb, hd⟩ := hq.mem a ha
  exact ⟨b, hb, k.rewritten.data ▸ hd⟩

theorem takeValue (k : Holds s A q m f t) (e : Env α) (hq : Places s A q m) (ha : a < m) :
    (Hub.takeValue e (q a) t).Meets
      (fun w u => w = f a ∧ Holds s A q m (update f a (e.moved (f a))) u) (Rewritten s A) := by
  refine (takeValue_run e (k.value a ha) (k.mem hq ha)).imp (fun w u ⟨hw, hk, hslot⟩ => ?_)
    fun u hk => k.rewritten.trans hk
  exact ⟨hw, k.rewritten.trans hk, hslot ▸ hq.update_value ha k.value _⟩

theorem moveTo (k : Holds s A q m f t) (e : Env α) (hq : Places s A q m) (ha : a < m)
    (hb : b < m) :
    (Hub.moveTo e (q a) (q b) t).Meets
      (fun _ u => Holds s A q m (update (update f a (f b)) b (e.moved (f b))) u)
      (Rewritten s A) := by
  refine (moveTo_run e (k.value b hb) (k.value a ha ▸ rfl) (k.mem hq hb) (k.mem hq ha)).imp
    (fun _ u ⟨hk, hslot⟩ => ?_) fun u hk => k.rewritten.trans hk
  exact ⟨k.rewritten.trans hk, hslot ▸ hq.update_value hb (hq.update_value ha k.value _) _⟩

theorem assign (k : Holds s A q m f t) (e : Env α) (hq : Places s A q m) (ha : a < m) (v : α) :
    (Hub.assign e (q a) v t).Meets (fun _ u => Holds s A q m (update f a v) u)
      (Rewritten s A) := by
  refine (assign_run e v (k.value a ha ▸ rfl) (k.mem hq ha)).imp (fun _ u ⟨hk, hslot⟩ => ?_)
    fun u hk => k.rewritten.trans hk
  exact ⟨k.rewritten.trans hk, hslot ▸ hq.update_value ha k.value v⟩

end Holds

/-- **A cycle**: where it begins, how it goes on, and that its members differ. -/
structure Turn (σ o : ℕ → ℕ) (m c : ℕ) : Prop where
  lt : ∀ r, o r < m
  next : ∀ r, o (r + 1) = σ (o r)
  back : o c = o 0
  inj : ∀ r < c, ∀ r' < c, o r = o r' → r = r'

/-- Members differ, but for the first that is met again. -/
theorem Turn.ne {c r' : ℕ} (k : Turn σ o m c) (hlt : r < r') (hle : r' ≤ c)
    (hnot : 0 < r ∨ r' < c) : o r ≠ o r' := fun heq => by
  rcases hle.lt_or_eq with hc | rfl
  · exact absurd (k.inj r (hlt.trans hc) r' hc heq) (Nat.ne_of_lt hlt)
  · have hr := k.inj r hlt 0 (Nat.zero_lt_of_lt hlt) (heq.trans k.back)
    omega

/-- One pass of the loop. -/
theorem cycleLoop_succ {c : ℕ} (e : Env α) (ho : Turn σ o m c) (hc : r + 1 < c) (rounds : ℕ)
    (hn : ∀ r', r ≤ r' → r' < c → n (o r') = o (r' + 1)) :
    cycleLoop e i (rounds + 1) (o r) (proxies q σ n m) = (do
      moveTo e (q (o (r + 1))) (q (o (r + 2)))
      if o (r + 2) ≠ i then
        cycleLoop e i rounds (o (r + 1)) (proxies q σ (update n (o r) (o r)) m)
      else pure (o (r + 1), proxies q σ (update n (o r) (o r)) m)) := by
  have hkept : update n (o r) (o r) (o (r + 1)) = o (r + 2) := by
    rw [update_of_ne (ho.ne (Nat.lt_succ_self r) (Nat.le_of_lt hc) (Or.inr hc)).symm]
    exact hn (r + 1) (Nat.le_succ r) hc
  rw [cycleLoop, proxyAt_proxies (ho.lt r), Prog.pure_bind]
  dsimp only
  rw [hn r (Nat.le_refl r) (Nat.lt_of_succ_lt hc), proxyAt_proxies (ho.lt (r + 1)), Prog.pure_bind]
  dsimp only
  rw [proxies_set, proxyAt_proxies (ho.lt (r + 1)), Prog.pure_bind]
  dsimp only
  rw [hkept, ← ho.next, ← ho.next]

/-- **The loop along a cycle** moves every value but the first, which is in no place. -/
theorem cycleLoop_run {c : ℕ} (e : Env α) (hq : Places s A q m) (ho : Turn σ o m c) (d : ℕ) :
    ∀ {t : State α} {n : ℕ → ℕ} {f : ℕ → α} {r rounds : ℕ}, r + 2 + d = c → d < rounds →
      Holds s A q m f t → (∀ r', r ≤ r' → r' < c → n (o r') = o (r' + 1)) →
      (∀ r', r + 2 ≤ r' → r' ≤ c → f (o r') = V (o r')) →
      (cycleLoop e (o 0) rounds (o r) (proxies q σ n m) t).Meets
        (fun x u => ∃ n' f', x = (o (c - 1), proxies q σ n' m) ∧ Holds s A q m f' u
          ∧ ((∀ r', r ≤ r' → r' + 1 < c → n' (o r') = o r')
            ∧ ∀ j, (∀ r', r ≤ r' → r' + 1 < c → j ≠ o r') → n' j = n j)
          ∧ (∀ r', r < r' → r' < c → f' (o r') = V (o (r' + 1)))
          ∧ ∀ j, (∀ r', r < r' → r' ≤ c → j ≠ o r') → f' j = f j)
        (Rewritten s A) := by
  induction d with
  | zero =>
    intro t n f r rounds hc hr hk hn hf
    obtain ⟨rounds, rfl⟩ := Nat.exists_eq_succ_of_ne_zero (Nat.ne_of_gt hr)
    have hlast : o (r + 2) = o 0 := hc ▸ ho.back
    rw [cycleLoop_succ e ho (by omega) rounds hn]
    refine Prog.bind_meets (hk.moveTo e hq (ho.lt (r + 1)) (ho.lt (r + 2))) fun _ u hu => ?_
    rw [if_neg (not_not_intro hlast)]
    refine ⟨_, _, by rw [← hc]; rfl, hu, ⟨fun r' hr' hlt => ?_, fun j hj => ?_⟩,
      fun r' hr' hlt => ?_, fun j hj => ?_⟩
    · obtain rfl : r' = r := by omega
      exact update_self _ _ _
    · exact update_of_ne (hj r (Nat.le_refl r) (by omega)) _ _
    · obtain rfl : r' = r + 1 := by omega
      rw [update_of_ne (ho.ne (Nat.lt_succ_self _) (by omega) (Or.inl (Nat.succ_pos r))),
        update_self]
      exact hf (r + 2) (Nat.le_refl _) (by omega)
    · rw [update_of_ne (hj (r + 2) (by omega) (by omega)),
        update_of_ne (hj (r + 1) (by omega) (by omega))]
  | succ d ih =>
    intro t n f r rounds hc hr hk hn hf
    obtain ⟨rounds, rfl⟩ := Nat.exists_eq_succ_of_ne_zero (Nat.ne_of_gt (Nat.zero_lt_of_lt hr))
    have hmore : o (r + 2) ≠ o 0 := (ho.ne (by omega) (by omega) (Or.inr (by omega))).symm
    rw [cycleLoop_succ e ho (by omega) rounds hn]
    refine Prog.bind_meets (hk.moveTo e hq (ho.lt (r + 1)) (ho.lt (r + 2))) fun _ u hu => ?_
    rw [if_pos hmore]
    have hn₁ : ∀ r', r + 1 ≤ r' → r' < c → update n (o r) (o r) (o r') = o (r' + 1) :=
      fun r' hle hlt => by
        rw [update_of_ne (ho.ne (by omega) (Nat.le_of_lt hlt) (Or.inr hlt)).symm]
        exact hn r' (by omega) hlt
    have hf₁ : ∀ r', r + 1 + 2 ≤ r' → r' ≤ c →
        update (update f (o (r + 1)) (f (o (r + 2)))) (o (r + 2)) (e.moved (f (o (r + 2)))) (o r')
          = V (o r') := fun r' hle hlt => by
      rw [update_of_ne (ho.ne (by omega) hlt (Or.inl (by omega))).symm,
        update_of_ne (ho.ne (by omega) hlt (Or.inl (by omega))).symm]
      exact hf r' (by omega) hlt
    refine (ih (by omega) (by omega) hu hn₁ hf₁).imp ?_ fun _ h => h
    rintro x w ⟨n', f', hx, hw, ⟨hn', hkept⟩, hf', hkept'⟩
    refine ⟨n', f', hx, hw, ⟨fun r' hle hlt => ?_, fun j hj => ?_⟩, fun r' hle hlt => ?_,
      fun j hj => ?_⟩
    · rcases hle.eq_or_lt with rfl | hlt'
      · rw [hkept _ fun r' hle hlt => ho.ne (by omega) (by omega) (Or.inr (by omega)), update_self]
      · exact hn' r' hlt' hlt
    · rw [hkept j fun r' hle hlt => hj r' (by omega) hlt,
        update_of_ne (hj r (Nat.le_refl r) (by omega))]
    · rcases Nat.eq_or_lt_of_le (Nat.succ_le_of_lt hle) with rfl | hlt'
      · rw [hkept' _ fun r' hlt hle => ho.ne hlt hle (Or.inl (Nat.succ_pos r)),
          update_of_ne (ho.ne (Nat.lt_succ_self _) (by omega) (Or.inl (Nat.succ_pos r))),
          update_self]
        exact hf (r + 2) (Nat.le_refl _) (by omega)
      · exact hf' r' hlt' hlt
    · rw [hkept' j fun r' hlt hle => hj r' (by omega) hle,
        update_of_ne (hj (r + 2) (by omega) (by omega)),
        update_of_ne (hj (r + 1) (by omega) (by omega))]

theorem Holds.congr {g : ℕ → α} (k : Holds s A q m f t) (heq : ∀ j < m, f j = g j) :
    Holds s A q m g t :=
  ⟨k.rewritten, fun j hj => heq j hj ▸ k.value j hj⟩

/-- **A cycle is gone through**: its places have the values they are to have. -/
theorem turnCycle_run (e : Env α) (hq : Places s A q m) (hσ : Permutes σ (Set.Iio m))
    (hk : Holds s A q m f t) (ha : Rearranging σ (Set.Iio m) V n f) (hi : i < m) (hne : n i ≠ i) :
    (turnCycle e m i (proxies q σ n m) t).Meets
      (fun ps u => ∃ n' f', ps = proxies q σ n' m ∧ Holds s A q m f' u
        ∧ Rearranging σ (Set.Iio m) V n' f' ∧ n' i = i ∧ ∀ j, n j = j → n' j = j)
      (Rewritten s A) := by
  obtain ⟨c, hc, hback, hinj⟩ := hσ.exists_period hi
  have hleft : ∀ r, n (σ^[r] i) ≠ σ^[r] i := ha.iterate_ne hσ hi hne
  have hwait : ∀ r, n (σ^[r] i) = σ (σ^[r] i) ∧ f (σ^[r] i) = V (σ^[r] i) := fun r =>
    ha.waiting _ (hσ.iterate_mem hi r) (hleft r)
  have hstep : ∀ r, σ^[r + 1] i = σ (σ^[r] i) := fun r => iterate_succ_apply' σ r i
  have hc₂ : 2 ≤ c := by
    by_contra hlt
    obtain rfl : c = 1 := by omega
    exact hne ((hwait 0).1.trans hback)
  have ho : Turn σ (fun r => σ^[r] i) m c := ⟨fun r => hσ.iterate_mem hi r, hstep, hback, hinj⟩
  have hcm : c ≤ m := by
    have hcard := hσ.period_le hi hinj
    rwa [Set.ncard_eq_toFinset_card', Set.toFinset_Iio, Nat.card_Iio] at hcard
  have hlast : σ (σ^[c - 1] i) = i := by
    rw [← hstep, Nat.sub_add_cancel hc]
    exact hback
  unfold turnCycle
  rw [proxyAt_proxies hi, Prog.pure_bind]
  dsimp only
  refine Prog.bind_meets (hk.takeValue e hq (ho.lt 1)) ?_
  rintro v u ⟨rfl, hu⟩
  have hf : ∀ r', 0 + 2 ≤ r' → r' ≤ c →
      update f (σ^[1] i) (e.moved (f (σ^[1] i))) (σ^[r'] i) = V (σ^[r'] i) := fun r' hle hlt => by
    rw [update_of_ne (ho.ne (by omega) hlt (Or.inl Nat.one_pos)).symm]
    exact (hwait r').2
  refine Prog.bind_meets (cycleLoop_run e hq ho (c - 2) (by omega) (by omega) hu
    (fun r' _ _ => (hwait r').1.trans (hstep r').symm) hf) ?_
  rintro ⟨j, ps⟩ w ⟨n', f', hx, hw, ⟨hn', hnkept⟩, hf', hfkept⟩
  obtain ⟨rfl, rfl⟩ := Prod.mk.inj hx
  dsimp only
  rw [proxyAt_proxies (ho.lt (c - 1)), Prog.pure_bind]
  dsimp only
  rw [hlast]
  refine Prog.bind_meets (hw.assign e hq hi _) fun _ x hx => ?_
  have hset := proxies_set (q := q) (σ := σ) (n := n') (m := m) (σ^[c - 1] i) (σ^[c - 1] i)
  rw [hlast] at hset
  have hsettled : ∀ r < c, update n' (σ^[c - 1] i) (σ^[c - 1] i) (σ^[r] i) = σ^[r] i :=
    fun r hr => by
      by_cases hr' : r = c - 1
      · rw [hr', update_self]
      · rw [update_of_ne fun heq => hr' (hinj r hr (c - 1) (by omega) heq)]
        exact hn' r (Nat.zero_le r) (by omega)
  have hnother : ∀ j, (∀ r, j ≠ σ^[r] i) → update n' (σ^[c - 1] i) (σ^[c - 1] i) j = n j :=
    fun j hj => (update_of_ne (hj (c - 1)) _ _).trans (hnkept j fun r' _ _ => hj r')
  refine ⟨_, _, hset, hx, ha.turn hσ hi hc hback hsettled (fun r hr => ?_) fun j _ hj => ?_,
    hsettled 0 hc, fun j hj => (hnother j fun r heq => hleft r (heq ▸ hj)).trans hj⟩
  · by_cases hr' : r = 0
    · rw [hr']
      exact (update_self _ _ _).trans (hwait 1).2
    · have hpos := Nat.pos_of_ne_zero hr'
      have hri : σ^[r] i ≠ i := (ho.ne hpos (Nat.le_of_lt hr) (Or.inr hr)).symm
      rw [update_of_ne hri]
      exact hf' r hpos hr
  · have hji : j ≠ i := hj 0
    have hj₁ : j ≠ σ i := hj 1
    refine ⟨hnother j hj, ?_⟩
    rw [update_of_ne hji, hfkept j fun r' _ _ => hj r']
    exact update_of_ne hj₁ _ _

/-- **The loop over the pointers** goes along every cycle, once, and each place has the value of
the element that its pointer was to. -/
theorem proxyLoop_run (e : Env α) (hq : Places s A q m) (hσ : Permutes σ (Set.Iio m))
    (rounds : ℕ) : ∀ {t : State α} {n : ℕ → ℕ} {f : ℕ → α} {i : ℕ}, i ≤ m → m - i < rounds →
      Holds s A q m f t → Rearranging σ (Set.Iio m) V n f → (∀ j < i, n j = j) →
      (proxyLoop e m rounds i (proxies q σ n m) t).Meets
        (fun _ u => Holds s A q m (fun j => V (σ j)) u) (Rewritten s A) := by
  induction rounds with
  | zero => exact fun _ hlt => absurd hlt (Nat.not_lt_zero _)
  | succ rounds ih =>
    intro t n f i hle hlt hk ha hdone
    have hnext : ∀ {n' : ℕ → ℕ}, n' i = i → (∀ j < i, n' j = j) → ∀ j < i + 1, n' j = j :=
      fun hself hbefore j hj => (Nat.lt_succ_iff_lt_or_eq.mp hj).elim (hbefore j)
        fun heq => heq ▸ hself
    rw [proxyLoop]
    by_cases hi : i < m
    · rw [if_pos hi, proxyAt_proxies hi, Prog.pure_bind]
      dsimp only
      by_cases hne : n i = i
      · rw [if_neg (not_not_intro hne)]
        exact ih hi (by omega) hk ha (hnext hne hdone)
      · rw [if_pos hne]
        refine Prog.bind_meets (turnCycle_run e hq hσ hk ha hi hne) ?_
        rintro ps u ⟨n', f', rfl, hu, ha', hself, hkept⟩
        exact ih hi (by omega) hu ha' (hnext hself fun j hj => hkept j (hdone j hj))
    · rw [if_neg hi]
      obtain rfl : i = m := by omega
      exact hk.congr fun j hj => ha.settled j hj (hdone j hj)

end Cycles

/-! ## Going over all elements -/

section Visits

variable {τ : Type} {f : τ → ℕ × ℕ → Prog (State α) τ} {I : List Iterator → τ → State α → Prop}
  {E : State α → Prop} {b : τ}

/-- What a visit to one element keeps of those that are left, all visits keep. -/
theorem visitThen_meets {last : Iterator}
    (hstep : ∀ x xs b u, I (x :: xs) b u → (f b (u.slotAt x) u).Meets (I xs) E)
    (xs : List Iterator) : ∀ {b : τ} {u : State α}, I xs b u →
      (visitThen State.data (returnTrue f) xs b (fun b => pure (last, b)) u).Meets
        (fun r w => I [] r.2 w) E := by
  induction xs with
  | nil => exact fun hI => hI
  | cons x xs ih =>
    intro b u hI
    rw [visitThen, Prog.gets_bind]
    have hone : (returnTrue f b (u.slotAt x) u).Meets (fun r w => r.1 = true ∧ I xs r.2 w) E :=
      Prog.bind_meets (hstep x xs b u hI) fun b' w hw => ⟨rfl, hw⟩
    refine Prog.bind_meets hone ?_
    rintro ⟨go, b'⟩ w ⟨hgo, hw⟩
    dsimp only at hgo hw ⊢
    rw [if_pos hgo]
    exact ih hw

/-- **`for_each`** visits every element, in order. -/
theorem forEachAll_meets (hs : Shape s h L)
    (hkeep : ∀ b p, Prog.Keeps (layoutWith State.data) (f b p))
    (hstep : ∀ x xs b u, I (x :: xs) b u → (f b (u.slotAt x) u).Meets (I xs) E)
    (hI : I (s.positions L.active) b s) (hr : s.rounds h = rounds) :
    (forEachAll f rounds h b s).Meets (I []) E := by
  obtain ⟨hlen, hactive⟩ := hs.rounds_enough hs.range_all
  have hlong : L.active.length + 1 < rounds := by
    have hnum : L.active.length ≤ s.numBlocks h := by
      rw [hs.numBlocks, Lists.blocks, List.length_append]
      omega
    rw [← hr]
    unfold State.rounds N
    omega
  have hloop : forEachAll f rounds h b s = _ :=
    (hs.toLinked.traversed.hub_all τ b rounds hlong (hr ▸ hlen)).2 f hkeep
  rw [hloop]
  refine Prog.bind_meets (Q := fun r w => I [] r.2 w) ?_ fun r w (hw : I [] r.2 w) => hw
  rw [iteratorLoop_eq hs.toLinked (returnTrue_keeps hkeep) (hr ▸ hlen) rfl hs.toLinked.range_all]
  exact visitThen_meets hstep _ hI

end Visits

theorem read_keeps {δ : Type} {g : State α → δ} (p : ℕ × ℕ) : Prog.Keeps g (read p) := fun s => by
  unfold read
  cases s.slot p with
  | none => trivial
  | some v => exact rfl

theorem assign_keeps (e : Env α) (p : ℕ × ℕ) (v : α) :
    Prog.Keeps (layoutWith State.data) (assign e p v) := fun s => by
  unfold assign
  split
  · split
    · exact rfl
    · exact rfl
  · trivial

theorem takeValue_keeps (e : Env α) (p : ℕ × ℕ) :
    Prog.Keeps (layoutWith State.data) (takeValue e p) := by
  refine (read_keeps p).bind fun v => Prog.Keeps.bind (fun s => ?_) fun _ => ?_
  · rcases tick_cases e s with hrun | hrun
    · rw [hrun]
      exact rfl
    · rw [hrun]
      exact rfl
  · exact Prog.Keeps.bind (Prog.keeps_modify fun s => rfl) fun _ => Prog.keeps_pure v

/-! ## Slots and their values -/

/-- **The slots of the elements**, in order. -/
theorem Shape.places (hs : Shape s h L) :
    ((s.positions L.active).map s.slotAt).Nodup
      ∧ ∀ p ∈ (s.positions L.active).map s.slotAt, p ∈ slotsOf s L.blocks := by
  refine ⟨List.Nodup.map_on (fun x hx y hy heq => hs.slotAt_inj (Shape.mem_blocks hx)
    (Shape.mem_blocks hy) heq) (State.nodup_positions hs.ring.nodup_members), fun p hp => ?_⟩
  obtain ⟨x, hx, rfl⟩ := List.mem_map.mp hp
  exact ⟨x.pbb, Shape.mem_blocks hx, rfl⟩

/-- The values of slots that are not written. -/
theorem map_slot_update {ps : List (ℕ × ℕ)} (hp : p ∉ ps) (o : Option α) (g : ℕ × ℕ → Option α) :
    ps.map (update g p o) = ps.map g :=
  List.map_congr_left fun q hq => update_of_ne (fun heq : q = p => hp (heq ▸ hq)) _ _

theorem readAll_run {ps : List (ℕ × ℕ)} (hv : ps.map s.slot = vs.map some) :
    readAll ps s = .done vs s := by
  induction ps generalizing vs with
  | nil =>
    obtain rfl : vs = [] := List.map_eq_nil_iff.mp hv.symm
    rfl
  | cons p ps ih =>
    cases vs with
    | nil => cases hv
    | cons v vs =>
      obtain ⟨hp, hps⟩ := List.cons.inj hv
      rw [readAll, Prog.bind_of_done (read_run hp), Prog.bind_of_done (ih hps)]
      rfl

/-- **What `std::sort` leaves** is in the slots, in order. -/
theorem putAll_run {ps : List (ℕ × ℕ)} (hnd : ps.Nodup) (hmem : ∀ p ∈ ps, p ∈ slotsOf s A)
    (hv : ps.map s.slot = vs.map some) (hlen : ws.length = vs.length) :
    ∃ u, putAll (ps.zip ws) s = .done () u ∧ Rewritten s A u ∧ ps.map u.slot = ws.map some
      ∧ ∀ p ∉ ps, u.slot p = s.slot p := by
  induction ps generalizing s vs ws with
  | nil =>
    obtain rfl : vs = [] := List.map_eq_nil_iff.mp hv.symm
    obtain rfl : ws = [] := List.eq_nil_of_length_eq_zero hlen
    exact ⟨s, rfl, Rewritten.refl s A, rfl, fun _ _ => rfl⟩
  | cons p ps ih =>
    cases vs with
    | nil => cases hv
    | cons v vs =>
      obtain ⟨w, ws, rfl⟩ := List.exists_cons_of_length_eq_add_one hlen
      obtain ⟨hp, hps⟩ := List.cons.inj hv
      obtain ⟨hnot, hnd⟩ := List.nodup_cons.mp hnd
      have hk : Rewritten s A { s with slot := update s.slot p (some w) } :=
        Rewritten.write (hp ▸ rfl) (hmem p List.mem_cons_self) w
      obtain ⟨u, hrun, hu, hws, hother⟩ := ih
        (s := { s with slot := update s.slot p (some w) }) hnd
        (fun q hq => hmem q (List.mem_cons_of_mem p hq))
        ((map_slot_update hnot _ _).trans hps) (Nat.succ.inj hlen)
      refine ⟨u, ?_, hk.trans hu, ?_, fun q hq => ?_⟩
      · rw [List.zip_cons_cons, putAll, Prog.bind_of_done (read_run hp), Prog.modify_bind]
        exact hrun
      · rw [List.map_cons, hother p hnot, hws]
        exact congrArg (· :: ws.map some) (update_self _ _ _)
      · rw [List.mem_cons, not_or] at hq
        rw [hother q hq.2]
        exact update_of_ne hq.1 _ _

/-! ## What a sort leaves -/

/-- **A list is sorted**: it has the values that there were, in an order in which none is less
than one before it, if the comparison is a weak order. -/
structure SortedFrom (less : α → α → Bool) (vs ws : List α) : Prop where
  perm : ws.Perm vs
  ordered : IsStrictWeakOrder α (fun a b => less a b = true) →
    ws.SortedBy fun a b => less a b = true

theorem SortedFrom.of_le_one (less : α → α → Bool) (hlen : vs.length ≤ 1) :
    SortedFrom less vs vs where
  perm := List.Perm.refl _
  ordered _ := by
    cases vs with
    | nil => exact List.Pairwise.nil
    | cons v vs =>
      obtain rfl : vs = [] :=
        List.eq_nil_of_length_eq_zero (Nat.le_zero.mp (Nat.le_of_succ_le_succ hlen))
      exact List.pairwise_singleton _ _

theorem StdSort.sortedFrom (c : StdSort) (hdone : (c.run less vs).1 = false) :
    SortedFrom less vs (c.run less vs).2 :=
  ⟨c.perm less vs hdone, fun horder => c.sorted less vs horder hdone⟩

/-- Values that are in the slots of the elements, in order, are the list. -/
theorem Rewritten.contents (k : Rewritten s A t)
    (hv : ((s.positions L.active).map s.slotAt).map t.slot = ws.map some) :
    t.contents L.active = ws := by
  refine State.Values.contents ?_
  rw [k.positions]
  show (s.positions L.active).map (fun x => t.slot (t.slotAt x)) = ws.map some
  rw [k.slotAt, ← hv, List.map_map]
  rfl

theorem Rewritten.mem_slotsOf (k : Rewritten s A t) (hp : p ∈ slotsOf s A) : p ∈ slotsOf t A := by
  obtain ⟨b, hb, hd⟩ := hp
  exact ⟨b, hb, k.data ▸ hd⟩

/-! ## By way of a buffer -/

/-- **The elements go to the buffer**, in order. -/
theorem toBuffer_run (e : Env α) (hs : Shape s h L)
    (hslots : ((s.positions L.active).map s.slotAt).map s.slot = vs.map some) :
    (forEachAll (fun buf p => do
      let v ← takeValue e p
      pure (buf ++ [v])) (s.rounds h) h [] s).Meets
      (fun buf u => buf = vs ∧ Rewritten s L.blocks u) (Rewritten s L.blocks) := by
  obtain ⟨hnd, hmem⟩ := hs.places
  refine (forEachAll_meets (I := fun xs buf u => ∃ vs', Rewritten s L.blocks u
      ∧ (xs.map s.slotAt).map u.slot = vs'.map some ∧ buf ++ vs' = vs
      ∧ (xs.map s.slotAt).Nodup ∧ ∀ p ∈ xs.map s.slotAt, p ∈ slotsOf s L.blocks) hs
    (fun buf p => (takeValue_keeps e p).bind fun v => Prog.keeps_pure _) ?_
    ⟨vs, Rewritten.refl s L.blocks, hslots, rfl, hnd, hmem⟩ rfl).imp ?_ fun _ hu => hu
  · rintro x xs buf u ⟨vs', hu, hvalues, hbuf, hnd', hmem'⟩
    cases vs' with
    | nil => cases hvalues
    | cons v vs' =>
      obtain ⟨hv, hrest⟩ := List.cons.inj hvalues
      obtain ⟨hnot, hnd'⟩ := List.nodup_cons.mp hnd'
      rw [hu.slotAt]
      refine Prog.bind_meets ((takeValue_run e hv
        (hu.mem_slotsOf (hmem' _ List.mem_cons_self))).imp (fun _ _ hdone => hdone)
        fun w hw => hu.trans hw) ?_
      rintro v' w ⟨rfl, hw, hslot⟩
      refine ⟨vs', hu.trans hw, ?_, ?_, hnd', fun q hq => hmem' q (List.mem_cons_of_mem _ hq)⟩
      · rw [hslot, map_slot_update hnot]
        exact hrest
      · rw [List.append_assoc]
        exact hbuf
  · rintro buf u ⟨vs', hu, hvalues, hbuf, -⟩
    obtain rfl : vs' = [] := List.map_eq_nil_iff.mp hvalues.symm
    exact ⟨(List.append_nil buf).symm.trans hbuf, hu⟩

/-- **And back**, in the order they have there. -/
theorem fromBuffer_run (e : Env α) (hs : Shape s h L) (hu : Rewritten s L.blocks u)
    (hlen : (s.positions L.active).length = ws.length) :
    (forEachAll (fun buf p => assignFront e p buf) (s.rounds h) h ws u).Meets
      (fun _ w => Rewritten s L.blocks w
        ∧ ((s.positions L.active).map s.slotAt).map w.slot = ws.map some)
      (Rewritten s L.blocks) := by
  obtain ⟨hnd, hmem⟩ := hs.places
  have hsame : u.numBlocks = s.numBlocks := by rw [hu.same]
  have hrounds : u.rounds h = s.rounds h := by
    unfold State.rounds
    rw [hsame]
  -- The slots that were written come before those that are left.
  refine (forEachAll_meets (I := fun xs buf w => ∃ ps₁ ws₁,
      (s.positions L.active).map s.slotAt = ps₁ ++ xs.map s.slotAt ∧ ws = ws₁ ++ buf
      ∧ xs.length = buf.length ∧ Rewritten s L.blocks w ∧ ps₁.map w.slot = ws₁.map some)
    (E := Rewritten s L.blocks) (hu.becomes hs).shape (fun buf p => ?_) ?_
    ⟨[], [], by rw [hu.positions]; rfl, rfl, by rw [hu.positions, hlen], hu, rfl⟩ hrounds).imp ?_
    fun _ hw => hw
  · cases buf with
    | nil => exact Prog.keeps_undefined
    | cons v buf => exact (assign_keeps e p v).bind fun _ => Prog.keeps_pure _
  · rintro x xs buf w ⟨ps₁, ws₁, hps, hws, hlen', hw, hv⟩
    obtain ⟨v, buf, rfl⟩ := List.exists_cons_of_length_eq_add_one hlen'.symm
    have hx : s.slotAt x ∈ (s.positions L.active).map s.slotAt := by
      rw [hps]
      exact List.mem_append_right _ List.mem_cons_self
    have hlive : (w.slot (s.slotAt x)).isSome = true := by
      obtain ⟨y, hy, hyx⟩ := List.mem_map.mp hx
      rw [hw.isSome, ← hyx]
      exact hs.isSome_slotAt hy
    have hnot : s.slotAt x ∉ ps₁ := fun hin => by
      rw [hps] at hnd
      exact (List.nodup_append.mp hnd).2.2 _ hin _ List.mem_cons_self rfl
    rw [hw.slotAt]
    refine Prog.bind_meets ((assign_run e v hlive (hw.mem_slotsOf (hmem _ hx))).imp
      (fun _ _ hdone => hdone) fun w' hw' => hw.trans hw') fun _ w' ⟨hw', hslot⟩ => ?_
    refine ⟨ps₁ ++ [s.slotAt x], ws₁ ++ [v], ?_, ?_, Nat.succ.inj hlen', hw.trans hw', ?_⟩
    · rw [hps, List.append_assoc]
      rfl
    · rw [hws, List.append_assoc]
      rfl
    · rw [hslot, List.map_append, map_slot_update hnot, hv, List.map_append, List.map_singleton,
        update_self]
      rfl
  · rintro buf w ⟨ps₁, ws₁, hps, hws, hlen', hw, hv⟩
    obtain rfl : buf = [] := List.eq_nil_of_length_eq_zero hlen'.symm
    refine ⟨hw, ?_⟩
    rw [hps, hws, List.map_nil, List.append_nil, List.append_nil]
    exact hv

/-- What a hub with one element or none is. -/
theorem Shape.sorted_of_size_le (hs : Shape s h L) (less : α → α → Bool) (hsize : ¬ s.size h > 1) :
    SortedFrom less (s.contents L.active) (s.contents L.active) := by
  obtain ⟨vs, hvs⟩ := hs.exists_values fun x hx => hx
  refine SortedFrom.of_le_one less ?_
  rw [hvs.contents, ← hvs.length, ← hs.size]
  exact Nat.le_of_not_lt hsize

/-- **`transfer_sort`** sorts, if there is memory for the buffer. -/
theorem transferSort_run (e : Env α) (c : Sorting) (less : α → α → Bool) (hs : Shape s h L) :
    (transferSort e c less h s).Meets
      (fun done t => Rewritten s L.blocks t ∧ if done = true then
        SortedFrom less (s.contents L.active) (t.contents L.active) else t = s)
      (Rewritten s L.blocks) := by
  unfold transferSort
  rw [Prog.gets_bind, Prog.gets_bind]
  by_cases hsize : s.size h > 1
  · rw [if_pos hsize]
    by_cases hbuffer : c.buffer = false
    · rw [if_pos hbuffer]
      exact ⟨Rewritten.refl s L.blocks, rfl⟩
    · rw [if_neg hbuffer]
      obtain ⟨vs, hvs⟩ := hs.exists_values fun x hx => hx
      refine Prog.bind_meets (toBuffer_run e hs (List.map_map.trans hvs)) ?_
      rintro buf u ⟨rfl, hu⟩
      by_cases hthrew : (c.std.run less buf).1 = true
      · rw [if_pos hthrew]
        exact hu
      · rw [if_neg hthrew]
        have hlen : (s.positions L.active).length = (c.std.run less buf).2.length :=
          hvs.length.trans (c.std.length less buf).symm
        refine Prog.bind_meets (fromBuffer_run e hs hu hlen) fun _ w ⟨hw, hv⟩ => ⟨hw, ?_⟩
        rw [if_pos rfl, hvs.contents, hw.contents hv]
        exact c.std.sortedFrom (Bool.eq_false_of_not_eq_true hthrew)
  · rw [if_neg hsize]
    exact ⟨Rewritten.refl s L.blocks, hs.sorted_of_size_le less hsize⟩

/-! ## By way of pointers -/

theorem eq_map_range {β : Type} (l : List β) (d : β) :
    l = (List.range l.length).map fun i => l.getD i d := by
  refine List.ext_getElem? fun i => ?_
  rw [List.getElem?_map]
  by_cases hi : i < l.length
  · rw [List.getElem?_range hi, List.getElem?_eq_getElem hi, Option.map_some,
      List.getD_eq_getElem l d hi]
  · rw [List.getElem?_eq_none (Nat.le_of_not_lt hi), List.getElem?_eq_none (by simpa using hi)]
    rfl

/-- **The pointers**, each with its index. -/
theorem pointers_run {q : ℕ → ℕ × ℕ} (hs : Shape s h L)
    (hq : (s.positions L.active).map s.slotAt = (List.range (s.size h)).map q) :
    (forEachAll (fun ps p => (pure (ps ++ [⟨p, ps.length⟩]) : Prog (State α) (List Proxy)))
      (s.rounds h) h [] s).Meets
      (fun ps u => ps = (List.range (s.size h)).map (fun i => ⟨q i, i⟩) ∧ u = s)
      (fun _ => False) := by
  refine (forEachAll_meets (I := fun xs ps u => u = s ∧ ∃ d,
      (s.positions L.active).map s.slotAt = (List.range d).map q ++ xs.map s.slotAt
      ∧ ps = (List.range d).map fun i => ⟨q i, i⟩) hs (fun ps p => Prog.keeps_pure _) ?_
    ⟨rfl, 0, rfl, rfl⟩ rfl).imp ?_ fun _ hu => hu
  · rintro x xs ps u ⟨rfl, d, hps, rfl⟩
    have hx : u.slotAt x = q d := by
      rw [hq] at hps
      have hget := congrArg (fun l : List (ℕ × ℕ) => l[d]?) hps
      rw [List.getElem?_append_right (by simp), List.length_map, List.length_range, Nat.sub_self,
        List.getElem?_map] at hget
      by_cases hd : d < u.size h
      · rw [List.getElem?_range hd] at hget
        exact (Option.some.inj hget).symm
      · rw [List.getElem?_eq_none (by simpa using hd)] at hget
        cases hget
    refine ⟨rfl, d + 1, ?_, ?_⟩
    · rw [hps, List.range_succ, List.map_append, List.append_assoc, List.map_cons, hx]
      rfl
    · rw [List.range_succ, List.map_append, List.length_map, List.length_range, hx]
      rfl
  · rintro ps u ⟨rfl, d, hps, rfl⟩
    have hd := congrArg List.length (hq.symm.trans hps)
    rw [List.map_nil, List.append_nil, List.length_map, List.length_map, List.length_range,
      List.length_range] at hd
    exact ⟨by rw [hd], rfl⟩

/-- Indices in another order are a permutation. -/
theorem permutes_of_perm {ns : List ℕ} {m : ℕ} (hperm : ns.Perm (List.range m)) :
    Permutes (fun i => ns.getD i 0) (Set.Iio m) := by
  have hlen : ns.length = m := hperm.length_eq.trans List.length_range
  have hget : ∀ i (hi : i < m), ns.getD i 0 = ns.get ⟨i, hlen.symm ▸ hi⟩ := fun i hi =>
    List.getD_eq_getElem ns 0 _
  refine ⟨Set.finite_Iio m, fun i hi => ?_, fun i hi j hj heq => ?_⟩
  · show ns.getD i 0 < m
    rw [hget i hi]
    exact List.mem_range.mp (hperm.mem_iff.mp (List.get_mem ns _))
  · rw [hget i hi, hget j hj] at heq
    have hinj := List.nodup_iff_injective_get.mp (hperm.nodup_iff.mpr List.nodup_range) heq
    exact congrArg Fin.val hinj

/-- **A sorted array of pointers** is a permutation, and the values it was sorted by are those
of the elements, in its order. -/
theorem exists_permutes {V : ℕ → α} {q : ℕ → ℕ × ℕ} {sl : List (α × Proxy)}
    (hperm : sl.Perm ((List.range m).map fun i => (V i, ⟨q i, i⟩))) :
    ∃ σ, Permutes σ (Set.Iio m) ∧ sl.map Prod.snd = proxies q σ σ m
      ∧ sl.map Prod.fst = (List.range m).map fun j => V (σ j) := by
  obtain ⟨ns, hns⟩ : ∃ ns, sl.map (fun x => x.2.n) = ns := ⟨_, rfl⟩
  have hindices : ns.Perm (List.range m) := by
    have hmap := hperm.map fun x => x.2.n
    rw [hns, List.map_map] at hmap
    exact hmap.trans (List.Perm.of_eq (List.map_id _))
  have hsl : sl = ns.map fun i => (V i, ⟨q i, i⟩) := by
    rw [← hns, List.map_map]
    refine (List.map_id sl).symm.trans (List.map_congr_left fun x hx => ?_)
    obtain ⟨i, -, rfl⟩ := List.mem_map.mp (hperm.mem_iff.mp hx)
    rfl
  have hrange : ns = (List.range m).map fun i => ns.getD i 0 := by
    have hall := eq_map_range ns 0
    rwa [hindices.length_eq, List.length_range] at hall
  refine ⟨fun i => ns.getD i 0, permutes_of_perm hindices, ?_, ?_⟩
  · rw [hsl, List.map_map, proxies]
    exact (congrArg _ hrange).trans (List.map_map)
  · rw [hsl, List.map_map]
    exact (congrArg _ hrange).trans (List.map_map)

/-- **`proxy_sort`** sorts, if there is memory for the pointers. -/
theorem proxySort_run (e : Env α) (c : Sorting) (less : α → α → Bool) (hs : Shape s h L) :
    (proxySort e c less h s).Meets
      (fun done t => Rewritten s L.blocks t ∧ if done = true then
        SortedFrom less (s.contents L.active) (t.contents L.active) else t = s)
      (Rewritten s L.blocks) := by
  unfold proxySort
  rw [Prog.gets_bind, Prog.gets_bind]
  by_cases hsize : s.size h > 1
  · rw [if_pos hsize]
    by_cases hproxies : c.proxies = false
    · rw [if_pos hproxies]
      exact ⟨Rewritten.refl s L.blocks, rfl⟩
    · rw [if_neg hproxies]
      obtain ⟨vs, hvs⟩ := hs.exists_values fun x hx => hx
      obtain ⟨hnd, hmem⟩ := hs.places
      obtain ⟨m, hm⟩ : ∃ m, s.size h = m := ⟨_, rfl⟩
      have hpos : (s.positions L.active).length = m := hs.size.symm.trans hm
      have hvm : vs.length = m := hvs.length.symm.trans hpos
      obtain ⟨v₀, -⟩ := List.exists_mem_of_length_pos (l := vs) (by omega)
      -- Slots and values, by their indices.
      obtain ⟨q, hq⟩ : ∃ q : ℕ → ℕ × ℕ,
          (s.positions L.active).map s.slotAt = (List.range m).map q :=
        ⟨_, (eq_map_range _ (0, 0)).trans (by rw [List.length_map, hpos])⟩
      obtain ⟨V, hV⟩ : ∃ V : ℕ → α, vs = (List.range m).map V :=
        ⟨_, (eq_map_range vs v₀).trans (by rw [hvm])⟩
      have hvalue : ∀ j < m, s.slot (q j) = some (V j) := fun j hj => by
        have hslots := List.map_map.trans hvs
        rw [hq, hV, List.map_map, List.map_map] at hslots
        exact List.map_inj_left.mp hslots j (List.mem_range.mpr hj)
      have hplaces : Places s L.blocks q m := by
        rw [hq] at hnd hmem
        refine ⟨fun j hj k hk heq => ?_,
          fun j hj => hmem _ (List.mem_map_of_mem (List.mem_range.mpr hj))⟩
        exact List.inj_on_of_nodup_map hnd (List.mem_range.mpr hj) (List.mem_range.mpr hk) heq
      refine Prog.bind_meets ((pointers_run hs (hm.symm ▸ hq)).imp (fun _ _ hdone => hdone)
        fun _ hf => hf.elim) ?_
      rintro ps u ⟨rfl, rfl⟩
      rw [hm]
      have hread : ((List.range m).map (fun i => (⟨q i, i⟩ : Proxy))).map Proxy.p
          = (List.range m).map q := List.map_map
      have hslots : ((List.range m).map q).map u.slot = vs.map some := hq ▸ List.map_map.trans hvs
      rw [hread, Prog.bind_of_done (readAll_run hslots), hV, List.zip_map']
      obtain ⟨r, hr⟩ : ∃ r, c.std.run (fun x y : α × Proxy => less x.1 y.1)
          ((List.range m).map fun i => (V i, ⟨q i, i⟩)) = r := ⟨_, rfl⟩
      rw [hr]
      by_cases hthrew : r.1 = true
      · rw [if_pos hthrew]
        exact Rewritten.refl u L.blocks
      · rw [if_neg hthrew]
        have hdone : (c.std.run (fun x y : α × Proxy => less x.1 y.1)
            ((List.range m).map fun i => (V i, ⟨q i, i⟩))).1 = false := by
          rw [hr]
          exact Bool.eq_false_of_not_eq_true hthrew
        have hperm := c.std.perm _ _ hdone
        rw [hr] at hperm
        obtain ⟨σ, hσ, hsnd, hfst⟩ := exists_permutes hperm
        rw [hsnd]
        refine Prog.bind_meets (proxyLoop_run e hplaces hσ (m + 1) (Nat.zero_le m) (by omega)
          ⟨Rewritten.refl u L.blocks, hvalue⟩ (Rearranging.init hσ)
          fun j hj => absurd hj (Nat.not_lt_zero j)) fun _ w hw => ⟨hw.rewritten, ?_⟩
        have hafter : ((u.positions L.active).map u.slotAt).map w.slot
            = (r.2.map Prod.fst).map some := by
          rw [hq, hfst, List.map_map, List.map_map]
          exact List.map_congr_left fun j hj => hw.value j (List.mem_range.mp hj)
        rw [if_pos rfl, hvs.contents, hw.rewritten.contents hafter]
        refine ⟨?_, fun horder => List.pairwise_map.mpr ?_⟩
        · rw [hV]
          exact (hperm.map Prod.fst).trans (List.Perm.of_eq List.map_map)
        · have hsorted := c.std.sorted _ _ (Order.Preimage.instIsStrictWeakOrder (f := Prod.fst)
            (r := fun a b => less a b = true)) hdone
          rw [hr] at hsorted
          exact hsorted
  · rw [if_neg hsize]
    exact ⟨Rewritten.refl s L.blocks, hs.sorted_of_size_le less hsize⟩

/-! ## In place -/

/-- **The slots of a packed hub**, by their indices, are those of its elements. -/
theorem Tight.sortSlots_eq (k : Tight s L) (hs : Shape s h L) :
    sortSlots (L.active.map s.data) (s.size h) = (s.positions L.active).map s.slotAt := by
  refine List.ext_getElem? fun i => ?_
  rw [sortSlots, List.getElem?_map, List.getElem?_map]
  by_cases hi : i < (s.positions L.active).length
  · have hpos := k.getElem?_positions hi
    rw [List.getElem?_eq_getElem hi] at hpos ⊢
    rw [hs.size, List.getElem?_range hi]
    cases hb : L.active[i / N]? with
    | none =>
      rw [hb] at hpos
      cases hpos
    | some b =>
      rw [hb, Option.map_some] at hpos
      rw [Option.map_some, Option.map_some, Option.some.inj hpos, List.getD_eq_getElem?_getD,
        List.getElem?_map, hb]
      rfl
  · rw [List.getElem?_eq_none (Nat.le_of_not_lt hi),
      List.getElem?_eq_none (by simpa [hs.size] using hi)]
    rfl

/-- **`compact_sort`** sorts; where something throws, the hub is well formed. -/
theorem compactSort_run (e : Env α) (c : Sorting) (less : α → α → Bool) (hs : Shape s h L) :
    (compactSort e c less h s).Meets
      (fun _ t => ∃ L', Becomes s h L t L'
        ∧ SortedFrom less (s.contents L.active) (t.contents L'.active))
      (fun t => ∃ L', Becomes s h L t L' ∧ t.size h = s.size h) := by
  unfold compactSort
  rw [Prog.gets_bind]
  by_cases hsize : s.size h > 1
  · rw [if_pos hsize]
    by_cases hchunks : c.chunks = false
    · rw [if_pos hchunks]
      exact ⟨L, Becomes.refl hs, rfl⟩
    · rw [if_neg hchunks]
      refine Prog.bind_meets ((compact_run e hs).imp (fun _ _ hdone => hdone)
        fun t ⟨L', hk⟩ => ⟨L', hk.becomes, hk.size⟩) ?_
      rintro chunks t ⟨L', hk, htight, rfl⟩
      have ht := hk.shape
      have hcount : (L'.active.map t.data).length = (s.size h + N - 1) / N := by
        rw [List.length_map, htight.length_active ht, hk.size]
      obtain ⟨vs, hvs⟩ := ht.exists_values fun x hx => hx
      have hslots : ((t.positions L'.active).map t.slotAt).map t.slot = vs.map some :=
        List.map_map.trans hvs
      obtain ⟨hnd, hmem⟩ := ht.places
      obtain ⟨u, hrun, hu, hws, -⟩ := putAll_run hnd hmem hslots (c.std.length less vs)
      rw [if_neg (not_not_intro hcount), ← hk.size, htight.sortSlots_eq ht,
        Prog.bind_of_done (readAll_run hslots), Prog.bind_of_done hrun]
      have hbecomes := hk.becomes.trans (hu.becomes ht)
      by_cases hthrew : (c.std.run less vs).1 = true
      · rw [if_pos hthrew]
        exact ⟨L', hbecomes, congrFun hu.size h⟩
      · rw [if_neg hthrew]
        have hsorted := c.std.sortedFrom (Bool.eq_false_of_not_eq_true hthrew)
        refine ⟨L', hbecomes, ?_⟩
        rw [hu.contents hws]
        refine ⟨hsorted.perm.trans ?_, hsorted.ordered⟩
        rw [← hvs.contents]
        exact hk.perm
  · rw [if_neg hsize]
    exact ⟨L, Becomes.refl hs, hs.sorted_of_size_le less hsize⟩

/-! ## What is promised -/

/-- **`sort`** sorts, in whichever way; where something throws, the hub is well formed. -/
theorem sort_run (e : Env α) (c : Sorting) (less : α → α → Bool) (hs : Shape s h L) :
    (sort e c less h s).Meets
      (fun _ t => ∃ L', Becomes s h L t L'
        ∧ SortedFrom less (s.contents L.active) (t.contents L'.active))
      (fun t => ∃ L', Becomes s h L t L' ∧ t.size h = s.size h) := by
  unfold sort
  rw [Prog.gets_bind]
  have hfirst : ((if c.sizeOfT ≤ c.sizeOfProxy then transferSort e c less h
      else if s.size h * c.sizeOfProxy ≤ 2 * 1024 * 1024 then proxySort e c less h
      else pure false) s).Meets
      (fun done t => Rewritten s L.blocks t ∧ if done = true then
        SortedFrom less (s.contents L.active) (t.contents L.active) else t = s)
      (Rewritten s L.blocks) := by
    split
    · exact transferSort_run e c less hs
    · split
      · exact proxySort_run e c less hs
      · exact ⟨Rewritten.refl s L.blocks, rfl⟩
  refine Prog.bind_meets (hfirst.imp (fun _ _ hdone => hdone) fun t ht =>
    ⟨L, ht.becomes hs, congrFun ht.size h⟩) ?_
  rintro done t ⟨ht, hdone⟩
  by_cases hd : done = true
  · rw [if_pos hd] at hdone ⊢
    exact ⟨L, ht.becomes hs, hdone⟩
  · rw [if_neg hd] at hdone ⊢
    rw [hdone]
    exact compactSort_run e c less hs

/-- **A hub is sorted**, by way of a buffer, of pointers or in place, as sizes and memory have it:
the elements are those there were, in an order in which none is less than one before it. The
first two ways keep every element in one of the slots that there were, and where there is
no memory for them nothing is touched. Where a comparison, a move or an allocation throws, the
hub has as many elements as before and is well formed, and no other hub notices. -/
theorem sort_sorts (e : Env α) (c : Sorting) (less : α → α → Bool) (hs : Shape s h L) :
    (transferSort e c less h s).Meets
      (fun done t => Rewritten s L.blocks t ∧ if done = true then
        SortedFrom less (s.contents L.active) (t.contents L.active) else t = s)
      (Rewritten s L.blocks)
    ∧ (proxySort e c less h s).Meets
      (fun done t => Rewritten s L.blocks t ∧ if done = true then
        SortedFrom less (s.contents L.active) (t.contents L.active) else t = s)
      (Rewritten s L.blocks)
    ∧ (sort e c less h s).Meets
      (fun _ t => ∃ L', Becomes s h L t L'
        ∧ SortedFrom less (s.contents L.active) (t.contents L'.active))
      (fun t => ∃ L', Becomes s h L t L' ∧ t.size h = s.size h) :=
  ⟨transferSort_run e c less hs, proxySort_run e c less hs, sort_run e c less hs⟩

/-- A merge sort is one that never throws. -/
theorem mergeSort_sortedBy {β : Type} (less : β → β → Bool) (l : List β)
    (horder : IsStrictWeakOrder β fun a b => less a b = true) :
    (l.mergeSort fun a b => !less b a).SortedBy fun a b => less a b = true := by
  have htrans : ∀ a b c : β, (!less b a) = true → (!less c b) = true → (!less c a) = true := by
    intro a b c hab hbc
    rw [Bool.not_eq_true'] at hab hbc ⊢
    exact Bool.eq_false_iff.mpr (@List.not_lt_trans β (fun a b => less a b = true) horder a b c
      (Bool.eq_false_iff.mp hab) (Bool.eq_false_iff.mp hbc))
  have htotal : ∀ a b : β, ((!less b a) || !less a b) = true := by
    intro a b
    rw [← Bool.not_and, Bool.not_eq_true', Bool.and_eq_false_iff]
    by_cases hab : less a b = true
    · exact Or.inl (Bool.eq_false_iff.mpr fun hba => irrefl_of (fun a b => less a b = true) a
        (trans_of (fun a b => less a b = true) hab hba))
    · exact Or.inr (Bool.eq_false_iff.mpr hab)
  exact (List.pairwise_mergeSort htrans htotal l).imp fun hab => by simpa using hab

/-- Elements as large as pointers, and all the memory there is. -/
def mergeSorting : Sorting where
  std :=
    { run := fun less l => (false, l.mergeSort fun a b => !less b a)
      length := fun _ l => List.length_mergeSort l
      perm := fun _ l _ => List.mergeSort_perm l _
      sorted := fun less l horder _ => mergeSort_sortedBy less l horder }
  sizeOfT := 8
  sizeOfProxy := 16
  buffer := true
  proxies := true
  chunks := true

theorem sort_sorts_sample :
    (transferSort throwing mergeSorting (fun a b => decide (b < a)) 1 sample).Meets
      (fun done t => Rewritten sample sampleLists.blocks t ∧ if done = true then
        SortedFrom (fun a b => decide (b < a)) (sample.contents sampleLists.active)
          (t.contents sampleLists.active) else t = sample)
      (Rewritten sample sampleLists.blocks)
    ∧ (proxySort throwing mergeSorting (fun a b => decide (b < a)) 1 sample).Meets
      (fun done t => Rewritten sample sampleLists.blocks t ∧ if done = true then
        SortedFrom (fun a b => decide (b < a)) (sample.contents sampleLists.active)
          (t.contents sampleLists.active) else t = sample)
      (Rewritten sample sampleLists.blocks)
    ∧ (sort throwing mergeSorting (fun a b => decide (b < a)) 1 sample).Meets
      (fun _ t => ∃ L', Becomes sample 1 sampleLists t L'
        ∧ SortedFrom (fun a b => decide (b < a)) (sample.contents sampleLists.active)
          (t.contents L'.active))
      (fun t => ∃ L', Becomes sample 1 sampleLists t L' ∧ t.size 1 = sample.size 1) :=
  sort_sorts throwing mergeSorting _ shape_sample

end Hub
