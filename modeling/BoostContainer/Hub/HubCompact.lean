import BoostContainer.Hub.HubSwap

/-!
# Moving elements together

Compaction moves elements from a block to another, or within a block: from the highest bit of
the one mask to the lowest clear bit of the other. Which of two blocks gives and which takes
does not matter to the lists, so the fuller one takes, and where it is the other of the two, they exchange their
masks and their data before.

Between two such moves the lists of blocks are not touched. What holds then is a property of
the blocks alone: each of their slots has an element exactly if its bit is set, and all of
them together have the elements that they had.
-/

open Function

namespace Hub

variable {α : Type}

section Programs

variable (e : Env α)

/-- An element is constructed from another, which is destroyed, and both bits are written. -/
def relocate (pbx n pby m : ℕ) : Prog (State α) Unit := do
  let px ← dataOf pbx
  let py ← dataOf pby
  let v ← read (py, m)
  construct e (px, n) v
  Prog.modify fun s => { s with slot := update s.slot (py, m) (some (e.moved v)) }
  destroy (py, m)
  let mask ← maskOf pbx
  setMask pbx (mask ||| (mask + 1))
  let mask ← maskOf pby
  setMask pby (mask &&& ~~~Mask.bit m)

/-- The loop of `compact` over two blocks. -/
def compactPairLoop (pbx pby : ℕ) : ℕ → Prog (State α) Unit
  | 0 => pure ()
  | c + 1 => do
    let n := Mask.countrOne (← maskOf pbx)
    let m := N - 1 - Mask.countlZero (← maskOf pby)
    relocate e pbx n pby m
    compactPairLoop pbx pby c

/-- `swap_payload` -/
def swapPayload (pbx pby : ℕ) : Prog (State α) Unit := do
  Prog.modify fun s => { s with
    mask := update (update s.mask pbx (s.mask pby)) pby (s.mask pbx) }
  Prog.modify fun s => { s with
    data := update (update s.data pbx (s.data pby)) pby (s.data pbx) }

/-- `compact`, of two blocks. -/
def compactPair (pbx pby : ℕ) : Prog (State α) Unit := do
  let cx := Mask.popcount (← maskOf pbx)
  let cy := Mask.popcount (← maskOf pby)
  if cx < cy then do
    swapPayload pbx pby
    compactPairLoop e pbx pby (min (N - cy) cx)
  else compactPairLoop e pbx pby (min (N - cx) cy)

/-- `compact`, of one block. -/
def compactBlock (pb : ℕ) : ℕ → Prog (State α) Unit
  | 0 => Prog.undefined
  | rounds + 1 => do
    let mask ← maskOf pb
    let n := Mask.countrOne mask
    let m := N - 1 - Mask.countlZero mask
    if m < n then pure ()
    else do
      relocate e pb n pb m
      compactBlock pb rounds

end Programs

variable {e : Env α} {s t u : State α} {x y m n c : ℕ} {A : List ℕ} {v : α}

/-! ## What stays -/

/-- **Elements are moved within some blocks**, and no list of blocks is touched. -/
structure Shifted (s : State α) (A : List ℕ) (t : State α) : Prop where
  list : t.list = s.list
  available : t.available = s.available
  blocks : t.blocks = s.blocks
  chunks : t.chunks = s.chunks
  numBlocks : t.numBlocks = s.numBlocks
  size : t.size = s.size
  mask : ∀ b, b ∉ A → t.mask b = s.mask b
  data : ∀ b, b ∉ A → t.data b = s.data b
  dataIn : ∀ b ∈ A, ∃ a ∈ A, t.data b = s.data a
  dataOut : ∀ a ∈ A, ∃ b ∈ A, t.data b = s.data a
  slot : ∀ c n, (∀ a ∈ A, s.data a ≠ c) → t.slot (c, n) = s.slot (c, n)
  stored : Stored t A
  perm : (t.contents A).Perm (s.contents A)
  /-- Each move constructs an element and destroys the one it came from. -/
  log : ∃ moves : List ((ℕ × ℕ) × ℕ × ℕ),
    t.log = s.log ++ moves.flatMap fun p => [.construct p.2, .destroy p.1]

namespace Shifted

theorem refl (hs : Stored s A) : Shifted s A s where
  list := rfl
  available := rfl
  blocks := rfl
  chunks := rfl
  numBlocks := rfl
  size := rfl
  mask _ _ := rfl
  data _ _ := rfl
  dataIn b hb := ⟨b, hb, rfl⟩
  dataOut b hb := ⟨b, hb, rfl⟩
  slot _ _ _ := rfl
  stored := hs
  perm := List.Perm.refl _
  log := ⟨[], (List.append_nil _).symm⟩

theorem of_ops (hs : Stored s A) (i : ℕ) : Shifted s A { s with ops := i } where
  list := rfl
  available := rfl
  blocks := rfl
  chunks := rfl
  numBlocks := rfl
  size := rfl
  mask _ _ := rfl
  data _ _ := rfl
  dataIn b hb := ⟨b, hb, rfl⟩
  dataOut b hb := ⟨b, hb, rfl⟩
  slot _ _ _ := rfl
  stored := ⟨hs.block, hs.chunk, hs.data_inj, hs.isSome⟩
  perm := List.Perm.refl _
  log := ⟨[], (List.append_nil _).symm⟩

theorem trans (k : Shifted s A t) (k' : Shifted t A u) : Shifted s A u where
  list := k'.list.trans k.list
  available := k'.available.trans k.available
  blocks := k'.blocks.trans k.blocks
  chunks := k'.chunks.trans k.chunks
  numBlocks := k'.numBlocks.trans k.numBlocks
  size := k'.size.trans k.size
  mask b hb := (k'.mask b hb).trans (k.mask b hb)
  data b hb := (k'.data b hb).trans (k.data b hb)
  dataIn b hb := by
    obtain ⟨a, ha, heq⟩ := k'.dataIn b hb
    obtain ⟨a', ha', heq'⟩ := k.dataIn a ha
    exact ⟨a', ha', heq.trans heq'⟩
  dataOut a ha := by
    obtain ⟨b, hb, heq⟩ := k.dataOut a ha
    obtain ⟨b', hb', heq'⟩ := k'.dataOut b hb
    exact ⟨b', hb', heq'.trans heq⟩
  slot c n hc := by
    refine (k'.slot c n fun a ha heq => ?_).trans (k.slot c n hc)
    obtain ⟨a', ha', heq'⟩ := k.dataIn a ha
    exact hc a' ha' (heq'.symm.trans heq)
  stored := k'.stored
  perm := k'.perm.trans k.perm
  log := by
    obtain ⟨moves, hlog⟩ := k.log
    obtain ⟨moves', hlog'⟩ := k'.log
    exact ⟨moves ++ moves', by rw [hlog', hlog, List.flatMap_append, List.append_assoc]⟩

end Shifted

/-- **The elements of some blocks**, slot by slot. -/
theorem Stored.contents_eq (hs : Stored s A) :
    s.contents A = (grid A).filterMap fun p => s.slot (s.slotAt p) := by
  rw [State.contents, State.positions_eq_filter, List.filterMap_filter]
  refine List.filterMap_congr fun p hp => ?_
  obtain ⟨hb, hn⟩ := mem_grid.mp hp
  have hsome := hs.isSome p.pbb hb p.n hn
  cases hbit : (s.mask p.pbb).getLsbD p.n with
  | true => simp
  | false =>
    rw [hbit] at hsome
    have hnone : s.slot (s.slotAt p) = none :=
      Option.isNone_iff_eq_none.mp (Option.isSome_eq_false_iff.mp hsome)
    simp [hnone]

/-- A value goes from one place to another. -/
theorem filterMap_moved {ι : Type} [DecidableEq ι] {f f' : ι → Option α} {G : List ι} {p q : ι}
    (hnd : G.Nodup) (hp : p ∈ G) (hq : q ∈ G) (hpq : p ≠ q) (hfp : f p = none) (hfq : f q = some v)
    (hf'p : f' p = some v) (hf'q : f' q = none) (hsame : ∀ i ∈ G, i ≠ p → i ≠ q → f' i = f i) :
    (G.filterMap f').Perm (G.filterMap f) := by
  obtain ⟨G₁, hG₁⟩ : ∃ G₁, G.Perm (p :: q :: G₁) := by
    have hperm := List.perm_cons_erase hp
    have hq' : q ∈ G.erase p := (List.mem_erase_of_ne hpq.symm).mpr hq
    exact ⟨_, hperm.trans ((List.perm_cons_erase hq').cons p)⟩
  have hnd' := hG₁.nodup_iff.mp hnd
  rw [List.nodup_cons, List.nodup_cons] at hnd'
  have hrest : G₁.filterMap f' = G₁.filterMap f := List.filterMap_congr fun i hi =>
    hsame i (hG₁.mem_iff.mpr (List.mem_cons_of_mem p (List.mem_cons_of_mem q hi)))
      (fun heq => hnd'.1 (heq ▸ List.mem_cons_of_mem q hi)) fun heq => hnd'.2.1 (heq ▸ hi)
  refine (hG₁.filterMap f').trans (List.Perm.trans (List.Perm.of_eq ?_) (hG₁.filterMap f).symm)
  rw [List.filterMap_cons_some hf'p, List.filterMap_cons_none hf'q, List.filterMap_cons_none hfp,
    List.filterMap_cons_some hfq, hrest]

/-! ## One element -/

/-- Memory after an element was moved. -/
def relocatedState (s : State α) (x n y m : ℕ) (v : α) : State α :=
  { s with
    slot := update (update s.slot (s.data x, n) (some v)) (s.data y, m) none
    mask :=
      let mask := update s.mask x (s.mask x ||| Mask.bit n)
      update mask y (mask y &&& ~~~Mask.bit m)
    ops := s.ops + 1
    log := s.log ++ [.construct (s.data x, n), .destroy (s.data y, m)] }

theorem destroy_of {p : ℕ × ℕ} (h : (s.slot p).isSome = true) :
    destroy p s = .done () { s with slot := update s.slot p none, log := s.log ++ [.destroy p] } :=
  if_pos h

/-- **An element is moved**, or its construction throws and nothing is moved. -/
theorem relocate_cases (e : Env α) (hx : s.mask x ≠ full) (hchunk : s.chunks (s.data x) = true)
    (hraw : s.slot (s.data x, Mask.countrOne (s.mask x)) = none)
    (hv : s.slot (s.data y, m) = some v) :
    relocate e x (Mask.countrOne (s.mask x)) y m s
        = .done () (relocatedState s x (Mask.countrOne (s.mask x)) y m v)
      ∨ relocate e x (Mask.countrOne (s.mask x)) y m s = .threw { s with ops := s.ops + 1 } := by
  unfold relocate dataOf
  rw [Prog.gets_bind, Prog.gets_bind, Prog.bind_of_done (read_run hv)]
  rcases construct_cases e v hchunk (Mask.countrOne_lt hx) hraw with hrun | hrun
  · refine Or.inl ?_
    rw [Prog.bind_of_done hrun, Prog.modify_bind]
    refine (Prog.bind_of_done (destroy_of ?_)).trans ?_
    · dsimp only
      rw [update_self]
      rfl
    · unfold maskOf setMask relocatedState
      rw [Prog.gets_bind, Prog.modify_bind, Prog.gets_bind]
      dsimp only [constructedState]
      rw [Mask.or_add_one hx, update_idem, List.append_assoc]
      rfl
  · exact Or.inr (Prog.bind_of_threw hrun)

theorem relocatedState_mask : (relocatedState s x n y m v).mask
    = update (update s.mask x (s.mask x ||| Mask.bit n)) y
      (update s.mask x (s.mask x ||| Mask.bit n) y &&& ~~~Mask.bit m) := rfl

/-- Which bits are set afterwards. -/
theorem getLsbD_relocated (b i : ℕ) (hi : i < N) :
    ((relocatedState s x n y m v).mask b).getLsbD i
      = (((s.mask b).getLsbD i || decide (b = x ∧ i = n)) && decide (¬ (b = y ∧ i = m))) := by
  have hset : (update s.mask x (s.mask x ||| Mask.bit n) b).getLsbD i
      = ((s.mask b).getLsbD i || decide (b = x ∧ i = n)) := by
    rcases eq_or_ne b x with rfl | hbx
    · rw [update_self, Mask.getLsbD_set, decide_eq_true hi, Bool.true_and]
      simp
    · rw [update_of_ne hbx]
      simp [hbx]
  rw [relocatedState_mask]
  rcases eq_or_ne b y with rfl | hby
  · rw [update_self, Mask.getLsbD_clear hi, hset]
    simp
  · rw [update_of_ne hby, hset]
    simp [hby]

/-- **One element** goes from a slot to another. -/
theorem relocated_shifted (hs : Stored s A) (hnd : A.Nodup) (hx : x ∈ A) (hy : y ∈ A) (hn : n < N)
    (hm : m < N) (hclear : (s.mask x).getLsbD n = false) (hv : s.slot (s.data y, m) = some v) :
    Shifted s A (relocatedState s x n y m v) := by
  have hset : (s.mask y).getLsbD m = true := by
    rw [← hs.isSome y hy m hm, hv]
    rfl
  have hraw : s.slot (s.data x, n) = none := by
    have hnone := hs.isSome x hx n hn
    rw [hclear] at hnone
    exact Option.isNone_iff_eq_none.mp (Option.isSome_eq_false_iff.mp hnone)
  have hpq : (s.data x, n) ≠ (s.data y, m) := fun heq => by
    rw [heq, hv] at hraw
    cases hraw
  have hat : ∀ {b i c j : ℕ}, b ∈ A → c ∈ A → ((s.data b, i) = (s.data c, j) ↔ b = c ∧ i = j) :=
    fun hb hc => ⟨fun heq => ⟨hs.data_inj _ hb _ hc (congrArg Prod.fst heq), congrArg Prod.snd heq⟩,
      fun ⟨hbc, hij⟩ => by rw [hbc, hij]⟩
  have hslot : ∀ p, (relocatedState s x n y m v).slot p
      = if p = (s.data y, m) then none else if p = (s.data x, n) then some v else s.slot p :=
    fun p => by
      show update (update s.slot (s.data x, n) (some v)) (s.data y, m) none p = _
      rw [update_apply, update_apply]
  have hsome : Stored (relocatedState s x n y m v) A := by
    refine ⟨hs.block, hs.chunk, hs.data_inj, fun b hb i hi => ?_⟩
    show ((relocatedState s x n y m v).slot (s.data b, i)).isSome = _
    rw [getLsbD_relocated b i hi, hslot]
    by_cases hq : b = y ∧ i = m
    · rw [if_pos ((hat hb hy).mpr hq), decide_eq_false (not_not_intro hq), Bool.and_false]
      rfl
    · rw [if_neg fun heq => hq ((hat hb hy).mp heq), decide_eq_true hq, Bool.and_true]
      by_cases hp : b = x ∧ i = n
      · rw [if_pos ((hat hb hx).mpr hp), decide_eq_true hp, Bool.or_true]
        rfl
      · rw [if_neg fun heq => hp ((hat hb hx).mp heq), decide_eq_false hp, Bool.or_false]
        exact hs.isSome b hb i hi
  have hmask : ∀ b, b ∉ A → (relocatedState s x n y m v).mask b = s.mask b := fun b hb => by
    have hbx : b ≠ x := fun heq => hb (heq ▸ hx)
    have hby : b ≠ y := fun heq => hb (heq ▸ hy)
    exact (update_of_ne hby _ _).trans (update_of_ne hbx _ _)
  refine ⟨rfl, rfl, rfl, rfl, rfl, rfl, hmask, fun _ _ => rfl, fun b hb => ⟨b, hb, rfl⟩,
    fun b hb => ⟨b, hb, rfl⟩, fun c i hc => ?_, hsome, ?_,
    ⟨[((s.data y, m), (s.data x, n))], rfl⟩⟩
  · rw [hslot, if_neg fun heq => hc y hy (congrArg Prod.fst heq).symm,
      if_neg fun heq => hc x hx (congrArg Prod.fst heq).symm]
  · rw [hsome.contents_eq, hs.contents_eq]
    have hp : (⟨x, n⟩ : Iterator) ∈ grid A := mem_grid.mpr ⟨hx, hn⟩
    have hq : (⟨y, m⟩ : Iterator) ∈ grid A := mem_grid.mpr ⟨hy, hm⟩
    refine filterMap_moved (nodup_grid hnd) hp hq ?_ hraw hv ?_ ?_ fun p hmem hpx hpy => ?_
    · intro heq
      exact hpq ((hat hx hy).mpr ⟨congrArg Iterator.pbb heq, congrArg Iterator.n heq⟩)
    · rw [hslot]
      exact (if_neg hpq).trans (if_pos rfl)
    · rw [hslot]
      exact if_pos rfl
    · obtain ⟨hb, -⟩ := mem_grid.mp hmem
      rw [hslot]
      refine (if_neg fun heq => hpy ?_).trans (if_neg fun heq => hpx ?_)
      · obtain ⟨hby, him⟩ := (hat hb hy).mp heq
        rw [← hby, ← him]
      · obtain ⟨hbx, hin⟩ := (hat hb hx).mp heq
        rw [← hbx, ← hin]

/-! ## Two blocks -/

/-- Two exchanges, one function. -/
theorem update_exchange {β : Type*} (f : ℕ → β) (x y : ℕ) :
    update (update f x (f y)) y (f x) = fun b => f (Equiv.swap x y b) := by
  funext b
  rcases eq_or_ne b y with rfl | hby
  · rw [update_self, Equiv.swap_apply_right]
  · rw [update_of_ne hby]
    rcases eq_or_ne b x with rfl | hbx
    · rw [update_self, Equiv.swap_apply_left]
    · rw [update_of_ne hbx, Equiv.swap_apply_of_ne_of_ne hbx hby]

/-- Memory after two blocks have exchanged what they have. -/
def swappedState (s : State α) (x y : ℕ) : State α :=
  { s with
    mask := fun b => s.mask (Equiv.swap x y b)
    data := fun b => s.data (Equiv.swap x y b) }

theorem swapPayload_run (s : State α) (x y : ℕ) :
    swapPayload x y s = .done () (swappedState s x y) := by
  show Outcome.done () { s with
    mask := update (update s.mask x (s.mask y)) y (s.mask x)
    data := update (update s.data x (s.data y)) y (s.data x) } = _
  rw [update_exchange, update_exchange]
  rfl

/-- **Masks and data are exchanged**, and the elements are those that were there. -/
theorem swapped_shifted (hs : Stored s A) (hnd : A.Nodup) (hx : x ∈ A) (hy : y ∈ A) :
    Shifted s A (swappedState s x y) := by
  obtain ⟨σ, hσ⟩ : ∃ σ, σ = Equiv.swap x y := ⟨_, rfl⟩
  have hback : ∀ b, σ (σ b) = b := fun b => by
    have hsymm := σ.apply_symm_apply b
    rwa [hσ, Equiv.symm_swap, ← hσ] at hsymm
  have hmem : ∀ b ∈ A, σ b ∈ A := fun b hb => by
    rw [hσ, Equiv.swap_apply_def]
    split
    · exact hy
    · split
      · exact hx
      · exact hb
  have hout : ∀ b, b ∉ A → σ b = b := fun b hb => by
    rw [hσ]
    exact Equiv.swap_apply_of_ne_of_ne (fun heq => hb (heq ▸ hx)) fun heq => hb (heq ▸ hy)
  have hstate : swappedState s x y = { s with
      mask := fun b => s.mask (σ b)
      data := fun b => s.data (σ b) } := by
    rw [hσ]
    rfl
  rw [hstate]
  have hstored : Stored { s with
      mask := fun b => s.mask (σ b)
      data := fun b => s.data (σ b) } A :=
    ⟨hs.block, fun b hb => hs.chunk (σ b) (hmem b hb), fun b hb b' hb' heq =>
      σ.injective (hs.data_inj (σ b) (hmem b hb) (σ b') (hmem b' hb') heq),
      fun b hb n hn => hs.isSome (σ b) (hmem b hb) n hn⟩
  refine ⟨rfl, rfl, rfl, rfl, rfl, rfl, fun b hb => congrArg s.mask (hout b hb),
    fun b hb => congrArg s.data (hout b hb), fun b hb => ⟨σ b, hmem b hb, rfl⟩,
    fun b hb => ⟨σ b, hmem b hb, congrArg s.data (hback b)⟩, fun _ _ _ => rfl, hstored, ?_,
    ⟨[], (List.append_nil _).symm⟩⟩
  have hperm : ((grid A).map fun p => (⟨σ p.pbb, p.n⟩ : Iterator)).Perm (grid A) := by
    refine (List.perm_ext_iff_of_nodup ((nodup_grid hnd).map fun p q heq => ?_)
      (nodup_grid hnd)).mpr fun p => ?_
    · obtain ⟨b, i⟩ := p
      obtain ⟨c, j⟩ := q
      exact congrArg₂ Iterator.mk (σ.injective (congrArg Iterator.pbb heq))
        (congrArg Iterator.n heq)
    · rw [List.mem_map]
      constructor
      · rintro ⟨q, hq, rfl⟩
        exact mem_grid.mpr ⟨hmem q.pbb (mem_grid.mp hq).1, (mem_grid.mp hq).2⟩
      · intro hp
        refine ⟨⟨σ p.pbb, p.n⟩, mem_grid.mpr ⟨hmem p.pbb (mem_grid.mp hp).1, (mem_grid.mp hp).2⟩, ?_⟩
        rw [hback]
  rw [hstored.contents_eq, hs.contents_eq]
  have hall := hperm.filterMap fun p => s.slot (s.slotAt p)
  rw [List.filterMap_map] at hall
  exact hall

/-- **Elements go from a block to another**, so many of them. -/
structure Filled (s : State α) (A : List ℕ) (x y c : ℕ) (t : State α) : Prop where
  shifted : Shifted s A t
  taken : Mask.popcount (t.mask x) = Mask.popcount (s.mask x) + c
  given : Mask.popcount (t.mask y) + c = Mask.popcount (s.mask y)
  rest : ∀ b, b ≠ x → b ≠ y → t.mask b = s.mask b
  data : t.data = s.data

theorem Filled.trans {c' : ℕ} (k : Filled s A x y c t) (k' : Filled t A x y c' u) :
    Filled s A x y (c + c') u where
  shifted := k.shifted.trans k'.shifted
  taken := by rw [k'.taken, k.taken, Nat.add_assoc]
  given := by rw [← k.given, ← k'.given, Nat.add_assoc, Nat.add_comm c' c]
  rest b hx hy := (k'.rest b hx hy).trans (k.rest b hx hy)
  data := k'.data.trans k.data

/-- **One element goes from the one to the other.** -/
theorem relocated_filled (hs : Stored s A) (hnd : A.Nodup) (hx : x ∈ A) (hy : y ∈ A) (hxy : x ≠ y)
    (hfull : s.mask x ≠ full) (hm : m < N) (hv : s.slot (s.data y, m) = some v) :
    Filled s A x y 1 (relocatedState s x (Mask.countrOne (s.mask x)) y m v) := by
  have hset : (s.mask y).getLsbD m = true := by
    rw [← hs.isSome y hy m hm, hv]
    rfl
  have hlt := Mask.countrOne_lt hfull
  have hclear := Mask.getLsbD_countrOne hfull
  refine ⟨relocated_shifted hs hnd hx hy hlt hm hclear hv, ?_, ?_, fun b hbx hby => ?_, rfl⟩
  · rw [relocatedState_mask, update_of_ne hxy, update_self]
    exact Mask.popcount_set hlt hclear
  · rw [relocatedState_mask, update_self, update_of_ne hxy.symm]
    exact Mask.popcount_clear hset
  · exact (update_of_ne hby _ _).trans (update_of_ne hbx _ _)

/-- **The loop over two blocks** moves as many elements as it is asked to, or stops where a
construction throws. -/
theorem compactPairLoop_run (e : Env α) (hnd : A.Nodup) (hx : x ∈ A) (hy : y ∈ A) (hxy : x ≠ y) :
    ∀ (c : ℕ) {s : State α}, Stored s A → Mask.popcount (s.mask x) + c ≤ N →
      c ≤ Mask.popcount (s.mask y) →
      (compactPairLoop e x y c s).Meets (fun _ t => Filled s A x y c t)
        (fun t => ∃ k < c, Filled s A x y k t) := by
  have hN : N = 64 := rfl
  intro c
  induction c with
  | zero => exact fun hs _ _ => ⟨Shifted.refl hs, rfl, rfl, fun _ _ _ => rfl, rfl⟩
  | succ c ih =>
    intro s hs hroom hsome
    have hfull : s.mask x ≠ full := fun heq => by
      have hall := Mask.popcount_eq_width_iff.mpr heq
      omega
    have hne : s.mask y ≠ 0 := fun heq => by
      have hnone := Mask.popcount_eq_zero_iff.mpr heq
      omega
    have hlast := Mask.getLsbD_last hne
    have hm := BitVec.lt_of_getLsbD hlast
    obtain ⟨v, hv⟩ := Option.isSome_iff_exists.mp ((hs.isSome y hy _ hm).trans hlast)
    have hraw := hs.isSome x hx _ (Mask.countrOne_lt hfull)
    rw [Mask.getLsbD_countrOne hfull] at hraw
    have hone := relocated_filled hs hnd hx hy hxy hfull hm hv
    unfold compactPairLoop maskOf
    rw [Prog.gets_bind, Prog.gets_bind]
    rcases relocate_cases e hfull (hs.chunk x hx)
      (Option.isNone_iff_eq_none.mp (Option.isSome_eq_false_iff.mp hraw)) hv with hrun | hrun
    · rw [Prog.bind_of_done hrun]
      refine (ih hone.shifted.stored ?_ ?_).imp (fun _ t k => ?_) fun t ⟨k, hk, hpart⟩ => ?_
      · rw [hone.taken]
        omega
      · have hgiven := hone.given
        omega
      · rw [Nat.add_comm c 1]
        exact hone.trans k
      · exact ⟨1 + k, by omega, hone.trans hpart⟩
    · rw [Prog.bind_of_threw hrun]
      exact ⟨0, Nat.succ_pos c, Shifted.of_ops hs _, rfl, rfl, fun _ _ _ => rfl, rfl⟩

/-- **What `compact` leaves of two blocks**: one of them is full, or the other is empty. -/
structure Paired (s : State α) (A : List ℕ) (x y : ℕ) (t : State α) : Prop where
  shifted : Shifted s A t
  rest : ∀ b, b ≠ x → b ≠ y → t.mask b = s.mask b
  data : ∀ b, b ≠ x → b ≠ y → t.data b = s.data b
  left : t.mask x ≠ 0
  right : t.mask y ≠ full

theorem popcount_pos_iff {k : BitVec 64} : 0 < Mask.popcount k ↔ k ≠ 0 :=
  Nat.pos_iff_ne_zero.trans (not_congr Mask.popcount_eq_zero_iff)

theorem popcount_lt_iff {k : BitVec 64} : Mask.popcount k < N ↔ k ≠ full :=
  ⟨fun hlt heq => hlt.ne (Mask.popcount_eq_width_iff.mpr heq),
    fun hne => lt_of_le_of_ne Mask.popcount_le fun heq => hne (Mask.popcount_eq_width_iff.mp heq)⟩

/-- **`compact` of two blocks**, neither of them full or empty, makes the one full or the
other empty. -/
theorem compactPair_run (e : Env α) (hs : Stored s A) (hnd : A.Nodup) (hx : x ∈ A) (hy : y ∈ A)
    (hxy : x ≠ y) (hx₀ : s.mask x ≠ 0) (hx₁ : s.mask x ≠ full) (hy₀ : s.mask y ≠ 0)
    (hy₁ : s.mask y ≠ full) :
    (compactPair e x y s).Meets (fun _ t => Paired s A x y t ∧ (t.mask x = full ∨ t.mask y = 0))
      (fun t => Paired s A x y t ∧ t.mask x ≠ full ∧ t.mask y ≠ 0) := by
  have hN : N = 64 := rfl
  -- From where the fuller one takes.
  have hgo : ∀ {u : State α}, Shifted s A u → (∀ b, b ≠ x → b ≠ y → u.mask b = s.mask b) →
      (∀ b, b ≠ x → b ≠ y → u.data b = s.data b) → u.mask x ≠ 0 → u.mask x ≠ full →
      u.mask y ≠ 0 → u.mask y ≠ full → (compactPairLoop e x y
        (min (N - Mask.popcount (u.mask x)) (Mask.popcount (u.mask y))) u).Meets
        (fun _ t => Paired s A x y t ∧ (t.mask x = full ∨ t.mask y = 0))
        (fun t => Paired s A x y t ∧ t.mask x ≠ full ∧ t.mask y ≠ 0) := by
    intro u hu hrest hdata h₀ h₁ h₂ h₃
    have hpos := popcount_pos_iff.mpr h₀
    have hlt := popcount_lt_iff.mpr h₁
    have hlt' := popcount_lt_iff.mpr h₃
    have hroom : Mask.popcount (u.mask x)
        + min (N - Mask.popcount (u.mask x)) (Mask.popcount (u.mask y)) ≤ N := by omega
    have hpaired : ∀ {c t}, Filled u A x y c t → Paired s A x y t := fun {c t} k => by
      refine ⟨hu.trans k.shifted, fun b hbx hby => (k.rest b hbx hby).trans (hrest b hbx hby),
        fun b hbx hby => (congrFun k.data b).trans (hdata b hbx hby), popcount_pos_iff.mp ?_,
        popcount_lt_iff.mp ?_⟩
      · rw [k.taken]
        omega
      · have hgiven := k.given
        omega
    refine (compactPairLoop_run e hnd hx hy hxy _ hu.stored hroom (min_le_right _ _)).imp
      (fun _ t k => ⟨hpaired k, ?_⟩) fun t ⟨c, hc, k⟩ => ⟨hpaired k, ?_, ?_⟩
    · have htaken := k.taken
      have hgiven := k.given
      rcases min_cases (N - Mask.popcount (u.mask x)) (Mask.popcount (u.mask y)) with h | h
      · exact Or.inl (Mask.popcount_eq_width_iff.mp (by omega))
      · exact Or.inr (Mask.popcount_eq_zero_iff.mp (by omega))
    · have htaken := k.taken
      exact popcount_lt_iff.mp (by omega)
    · have hgiven := k.given
      exact popcount_pos_iff.mp (by omega)
  unfold compactPair maskOf
  rw [Prog.gets_bind, Prog.gets_bind]
  by_cases hlt : Mask.popcount (s.mask x) < Mask.popcount (s.mask y)
  · rw [if_pos hlt, Prog.bind_of_done (swapPayload_run s x y)]
    have hmx : (swappedState s x y).mask x = s.mask y := congrArg s.mask (Equiv.swap_apply_left x y)
    have hmy : (swappedState s x y).mask y = s.mask x := congrArg s.mask (Equiv.swap_apply_right x y)
    have hgo' := hgo (swapped_shifted hs hnd hx hy)
      (fun b hbx hby => congrArg s.mask (Equiv.swap_apply_of_ne_of_ne hbx hby))
      (fun b hbx hby => congrArg s.data (Equiv.swap_apply_of_ne_of_ne hbx hby))
      (hmx ▸ hy₀) (hmx ▸ hy₁) (hmy ▸ hx₀) (hmy ▸ hx₁)
    rwa [hmx, hmy] at hgo'
  · rw [if_neg hlt]
    exact hgo (Shifted.refl hs) (fun _ _ _ => rfl) (fun _ _ _ => rfl) hx₀ hx₁ hy₀ hy₁

/-! ## One block -/

/-- **`compact` of one block** moves its elements to its lowest slots. -/
theorem compactBlock_run (e : Env α) (hnd : A.Nodup) (hx : x ∈ A) :
    ∀ (rounds : ℕ) {s : State α}, Stored s A → s.mask x ≠ 0 → s.mask x ≠ full →
      N < rounds + Mask.countrOne (s.mask x) →
      (compactBlock e x rounds s).Meets
        (fun _ t => Shifted s A t ∧ (∀ b, b ≠ x → t.mask b = s.mask b) ∧ t.data = s.data
          ∧ t.mask x ≠ 0 ∧ t.mask x ≠ full ∧ ∃ k, Mask.bits (t.mask x) = List.range k)
        (fun t => Shifted s A t ∧ (∀ b, b ≠ x → t.mask b = s.mask b) ∧ t.data = s.data
          ∧ t.mask x ≠ 0 ∧ t.mask x ≠ full) := by
  have hN : N = 64 := rfl
  intro rounds
  induction rounds with
  | zero =>
    intro s _ _ hfull hr
    have hlt := Mask.countrOne_lt hfull
    omega
  | succ rounds ih =>
    intro s hs hne hfull hr
    have hlast := Mask.getLsbD_last hne
    have hm := BitVec.lt_of_getLsbD hlast
    obtain ⟨v, hv⟩ := Option.isSome_iff_exists.mp ((hs.isSome x hx _ hm).trans hlast)
    have hn := Mask.countrOne_lt hfull
    have hclear := Mask.getLsbD_countrOne hfull
    unfold compactBlock maskOf
    rw [Prog.gets_bind]
    by_cases hlt : N - 1 - Mask.countlZero (s.mask x) < Mask.countrOne (s.mask x)
    · rw [if_pos hlt]
      exact ⟨Shifted.refl hs, fun _ _ => rfl, rfl, hne, hfull, _, Mask.bits_eq_range hfull hlt⟩
    · rw [if_neg hlt]
      obtain ⟨n, hneq⟩ : ∃ n, Mask.countrOne (s.mask x) = n := ⟨_, rfl⟩
      obtain ⟨m, hmeq⟩ : ∃ m, N - 1 - Mask.countlZero (s.mask x) = m := ⟨_, rfl⟩
      have hraw := hs.isSome x hx _ hn
      rw [hclear] at hraw
      have hcases := relocate_cases e hfull (hs.chunk x hx)
        (Option.isNone_iff_eq_none.mp (Option.isSome_eq_false_iff.mp hraw)) hv
      have hone := relocated_shifted hs hnd hx hx hn hm hclear hv
      have hbit : ∀ i < N, ((relocatedState s x (Mask.countrOne (s.mask x)) x
          (N - 1 - Mask.countlZero (s.mask x)) v).mask x).getLsbD i = _ :=
        fun i hi => getLsbD_relocated x i hi
      have hrest : ∀ b, b ≠ x → (relocatedState s x (Mask.countrOne (s.mask x)) x
          (N - 1 - Mask.countlZero (s.mask x)) v).mask b = s.mask b := fun b hb =>
        (update_of_ne hb _ _).trans (update_of_ne hb _ _)
      rw [hmeq, hneq] at hone hbit hrest hcases
      rw [hmeq] at hlt hlast hm
      rw [hneq] at hlt hn hclear hr
      have hnm : n < m := lt_of_le_of_ne (Nat.le_of_not_lt hlt) fun heq => by
        rw [heq, hlast] at hclear
        cases hclear
      rw [hmeq, hneq]
      rcases hcases with hrun | hrun
      · rw [Prog.bind_of_done hrun]
        obtain ⟨u, hu⟩ : ∃ u, relocatedState s x n x m v = u := ⟨_, rfl⟩
        have hdata : u.data = s.data := by rw [← hu]; rfl
        rw [hu] at hone hbit hrest ⊢
        have hset : (u.mask x).getLsbD n = true := by
          rw [hbit n hn]
          simp [hnm.ne]
        have hgone : (u.mask x).getLsbD m = false := by
          rw [hbit m hm]
          simp
        have hne' : u.mask x ≠ 0 := fun heq => by
          rw [heq] at hset
          exact Bool.false_ne_true (BitVec.getLsbD_zero.symm.trans hset)
        have hfull' : u.mask x ≠ full := fun heq => by
          rw [Mask.eq_full_iff.mp heq m hm] at hgone
          cases hgone
        have hmore : n < Mask.countrOne (u.mask x) := by
          refine Nat.lt_of_not_le fun hle => ?_
          have hfirst := Mask.getLsbD_countrOne hfull'
          rcases hle.lt_or_eq with hlt' | heq
          · have hbelow : Mask.countrOne (u.mask x) < Mask.countrOne (s.mask x) :=
              lt_of_lt_of_eq hlt' hneq.symm
            have hold := Mask.getLsbD_of_lt_countrOne hbelow (hlt'.trans hn)
            have hno : ¬ (x = x ∧ Mask.countrOne (u.mask x) = m) := fun hq =>
              (hlt'.trans hnm).ne hq.2
            rw [hbit _ (hlt'.trans hn), hold, Bool.true_or, Bool.true_and,
              decide_eq_true hno] at hfirst
            cases hfirst
          · rw [heq, hset] at hfirst
            cases hfirst
        refine (ih hone.stored hne' hfull' (by omega)).imp
          (fun _ t ⟨hk, hb, hd, h₀, h₁, hbits⟩ =>
            ⟨hone.trans hk, fun b hbx => ?_, hd.trans hdata, h₀, h₁, hbits⟩)
          fun t ⟨hk, hb, hd, h₀, h₁⟩ =>
            ⟨hone.trans hk, fun b hbx => ?_, hd.trans hdata, h₀, h₁⟩
        · exact (hb b hbx).trans (hrest b hbx)
        · exact (hb b hbx).trans (hrest b hbx)
      · rw [Prog.bind_of_threw hrun]
        exact ⟨Shifted.of_ops hs _, fun _ _ => rfl, rfl, hne, hfull⟩

end Hub
