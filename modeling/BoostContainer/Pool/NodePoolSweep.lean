import BoostContainer.Pool.NodePool

/-!
# What a sweep of the blocks does

`deallocate_free_blocks` visits the blocks in the order of their list, moving
the free nodes of each out of the free list: to the segment manager with
their block where all of them are free, to the front of a backup list
otherwise. At the end it splices the backup list back, up to a cached last
position.

The rounds are right whatever the blocks hold (`sweep_foldl`). The cached
position is not: it is set only while the backup list is empty *and* the free
list is not yet exhausted, so it is never set when the first nodes to be kept
are also the last free nodes there are, and it is left at a list that no
longer exists when a block without free nodes came first.
`covers_sweep_iff` says exactly when it is a position of the backup list, in
terms of which blocks have free nodes and in which order.
-/

namespace NodePool

/-- The nodes of a list that lie in a block. -/
def nodesIn (blocksize : ℕ) (free : List ℕ) (b : ℕ) : List ℕ :=
  free.filter (isBetween b blocksize)

/-- **Blocks that share no node**: no address lies in two of them. -/
def Separate (blocksize : ℕ) (bs : List ℕ) : Prop :=
  bs.Pairwise (fun b c => ∀ x, isBetween b blocksize x = true →
    isBetween c blocksize x = false)

variable (sl : IntrusiveSlist (Option ℕ)) {nodesPerBlock blocksize : ℕ}

/-- Pushing nodes one by one reverses them. -/
theorem foldl_pushFront (removed : List ℕ) (l : Slist) :
    removed.foldl Slist.pushFront l
      = ⟨removed.reverse ++ l.nodes, l.size + removed.length⟩ := by
  induction removed generalizing l with
  | nil => rfl
  | cons a removed ih =>
    rw [List.foldl_cons, ih, List.reverse_cons, List.append_assoc, List.length_cons]
    simp only [Slist.pushFront, List.singleton_append, Slist.mk.injEq, true_and]
    omega

theorem foldl_pushFront_nil (removed : List ℕ) :
    removed.foldl Slist.pushFront Slist.nil = ⟨removed.reverse, removed.length⟩ := by
  rw [foldl_pushFront]
  simp [Slist.nil]

/-- **The cached last position of a round** is the last of the nodes that were
pushed, so splicing them all is within the contract. -/
theorem covers_round (b : ℕ) (removed : List ℕ) :
    (removed.foldl Slist.pushFront Slist.nil).Covers (some b)
      (lastIt b removed) (removed.foldl Slist.pushFront Slist.nil).size := by
  rw [foldl_pushFront_nil]
  cases removed with
  | nil => exact ⟨rfl, rfl⟩
  | cons a rest => exact ⟨rest.length, by simp, rfl⟩

/-- **One round.** -/
theorem round_eq (w : Sweep) (b : ℕ) :
    Sweep.round sl nodesPerBlock blocksize w b
      = if (nodesIn blocksize w.freelist.nodes b).length = nodesPerBlock then
          { w with
            freelist := (w.freelist.removeIf (isBetween b blocksize)).2
            returned := w.returned ++ [b] }
        else
          { freelist := (w.freelist.removeIf (isBetween b blocksize)).2
            backupList := ⟨(nodesIn blocksize w.freelist.nodes b).reverse
                ++ w.backupList.nodes,
              w.backupList.size + (nodesIn blocksize w.freelist.nodes b).length⟩
            backupListLast :=
              if w.backupList.nodes = []
                  ∧ (w.freelist.removeIf (isBetween b blocksize)).2.nodes ≠ [] then
                lastIt b (nodesIn blocksize w.freelist.nodes b)
              else w.backupListLast
            kept := w.kept ++ [b]
            returned := w.returned } := by
  have hcov := covers_round b (nodesIn blocksize w.freelist.nodes b)
  have hspl := sl.spliceAfter_spec w.backupList _ _ _ _ hcov
  unfold Sweep.round
  simp only
  rw [show (w.freelist.removeIf (isBetween b blocksize)).1
    = nodesIn blocksize w.freelist.nodes b from rfl, hspl, foldl_pushFront_nil,
    List.take_of_length_le (List.length_reverse).le]

/-- What a round leaves in the free list, another block finds there. -/
theorem nodesIn_filter_not {free : List ℕ} {b c : ℕ}
    (h : ∀ x, isBetween b blocksize x = true → isBetween c blocksize x = false) :
    nodesIn blocksize (free.filter (fun a => !isBetween b blocksize a)) c
      = nodesIn blocksize free c := by
  unfold nodesIn
  rw [List.filter_filter]
  refine List.filter_congr (fun x _ => ?_)
  cases hb : isBetween b blocksize x with
  | false => simp
  | true => simp [h x hb]

variable (nodesPerBlock) in
/-- **The rounds, whatever the cached position.** Every free node leaves the
free list; a block is handed back exactly where it is wholly free; and the
backup list ends with the free nodes of the others. -/
theorem sweep_foldl (bs : List ℕ) (w : Sweep) (hwf : w.freelist.WellFormed)
    (hbwf : w.backupList.WellFormed) (hsep : Separate blocksize bs)
    (hcover : ∀ x ∈ w.freelist.nodes, ∃ b ∈ bs, isBetween b blocksize x = true) :
    let r := bs.foldl (Sweep.round sl nodesPerBlock blocksize) w
    r.freelist = Slist.nil
      ∧ r.kept = w.kept ++ bs.filter
          (fun b => (nodesIn blocksize w.freelist.nodes b).length ≠ nodesPerBlock)
      ∧ r.returned = w.returned ++ bs.filter
          (fun b => (nodesIn blocksize w.freelist.nodes b).length = nodesPerBlock)
      ∧ r.backupList.WellFormed
      ∧ r.backupList.nodes.Perm ((bs.filter
          (fun b => (nodesIn blocksize w.freelist.nodes b).length ≠ nodesPerBlock)).flatMap
            (nodesIn blocksize w.freelist.nodes) ++ w.backupList.nodes) := by
  induction bs generalizing w with
  | nil =>
    have hnil : w.freelist.nodes = [] := by
      rw [List.eq_nil_iff_forall_not_mem]
      intro x hx
      obtain ⟨b, hb, _⟩ := hcover x hx
      cases hb
    have hsize : w.freelist.size = 0 := by
      rw [hwf, hnil, List.length_nil]
    refine ⟨?_, by simp, by simp, hbwf, by simp⟩
    show w.freelist = ⟨[], 0⟩
    rw [← hnil, ← hsize]
  | cons b bs ih =>
    obtain ⟨hb, hsep'⟩ := List.pairwise_cons.mp hsep
    set w' := Sweep.round sl nodesPerBlock blocksize w b with hw'
    have hfree : w'.freelist = (w.freelist.removeIf (isBetween b blocksize)).2 := by
      rw [hw', round_eq]
      split <;> rfl
    have hnodes : w'.freelist.nodes
        = w.freelist.nodes.filter (fun a => !isBetween b blocksize a) := by
      rw [hfree]
      rfl
    have hsame : ∀ c ∈ bs, nodesIn blocksize w'.freelist.nodes c
        = nodesIn blocksize w.freelist.nodes c := by
      intro c hc
      rw [hnodes]
      exact nodesIn_filter_not (hb c hc)
    have hwf' : w'.freelist.WellFormed := by
      rw [hfree]
      show w.freelist.size - (w.freelist.nodes.filter (isBetween b blocksize)).length = _
      have hlen := List.length_eq_length_filter_add (l := w.freelist.nodes)
        (isBetween b blocksize)
      have hwf₀ : w.freelist.size = w.freelist.nodes.length := hwf
      show _ = (w.freelist.nodes.filter (fun a => !isBetween b blocksize a)).length
      omega
    have hcover' : ∀ x ∈ w'.freelist.nodes, ∃ c ∈ bs, isBetween c blocksize x = true := by
      intro x hx
      rw [hnodes, List.mem_filter] at hx
      obtain ⟨c, hc, hxc⟩ := hcover x hx.1
      rcases List.mem_cons.mp hc with rfl | hc
      · simp [hxc] at hx
      · exact ⟨c, hc, hxc⟩
    have hkeep : bs.filter
          (fun c => (nodesIn blocksize w'.freelist.nodes c).length ≠ nodesPerBlock)
        = bs.filter
          (fun c => (nodesIn blocksize w.freelist.nodes c).length ≠ nodesPerBlock) :=
      List.filter_congr (fun c hc => by rw [hsame c hc])
    have hret : bs.filter
          (fun c => (nodesIn blocksize w'.freelist.nodes c).length = nodesPerBlock)
        = bs.filter
          (fun c => (nodesIn blocksize w.freelist.nodes c).length = nodesPerBlock) :=
      List.filter_congr (fun c hc => by rw [hsame c hc])
    have hflat : (bs.filter
          (fun c => (nodesIn blocksize w.freelist.nodes c).length ≠ nodesPerBlock)).flatMap
            (nodesIn blocksize w'.freelist.nodes)
        = (bs.filter
          (fun c => (nodesIn blocksize w.freelist.nodes c).length ≠ nodesPerBlock)).flatMap
            (nodesIn blocksize w.freelist.nodes) :=
      List.flatMap_congr (fun c hc => hsame c (List.mem_filter.mp hc).1)
    by_cases hfull : (nodesIn blocksize w.freelist.nodes b).length = nodesPerBlock
    · have heq : w' = { w with
          freelist := (w.freelist.removeIf (isBetween b blocksize)).2
          returned := w.returned ++ [b] } := by
        rw [hw', round_eq, if_pos hfull]
      have hbwf' : w'.backupList.WellFormed := heq ▸ hbwf
      obtain ⟨h₁, h₂, h₃, h₄, h₅⟩ := ih w' hwf' hbwf' hsep' hcover'
      rw [hkeep] at h₂ h₅
      rw [hflat] at h₅
      rw [hret] at h₃
      refine ⟨h₁, ?_, ?_, h₄, ?_⟩
      · rw [List.foldl_cons, h₂, List.filter_cons_of_neg (by simpa using hfull), heq]
      · rw [List.foldl_cons, h₃, List.filter_cons_of_pos (by simpa using hfull), heq,
          List.append_assoc]
        rfl
      · have hback : w'.backupList = w.backupList := by rw [heq]
        rw [List.filter_cons_of_neg (by simpa using hfull), ← hback]
        exact h₅
    · have heq := hw'.trans (round_eq sl w b)
      rw [if_neg hfull] at heq
      have hbwf' : w'.backupList.WellFormed := by
        rw [heq]
        show w.backupList.size + _ = _
        rw [show w.backupList.size = w.backupList.nodes.length from hbwf,
          List.length_append, List.length_reverse, Nat.add_comm]
      obtain ⟨h₁, h₂, h₃, h₄, h₅⟩ := ih w' hwf' hbwf' hsep' hcover'
      rw [hkeep] at h₂ h₅
      rw [hflat] at h₅
      rw [hret] at h₃
      refine ⟨h₁, ?_, ?_, h₄, ?_⟩
      · rw [List.foldl_cons, h₂, List.filter_cons_of_pos (by simpa using hfull), heq,
          List.append_assoc]
        rfl
      · rw [List.foldl_cons, h₃, List.filter_cons_of_neg (by simpa using hfull), heq]
      · rw [List.filter_cons_of_pos (by simpa using hfull), List.flatMap_cons]
        have hback : w'.backupList.nodes
            = (nodesIn blocksize w.freelist.nodes b).reverse ++ w.backupList.nodes := by
          rw [heq]
        rw [List.foldl_cons]
        refine h₅.trans ?_
        rw [hback, ← List.append_assoc]
        refine List.Perm.append_right _ ?_
        exact List.perm_append_comm.trans ((List.reverse_perm _).append_right _)

/-! ## The cached last position -/

/-- **The position is cached**: the first block that is kept with free nodes
is followed by another block with free nodes. -/
def LastCached (nodesPerBlock : ℕ) (freeIn : ℕ → List ℕ) (bs : List ℕ) : Prop :=
  ∃ pre k post, bs = pre ++ k :: post
    ∧ (freeIn k ≠ [] ∧ (freeIn k).length ≠ nodesPerBlock)
    ∧ (∀ b ∈ pre, freeIn b = [] ∨ (freeIn b).length = nodesPerBlock)
    ∧ ∃ c ∈ post, freeIn c ≠ []

/-- **No position is needed**: no block is kept with free nodes, and a block
without free nodes is followed by such blocks only. -/
def NothingKept (nodesPerBlock : ℕ) (freeIn : ℕ → List ℕ) (bs : List ℕ) : Prop :=
  (∀ b ∈ bs, freeIn b = [] ∨ (freeIn b).length = nodesPerBlock)
    ∧ bs.Pairwise (fun b c => freeIn b = [] → freeIn c = [])

theorem LastCached.congr {f g : ℕ → List ℕ} {bs : List ℕ}
    (h : ∀ b ∈ bs, f b = g b) (hf : LastCached nodesPerBlock f bs) :
    LastCached nodesPerBlock g bs := by
  obtain ⟨pre, k, post, rfl, hk, hpre, c, hc, hne⟩ := hf
  have hpre' : ∀ b ∈ pre, f b = g b := fun b hb => h b (by simp [hb])
  have hk' : f k = g k := h k (by simp)
  have hc' : f c = g c := h c (by simp [hc])
  refine ⟨pre, k, post, rfl, hk' ▸ hk, fun b hb => ?_, c, hc, hc' ▸ hne⟩
  exact hpre' b hb ▸ hpre b hb

theorem NothingKept.congr {f g : ℕ → List ℕ} {bs : List ℕ}
    (h : ∀ b ∈ bs, f b = g b) (hf : NothingKept nodesPerBlock f bs) :
    NothingKept nodesPerBlock g bs := by
  refine ⟨fun b hb => h b hb ▸ hf.1 b hb, ?_⟩
  refine hf.2.imp_of_mem (fun {b c} hb hc hbc => ?_)
  rw [← h b hb, ← h c hc]
  exact hbc

/-- A block in front that is wholly free changes neither condition. -/
theorem lastCached_cons_full {f : ℕ → List ℕ} {b : ℕ} {bs : List ℕ}
    (hfull : (f b).length = nodesPerBlock) :
    LastCached nodesPerBlock f (b :: bs) ↔ LastCached nodesPerBlock f bs := by
  constructor
  · rintro ⟨pre, k, post, heq, hk, hpre, hpost⟩
    cases pre with
    | nil =>
      obtain ⟨rfl, rfl⟩ := List.cons.inj heq
      exact absurd hfull hk.2
    | cons a pre =>
      obtain ⟨rfl, rfl⟩ := List.cons.inj heq
      exact ⟨pre, k, post, rfl, hk, fun c hc => hpre c (List.mem_cons_of_mem _ hc), hpost⟩
  · rintro ⟨pre, k, post, rfl, hk, hpre, hpost⟩
    refine ⟨b :: pre, k, post, rfl, hk, fun c hc => ?_, hpost⟩
    rcases List.mem_cons.mp hc with rfl | hc
    · exact Or.inr hfull
    · exact hpre c hc

/-- A block in front without free nodes does not change the first. -/
theorem lastCached_cons_nil {f : ℕ → List ℕ} {b : ℕ} {bs : List ℕ} (hnil : f b = []) :
    LastCached nodesPerBlock f (b :: bs) ↔ LastCached nodesPerBlock f bs := by
  constructor
  · rintro ⟨pre, k, post, heq, hk, hpre, hpost⟩
    cases pre with
    | nil =>
      obtain ⟨rfl, rfl⟩ := List.cons.inj heq
      exact absurd hnil hk.1
    | cons a pre =>
      obtain ⟨rfl, rfl⟩ := List.cons.inj heq
      exact ⟨pre, k, post, rfl, hk, fun c hc => hpre c (List.mem_cons_of_mem _ hc), hpost⟩
  · rintro ⟨pre, k, post, rfl, hk, hpre, hpost⟩
    refine ⟨b :: pre, k, post, rfl, hk, fun c hc => ?_, hpost⟩
    rcases List.mem_cons.mp hc with rfl | hc
    · exact Or.inl hnil
    · exact hpre c hc

/-- A block in front that is kept with free nodes is the first such block. -/
theorem lastCached_cons_kept {f : ℕ → List ℕ} {b : ℕ} {bs : List ℕ}
    (hne : f b ≠ []) (hkept : (f b).length ≠ nodesPerBlock) :
    LastCached nodesPerBlock f (b :: bs) ↔ ∃ c ∈ bs, f c ≠ [] := by
  constructor
  · rintro ⟨pre, k, post, heq, hk, hpre, hpost⟩
    cases pre with
    | nil =>
      obtain ⟨rfl, rfl⟩ := List.cons.inj heq
      exact hpost
    | cons a pre =>
      obtain ⟨rfl, rfl⟩ := List.cons.inj heq
      rcases hpre b List.mem_cons_self with h | h
      · exact absurd h hne
      · exact absurd h hkept
  · intro hpost
    exact ⟨[], b, bs, rfl, ⟨hne, hkept⟩, List.forall_mem_nil _, hpost⟩

/-- **Once the backup list has nodes, the cached position stays what it is**:
a node stays the last one, and a position of another list stays one. -/
theorem last_of_backup_ne_nil (bs : List ℕ) (w : Sweep) (hne : w.backupList.nodes ≠ []) :
    let r := bs.foldl (Sweep.round sl nodesPerBlock blocksize) w
    r.backupListLast = w.backupListLast
      ∧ ∃ pre, r.backupList.nodes = pre ++ w.backupList.nodes
        ∧ r.backupList.size = pre.length + w.backupList.size := by
  induction bs generalizing w with
  | nil => exact ⟨rfl, [], rfl, by simp⟩
  | cons b bs ih =>
    set w' := Sweep.round sl nodesPerBlock blocksize w b with hw'
    have heq := hw'.trans (round_eq sl w b)
    obtain ⟨pre, hpre, hsize, hlast⟩ : ∃ pre,
        w'.backupList.nodes = pre ++ w.backupList.nodes
          ∧ w'.backupList.size = pre.length + w.backupList.size
          ∧ w'.backupListLast = w.backupListLast := by
      split at heq
      · exact ⟨[], by rw [heq]; rfl, by rw [heq]; simp, by rw [heq]⟩
      · refine ⟨(nodesIn blocksize w.freelist.nodes b).reverse, by rw [heq], ?_, ?_⟩
        · rw [heq, List.length_reverse, Nat.add_comm]
        · rw [heq]
          simp only [if_neg (fun h : _ ∧ _ => hne h.1)]
    have hne' : w'.backupList.nodes ≠ [] := by
      rw [hpre]
      exact List.append_ne_nil_of_right_ne_nil _ hne
    obtain ⟨hl, pre', hpre', hsize'⟩ := ih w' hne'
    refine ⟨hl.trans hlast, pre' ++ pre, ?_, ?_⟩
    · rw [List.foldl_cons, hpre', hpre, List.append_assoc]
    · rw [List.foldl_cons, hsize', hsize, List.length_append]
      omega

/-- **Exactly when the cached position is one of the backup list.** The sweep
starts from the position before the backup list (`o = none`); `o = some b` is
the position before the list of a round that is over. -/
theorem covers_foldl_iff (bs : List ℕ) (w : Sweep) (o : Option ℕ)
    (hpos : 0 < nodesPerBlock) (hsep : Separate blocksize bs)
    (hcover : ∀ x ∈ w.freelist.nodes, ∃ b ∈ bs, isBetween b blocksize x = true)
    (hnil : w.backupList = Slist.nil) (hlast : w.backupListLast = .beforeBegin o) :
    (bs.foldl (Sweep.round sl nodesPerBlock blocksize) w).backupList.Covers none
        (bs.foldl (Sweep.round sl nodesPerBlock blocksize) w).backupListLast
        (bs.foldl (Sweep.round sl nodesPerBlock blocksize) w).backupList.size
      ↔ LastCached nodesPerBlock (nodesIn blocksize w.freelist.nodes) bs
        ∨ (o = none ∧ NothingKept nodesPerBlock (nodesIn blocksize w.freelist.nodes) bs) := by
  induction bs generalizing w o with
  | nil =>
    simp only [List.foldl_nil, hnil, hlast]
    constructor
    · rintro ⟨ho, _⟩
      exact Or.inr ⟨ho, List.forall_mem_nil _, List.Pairwise.nil⟩
    · rintro (⟨pre, k, post, heq, _⟩ | ⟨ho, _⟩)
      · cases pre <;> cases heq
      · exact ⟨ho, rfl⟩
  | cons b bs ih =>
    obtain ⟨hb, hsep'⟩ := List.pairwise_cons.mp hsep
    set f := nodesIn blocksize w.freelist.nodes with hf
    set w' := Sweep.round sl nodesPerBlock blocksize w b with hw'
    have heq := hw'.trans (round_eq sl w b)
    have hnodes : w'.freelist.nodes
        = w.freelist.nodes.filter (fun a => !isBetween b blocksize a) := by
      rw [heq]
      split <;> rfl
    have hsame : ∀ c ∈ bs, nodesIn blocksize w'.freelist.nodes c = f c := by
      intro c hc
      rw [hnodes]
      exact nodesIn_filter_not (hb c hc)
    have hcover' : ∀ x ∈ w'.freelist.nodes, ∃ c ∈ bs, isBetween c blocksize x = true := by
      intro x hx
      rw [hnodes, List.mem_filter] at hx
      obtain ⟨c, hc, hxc⟩ := hcover x hx.1
      rcases List.mem_cons.mp hc with rfl | hc
      · simp [hxc] at hx
      · exact ⟨c, hc, hxc⟩
    -- the free list is exhausted exactly when no later block has free nodes
    have hmore : (w.freelist.removeIf (isBetween b blocksize)).2.nodes ≠ []
        ↔ ∃ c ∈ bs, f c ≠ [] := by
      show w.freelist.nodes.filter (fun a => !isBetween b blocksize a) ≠ [] ↔ _
      rw [← hnodes]
      constructor
      · intro hne
        obtain ⟨x, hx⟩ := List.exists_mem_of_ne_nil _ hne
        obtain ⟨c, hc, hxc⟩ := hcover' x hx
        refine ⟨c, hc, List.ne_nil_of_mem (a := x) ?_⟩
        rw [← hsame c hc]
        exact List.mem_filter.mpr ⟨hx, hxc⟩
      · rintro ⟨c, hc, hne⟩ hempty
        rw [← hsame c hc, hempty] at hne
        exact hne rfl
    have hcongr : ∀ o' : Option ℕ, (LastCached nodesPerBlock
          (nodesIn blocksize w'.freelist.nodes) bs
        ∨ (o' = none ∧ NothingKept nodesPerBlock
          (nodesIn blocksize w'.freelist.nodes) bs))
        ↔ (LastCached nodesPerBlock f bs ∨ (o' = none ∧ NothingKept nodesPerBlock f bs)) := by
      intro o'
      have hsame' : ∀ c ∈ bs, f c = nodesIn blocksize w'.freelist.nodes c :=
        fun c hc => (hsame c hc).symm
      exact or_congr ⟨LastCached.congr hsame, LastCached.congr hsame'⟩
        (and_congr_right fun _ => ⟨NothingKept.congr hsame, NothingKept.congr hsame'⟩)
    rw [List.foldl_cons]
    by_cases hfull : (f b).length = nodesPerBlock
    · -- the block is handed back and the cache is left alone
      rw [if_pos hfull] at heq
      rw [ih w' o hsep' hcover' (by rw [heq]; exact hnil) (by rw [heq]; exact hlast),
        hcongr, lastCached_cons_full hfull]
      refine or_congr_right (and_congr_right fun _ => ?_)
      have hne : f b ≠ [] := fun he => by
        rw [he, List.length_nil] at hfull
        omega
      constructor
      · rintro ⟨hall, hpw⟩
        refine ⟨fun c hc => ?_, List.pairwise_cons.mpr ⟨fun c _ he => absurd he hne, hpw⟩⟩
        rcases List.mem_cons.mp hc with rfl | hc
        · exact Or.inr hfull
        · exact hall c hc
      · rintro ⟨hall, hpw⟩
        exact ⟨fun c hc => hall c (List.mem_cons_of_mem _ hc), (List.pairwise_cons.mp hpw).2⟩
    · rw [if_neg hfull] at heq
      by_cases hempty : f b = []
      · -- nothing is spliced; the cache may be left at the list of this round
        have hback : w'.backupList = Slist.nil := by
          rw [heq, hnil]
          show (⟨(f b).reverse ++ [], 0 + (f b).length⟩ : Slist) = _
          rw [hempty]
          rfl
        by_cases hlater : ∃ c ∈ bs, f c ≠ []
        · have hlast' : w'.backupListLast = .beforeBegin (some b) := by
            rw [heq, hnil]
            show (if _ then lastIt b (f b) else _) = _
            rw [if_pos ⟨rfl, hmore.mpr hlater⟩, hempty]
            rfl
          rw [ih w' (some b) hsep' hcover' hback hlast', hcongr, lastCached_cons_nil hempty]
          refine or_congr_right (iff_of_false (by simp) ?_)
          rintro ⟨_, _, hpw⟩
          obtain ⟨c, hc, hne⟩ := hlater
          exact hne ((List.pairwise_cons.mp hpw).1 c hc hempty)
        · have hlast' : w'.backupListLast = .beforeBegin o := by
            rw [heq]
            show (if _ then _ else w.backupListLast) = _
            rw [if_neg (fun h => hlater (hmore.mp h.2)), hlast]
          rw [ih w' o hsep' hcover' hback hlast', hcongr, lastCached_cons_nil hempty]
          have hall : ∀ c ∈ bs, f c = [] := by
            intro c hc
            by_contra hne
            exact hlater ⟨c, hc, hne⟩
          refine or_congr_right (and_congr_right fun _ => ?_)
          constructor
          · rintro ⟨_, hpw⟩
            refine ⟨fun c hc => ?_,
              List.pairwise_cons.mpr ⟨fun c hc _ => hall c hc, hpw⟩⟩
            rcases List.mem_cons.mp hc with rfl | hc
            · exact Or.inl hempty
            · exact Or.inl (hall c hc)
          · rintro ⟨h₁, hpw⟩
            exact ⟨fun c hc => h₁ c (List.mem_cons_of_mem _ hc),
              (List.pairwise_cons.mp hpw).2⟩
      · -- the first nodes to be kept: the cache is settled by this round
        have hback : w'.backupList.nodes = (f b).reverse := by
          rw [heq, hnil]
          exact List.append_nil _
        have hsize : w'.backupList.size = (f b).length := by
          rw [heq, hnil]
          exact Nat.zero_add _
        have hne' : w'.backupList.nodes ≠ [] := by
          rw [hback]
          simpa using hempty
        obtain ⟨hl, pre, hpre, hpsize⟩ := last_of_backup_ne_nil sl bs w' hne'
        rw [lastCached_cons_kept hempty hfull, or_iff_left (fun h => ?_)]
        · by_cases hlater : ∃ c ∈ bs, f c ≠ []
          · refine iff_of_true ?_ hlater
            obtain ⟨a, rest, hcons⟩ : ∃ a rest, f b = a :: rest :=
              List.exists_cons_of_ne_nil hempty
            have hlast' : w'.backupListLast = .node a := by
              rw [heq, hnil]
              show (if _ then lastIt b (f b) else _) = _
              rw [if_pos ⟨rfl, hmore.mpr hlater⟩, hcons]
              rfl
            rw [hl, hlast']
            refine ⟨pre.length + rest.length, ?_, ?_⟩
            · rw [hpre, hback, hcons]
              simp
            · rw [hpsize, hsize, hcons, List.length_cons]
              omega
          · refine iff_of_false ?_ hlater
            have hlast' : w'.backupListLast = .beforeBegin o := by
              rw [heq]
              show (if _ then _ else w.backupListLast) = _
              rw [if_neg (fun h => hlater (hmore.mp h.2)), hlast]
            rw [hl, hlast']
            rintro ⟨_, hzero⟩
            rw [hpsize, hsize] at hzero
            exact hempty (List.length_eq_zero_iff.mp (by omega))
        · rcases h.2.1 b List.mem_cons_self with he | he
          · exact hempty he
          · exact hfull he

end NodePool
