import BoostContainer.Pmr.Monotonic

/-!
# What a monotonic buffer resource hands out over a run

A session is a resource together with what it has handed out since its last
release. The promise is *containment*: the counter of bytes left never went
below zero, every range handed out is aligned as requested and lies inside
the initial buffer or one block obtained from upstream, and no two of them
overlap.

The promise is kept by every call that does not ask for zero bytes at an
alignment whose waste passes the end of the current buffer
(`Call.StaysInside`), and broken by every call that does. The invariant that
carries the proof is that the free part of the current buffer lies inside
one piece of storage and is apart from everything handed out.
-/

namespace MonotonicBufferResource

/-- A range handed out, with the alignment it was requested with. -/
structure Grant where
  region : Region
  alignment : ℕ
  deriving DecidableEq, Repr

/-- **A session**: a resource, what it handed out since its last release,
and whether the counter of bytes left ever wrapped. -/
structure Session where
  resource : MonotonicBufferResource
  granted : List Grant
  underflowed : Bool
  deriving DecidableEq, Repr

/-- The calls a session makes. An allocation carries what upstream would
answer during it. -/
inductive Call
  | allocate (bytes alignment : ℕ) (mr : Upstream)
  | release

variable (pf : Platform) (math : IntrusiveMath pf.bits)

/-- Whether an allocation subtracts more from the counter than it holds. -/
def overdraws (s : MonotonicBufferResource) (bytes alignment : ℕ)
    (mr : Upstream) : Bool :=
  match s.prepareBuffer pf math bytes alignment mr with
  | (none, _) => false
  | (some aligner, s') => decide (s'.currentBufferSize < aligner + bytes)

namespace Session

/-- The session after a call. -/
def exec (s : Session) : Call → Session
  | .allocate bytes alignment mr =>
    { resource := (s.resource.doAllocate pf math bytes alignment mr).2
      granted :=
        match (s.resource.doAllocate pf math bytes alignment mr).1 with
        | none => s.granted
        | some p => ⟨⟨p, bytes⟩, alignment⟩ :: s.granted
      underflowed := s.underflowed || s.resource.overdraws pf math bytes alignment mr }
  | .release =>
    { s with resource := s.resource.release pf, granted := [] }

/-- **Containment**: the counter never wrapped, and what was handed out is
aligned, inside the storage, and disjoint. -/
def Contained (s : Session) : Prop :=
  s.underflowed = false
    ∧ (∀ g ∈ s.granted, g.region.base % g.alignment = 0
        ∧ ∃ r ∈ s.resource.storage, g.region.Within r)
    ∧ s.granted.Pairwise (fun g h => g.region.Apart h.region)

instance (s : Session) : Decidable s.Contained :=
  inferInstanceAs (Decidable (_ ∧ _ ∧ _))

end Session

/-- **What callers and upstream owe**: a size that is a `std::size_t`, an
alignment that is a power of two and not above `max_align`, and fresh
storage. -/
def Call.Valid (s : Session) : Call → Prop
  | .allocate bytes alignment mr =>
    bytes ≤ pf.sizeMax ∧ (∃ k, alignment = 2 ^ k) ∧ alignment ≤ pf.maxAlign
      ∧ mr.Fresh pf s.resource.storage
  | .release => True

/-- **The condition containment needs**: a request for no bytes is made only
where its alignment does not pass the end of the current buffer. -/
def Call.StaysInside (s : Session) : Call → Prop
  | .allocate bytes alignment _ =>
    bytes = 0 →
      s.resource.wastedDueToAlignment pf alignment ≤ s.resource.currentBufferSize
  | .release => True

/-- A newly constructed resource, by any of its constructors. A buffer the
caller supplies ends inside the address space. -/
def Constructed (s : MonotonicBufferResource) : Prop :=
  s = ofUpstream pf
    ∨ (∃ n, n ≤ pf.sizeMax ∧ s = ofInitialSize pf math n)
    ∨ ∃ b n, b + n < 2 ^ pf.bits ∧ s = ofBuffer pf math b n

/-- **The sessions of a resource**: from any construction, by any valid
calls. -/
def sessions : TransitionSystem Session Call where
  Init s := ∃ r, Constructed pf math r ∧ s = ⟨r, [], false⟩
  Step s c s' := c.Valid pf s ∧ s' = s.exec pf math c

/-! ## The invariant -/

/-- **The invariant of a session whose counter never wrapped.** -/
structure Session.Sound (s : Session) : Prop where
  /-- The pieces of storage are apart. -/
  storage_apart : s.resource.storage.Pairwise Region.Apart
  /-- And end inside the address space. -/
  storage_stop : ∀ r ∈ s.resource.storage, r.stop < 2 ^ pf.bits
  /-- The free part of the current buffer lies inside one of them. -/
  free_within : ∃ r ∈ s.resource.storage, s.resource.free.Within r
  /-- What was handed out is aligned and lies inside one of them. -/
  granted_within : ∀ g ∈ s.granted, g.region.base % g.alignment = 0
    ∧ ∃ r ∈ s.resource.storage, g.region.Within r
  /-- Nothing that is still free was handed out. -/
  granted_apart_free : ∀ g ∈ s.granted, g.region.Apart s.resource.free
  /-- Nothing was handed out twice. -/
  granted_apart : s.granted.Pairwise (fun g h => g.region.Apart h.region)

variable {pf math}

namespace Session

theorem Sound.free_stop {s : Session} (h : s.Sound pf) :
    s.resource.free.stop < 2 ^ pf.bits := by
  obtain ⟨r, hr, hw⟩ := h.free_within
  exact hw.2.trans_lt (h.storage_stop r hr)

theorem Sound.contained {s : Session} (h : s.Sound pf)
    (hu : s.underflowed = false) : s.Contained :=
  ⟨hu, h.granted_within, h.granted_apart⟩

/-- The invariant reads only the storage and the free part of the
resource. -/
theorem Sound.congr {s : Session} {r : MonotonicBufferResource} {u : Bool}
    (h : s.Sound pf) (hstorage : r.storage = s.resource.storage)
    (hfree : r.free = s.resource.free) :
    (⟨r, s.granted, u⟩ : Session).Sound pf where
  storage_apart := hstorage ▸ h.storage_apart
  storage_stop := hstorage ▸ h.storage_stop
  free_within := by
    simpa only [hstorage, hfree] using h.free_within
  granted_within := by
    simpa only [hstorage] using h.granted_within
  granted_apart_free := by
    simpa only [hfree] using h.granted_apart_free
  granted_apart := h.granted_apart

/-- **A new buffer keeps the invariant**: its block is apart from all
storage in use, so from everything handed out, and its free part lies inside
it. -/
theorem Sound.newBuffer {s : Session} {q n header : ℕ}
    {r : MonotonicBufferResource} {u : Bool} (h : s.Sound pf)
    (hapart : ∀ t ∈ s.resource.storage, t.Apart ⟨q, n + header⟩)
    (hspace : q + (n + header) < 2 ^ pf.bits)
    (hstorage : r.storage
      = ⟨r.initialBuffer, r.initialBufferSize⟩
          :: ⟨q, n + header⟩ :: s.resource.memoryBlocks)
    (hinit : (⟨r.initialBuffer, r.initialBufferSize⟩ : Region)
      = ⟨s.resource.initialBuffer, s.resource.initialBufferSize⟩)
    (hfree : r.free = ⟨q + header, n⟩) :
    (⟨r, s.granted, u⟩ : Session).Sound pf := by
  have hmem : ∀ t, t ∈ r.storage
      ↔ t ∈ s.resource.storage ∨ t = ⟨q, n + header⟩ := by
    intro t
    rw [hstorage, hinit, storage]
    simp only [List.mem_cons]
    tauto
  have hfreeIn : r.free.Within ⟨q, n + header⟩ := by
    rw [hfree]
    exact ⟨Nat.le_add_right _ _, by simp only [Region.stop_mk]; omega⟩
  have hold := h.storage_apart
  rw [storage, List.pairwise_cons] at hold
  refine ⟨?_, ?_, ?_, ?_, ?_, h.granted_apart⟩
  · show r.storage.Pairwise Region.Apart
    rw [hstorage, hinit, List.pairwise_cons, List.pairwise_cons]
    refine ⟨fun t ht => ?_, fun t ht => ?_, hold.2⟩
    · rcases List.mem_cons.mp ht with rfl | ht
      · exact hapart _ List.mem_cons_self
      · exact hold.1 t ht
    · exact (hapart t (List.mem_cons_of_mem _ ht)).symm
  · intro t ht
    rcases (hmem t).mp ht with ht | rfl
    · exact h.storage_stop t ht
    · exact hspace
  · exact ⟨_, (hmem _).mpr (Or.inr rfl), hfreeIn⟩
  · intro g hg
    obtain ⟨hal, t, ht, hw⟩ := h.granted_within g hg
    exact ⟨hal, t, (hmem t).mpr (Or.inl ht), hw⟩
  · intro g hg
    obtain ⟨_, t, ht, hw⟩ := h.granted_within g hg
    exact (hfreeIn.apart (hw.apart (hapart t ht)).symm).symm

/-- **An extraction that does not overdraw keeps the invariant**, when the
address after the aligner is aligned. -/
theorem Sound.extract {s : Session} {aligner bytes alignment : ℕ} {u : Bool}
    (h : s.Sound pf) (hfit : aligner + bytes ≤ s.resource.currentBufferSize)
    (hal : (s.resource.currentBuffer + aligner) % alignment = 0) :
    (⟨(s.resource.allocateFromCurrent pf aligner bytes).2,
      ⟨⟨(s.resource.allocateFromCurrent pf aligner bytes).1, bytes⟩, alignment⟩
        :: s.granted, u⟩ : Session).Sound pf := by
  have hstorage : (s.resource.allocateFromCurrent pf aligner bytes).2.storage
      = s.resource.storage := storage_allocateFromCurrent _ _ _
  rw [allocateFromCurrent_eq h.free_stop hfit] at hstorage ⊢
  set cut : Region := ⟨s.resource.currentBuffer + aligner, bytes⟩ with hcut
  set rest : Region := ⟨s.resource.currentBuffer + aligner + bytes,
    s.resource.currentBufferSize - (aligner + bytes)⟩ with hrest
  have hcutIn : cut.Within s.resource.free :=
    ⟨Nat.le_add_right _ _, by
      simp only [hcut, free, Region.stop_mk]
      omega⟩
  have hrestIn : rest.Within s.resource.free :=
    ⟨by simp only [hrest, free]; omega, by
      simp only [hrest, free, Region.stop_mk]
      omega⟩
  have hapart : cut.Apart rest :=
    Region.apart_iff.mpr (Or.inr (Or.inr (Or.inl le_rfl)))
  obtain ⟨t, ht, hw⟩ := h.free_within
  refine ⟨?_, ?_, ⟨t, hstorage ▸ ht, hrestIn.trans hw⟩, ?_, ?_, ?_⟩
  · exact hstorage ▸ h.storage_apart
  · exact hstorage ▸ h.storage_stop
  · intro g hg
    rcases List.mem_cons.mp hg with rfl | hg
    · exact ⟨hal, t, hstorage ▸ ht, hcutIn.trans hw⟩
    · obtain ⟨hgal, r, hr, hgw⟩ := h.granted_within g hg
      exact ⟨hgal, r, hstorage ▸ hr, hgw⟩
  · intro g hg
    rcases List.mem_cons.mp hg with rfl | hg
    · exact hapart
    · exact (hrestIn.apart (h.granted_apart_free g hg).symm).symm
  · rw [List.pairwise_cons]
    refine ⟨fun g hg => ?_, h.granted_apart⟩
    exact hcutIn.apart (h.granted_apart_free g hg).symm

end Session

/-! ## One call -/

/-- **What preparing a buffer does** to a sound session: it stays sound, and
where the call goes on to extract, the extraction fits exactly when the call
stays inside, and then the address is aligned. -/
theorem prepareBuffer_spec {s : Session} {bytes k : ℕ} {mr : Upstream}
    (h : s.Sound pf) (hk : 2 ^ k ≤ pf.maxAlign)
    (hmr : mr.Fresh pf s.resource.storage) {o : Option ℕ}
    {r : MonotonicBufferResource}
    (hprep : s.resource.prepareBuffer pf math bytes (2 ^ k) mr = (o, r)) :
    (⟨r, s.granted, s.underflowed⟩ : Session).Sound pf
      ∧ (o = none → Call.StaysInside pf s (.allocate bytes (2 ^ k) mr))
      ∧ ∀ aligner, o = some aligner →
        (aligner + bytes ≤ r.currentBufferSize
          ↔ Call.StaysInside pf s (.allocate bytes (2 ^ k) mr))
        ∧ (aligner + bytes ≤ r.currentBufferSize →
          (r.currentBuffer + aligner) % 2 ^ k = 0) := by
  have hbits : 2 ^ k ≤ 2 ^ pf.bits := by
    have := pf.blockSlistHeader_fits
    have hmax : pf.maxAlign = 2 ^ pf.maxAlignLog2 := rfl
    omega
  unfold prepareBuffer at hprep
  rw [if_neg (Nat.not_lt.mpr hk), remainingStorage_eq] at hprep
  simp only at hprep
  split at hprep
  · -- the request does not fit: a new buffer
    rename_i hlack
    have hinside : Call.StaysInside pf s (.allocate bytes (2 ^ k) mr) := by
      intro hzero
      omega
    split at hprep
    · obtain ⟨rfl, rfl⟩ := Prod.mk.inj hprep
      refine ⟨?_, fun _ => hinside, fun _ ho => nomatch ho⟩
      exact h.congr (storage_increaseNextBufferAtLeastTo _ _)
        (free_increaseNextBufferAtLeastTo _ _)
    · rename_i buffer blocks halloc
      obtain ⟨rfl, rfl⟩ := Prod.mk.inj hprep
      obtain ⟨q, _, rfl, rfl, hmax, hal, hspace, hapart⟩ :=
        BlockList.allocate_eq_some
          (Platform.headerSize_le_sizeMax pf.blockSlistHeader_fits) hmr halloc
      have hinit : (increaseNextBufferAtLeastTo pf math s.resource bytes).storage
          = s.resource.storage := storage_increaseNextBufferAtLeastTo _ _
      rw [storage, storage, List.cons.injEq] at hinit
      refine ⟨h.newBuffer hapart hspace rfl hinit.1 rfl, by simp, ?_⟩
      intro aligner ho
      obtain rfl := Option.some.inj ho
      refine ⟨iff_of_true ?_ hinside, fun _ => ?_⟩
      · rw [Nat.zero_add]
        exact le_nextBufferSize s.resource bytes
      · refine Nat.mod_eq_zero_of_dvd ((Platform.dvd_maxAlign hk).trans ?_)
        exact Nat.dvd_add (Nat.dvd_add (Nat.dvd_of_mod_eq_zero hal)
          (Nat.dvd_of_mod_eq_zero (Platform.headerSize_mod pf.blockSlistHeader_fits)))
          (Nat.dvd_zero _)
  · -- the request passes the test on the current buffer
    rename_i hpass
    obtain ⟨rfl, rfl⟩ := Prod.mk.inj hprep
    refine ⟨h.congr rfl rfl, by simp, fun aligner ho => ?_⟩
    obtain rfl := Option.some.inj ho
    refine ⟨?_, fun hfit => add_wasted_mod hbits h.free_stop (by omega)⟩
    unfold Call.StaysInside
    omega

namespace Session

/-- A construction starts sound: nothing is handed out, and the whole
initial buffer is free. -/
theorem sound_of_constructed {r : MonotonicBufferResource}
    (h : Constructed pf math r) : (⟨r, [], false⟩ : Session).Sound pf := by
  have hstart : ∀ b n, b + n < 2 ^ pf.bits → r.storage = [⟨b, n⟩] →
      r.free = ⟨b, n⟩ → (⟨r, [], false⟩ : Session).Sound pf := by
    intro b n hbn hst hfree
    refine ⟨?_, ?_, ⟨⟨b, n⟩, ?_, ?_⟩, ?_, ?_, ?_⟩ <;>
      simp [hst, hfree, hbn, Region.Within.refl]
  rcases h with rfl | ⟨n, _, rfl⟩ | ⟨b, n, hbn, rfl⟩
  · exact hstart 0 0 (Nat.two_pow_pos _) rfl rfl
  · exact hstart 0 0 (Nat.two_pow_pos _)
      (storage_increaseNextBufferAtLeastTo _ _) (free_increaseNextBufferAtLeastTo _ _)
  · exact hstart b n hbn rfl rfl

/-- **One call**: a sound session stays sound where the call stays inside,
and its counter wraps exactly where the call does not. -/
theorem Sound.exec {s : Session} {c : Call} (h : s.Sound pf)
    (hu : s.underflowed = false) (hc : c.Valid pf s) :
    ((s.exec pf math c).underflowed = false ↔ c.StaysInside pf s)
      ∧ (c.StaysInside pf s → (s.exec pf math c).Sound pf) := by
  cases c with
  | release =>
    refine ⟨iff_of_true hu trivial, fun _ => ?_⟩
    have hhead : (⟨s.resource.initialBuffer, s.resource.initialBufferSize⟩ : Region)
        ∈ s.resource.storage := List.mem_cons_self
    refine ⟨?_, ?_, ⟨_, List.mem_cons_self, Region.Within.refl _⟩, ?_, ?_, ?_⟩
    · exact List.pairwise_singleton _ _
    · intro t ht
      rw [show t = _ from List.mem_singleton.mp ht]
      exact h.storage_stop _ hhead
    all_goals simp [Session.exec]
  | allocate bytes alignment mr =>
    obtain ⟨_, ⟨k, rfl⟩, hk, hmr⟩ := hc
    rcases hprep : s.resource.prepareBuffer pf math bytes (2 ^ k) mr with ⟨o, r⟩
    obtain ⟨hsound, hnone, hsome⟩ := prepareBuffer_spec h hk hmr hprep
    cases o with
    | none =>
      refine ⟨iff_of_true ?_ (hnone rfl), fun _ => ?_⟩
      · simp [Session.exec, overdraws, hprep, hu]
      · simp only [Session.exec, doAllocate, hprep]
        exact hsound.congr rfl rfl
    | some aligner =>
      obtain ⟨hiff, hal⟩ := hsome aligner rfl
      refine ⟨?_, fun hin => ?_⟩
      · simp only [Session.exec, overdraws, hprep, hu, Bool.false_or,
          decide_eq_false_iff_not, Nat.not_lt]
        exact hiff
      · simp only [Session.exec, doAllocate, hprep]
        exact hsound.extract (hiff.mpr hin) (hal (hiff.mpr hin))

/-- A counter that wrapped stays so recorded. -/
theorem exec_underflowed {s : Session} (c : Call) (h : s.underflowed = true) :
    (s.exec pf math c).underflowed = true := by
  cases c with
  | allocate bytes alignment mr => simp [Session.exec, h]
  | release => exact h

end Session

/-! ## Whole runs -/

/-- **Containment over a run.** Whatever the construction and the calls, a
run ends contained exactly when none of its calls asked for zero bytes at an
alignment whose waste passed the end of the current buffer. -/
theorem Session.contained_iff {s s' : Session} {cs : List Call}
    (hs : (sessions pf math).Init s) (hrun : (sessions pf math).Run s cs s') :
    s'.Contained
      ↔ ((sessions pf math).restrict (fun t c => c.StaysInside pf t)).Run s cs s' := by
  obtain ⟨r, hr, rfl⟩ := hs
  have hsound₀ : (⟨r, [], false⟩ : Session).Sound pf := sound_of_constructed hr
  have hJ : ∀ t c t', (t.underflowed = false → t.Sound pf) →
      (sessions pf math).Step t c t' → (t'.underflowed = false → t'.Sound pf) := by
    rintro t c _ ht ⟨hvalid, rfl⟩ hu
    have hut : t.underflowed = false := by
      by_contra hne
      rw [exec_underflowed c (by simpa using hne)] at hu
      cases hu
    have hiff : (t.exec pf math c).underflowed = false ↔ c.StaysInside pf t :=
      ((ht hut).exec hut hvalid).1
    exact ((ht hut).exec hut hvalid).2 (hiff.mp hu)
  have hiff := TransitionSystem.Run.iff_restrict
    (I := fun t => t.underflowed = false) (C := fun t c => c.StaysInside pf t) hJ
    (by
      rintro t c _ ht hut ⟨hvalid, rfl⟩
      exact ((ht hut).exec hut hvalid).1)
    (by
      rintro t c _ hne ⟨_, rfl⟩ hu
      rw [exec_underflowed c (by simpa using hne)] at hu
      cases hu)
    (fun _ => hsound₀) rfl hrun
  rw [← hiff]
  constructor
  · exact fun hcon => hcon.1
  · intro hu
    have hsound' : s'.underflowed = false → s'.Sound pf :=
      hrun.preserves hJ (fun _ => hsound₀)
    exact (hsound' hu).contained hu

/-- A request that fits keeps containment: 24 bytes at alignment 8 from a
buffer of 64 bytes. -/
theorem Session.contained_of_buffer :
    (Session.exec Platform.lp64 (IntrusiveMath.reference 64)
      ⟨ofBuffer Platform.lp64 (IntrusiveMath.reference 64) 1 64, [], false⟩
      (.allocate 24 8 (fun _ => none))).Contained := by
  have hinit : (sessions Platform.lp64 (IntrusiveMath.reference 64)).Init
      ⟨ofBuffer Platform.lp64 (IntrusiveMath.reference 64) 1 64, [], false⟩ :=
    ⟨_, Or.inr (Or.inr ⟨1, 64, by decide, rfl⟩), rfl⟩
  have hvalid : Call.Valid Platform.lp64
      ⟨ofBuffer Platform.lp64 (IntrusiveMath.reference 64) 1 64, [], false⟩
      (.allocate 24 8 (fun _ => none)) :=
    ⟨by decide, ⟨3, rfl⟩, by decide, fun _ _ h => nomatch h⟩
  refine (Session.contained_iff hinit (.cons ⟨hvalid, rfl⟩ .nil)).mpr ?_
  exact .cons ⟨⟨hvalid, rfl⟩, fun h => nomatch h⟩ .nil

/-- **Containment is lost on a request for no bytes.** The buffer is the
three bytes from address 1. Zero bytes at alignment 8 are answered with
address 8, and the counter wraps; four bytes at alignment 1 are then handed
out past the end of the buffer, from a resource that owns nothing else. -/
theorem Session.not_contained_zero_bytes :
    let math := IntrusiveMath.reference 64
    let s : Session := ⟨ofBuffer Platform.lp64 math 1 3, [], false⟩
    let cs : List Call := [.allocate 0 8 (fun _ => none), .allocate 4 1 (fun _ => none)]
    let s' := cs.foldl (Session.exec Platform.lp64 math) s
    (sessions Platform.lp64 math).Init s ∧ (sessions Platform.lp64 math).Run s cs s'
      ∧ s'.underflowed = true ∧ s'.resource.memoryBlocks = []
      ∧ s'.granted.map Grant.region = [⟨8, 4⟩, ⟨8, 0⟩] ∧ ¬ s'.Contained := by
  refine ⟨⟨_, Or.inr (Or.inr ⟨1, 3, by decide, rfl⟩), rfl⟩, ?_,
    by decide, by decide, by decide, by decide⟩
  refine .cons ⟨?first, rfl⟩ (.cons ⟨?second, rfl⟩ .nil)
  case first => exact ⟨by decide, ⟨3, rfl⟩, by decide, fun _ _ h => nomatch h⟩
  case second => exact ⟨by decide, ⟨0, rfl⟩, by decide, fun _ _ h => nomatch h⟩

end MonotonicBufferResource
