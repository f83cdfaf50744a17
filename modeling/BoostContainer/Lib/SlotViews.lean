import BoostContainer.Lib.SlotLoops

/-!
# Slots in another order

An object whose slots are not consecutive in memory numbers them in an order
of its own. `OwnsVia` is `Owns` for such numbers: an address for every number,
no two numbers of the object with the same address. A loop over consecutive
memory is a loop over consecutive numbers wherever the addresses follow one
another, and then what it does is told in numbers only.
-/

namespace Slots

variable {κ : Type} {α : Type*}

/-- **Slots known by number**: the object owns the slots numbered in `own`, with
elements in those of `live`. -/
structure OwnsVia (t : Bool) (s₀ : State κ α) (S₀ : Set ℕ) (k : κ) (addr : ℕ → ℕ)
    (own live : Set ℕ) (s : State κ α) : Prop where
  inj : Set.InjOn addr own
  sub : live ⊆ own
  owns : Owns t s₀ S₀ k (addr '' own) (addr '' live) s

variable {e : Env α} {t : Bool} {s₀ : State κ α} {S₀ own own' live live' : Set ℕ} {k : κ}
  {addr addr' : ℕ → ℕ} {s : State κ α} {p r n o : ℕ} {src : Source α} {srcs : List (Source α)}

namespace OwnsVia

/-- The same slots, described another way. -/
theorem congr (h : OwnsVia t s₀ S₀ k addr own live s) (ho : own = own') (hl : live = live') :
    OwnsVia t s₀ S₀ k addr own' live' s := ho ▸ hl ▸ h

/-- What is owned is owned since now. -/
theorem restart (h : OwnsVia t s₀ S₀ k addr own live s) :
    OwnsVia t s (addr '' own) k addr own live s :=
  ⟨h.inj, h.sub, h.owns.restart⟩

/-- Stretches follow one another. -/
theorem trans {S₁ live₁ : Set ℕ} {k₁ : κ} {addr₁ : ℕ → ℕ} {s₁ : State κ α}
    (h : OwnsVia t s₀ S₀ k₁ addr₁ S₁ live₁ s₁)
    (h' : OwnsVia t s₁ (addr₁ '' S₁) k addr own live s) : OwnsVia t s₀ S₀ k addr own live s :=
  ⟨h'.inj, h'.sub, h.owns.trans h'.owns⟩

/-- **Less is owned**, and the slots left out are not touched from now on. -/
theorem restrict (h : OwnsVia t s₀ S₀ k addr own live s) (ho : own' ⊆ own) :
    OwnsVia t s (addr '' own') k addr own' (live ∩ own') s := by
  refine ⟨h.inj.mono ho, Set.inter_subset_right, ?_⟩
  rw [h.inj.image_inter h.sub ho]
  exact h.owns.restrict (Set.image_mono ho)

/-- An element that does not have to be destroyed may be forgotten. -/
theorem forget (h : OwnsVia t s₀ S₀ k addr own live s) (hl : live' ⊆ live)
    (ht : t = false → live' = live) : OwnsVia t s₀ S₀ k addr own live' s :=
  ⟨h.inj, hl.trans h.sub, h.owns.forget (Set.image_mono hl) (fun hf => by rw [ht hf])⟩

/-- A slot without an element is raw. -/
theorem vacant_of_notMem (h : OwnsVia t s₀ S₀ k addr own live s) (ht : t = false) (ho : o ∈ own)
    (hl : o ∉ live) : shape s.heap (addr o) = some false := by
  refine h.owns.vacant ht _ (Set.mem_image_of_mem addr ho) ?_
  rintro ⟨x, hx, hxo⟩
  exact hl (h.inj (h.sub hx) ho hxo ▸ hx)

/-- **The slots numbered anew**: `f` takes a number to the one its slot has under
other addresses. -/
theorem renumber (h : OwnsVia t s₀ S₀ k addr own live s) {f : ℕ → ℕ}
    (hf : ∀ o ∈ own, addr' (f o) = addr o) :
    OwnsVia t s₀ S₀ k addr' (f '' own) (f '' live) s := by
  have himage : ∀ X ⊆ own, addr' '' (f '' X) = addr '' X := by
    intro X hX
    rw [Set.image_image]
    exact Set.image_congr (fun o ho => hf o (hX ho))
  refine ⟨?_, Set.image_mono h.sub, ?_⟩
  · rintro _ ⟨a, ha, rfl⟩ _ ⟨b, hb, rfl⟩ hab
    rw [hf a ha, hf b hb] at hab
    rw [h.inj ha hb hab]
  · rw [himage own subset_rfl, himage live h.sub]
    exact h.owns

/-- The same numbers under other addresses, where these agree. -/
theorem readdress (h : OwnsVia t s₀ S₀ k addr own live s) (hf : ∀ o ∈ own, addr' o = addr o) :
    OwnsVia t s₀ S₀ k addr' own live s := by
  have hr := h.renumber (f := id) hf
  rwa [Set.image_id, Set.image_id] at hr

end OwnsVia

/-! ## Sets of numbers -/

theorem disjoint_image_of_injOn (hinj : Set.InjOn addr own) {A B : Set ℕ} (hA : A ⊆ own)
    (hB : B ⊆ own) (h : Disjoint A B) : Disjoint (addr '' A) (addr '' B) := by
  rw [Set.disjoint_left]
  rintro _ ⟨a, ha, rfl⟩ ⟨b, hb, hab⟩
  exact Set.disjoint_left.mp h ha (hinj (hB hb) (hA ha) hab ▸ hb)

/-- Consecutive numbers with consecutive addresses. -/
theorem image_Ico (h : ∀ j < n, addr (r + j) = p + j) :
    addr '' Set.Ico r (r + n) = Set.Ico p (p + n) := by
  ext q
  constructor
  · rintro ⟨o, ⟨h₁, h₂⟩, rfl⟩
    have hj := h (o - r) (by omega)
    rw [Nat.add_sub_cancel' h₁] at hj
    rw [hj]
    exact ⟨by omega, by omega⟩
  · rintro ⟨h₁, h₂⟩
    refine ⟨r + (q - p), ⟨by omega, by omega⟩, ?_⟩
    rw [h (q - p) (by omega)]
    omega

/-- Elements known by number can be moved from. -/
theorem readable_slots_via {f : ℕ} (h : ∀ j < n, addr (r + j) = f + j)
    (hl : Set.Ico r (r + n) ⊆ live) :
    ∀ src ∈ (slots f n : List (Source α)), src.Readable (addr '' live) :=
  readable_slots (image_Ico h ▸ Set.image_mono hl)

/-- **The frame rule**, where the slots that are left out have other numbers
afterwards. -/
theorem OwnsVia.frame_renumber {S₁ live₁ : Set ℕ} {k₁ : κ} {addr₁ f : ℕ → ℕ} {s₁ : State κ α}
    (h : OwnsVia t s₀ S₀ k₁ addr₁ S₁ live₁ s₁) (ho : own' ⊆ S₁)
    (h' : OwnsVia t s₁ (addr₁ '' own') k addr own live s)
    (hf : ∀ o ∈ S₁ \ own', addr (f o) = addr₁ o) :
    OwnsVia t s₀ S₀ k addr (own ∪ f '' (S₁ \ own')) (live ∪ f '' (live₁ \ own')) s
      ∧ Disjoint own (f '' (S₁ \ own'))
      ∧ ∀ o ∈ S₁ \ own', s.heap (addr₁ o) = s₁.heap (addr₁ o) := by
  have hall : addr₁ '' S₁ \ addr₁ '' own' = addr '' (f '' (S₁ \ own')) := by
    rw [← h.inj.image_sdiff_subset ho, Set.image_image]
    exact (Set.image_congr hf).symm
  have hlive : addr₁ '' live₁ \ addr₁ '' own' = addr '' (f '' (live₁ \ own')) := by
    rw [Set.image_image, Set.image_congr (fun o ho' => hf o ⟨h.sub ho'.1, ho'.2⟩)]
    ext q
    constructor
    · rintro ⟨⟨o, ho', rfl⟩, hn⟩
      exact ⟨o, ⟨ho', fun hoo => hn (Set.mem_image_of_mem addr₁ hoo)⟩, rfl⟩
    · rintro ⟨o, ⟨ho', hn⟩, rfl⟩
      refine ⟨Set.mem_image_of_mem addr₁ ho', ?_⟩
      rintro ⟨b, hb, hab⟩
      exact hn (h.inj (ho hb) (h.sub ho') hab ▸ hb)
  obtain ⟨howns, hd, heq⟩ := h.owns.frame (Set.image_mono ho) h'.owns
  rw [hall] at howns hd heq
  rw [hlive, ← Set.image_union, ← Set.image_union] at howns
  have hinj : Set.InjOn addr (f '' (S₁ \ own')) := by
    rintro _ ⟨a, ha, rfl⟩ _ ⟨b, hb, rfl⟩ hab
    rw [hf a ha, hf b hb] at hab
    rw [h.inj ha.1 hb.1 hab]
  have hd' : Disjoint own (f '' (S₁ \ own')) :=
    Set.disjoint_left.mpr (fun o ho' ho'' =>
      Set.disjoint_left.mp hd (Set.mem_image_of_mem addr ho') (Set.mem_image_of_mem addr ho''))
  refine ⟨⟨(Set.injOn_union hd').mpr ⟨h'.inj, hinj, fun a ha b hb hab => ?_⟩, ?_, howns⟩, hd',
    fun o ho' => heq _ ⟨f o, Set.mem_image_of_mem f ho', hf o ho'⟩⟩
  · exact Set.disjoint_left.mp hd (Set.mem_image_of_mem addr ha)
      (hab ▸ Set.mem_image_of_mem addr hb)
  · exact Set.union_subset_union h'.sub (Set.image_mono (Set.sdiff_subset_sdiff_left h.sub))

/-- **The frame rule** for slots known by number. -/
theorem OwnsVia.frame {S₁ live₁ : Set ℕ} {k₁ : κ} {s₁ : State κ α}
    (h : OwnsVia t s₀ S₀ k₁ addr S₁ live₁ s₁) (ho : own' ⊆ S₁)
    (h' : OwnsVia t s₁ (addr '' own') k addr own live s) :
    OwnsVia t s₀ S₀ k addr (own ∪ S₁ \ own') (live ∪ live₁ \ own') s
      ∧ Disjoint own (S₁ \ own') ∧ ∀ o ∈ S₁ \ own', s.heap (addr o) = s₁.heap (addr o) := by
  have hr := h.frame_renumber (f := id) ho h' (fun _ _ => rfl)
  rwa [Set.image_id, Set.image_id] at hr

theorem readable_copies_via {f : ℕ} (h : ∀ j < n, addr (r + j) = f + j)
    (hl : Set.Ico r (r + n) ⊆ live) :
    ∀ src ∈ (copies f n : List (Source α)), src.Readable (addr '' live) :=
  readable_copies (image_Ico h ▸ Set.image_mono hl)

/-- **Slots are allocated** under numbers that were free. -/
theorem allocate_via {a : ℕ} (hd : Disjoint own (Set.Ico r (r + n))) :
    Prog.Meets (OwnsVia t s₀ S₀ k addr own live) (allocate e a n)
      (fun p s => p ≠ 0 ∧ ∀ addr' : ℕ → ℕ, (∀ o ∈ own, addr' o = addr o) →
        (∀ j < n, addr' (r + j) = p + j) →
        OwnsVia t s₀ S₀ k addr' (own ∪ Set.Ico r (r + n)) live s)
      (OwnsVia t s₀ S₀ k addr own live) := by
  intro s hs
  refine (allocate_meets s hs.owns).imp (fun p u hu => ⟨hu.1.1, fun addr' ho hn => ?_⟩)
    (fun u hu => ⟨hs.inj, hs.sub, hu⟩)
  have himage : addr' '' Set.Ico r (r + n) = Set.Ico p (p + n) := image_Ico hn
  have howned : addr' '' own = addr '' own := Set.image_congr ho
  refine ⟨(Set.injOn_union hd).mpr ⟨(hs.readdress ho).inj, ?_, fun a ha b hb hab => ?_⟩,
    hs.sub.trans Set.subset_union_left, ?_⟩
  · rintro a ⟨ha, ha'⟩ b ⟨hb, hb'⟩ hab
    have h1 := hn (a - r) (by omega)
    have h2 := hn (b - r) (by omega)
    rw [Nat.add_sub_cancel' ha] at h1
    rw [Nat.add_sub_cancel' hb] at h2
    omega
  · exact Set.disjoint_left.mp hu.1.2 (howned ▸ Set.mem_image_of_mem addr' ha)
      (himage ▸ hab ▸ Set.mem_image_of_mem addr' hb)
  · rw [Set.image_union, himage, howned, Set.image_congr (fun o ho' => ho o (hs.sub ho'))]
    exact hu.2

/-! ## Operations by number -/

theorem construct_via (ho : o ∈ own) (hl : o ∉ live) (hsrc : src.Readable (addr '' live)) :
    Prog.Meets (OwnsVia e.trivialDestructor s₀ S₀ k addr own live) (construct e (addr o) src)
      (fun _ => OwnsVia e.trivialDestructor s₀ S₀ k addr own (insert o live))
      (OwnsVia e.trivialDestructor s₀ S₀ k addr own live) := by
  intro s hs
  have hn : addr o ∉ addr '' live := by
    rintro ⟨b, hb, hab⟩
    exact hl (hs.inj (hs.sub hb) ho hab ▸ hb)
  refine (construct_meets (Set.mem_image_of_mem addr ho) (Or.inr hn) hsrc s hs.owns).imp
    (fun _ u hu => ?_)
    (fun u hu => ?_)
  · refine ⟨hs.inj, Set.insert_subset ho hs.sub, ?_⟩
    rwa [Set.image_insert_eq]
  · rw [Set.sdiff_singleton_eq_self hn] at hu
    exact ⟨hs.inj, hs.sub, hu⟩

theorem assign_via (ho : o ∈ live) (hsrc : src.Readable (addr '' live)) :
    Prog.Meets (OwnsVia t s₀ S₀ k addr own live) (assign e (addr o) src)
      (fun _ => OwnsVia t s₀ S₀ k addr own live) (OwnsVia t s₀ S₀ k addr own live) := by
  intro s hs
  exact (assign_meets (Set.mem_image_of_mem addr ho) hsrc s hs.owns).imp
    (fun _ u hu => ⟨hs.inj, hs.sub, hu⟩)
    (fun u hu => ⟨hs.inj, hs.sub, hu⟩)

theorem destroy_via (ho : o ∈ live) :
    Prog.Meets (OwnsVia t s₀ S₀ k addr own live) (destroy e (addr o))
      (fun _ => OwnsVia t s₀ S₀ k addr own (live \ {o})) (fun _ => False) := by
  intro s hs
  refine (destroy_meets (Set.mem_image_of_mem addr ho) s hs.owns).imp (fun _ u hu => ?_)
    (fun _ => id)
  refine ⟨hs.inj, Set.sdiff_subset.trans hs.sub, ?_⟩
  rwa [(hs.inj.mono hs.sub).image_sdiff_subset (Set.singleton_subset_iff.mpr ho),
    Set.image_singleton]

theorem destroyN_via (hp : ∀ j < n, addr (r + j) = p + j) (hl : Set.Ico r (r + n) ⊆ live) :
    Prog.Meets (OwnsVia t s₀ S₀ k addr own live) (destroyN e p n)
      (fun _ => OwnsVia t s₀ S₀ k addr own (live \ Set.Ico r (r + n))) (fun _ => False) := by
  intro s hs
  have hsub : Set.Ico p (p + n) ⊆ addr '' live := image_Ico hp ▸ Set.image_mono hl
  refine (destroyN_meets hsub s hs.owns).imp (fun _ u hu => ?_) (fun _ => id)
  refine ⟨hs.inj, Set.sdiff_subset.trans hs.sub, ?_⟩
  rwa [(hs.inj.mono hs.sub).image_sdiff_subset hl, image_Ico hp]

/-- **Construction, all or none**, in consecutive slots. -/
theorem uninitializedCopy_via (hp : ∀ j < srcs.length, addr (r + j) = p + j)
    (hin : Set.Ico r (r + srcs.length) ⊆ own)
    (hd : Disjoint live (Set.Ico r (r + srcs.length)))
    (hsrcs : ∀ src ∈ srcs, src.Readable (addr '' live)) :
    Prog.Meets (OwnsVia e.trivialDestructor s₀ S₀ k addr own live) (uninitializedCopy e p srcs)
      (fun _ => OwnsVia e.trivialDestructor s₀ S₀ k addr own
        (live ∪ Set.Ico r (r + srcs.length)))
      (OwnsVia e.trivialDestructor s₀ S₀ k addr own live) := by
  intro s hs
  have hd' : Disjoint (addr '' live) (Set.Ico p (p + srcs.length)) :=
    image_Ico hp ▸ disjoint_image_of_injOn hs.inj hs.sub hin hd
  have hin' : Set.Ico p (p + srcs.length) ⊆ addr '' own := image_Ico hp ▸ Set.image_mono hin
  refine (uninitializedCopy_meets hin' hd' hsrcs s hs.owns).imp (fun _ u hu => ?_)
    (fun u hu => ⟨hs.inj, hs.sub, hu⟩)
  refine ⟨hs.inj, Set.union_subset hs.sub hin, ?_⟩
  rwa [Set.image_union, image_Ico hp]

theorem copy_via (hp : ∀ j < srcs.length, addr (r + j) = p + j)
    (hl : Set.Ico r (r + srcs.length) ⊆ live)
    (hsrcs : ∀ src ∈ srcs, src.Readable (addr '' live)) :
    Prog.Meets (OwnsVia t s₀ S₀ k addr own live) (copy e p srcs)
      (fun _ => OwnsVia t s₀ S₀ k addr own live) (OwnsVia t s₀ S₀ k addr own live) := by
  intro s hs
  exact (copy_meets (image_Ico hp ▸ Set.image_mono hl) hsrcs s hs.owns).imp
    (fun _ u hu => ⟨hs.inj, hs.sub, hu⟩) (fun u hu => ⟨hs.inj, hs.sub, hu⟩)

/-- **Consecutive slots without elements are deallocated.** -/
theorem deallocate_via (hp : ∀ j < n, addr (r + j) = p + j) (hin : Set.Ico r (r + n) ⊆ own)
    (hl : Disjoint live (Set.Ico r (r + n))) :
    Prog.Meets (OwnsVia t s₀ S₀ k addr own live) (deallocate p n : Prog (State κ α) Unit)
      (fun _ => OwnsVia t s₀ S₀ k addr (own \ Set.Ico r (r + n)) live) (fun _ => False) := by
  intro s hs
  have hin' : Set.Ico p (p + n) ⊆ addr '' own := image_Ico hp ▸ Set.image_mono hin
  have hl' : Disjoint (addr '' live) (Set.Ico p (p + n)) :=
    image_Ico hp ▸ disjoint_image_of_injOn hs.inj hs.sub hin hl
  refine (deallocate_meets hin' hl' s hs.owns).imp (fun _ u hu => ?_) (fun _ => id)
  refine ⟨hs.inj.mono Set.sdiff_subset,
    fun o ho => ⟨hs.sub ho, Set.disjoint_left.mp hl ho⟩, ?_⟩
  rwa [hs.inj.image_sdiff_subset hin, image_Ico hp]

theorem object_bind_via {β : Type} {c : κ → Prog (State κ α) β} {Q : β → State κ α → Prop}
    {E : State κ α → Prop} (h : Prog.Meets (OwnsVia t s₀ S₀ k addr own live) (c k) Q E) :
    Prog.Meets (OwnsVia t s₀ S₀ k addr own live) (object >>= c) Q E := by
  intro s hs
  show (c s.object s).Meets Q E
  rw [hs.owns.object_eq]
  exact h s hs

theorem setObject_via {f : κ → κ} :
    Prog.Meets (OwnsVia t s₀ S₀ k addr own live) (setObject f : Prog (State κ α) Unit)
      (fun _ => OwnsVia t s₀ S₀ (f k) addr own live) (fun _ => False) := by
  intro s hs
  exact (setObject_meets s hs.owns).imp (fun _ u hu => ⟨hs.inj, hs.sub, hu⟩) (fun _ => id)

end Slots
