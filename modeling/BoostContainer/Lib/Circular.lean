import Mathlib

/-!
# Rings in memory

A circular doubly linked list has a header, and two links in each node, the header
among them. Nodes are linked in and taken out by writing to the links of their
neighbours, one after the other. What such a list stands for is the list of the
nodes that are reached from the header, in both directions, before the header is
reached again.

One direction is enough for the proofs: a ring that is flipped is a ring of the same
nodes in the other order.
-/

variable {P : Type*}

/-- **The links of all nodes.** -/
structure Links (P : Type*) where
  next : P → P
  prev : P → P

namespace Links

/-- The same links, read in the other direction. -/
def flip (k : Links P) : Links P := ⟨k.prev, k.next⟩

variable [DecidableEq P] (k : Links P) (b p : P)

/-- A node is taken out: its neighbours are linked. -/
def unlink : Links P :=
  let k := { k with next := Function.update k.next (k.prev b) (k.next b) }
  { k with prev := Function.update k.prev (k.next b) (k.prev b) }

/-- A node is linked in before another. -/
def linkBefore : Links P :=
  let k := { k with next := Function.update k.next b p }
  let k := { k with prev := Function.update k.prev b (k.prev p) }
  let k := { k with prev := Function.update k.prev (k.next b) b }
  { k with next := Function.update k.next (k.prev b) b }

/-- A node is linked in after another. -/
def linkAfter : Links P :=
  let k := { k with prev := Function.update k.prev b p }
  let k := { k with next := Function.update k.next b (k.next p) }
  let k := { k with prev := Function.update k.prev (k.next b) b }
  { k with next := Function.update k.next (k.prev b) b }

/-- A header of its own. -/
def reset (h : P) : Links P :=
  ⟨Function.update k.next h h, Function.update k.prev h h⟩

/-- The neighbours of a header are linked to another one. -/
def transfer (x h : P) : Links P :=
  let k := { k with prev := Function.update k.prev h (k.prev x) }
  let k := { k with next := Function.update k.next h (k.next x) }
  let k := { k with prev := Function.update k.prev (k.next h) h }
  { k with next := Function.update k.next (k.prev h) h }

/-- **The links agree** on some nodes. -/
def AgreeOn (S : Set P) (k k' : Links P) : Prop :=
  ∀ x ∈ S, k'.next x = k.next x ∧ k'.prev x = k.prev x

omit [DecidableEq P] in
theorem AgreeOn.trans {k k' k'' : Links P} {S : Set P} (h : AgreeOn S k k')
    (h' : AgreeOn S k' k'') : AgreeOn S k k'' := fun x hx =>
  ⟨(h' x hx).1.trans (h x hx).1, (h' x hx).2.trans (h x hx).2⟩

/-- **Linked in and taken out again**: the links of all other nodes are as they were. -/
theorem linkBefore_unlink_agree {b p : P} (hb : p ≠ b) (hprev : k.prev p ≠ b)
    (hback : k.next (k.prev p) = p) : AgreeOn {x | x ≠ b} k ((k.linkBefore b p).unlink b) := by
  intro x hx
  have hxb : x ≠ b := hx
  have hp : Function.update (Function.update k.prev b (k.prev p)) p b b = k.prev p := by
    rw [Function.update_of_ne hb.symm, Function.update_self]
  have hn : Function.update (Function.update k.next b p) (k.prev p) b b = p := by
    rw [Function.update_of_ne hprev.symm, Function.update_self]
  have hn' : Function.update (Function.update (Function.update k.next b p) (k.prev p) b)
      (k.prev p) p b = p := by
    rw [Function.update_of_ne hprev.symm, hn]
  unfold unlink linkBefore
  dsimp only
  rw [Function.update_self, hp, hn, hn']
  constructor
  · by_cases hxp : x = k.prev p
    · rw [hxp, Function.update_self, hback]
    · rw [Function.update_of_ne hxp, Function.update_of_ne hxp, Function.update_of_ne hxb]
  · by_cases hxp : x = p
    · rw [hxp, Function.update_self]
    · rw [Function.update_of_ne hxp, Function.update_of_ne hxp, Function.update_of_ne hxb]

end Links

/-! ## One direction -/

/-- **A segment**: from `a` the links lead over the members, in order, to `c`. -/
def Segment (next : P → P) : P → List P → P → Prop
  | a, [], c => next a = c
  | a, b :: l, c => next a = b ∧ Segment next b l c

namespace Segment

variable {f g : P → P} {a b c : P} {l l₁ l₂ : List P}

theorem append_iff : Segment f a (l₁ ++ b :: l₂) c ↔ Segment f a l₁ b ∧ Segment f b l₂ c := by
  induction l₁ generalizing a with
  | nil => exact Iff.rfl
  | cons x l₁ ih => exact (and_congr_right fun _ => ih).trans and_assoc.symm

/-- Only the start and the members are read. -/
theorem congr (h : Segment f a l c) (heq : ∀ x ∈ a :: l, g x = f x) : Segment g a l c := by
  induction l generalizing a with
  | nil => exact (heq a List.mem_cons_self).trans h
  | cons b l ih =>
    exact ⟨(heq a List.mem_cons_self).trans h.1,
      ih h.2 fun x hx => heq x (List.mem_cons_of_mem a hx)⟩

/-- **Other ends**: only the links of the start and of the last member differ. -/
theorem between (h : Segment f a (l ++ [b]) c) {a' c' : P} (hstart : g a' = f a)
    (hsame : ∀ x ∈ l, g x = f x) (hend : g b = c') : Segment g a' (l ++ [b]) c' := by
  induction l generalizing a a' with
  | nil => exact ⟨hstart.trans h.1, hend⟩
  | cons x l ih =>
    exact ⟨hstart.trans h.1, ih h.2 (hsame x List.mem_cons_self) fun y hy =>
      hsame y (List.mem_cons_of_mem x hy)⟩

theorem next_eq (h : Segment f a l c) : f a = l.headD c := by
  cases l with
  | nil => exact h
  | cons b l => exact h.1

/-- **Nothing else is between two nodes.** -/
theorem unique {l' : List P} (h : Segment f a l c) (h' : Segment f a l' c) (hc : c ∉ l)
    (hc' : c ∉ l') : l = l' := by
  induction l generalizing a l' with
  | nil =>
    cases l' with
    | nil => rfl
    | cons b l' => exact absurd (h.symm.trans h'.1 ▸ List.mem_cons_self) hc'
  | cons b l ih =>
    cases l' with
    | nil => exact absurd (h'.symm.trans h.1 ▸ List.mem_cons_self) hc
    | cons b' l' =>
      obtain rfl := h.1.symm.trans h'.1
      rw [ih h.2 h'.2 (fun hm => hc (List.mem_cons_of_mem _ hm))
        fun hm => hc' (List.mem_cons_of_mem _ hm)]

theorem next_last (h : Segment f a l c) : f (l.getLastD a) = c := by
  induction l generalizing a with
  | nil => exact h
  | cons b l ih =>
    rw [List.getLastD_cons]
    exact ih h.2

section

variable [DecidableEq P]

/-- **A member is taken out** when what came before it links to what came after it. -/
theorem remove (h : Segment f a (l₁ ++ b :: l₂) c) (hnd : (a :: (l₁ ++ b :: l₂)).Nodup) :
    Segment (Function.update f (l₁.getLastD a) (f b)) a (l₁ ++ l₂) c := by
  induction l₁ generalizing a with
  | nil =>
    have hrest : ∀ x ∈ l₂, x ≠ a := fun x hx hxa =>
      (List.nodup_cons.mp hnd).1 (hxa ▸ List.mem_cons_of_mem b hx)
    have hself : Function.update f a (f b) a = l₂.headD c :=
      (Function.update_self a (f b) f).trans (append_iff.mp h).2.next_eq
    cases l₂ with
    | nil => exact hself
    | cons x l₂ =>
      refine ⟨hself, h.2.2.congr fun y hy => ?_⟩
      exact Function.update_of_ne (hrest y hy) _ _
  | cons x l₁ ih =>
    have hne : a ≠ l₁.getLastD x := fun heq =>
      (List.nodup_cons.mp hnd).1 (heq ▸ List.mem_append_left (b :: l₂) List.getLastD_mem_cons)
    rw [List.getLastD_cons]
    exact ⟨(Function.update_of_ne hne _ _).trans h.1, ih h.2 (List.nodup_cons.mp hnd).2⟩

end

/-- **A member is put in** when what comes before it links to it, and it links to what
comes after. -/
theorem insert (h : Segment f a (l₁ ++ l₂) c) (hnd : (a :: (l₁ ++ l₂)).Nodup)
    (hlast : g (l₁.getLastD a) = b) (hnext : g b = l₂.headD c)
    (heq : ∀ x ∈ a :: (l₁ ++ l₂), x ≠ l₁.getLastD a → g x = f x) :
    Segment g a (l₁ ++ b :: l₂) c := by
  induction l₁ generalizing a with
  | nil =>
    refine ⟨hlast, ?_⟩
    have hrest : ∀ x ∈ l₂, g x = f x := fun x hx =>
      heq x (List.mem_cons_of_mem a hx) fun hxa : x = a => (List.nodup_cons.mp hnd).1 (hxa ▸ hx)
    cases l₂ with
    | nil => exact hnext
    | cons x l₂ => exact ⟨hnext, h.2.congr hrest⟩
  | cons x l₁ ih =>
    have hne : a ≠ l₁.getLastD x := fun heq =>
      (List.nodup_cons.mp hnd).1 (heq ▸ List.mem_append_left l₂ List.getLastD_mem_cons)
    rw [List.getLastD_cons] at hlast heq
    exact ⟨(heq a List.mem_cons_self hne).trans h.1, ih h.2 (List.nodup_cons.mp hnd).2 hlast
      fun y hy => heq y (List.mem_cons_of_mem a hy)⟩

end Segment

/-! ## Both directions -/

theorem headD_reverse {a : P} {l : List P} : l.reverse.headD a = l.getLastD a := by
  rw [List.headD_eq_head?_getD, List.head?_reverse, List.getLastD_eq_getLast?]

theorem getLastD_reverse {a : P} {l : List P} : l.reverse.getLastD a = l.headD a := by
  rw [← headD_reverse, List.reverse_reverse]

theorem reverse_append_cons {b : P} {l₁ l₂ : List P} :
    (l₁ ++ b :: l₂).reverse = l₂.reverse ++ b :: l₁.reverse := by
  rw [List.reverse_append, List.reverse_cons, List.append_assoc, List.singleton_append]

/-- **A ring**: a header and the nodes that are linked with it. -/
structure Circular (k : Links P) (h : P) (l : List P) : Prop where
  nodup : (h :: l).Nodup
  forward : Segment k.next h l h
  backward : Segment k.prev h l.reverse h

namespace Circular

variable {k k' : Links P} {h b p : P} {l l₁ l₂ : List P}

theorem flip (r : Circular k h l) : Circular k.flip h l.reverse :=
  ⟨(List.Perm.cons h (List.reverse_perm l)).nodup_iff.mpr r.nodup, r.backward,
    l.reverse_reverse.symm ▸ r.forward⟩

theorem header_notMem (r : Circular k h l) : h ∉ l := (List.nodup_cons.mp r.nodup).1

theorem nodup_members (r : Circular k h l) : l.Nodup := (List.nodup_cons.mp r.nodup).2

/-- The nodes of a ring are told by its links. -/
theorem unique {l' : List P} (r : Circular k h l) (r' : Circular k h l') : l = l' :=
  r.forward.unique r'.forward r.header_notMem r'.header_notMem

theorem next_header (r : Circular k h l) : k.next h = l.headD h := r.forward.next_eq

theorem prev_header (r : Circular k h l) : k.prev h = l.getLastD h := by
  rw [r.backward.next_eq, headD_reverse]

theorem next_member (r : Circular k h (l₁ ++ b :: l₂)) : k.next b = l₂.headD h :=
  (Segment.append_iff.mp r.forward).2.next_eq

theorem prev_member (r : Circular k h (l₁ ++ b :: l₂)) : k.prev b = l₁.getLastD h := by
  have hback := r.backward
  rw [reverse_append_cons] at hback
  rw [(Segment.append_iff.mp hback).2.next_eq, headD_reverse]

/-- Only the links of the header and of the members are read. -/
theorem congr (r : Circular k h l) (heq : Links.AgreeOn {x | x ∈ h :: l} k k') :
    Circular k' h l where
  nodup := r.nodup
  forward := r.forward.congr fun x hx => (heq x hx).1
  backward := r.backward.congr fun x hx => (heq x (List.mem_cons.mpr
    ((List.mem_cons.mp hx).imp_right List.mem_reverse.mp))).2

/-- A node that is next to a place is not one of those beyond it. -/
theorem headD_mem (h : P) (l : List P) : l.headD h ∈ h :: l := by
  cases l with
  | nil => exact List.mem_cons_self
  | cons b l => exact List.mem_cons_of_mem h List.mem_cons_self

theorem ne_of_notMem (hb : b ∉ h :: (l₁ ++ l₂)) : b ≠ l₁.getLastD h ∧ b ≠ l₂.headD h := by
  constructor
  · intro heq
    rw [← List.cons_append] at hb
    exact hb (heq ▸ List.mem_append_left l₂ List.getLastD_mem_cons)
  · intro heq
    exact hb (((List.sublist_append_right l₁ l₂).cons_cons h).subset (heq ▸ headD_mem h l₂))

/-- Between two neighbours. -/
theorem next_between (r : Circular k h (l₁ ++ l₂)) : k.next (l₁.getLastD h) = l₂.headD h := by
  rcases List.eq_nil_or_concat l₁ with rfl | ⟨l, a, rfl⟩
  · exact r.next_header
  · rw [List.concat_eq_append] at r ⊢
    rw [List.append_assoc] at r
    rw [List.getLastD_concat]
    exact r.next_member

theorem prev_between (r : Circular k h (l₁ ++ l₂)) : k.prev (l₂.headD h) = l₁.getLastD h := by
  cases l₂ with
  | nil =>
    rw [List.append_nil] at r
    exact r.prev_header
  | cons b l => exact r.prev_member

/-- **Back again**: a ring is as long in one direction as in the other. -/
theorem prev_next {x : P} (r : Circular k h l) (hx : x ∈ h :: l) : k.prev (k.next x) = x := by
  rcases List.mem_cons.mp hx with rfl | hmem
  · rw [r.next_header]
    have hnil : Circular k x ([] ++ l) := r
    exact hnil.prev_between
  · obtain ⟨l₁, l₂, rfl⟩ := List.append_of_mem hmem
    have hsplit := r
    rw [← List.singleton_append, ← List.append_assoc] at hsplit
    rw [r.next_member, hsplit.prev_between, List.getLastD_concat]

theorem next_prev {x : P} (r : Circular k h l) (hx : x ∈ h :: l) : k.next (k.prev x) = x :=
  r.flip.prev_next (List.mem_cons.mpr ((List.mem_cons.mp hx).imp_right List.mem_reverse.mpr))

variable [DecidableEq P]

theorem reset (k : Links P) (h : P) : Circular (k.reset h) h [] :=
  ⟨List.nodup_singleton h, show Function.update k.next h h h = h from Function.update_self _ _ _,
    show Function.update k.prev h h h = h from Function.update_self _ _ _⟩

/-! ### Taking out -/

theorem unlink_eq (r : Circular k h (l₁ ++ b :: l₂)) :
    k.unlink b = ⟨Function.update k.next (l₁.getLastD h) (k.next b),
      Function.update k.prev (l₂.headD h) (k.prev b)⟩ := by
  have hne : b ≠ k.prev b := by
    rw [r.prev_member]
    intro heq
    have hnd := r.nodup
    rw [← List.cons_append] at hnd
    exact List.disjoint_of_nodup_append hnd List.getLastD_mem_cons
      (heq ▸ List.mem_cons_self)
  unfold Links.unlink
  dsimp only
  rw [Function.update_of_ne hne, r.prev_member, r.next_member]

/-- **`unlink`** takes its node out of the ring. -/
theorem unlink (r : Circular k h (l₁ ++ b :: l₂)) : Circular (k.unlink b) h (l₁ ++ l₂) := by
  have hback := r.backward
  have hnd := r.flip.nodup
  rw [reverse_append_cons] at hback hnd
  rw [r.unlink_eq]
  refine ⟨r.nodup.sublist (((List.sublist_cons_self b l₂).append_left l₁).cons_cons h),
    r.forward.remove r.nodup, ?_⟩
  have hremoved := hback.remove hnd
  rw [← List.reverse_append, getLastD_reverse] at hremoved
  exact hremoved

theorem unlink_agree (r : Circular k h (l₁ ++ b :: l₂)) {S : Set P}
    (hS : ∀ x ∈ S, x ∉ h :: (l₁ ++ b :: l₂)) : Links.AgreeOn S k (k.unlink b) := by
  intro x hx
  have hlast : x ≠ l₁.getLastD h := fun heq => hS x hx (by
    rw [heq, ← List.cons_append]
    exact List.mem_append_left _ List.getLastD_mem_cons)
  have hhead : x ≠ l₂.headD h := fun heq => hS x hx (by
    rw [heq]
    exact (((List.sublist_cons_self b l₂).trans (List.sublist_append_right l₁ _)).cons_cons
      h).subset (headD_mem h l₂))
  rw [r.unlink_eq]
  exact ⟨Function.update_of_ne hlast _ _, Function.update_of_ne hhead _ _⟩

/-! ### Linking in -/

/-- The links after a node was linked in, in whatever order they were written. -/
theorem linked (r : Circular k h (l₁ ++ l₂)) (hb : b ∉ h :: (l₁ ++ l₂)) :
    Circular ⟨Function.update (Function.update k.next b (l₂.headD h)) (l₁.getLastD h) b,
      Function.update (Function.update k.prev b (l₁.getLastD h)) (l₂.headD h) b⟩
      h (l₁ ++ b :: l₂) := by
  obtain ⟨hlast, hhead⟩ := ne_of_notMem hb
  have hne : ∀ x ∈ h :: (l₁ ++ l₂), x ≠ b := fun x hx heq => hb (heq ▸ hx)
  refine ⟨?_, ?_, ?_⟩
  · rw [(List.perm_middle.cons h).nodup_iff]
    exact ((List.Perm.swap h b (l₁ ++ l₂)).nodup_iff).mp (List.nodup_cons.mpr ⟨hb, r.nodup⟩)
  · refine r.forward.insert r.nodup (Function.update_self _ _ _) ?_ fun x hx hx' => ?_
    · dsimp only
      rw [Function.update_of_ne hlast, Function.update_self]
    · dsimp only
      rw [Function.update_of_ne hx', Function.update_of_ne (hne x hx)]
  · have hback := r.backward
    have hnd := r.flip.nodup
    rw [List.reverse_append] at hback hnd
    rw [reverse_append_cons]
    refine hback.insert hnd ?_ ?_ fun x hx hx' => ?_
    · dsimp only
      rw [getLastD_reverse, Function.update_self]
    · dsimp only
      rw [Function.update_of_ne hhead, Function.update_self, headD_reverse]
    · rw [getLastD_reverse] at hx'
      rw [← List.reverse_append] at hx
      dsimp only
      rw [Function.update_of_ne hx', Function.update_of_ne (hne x (List.mem_cons.mpr
        ((List.mem_cons.mp hx).imp_right List.mem_reverse.mp)))]

theorem linkBefore_eq (r : Circular k h (l₁ ++ l₂)) (hb : b ∉ h :: (l₁ ++ l₂)) :
    k.linkBefore b (l₂.headD h)
      = ⟨Function.update (Function.update k.next b (l₂.headD h)) (l₁.getLastD h) b,
        Function.update (Function.update k.prev b (l₁.getLastD h)) (l₂.headD h) b⟩ := by
  unfold Links.linkBefore
  dsimp only
  rw [Function.update_self, Function.update_of_ne (ne_of_notMem hb).2, Function.update_self,
    r.prev_between]

theorem linkAfter_eq (r : Circular k h (l₁ ++ l₂)) (hb : b ∉ h :: (l₁ ++ l₂)) :
    k.linkAfter b (l₁.getLastD h)
      = ⟨Function.update (Function.update k.next b (l₂.headD h)) (l₁.getLastD h) b,
        Function.update (Function.update k.prev b (l₁.getLastD h)) (l₂.headD h) b⟩ := by
  unfold Links.linkAfter
  dsimp only
  rw [Function.update_self, r.next_between, Function.update_of_ne (ne_of_notMem hb).2,
    Function.update_self]

/-- **`link_before`** puts its node in before another, or before the header at the end. -/
theorem linkBefore (r : Circular k h (l₁ ++ l₂)) (hb : b ∉ h :: (l₁ ++ l₂)) :
    Circular (k.linkBefore b (l₂.headD h)) h (l₁ ++ b :: l₂) :=
  r.linkBefore_eq hb ▸ r.linked hb

/-- **`link_after`** puts its node in after another, or after the header at the start. -/
theorem linkAfter (r : Circular k h (l₁ ++ l₂)) (hb : b ∉ h :: (l₁ ++ l₂)) :
    Circular (k.linkAfter b (l₁.getLastD h)) h (l₁ ++ b :: l₂) :=
  r.linkAfter_eq hb ▸ r.linked hb

theorem linkBefore_back (r : Circular k h l) (hb : b ∉ h :: l) :
    Circular (k.linkBefore b h) h (l ++ [b]) := by
  rw [← List.append_nil l] at r hb
  exact r.linkBefore hb

theorem linkAfter_front (r : Circular k h l) (hb : b ∉ h :: l) :
    Circular (k.linkAfter b h) h (b :: l) := by
  have hnil : Circular k h ([] ++ l) := r
  exact hnil.linkAfter hb

theorem linkBefore_agree (r : Circular k h (l₁ ++ l₂)) {S : Set P}
    (hb : b ∉ h :: (l₁ ++ l₂)) (hS : ∀ x ∈ S, x ≠ b ∧ x ∉ h :: (l₁ ++ l₂)) :
    Links.AgreeOn S k (k.linkBefore b (l₂.headD h)) := by
  intro x hx
  obtain ⟨hxb, hnot⟩ := hS x hx
  obtain ⟨hlast, hhead⟩ := ne_of_notMem hnot
  rw [r.linkBefore_eq hb]
  dsimp only
  rw [Function.update_of_ne hlast, Function.update_of_ne hxb, Function.update_of_ne hhead,
    Function.update_of_ne hxb]
  exact ⟨rfl, rfl⟩

theorem linkAfter_agree (r : Circular k h (l₁ ++ l₂)) {S : Set P}
    (hb : b ∉ h :: (l₁ ++ l₂)) (hS : ∀ x ∈ S, x ≠ b ∧ x ∉ h :: (l₁ ++ l₂)) :
    Links.AgreeOn S k (k.linkAfter b (l₁.getLastD h)) := by
  rw [r.linkAfter_eq hb, ← r.linkBefore_eq hb]
  exact r.linkBefore_agree hb hS

theorem linkBefore_back_agree (r : Circular k h l) {S : Set P} (hb : b ∉ h :: l)
    (hS : ∀ x ∈ S, x ≠ b ∧ x ∉ h :: l) : Links.AgreeOn S k (k.linkBefore b h) := by
  rw [← List.append_nil l] at r hb hS
  exact r.linkBefore_agree hb hS

theorem linkAfter_front_agree (r : Circular k h l) {S : Set P} (hb : b ∉ h :: l)
    (hS : ∀ x ∈ S, x ≠ b ∧ x ∉ h :: l) : Links.AgreeOn S k (k.linkAfter b h) := by
  have hnil : Circular k h ([] ++ l) := r
  exact hnil.linkAfter_agree hb hS

/-! ### Another header -/

theorem transfer_eq (r : Circular k p (b :: l)) (hh : h ∉ p :: b :: l) :
    k.transfer p h = ⟨Function.update (Function.update k.next h b) (l.getLastD b) h,
      Function.update (Function.update k.prev h (l.getLastD b)) b h⟩ := by
  have hne : h ≠ b := fun heq => hh (heq ▸ List.mem_cons_of_mem p List.mem_cons_self)
  have hnext : k.next p = b := r.next_header
  have hprev : k.prev p = l.getLastD b := r.prev_header.trans List.getLastD_cons
  unfold Links.transfer
  dsimp only
  rw [Function.update_self, hnext, hprev, Function.update_of_ne hne, Function.update_self]

/-- **A ring gets another header.** -/
theorem transfer (r : Circular k p (b :: l)) (hh : h ∉ p :: b :: l) :
    Circular (k.transfer p h) h (b :: l) := by
  have hne : ∀ x ∈ b :: l, x ≠ h := fun x hx heq => hh (heq ▸ List.mem_cons_of_mem p hx)
  have hnd := r.nodup_members
  have hlast : b :: l = (b :: l).dropLast ++ [l.getLastD b] := by
    have hconcat := List.dropLast_append_getLast (List.cons_ne_nil b l)
    rw [List.getLast_eq_getLastD] at hconcat
    exact hconcat.symm
  rw [r.transfer_eq hh]
  refine ⟨List.nodup_cons.mpr ⟨fun hm => hh (List.mem_cons_of_mem p hm), hnd⟩, ?_, ?_⟩
  · have hforward := r.forward
    rw [hlast] at hforward hnd ⊢
    refine hforward.between ?_ (fun x hx => ?_) (Function.update_self _ _ _)
    · have hlh : l.getLastD b ≠ h := hne _ (hlast ▸ List.mem_append_right _ List.mem_cons_self)
      dsimp only
      rw [Function.update_of_ne hlh.symm, Function.update_self]
      exact r.next_header.symm
    · have hxl : x ≠ l.getLastD b := fun heq =>
        (List.nodup_append.mp hnd).2.2 x hx x (heq ▸ List.mem_cons_self) rfl
      dsimp only
      rw [Function.update_of_ne hxl, Function.update_of_ne (hne x (hlast ▸
        List.mem_append_left _ hx))]
  · have hbackward := r.backward
    rw [List.reverse_cons] at hbackward ⊢
    refine hbackward.between ?_ (fun x hx => ?_) (Function.update_self _ _ _)
    · have hbh : b ≠ h := hne b List.mem_cons_self
      dsimp only
      rw [Function.update_of_ne hbh.symm, Function.update_self]
      exact (r.prev_header.trans List.getLastD_cons).symm
    · have hxl := List.mem_reverse.mp hx
      have hxb : x ≠ b := fun heq => (List.nodup_cons.mp hnd).1 (heq ▸ hxl)
      dsimp only
      rw [Function.update_of_ne hxb, Function.update_of_ne (hne x (List.mem_cons_of_mem b hxl))]

theorem transfer_agree (r : Circular k p (b :: l)) (hh : h ∉ p :: b :: l) {S : Set P}
    (hS : ∀ x ∈ S, x ≠ h ∧ x ∉ b :: l) : Links.AgreeOn S k (k.transfer p h) := by
  intro x hx
  obtain ⟨hxh, hxl⟩ := hS x hx
  have hxlast : x ≠ l.getLastD b := fun heq => hxl (heq ▸ List.getLastD_mem_cons)
  have hxb : x ≠ b := fun heq => hxl (heq ▸ List.mem_cons_self)
  rw [r.transfer_eq hh]
  dsimp only
  rw [Function.update_of_ne hxlast, Function.update_of_ne hxh, Function.update_of_ne hxb,
    Function.update_of_ne hxh]
  exact ⟨rfl, rfl⟩

theorem reset_agree (k : Links P) {S : Set P} (hS : ∀ x ∈ S, x ≠ h) :
    Links.AgreeOn S k (k.reset h) := fun x hx =>
  ⟨Function.update_of_ne (hS x hx) _ _, Function.update_of_ne (hS x hx) _ _⟩

/-- **A ring is taken over**: by a header from another, which is left alone with itself. -/
structure Taken (k : Links P) (x : P) (l : List P) (h : P) (k' : Links P) : Prop where
  gets : Circular k' h l
  emptied : Circular k' x []
  agree : Links.AgreeOn {y | y ≠ h ∧ y ∉ x :: l} k k'

/-- Whether there is a ring to take over is asked before. -/
theorem taken (r : Circular k p l) (hh : h ∉ p :: l) {some : Bool} (hsome : some = true ↔ l ≠ []) :
    Taken k p l h ((if some = true then (k.reset h).transfer p h else k.reset h).reset p) := by
  have hph : p ≠ h := fun heq => hh (heq ▸ List.mem_cons_self)
  have hreset : Links.AgreeOn {y | y ≠ h} k (k.reset h) := reset_agree k fun _ hy => hy
  have hring : Circular (k.reset h) p l := r.congr fun y hy => hreset y fun heq => hh (heq ▸ hy)
  have hfirst : Links.AgreeOn {y | y ≠ h ∧ y ∉ p :: l} k (k.reset h) := fun y hy => hreset y hy.1
  have hlast : ∀ {k' : Links P}, Links.AgreeOn {y | y ≠ h ∧ y ∉ p :: l} k' (k'.reset p) :=
    fun {k'} => reset_agree k' fun y hy heq => hy.2 (heq ▸ List.mem_cons_self)
  cases l with
  | nil =>
    rw [if_neg fun heq => hsome.mp heq rfl]
    refine ⟨(reset k h).congr ?_, reset _ p, hfirst.trans hlast⟩
    exact reset_agree _ fun y hy heq => hph (heq.symm.trans (List.mem_singleton.mp hy))
  | cons b l =>
    rw [if_pos (hsome.mpr (List.cons_ne_nil b l))]
    refine ⟨(hring.transfer hh).congr ?_, reset _ p, hfirst.trans (Links.AgreeOn.trans ?_ hlast)⟩
    · refine reset_agree _ fun y hy heq => ?_
      rcases List.mem_cons.mp hy with hyh | hyl
      · exact hph (heq.symm.trans hyh)
      · exact r.header_notMem (heq ▸ hyl)
    · exact hring.transfer_agree hh fun y hy =>
        ⟨hy.1, fun hm => hy.2 (List.mem_cons_of_mem p hm)⟩

namespace Taken

variable {k₁ k₂ k₃ : Links P} {g q : P} {m : List P}

omit [DecidableEq P] in
/-- Another ring stays what it is. -/
theorem ring (t : Taken k p l h k₁) (r : Circular k g m) (hnot : h ∉ g :: m)
    (hdisj : ∀ y ∈ g :: m, y ∉ p :: l) : Circular k₁ g m :=
  r.congr fun y hy => t.agree y ⟨fun heq => hnot (heq ▸ hy), hdisj y hy⟩

omit [DecidableEq P] in
/-- What was taken over first stays while the second ring is. -/
theorem kept (r : Circular k h l) (t₁ : Taken k h l q k₁) (t₂ : Taken k₁ g m h k₂)
    (hdisj : ∀ y ∈ g :: m, y ∉ h :: l) (hq : q ∉ h :: l) (hq' : q ∉ g :: m) : Circular k₂ q l := by
  refine t₂.ring t₁.gets (fun hm => ?_) fun y hm hm' => ?_
  · exact (List.mem_cons.mp hm).elim (fun heq => hq (heq ▸ List.mem_cons_self)) r.header_notMem
  · exact (List.mem_cons.mp hm).elim (fun heq => hq' (heq ▸ hm')) fun hl =>
      hdisj y hm' (List.mem_cons_of_mem h hl)

omit [DecidableEq P] in
/-- **Two rings are exchanged** by way of a third header. -/
theorem exchange (r : Circular k h l) (r' : Circular k g m) (t₁ : Taken k h l q k₁)
    (t₂ : Taken k₁ g m h k₂) (t₃ : Taken k₂ q l g k₃) (hdisj : ∀ y ∈ g :: m, y ∉ h :: l)
    (hq : q ∉ h :: l) (hq' : q ∉ g :: m) :
    Circular k₃ h m ∧ Circular k₃ g l
      ∧ Links.AgreeOn {y | y ≠ q ∧ y ∉ h :: l ∧ y ∉ g :: m} k k₃ := by
  have hgl : g ∉ h :: l := hdisj g List.mem_cons_self
  refine ⟨t₃.ring t₂.gets (fun hm => ?_) fun y hy hm => ?_, t₃.gets, fun y hy => ?_⟩
  · exact (List.mem_cons.mp hm).elim (fun heq => hgl (heq ▸ List.mem_cons_self)) r'.header_notMem
  · rcases List.mem_cons.mp hy with rfl | hy
    · exact (List.mem_cons.mp hm).elim (fun heq => hq (heq ▸ List.mem_cons_self)) r.header_notMem
    · have hym := List.mem_cons_of_mem g hy
      exact (List.mem_cons.mp hm).elim (fun heq => hq' (heq ▸ hym)) fun hl =>
        hdisj y hym (List.mem_cons_of_mem h hl)
  · obtain ⟨hyq, hyh, hyg⟩ := hy
    have h₁ := t₁.agree y ⟨hyq, hyh⟩
    have h₂ := t₂.agree y ⟨fun heq => hyh (heq ▸ List.mem_cons_self), hyg⟩
    have h₃ := t₃.agree y ⟨fun heq => hyg (heq ▸ List.mem_cons_self), fun hm =>
      (List.mem_cons.mp hm).elim hyq fun hl => hyh (List.mem_cons_of_mem h hl)⟩
    exact ⟨(h₃.1.trans h₂.1).trans h₁.1, (h₃.2.trans h₂.2).trans h₁.2⟩

end Taken

end Circular
