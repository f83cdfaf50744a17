import Mathlib

/-!
# Chains in memory

A singly linked chain is a first pointer and, in the memory of each member, the
pointer to the next one; the null pointer, 0, ends it. Memory is read here as a
partial function that has a value where a pointer is stored.
-/

variable {P : Type*} [Zero P] {next next' : P → Option P} {a b p : P} {ps : List P}

/-- **A chain**: from `a` the links lead over the members, in order, to null. -/
def Linked (next : P → Option P) : P → List P → Prop
  | a, [] => a = 0
  | a, p :: ps => a = p ∧ ∃ b, next p = some b ∧ Linked next b ps

namespace Linked

theorem cons (hp : next p = some a) (h : Linked next a ps) : Linked next p (p :: ps) :=
  ⟨rfl, a, hp, h⟩

/-- Only the members are read. -/
theorem congr (h : Linked next a ps) (heq : ∀ q ∈ ps, next' q = next q) : Linked next' a ps := by
  induction ps generalizing a with
  | nil => exact h
  | cons p ps ih =>
    obtain ⟨rfl, b, hb, hps⟩ := h
    exact cons ((heq a List.mem_cons_self).trans hb)
      (ih hps (fun q hq => heq q (List.mem_cons_of_mem a hq)))

/-- Where the chain starts. -/
theorem first_eq (h : Linked next a ps) : a = ps.headD 0 := by
  cases ps with
  | nil => exact h
  | cons p ps => exact h.1

/-- What the last member links to. -/
theorem next_last (h : Linked next a (ps ++ [p])) : next p = some 0 := by
  induction ps generalizing a with
  | nil =>
    obtain ⟨_, b, hb, rfl⟩ := h
    exact hb
  | cons q ps ih =>
    obtain ⟨_, b, _, hps⟩ := h
    exact ih hps

end Linked

/-! ## Paths -/

section Paths

variable {N : Type*} {next next' : N → Option N} {a b c d p : N} {ps qs : List N}

/-- **A path** from `a` over the members, in order, to `b`. -/
def LinkPath (next : N → Option N) : N → List N → N → Prop
  | a, [], b => a = b
  | a, p :: ps, b => a = p ∧ ∃ c, next p = some c ∧ LinkPath next c ps b

namespace LinkPath

theorem cons (hp : next p = some a) (h : LinkPath next a ps b) :
    LinkPath next p (p :: ps) b :=
  ⟨rfl, a, hp, h⟩

theorem single (hp : next p = some b) : LinkPath next p [p] b := cons hp rfl

/-- **Paths are put one after the other.** -/
theorem append_iff : LinkPath next a (ps ++ qs) c
    ↔ ∃ b, LinkPath next a ps b ∧ LinkPath next b qs c := by
  induction ps generalizing a with
  | nil =>
    refine ⟨fun h => ⟨a, rfl, h⟩, ?_⟩
    rintro ⟨b, hab, h⟩
    obtain rfl : a = b := hab
    exact h
  | cons p ps ih =>
    refine ⟨?_, ?_⟩
    · rintro ⟨rfl, d, hd, h⟩
      obtain ⟨b, hb, hc⟩ := ih.mp h
      exact ⟨b, cons hd hb, hc⟩
    · rintro ⟨b, ⟨rfl, d, hd, hb⟩, hc⟩
      exact ⟨rfl, d, hd, ih.mpr ⟨b, hb, hc⟩⟩

theorem append (h : LinkPath next a ps b) (h' : LinkPath next b qs c) :
    LinkPath next a (ps ++ qs) c :=
  append_iff.mpr ⟨b, h, h'⟩

/-- Only the members are read. -/
theorem congr (h : LinkPath next a ps b) (heq : ∀ q ∈ ps, next' q = next q) :
    LinkPath next' a ps b := by
  induction ps generalizing a with
  | nil => exact h
  | cons p ps ih =>
    obtain ⟨rfl, c, hc, hps⟩ := h
    exact cons ((heq a List.mem_cons_self).trans hc)
      (ih hps (fun q hq => heq q (List.mem_cons_of_mem a hq)))

/-- **A link elsewhere is written**, and the path stays. -/
theorem update [DecidableEq N] (h : LinkPath next a ps b) (hp : p ∉ ps) (x : Option N) :
    LinkPath (Function.update next p x) a ps b :=
  h.congr fun _ hq => Function.update_of_ne (ne_of_mem_of_not_mem hq hp) _ _

/-- Where a path that has members begins. -/
theorem eq_head (h : LinkPath next a (p :: ps) b) : a = p := h.1

/-- What the last member leads to. -/
theorem next_last (h : LinkPath next a (ps ++ [p]) b) :
    LinkPath next a ps p ∧ next p = some b := by
  obtain ⟨c, hc, rfl, d, hd, rfl⟩ := append_iff.mp h
  exact ⟨hc, hd⟩

/-- **The link of a member is written**, and the path goes on from there. -/
theorem redirect [DecidableEq N] (h : LinkPath next a (ps ++ [p]) b) (h' : LinkPath next d qs c)
    (hps : p ∉ ps) (hqs : p ∉ qs) :
    LinkPath (Function.update next p (some d)) a (ps ++ p :: qs) c :=
  (h.next_last.1.update hps _).append (cons (Function.update_self p _ next) (h'.update hqs _))

variable [Zero N]

/-- **From one place there is one path to null.** -/
theorem eq_of_null (h : LinkPath next a ps 0) (h' : LinkPath next a qs 0)
    (hps : (0 : N) ∉ ps) (hqs : (0 : N) ∉ qs) : ps = qs := by
  induction ps generalizing a qs with
  | nil =>
    obtain rfl : a = 0 := h
    cases qs with
    | nil => rfl
    | cons q qs => exact absurd (h'.eq_head ▸ List.mem_cons_self) hqs
  | cons p ps ih =>
    obtain ⟨rfl, c, hc, h⟩ := h
    cases qs with
    | nil =>
      obtain rfl : a = 0 := h'
      exact absurd List.mem_cons_self hps
    | cons q qs =>
      obtain ⟨rfl, d, hd, h'⟩ := h'
      obtain rfl : c = d := Option.some.inj (hc.symm.trans hd)
      rw [ih h h' (fun hm => hps (List.mem_cons_of_mem _ hm))
        (fun hm => hqs (List.mem_cons_of_mem _ hm))]

/-- **A path to null passes no member twice.** -/
theorem nodup (h : LinkPath next a ps 0) (hps : (0 : N) ∉ ps) : ps.Nodup := by
  induction ps generalizing a with
  | nil => exact List.nodup_nil
  | cons p ps ih =>
    have hps' : (0 : N) ∉ ps := fun hm => hps (List.mem_cons_of_mem _ hm)
    obtain ⟨rfl, c, hc, htail⟩ := h
    refine List.nodup_cons.mpr ⟨fun hm => ?_, ih htail hps'⟩
    obtain ⟨us, vs, rfl⟩ := List.append_of_mem hm
    obtain ⟨b, _, hb⟩ := append_iff.mp htail
    obtain rfl := hb.eq_head
    have hlen := congrArg List.length (eq_of_null (cons hc htail) hb hps
      (fun hm => hps' (List.mem_append_right us hm)))
    simp only [List.length_cons, List.length_append] at hlen
    omega

end LinkPath

/-- A chain is a path to null. -/
theorem linked_iff_linkPath [Zero N] : Linked next a ps ↔ LinkPath next a ps 0 := by
  induction ps generalizing a with
  | nil => exact Iff.rfl
  | cons p ps ih => exact and_congr_right fun _ => exists_congr fun c => and_congr_right fun _ => ih

end Paths
