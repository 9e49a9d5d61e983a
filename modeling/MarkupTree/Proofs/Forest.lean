import Mathlib.Logic.Relation
import Mathlib.Logic.Function.Basic
import Mathlib.Data.List.Nodup

/-!
# Forests of up and down links

A node knows the one node above it and the list of the nodes below it. The two directions agree,
no list has repetitions, and every way up comes to an end. What is shown here is what taking a
node out, putting one in, cutting a node off from those below it, pruning and renaming do to such
links; documents are one instance.
-/

namespace MarkupTree

variable {α : Type}

/-- Going up from `x` meets `a`, possibly at `x` itself. -/
def Reaches (up : α → Option α) : α → α → Prop :=
  Relation.ReflTransGen fun x p => up x = some p

/-- Going up from `x` meets `a` after at least one step. -/
def Passes (up : α → Option α) : α → α → Prop :=
  Relation.TransGen fun x p => up x = some p

/-- Every way up comes to an end. -/
def Grounded (up : α → Option α) : Prop :=
  WellFounded fun p x => up x = some p

namespace Reaches

variable {up up' : α → Option α} {x a b p : α}

theorem refl : Reaches up x x := Relation.ReflTransGen.refl

theorem step (hx : up x = some p) (h : Reaches up p a) : Reaches up x a :=
  Relation.ReflTransGen.head hx h

theorem trans (h : Reaches up x a) (h' : Reaches up a b) : Reaches up x b :=
  Relation.ReflTransGen.trans h h'

theorem cases (h : Reaches up x a) : x = a ∨ ∃ p, up x = some p ∧ Reaches up p a :=
  Relation.ReflTransGen.cases_head h

theorem eq_of_none (hx : up x = none) (h : Reaches up x a) : a = x := by
  rcases h.cases with rfl | ⟨p, hp, -⟩
  · rfl
  · rw [hx] at hp; cases hp

theorem mono (hle : ∀ y q, up y = some q → up' y = some q) (h : Reaches up x a) :
    Reaches up' x a :=
  Relation.ReflTransGen.mono hle _ _ h

/-- A way up in a forest under other names is a way up with its nodes renamed. -/
theorem rename {σ : α → α} (hup : ∀ x, up' (σ x) = (up x).map σ) (h : Reaches up x a) :
    Reaches up' (σ x) (σ a) :=
  Relation.ReflTransGen.lift σ (fun y p (hp : up y = some p) => by
    show up' (σ y) = some (σ p)
    rw [hup, hp, Option.map_some]) _ _ h

/-- A way up that does not meet `c` does not see what is above `c`. -/
theorem congr_of_not (hup : ∀ y, y ≠ b → up' y = up y) (hb : ¬ Reaches up x b) :
    Reaches up' x a ↔ Reaches up x a := by
  constructor
  · intro h
    induction h using Relation.ReflTransGen.head_induction_on with
    | refl => exact refl
    | @head y z hy _ ih =>
      have hyb : y ≠ b := fun e => hb (e ▸ refl)
      rw [hup y hyb] at hy
      exact step hy (ih fun hz => hb (step hy hz))
  · intro h
    induction h using Relation.ReflTransGen.head_induction_on with
    | refl => exact refl
    | @head y z hy _ ih =>
      have hyb : y ≠ b := fun e => hb (e ▸ refl)
      exact step ((hup y hyb).trans hy) (ih fun hz => hb (step hy hz))

end Reaches

theorem passes_iff {up : α → Option α} {x a : α} :
    Passes up x a ↔ ∃ p, up x = some p ∧ Reaches up p a :=
  Relation.TransGen.head'_iff

theorem reaches_iff {up : α → Option α} {x a : α} : Reaches up x a ↔ x = a ∨ Passes up x a := by
  rw [passes_iff]; exact Relation.ReflTransGen.cases_head_iff

theorem Passes.reaches {up : α → Option α} {x a : α} (h : Passes up x a) : Reaches up x a :=
  Relation.TransGen.to_reflTransGen h

/-- Two nodes met on one way up stand one above the other. -/
theorem Reaches.total {up : α → Option α} {x a b : α} (ha : Reaches up x a)
    (hb : Reaches up x b) : Reaches up a b ∨ Reaches up b a :=
  Relation.ReflTransGen.total_of_right_unique
    (fun _ _ _ h h' => Option.some.inj (h.symm.trans h')) ha hb

namespace Grounded

variable {up up' : α → Option α} {x a p c : α}

theorem mono (h : Grounded up) (hle : ∀ y q, up' y = some q → up y = some q) : Grounded up' :=
  Subrelation.wf (fun {_ _} hq => hle _ _ hq) h

theorem not_passes_self (h : Grounded up) (x : α) : ¬ Passes up x x := by
  induction x using h.induction with
  | _ x ih =>
    intro hx
    obtain ⟨p, hp, hpx⟩ := passes_iff.1 hx
    exact ih p hp (Relation.TransGen.tail' hpx hp)

theorem not_reaches_of_passes (h : Grounded up) (hx : Passes up x a) : ¬ Reaches up a x :=
  fun ha => h.not_passes_self x (Relation.TransGen.trans_left hx ha)

theorem ne_of_up (h : Grounded up) (hx : up x = some p) : p ≠ x :=
  fun e => h.not_passes_self x (Relation.TransGen.single (e ▸ hx))

/-- A node can be put below any node that is not below it. -/
theorem update [DecidableEq α] (h : Grounded up) (hc : ¬ Reaches up p c) :
    Grounded (Function.update up c (some p)) := by
  have away : ∀ x, ¬ Reaches up x c →
      Acc (fun q x => Function.update up c (some p) x = some q) x := by
    intro x
    induction x using h.induction with
    | _ x ih =>
      intro hx
      have hxc : x ≠ c := fun e => hx (e ▸ .refl)
      refine ⟨_, fun q hq => ?_⟩
      rw [Function.update_of_ne hxc] at hq
      exact ih q hq fun hqc => hx (.step hq hqc)
  have at_c : Acc (fun q x => Function.update up c (some p) x = some q) c := by
    refine ⟨_, fun q hq => ?_⟩
    rw [Function.update_self, Option.some.injEq] at hq
    exact hq ▸ away p hc
  refine ⟨fun x => ?_⟩
  induction x using h.induction with
  | _ x ih =>
    by_cases hxc : x = c
    · exact hxc ▸ at_c
    · refine ⟨_, fun q hq => ?_⟩
      rw [Function.update_of_ne hxc] at hq
      exact ih q hq

theorem rename (h : Grounded up) {σ : α → α} (hσ : ∀ x, σ (σ x) = x) :
    Grounded fun x => (up (σ x)).map σ := by
  refine Subrelation.wf (fun {p x} hp => ?_) (InvImage.wf σ h)
  obtain ⟨q, hq, rfl⟩ := Option.map_eq_some_iff.1 hp
  show up (σ x) = some (σ (σ q))
  rw [hσ, hq]

end Grounded

/-- Up and down links agree, no node stands twice below another, and every way up ends. -/
structure Forest (up : α → Option α) (down : α → List α) : Prop where
  mem_down : ∀ {p x}, x ∈ down p ↔ up x = some p
  nodup : ∀ p, (down p).Nodup
  grounded : Grounded up

namespace Forest

variable [DecidableEq α] {up : α → Option α} {down : α → List α}

/-- A node that is taken out leaves the one list that it is in. -/
theorem unlink (h : Forest up down) (x : α) :
    Forest (Function.update up x none) fun y => (down y).erase x := by
  refine ⟨fun {p y} => ?_, fun p => (h.nodup p).erase x, h.grounded.mono fun y q hy => ?_⟩
  · rw [(h.nodup p).mem_erase_iff, h.mem_down]
    by_cases hyx : y = x
    · subst hyx; simp
    · simp [hyx]
  · by_cases hyx : y = x
    · subst hyx; simp at hy
    · rwa [Function.update_of_ne hyx] at hy

/-- A node without a node above it is put in at a place among those below `p`. -/
theorem link (h : Forest up down) {p c : α} (hc : up c = none) (hpc : ¬ Reaches up p c) (n : Nat) :
    Forest (Function.update up c (some p))
      (Function.update down p ((down p).take n ++ c :: (down p).drop n)) := by
  have hmem : ∀ {q}, c ∉ down q := fun hq => by rw [h.mem_down, hc] at hq; cases hq
  refine ⟨fun {q y} => ?_, fun q => ?_, h.grounded.update hpc⟩
  · by_cases hqp : q = p
    · subst hqp
      have hsplit : y ∈ (down q).take n ++ c :: (down q).drop n ↔ y = c ∨ y ∈ down q := by
        rw [List.mem_append, List.mem_cons, or_left_comm, ← List.mem_append,
          List.take_append_drop]
      rw [Function.update_self, hsplit, h.mem_down]
      by_cases hyc : y = c
      · subst hyc; simp
      · simp [hyc]
    · rw [Function.update_of_ne hqp, h.mem_down]
      by_cases hyc : y = c
      · subst hyc; simp [hc, Ne.symm hqp]
      · rw [Function.update_of_ne hyc]
  · by_cases hqp : q = p
    · subst hqp
      rw [Function.update_self, List.nodup_middle, List.take_append_drop, List.nodup_cons]
      exact ⟨hmem, h.nodup q⟩
    · rw [Function.update_of_ne hqp]; exact h.nodup q

/-- All nodes below `x` lose it. -/
theorem orphan (h : Forest up down) (x : α) :
    Forest (fun y => if up y = some x then none else up y) (Function.update down x []) := by
  refine ⟨fun {p y} => ?_, fun p => ?_, h.grounded.mono fun y q hy => ?_⟩
  · by_cases hpx : p = x
    · subst hpx
      simp
    · rw [Function.update_of_ne hpx, h.mem_down]
      by_cases hy : up y = some x
      · simp [hy, Ne.symm hpx]
      · simp [hy]
  · by_cases hpx : p = x
    · subst hpx; simp
    · rw [Function.update_of_ne hpx]; exact h.nodup p
  · split at hy
    · cases hy
    · exact hy

/-- Nodes are taken away together with all that is below them. -/
theorem prune (h : Forest up down) {gone : α → Prop} [DecidablePred gone]
    (hgone : ∀ x p, up x = some p → (gone x ↔ gone p)) :
    Forest (fun x => if gone x then none else up x) fun x => if gone x then [] else down x := by
  refine ⟨fun {p x} => ?_, fun p => ?_, h.grounded.mono fun y q hy => ?_⟩
  · by_cases hx : up x = some p
    · have := hgone x p hx
      by_cases hp : gone p <;> simp [this, hp, h.mem_down, hx]
    · have hd : x ∉ down p := fun hd => hx (h.mem_down.1 hd)
      by_cases hp : gone p <;> by_cases hg : gone x <;> simp [hp, hg, hx, hd]
  · split
    · exact .nil
    · exact h.nodup p
  · split at hy
    · cases hy
    · exact hy

omit [DecidableEq α] in
/-- The nodes of a forest under other names. -/
theorem rename (h : Forest up down) {σ : α → α} (hσ : ∀ x, σ (σ x) = x) :
    Forest (fun x => (up (σ x)).map σ) fun x => (down (σ x)).map σ := by
  have hinj : Function.Injective σ := Function.LeftInverse.injective hσ
  refine ⟨fun {p x} => ?_, fun p => (h.nodup _).map hinj, h.grounded.rename hσ⟩
  constructor
  · intro hx
    obtain ⟨y, hy, rfl⟩ := List.mem_map.1 hx
    rw [hσ, h.mem_down.1 hy, Option.map_some, hσ]
  · intro hx
    obtain ⟨q, hq, rfl⟩ := Option.map_eq_some_iff.1 hx
    exact List.mem_map.2 ⟨σ x, by rw [hσ]; exact h.mem_down.2 hq, hσ x⟩

end Forest

end MarkupTree
