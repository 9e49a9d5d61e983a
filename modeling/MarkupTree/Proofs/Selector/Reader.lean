import MarkupTree.Selector.Reader

/-!
# What readers read

Readers of the text that is left: which values each of them returns and which text it leaves. A loop
returns the values of its steps, if every step takes something off the text.
-/

namespace MarkupTree.Reader

/-- Readers of the text that is left. -/
abbrev OfText (α : Type) := Reader (List Char) Fault α

variable {α β : Type} {x : OfText α} {f : α → OfText β} {s t u cs : List Char} {a : α} {b : β}
  {c : Char}

/-- The reader returns `a` for the beginning of the text `s` and leaves `t`. -/
def Reads (x : OfText α) (s : List Char) (a : α) (t : List Char) : Prop := x.run s = .ok (a, t)

theorem Reads.unique (h : Reads x s a t) {a' : α} {t' : List Char} (h' : Reads x s a' t') :
    a = a' ∧ t = t' := Prod.mk.inj (Except.ok.inj (h.symm.trans h'))

/-! ### Single readers -/

@[simp] theorem reads_pure {a' : α} : Reads (pure a) s a' t ↔ a' = a ∧ t = s := by
  show Except.ok (a, s) = .ok (a', t) ↔ _
  rw [Except.ok.injEq, Prod.mk.injEq, eq_comm (a := a), eq_comm (a := s)]

theorem reads_bind : Reads (x >>= f) s b u ↔ ∃ a t, Reads x s a t ∧ Reads (f a) t b u := by
  unfold Reads
  rw [StateT.run_bind]
  cases x.run s with
  | error e => exact ⟨nofun, fun ⟨_, _, h, _⟩ => nomatch h⟩
  | ok p =>
    refine ⟨fun h => ⟨p.1, p.2, rfl, h⟩, ?_⟩
    rintro ⟨a, t, h, h'⟩
    cases h
    exact h'

theorem reads_bind_of {R : List Char → α → List Char → Prop}
    (h : ∀ {s a t}, Reads x s a t ↔ R s a t) :
    Reads (x >>= f) s b u ↔ ∃ a t, R s a t ∧ Reads (f a) t b u := by
  rw [reads_bind]
  simp only [h]

theorem reads_bind_pure {g : α → β} :
    Reads (x >>= fun a => pure (g a)) s b u ↔ ∃ a, Reads x s a u ∧ b = g a := by
  rw [reads_bind]
  simp only [reads_pure]
  constructor
  · rintro ⟨a, t, h, hb, rfl⟩
    exact ⟨a, h, hb⟩
  · rintro ⟨a, h, hb⟩
    exact ⟨a, u, h, hb, rfl⟩

@[simp] theorem reads_map {g : α → β} :
    Reads (g <$> x) s b u ↔ ∃ a, Reads x s a u ∧ b = g a := by
  rw [map_eq_pure_bind, reads_bind_pure]

theorem reads_get_bind {f : List Char → OfText β} :
    Reads (get >>= f) s b u ↔ Reads (f s) s b u := Iff.rfl

theorem reads_ahead_bind {f : List Char → OfText β} :
    Reads (ahead >>= f) s b u ↔ Reads (f s) s b u := Iff.rfl

theorem reads_atEnd_bind {f : Bool → OfText β} :
    Reads (atEnd >>= f) s b u ↔ Reads (f s.isEmpty) s b u := Iff.rfl

theorem reads_peek_bind {f : Option Char → OfText β} :
    Reads (peek >>= f) s b u ↔ Reads (f s.head?) s b u := Iff.rfl

@[simp] theorem not_reads_failAt {start : List Char} {e : Complaint} :
    ¬ Reads (failAt start e : OfText α) s a t := nofun

@[simp] theorem not_reads_fail {e : Complaint} : ¬ Reads (fail e : OfText α) s a t := nofun

@[simp] theorem not_reads_fail_bind {e : Complaint} : ¬ Reads (fail e >>= f) s b u := nofun

@[simp] theorem not_reads_throw {e : Fault} : ¬ Reads (throw e : OfText α) s a t := nofun

theorem reads_advance_bind (cs : List Char) {f : Unit → OfText β} :
    Reads (advance (Text.utf8Length cs) >>= f) (cs ++ s) b u ↔ Reads (f ()) s b u := by
  have hadvance : Reads (advance (Text.utf8Length cs)) (cs ++ s) () s := by
    show Except.ok ((), (Text.dropBytes? _ _).getD []) = _
    rw [Text.dropBytes?_append]
    rfl
  rw [reads_bind]
  refine ⟨?_, fun h => ⟨(), s, hadvance, h⟩⟩
  rintro ⟨_, t, h, h'⟩
  obtain ⟨-, rfl⟩ := hadvance.unique h
  exact h'

theorem sliceTo_append {σ ε : Type} [Place σ ε] (cs ds : List Char) :
    (sliceTo (cs ++ ds) (Text.utf8Length cs) : Reader σ ε (List Char)) = pure cs := by
  rw [sliceTo, Text.takeBytes?_append]

theorem sliceFrom_append {σ ε : Type} [Place σ ε] (cs ds : List Char) :
    (sliceFrom (cs ++ ds) (Text.utf8Length cs) : Reader σ ε (List Char)) = pure ds := by
  rw [sliceFrom, Text.dropBytes?_append]

/-- Passing over one character. -/
theorem reads_advance_one_bind {f : Unit → OfText β} :
    Reads (advance c.utf8Size >>= f) (c :: s) b u ↔ Reads (f ()) s b u := by
  have hlength : c.utf8Size = Text.utf8Length [c] := by simp
  rw [hlength]
  exact reads_advance_bind [c]

theorem reads_bump_cons_bind {f : Option Char → OfText β} :
    Reads (bump >>= f) (c :: s) b u ↔ Reads (f (some c)) s b u := by
  rw [bump, bind_assoc, reads_peek_bind, List.head?_cons]
  simp only [bind_assoc, pure_bind]
  exact reads_advance_one_bind

theorem reads_bump_nil_bind {f : Option Char → OfText β} :
    Reads (bump >>= f) [] b u ↔ Reads (f none) [] b u := Iff.rfl

theorem reads_bump_cons {c? : Option Char} : Reads bump (c :: s) c? t ↔ c? = some c ∧ t = s := by
  rw [← bind_pure bump, reads_bump_cons_bind, reads_pure]

theorem reads_eat_bind {f : Bool → OfText β} : Reads (eat c >>= f) s b u ↔
    (∃ t, s = c :: t ∧ Reads (f true) t b u) ∨ (s.head? ≠ some c ∧ Reads (f false) s b u) := by
  rw [eat, bind_assoc, reads_peek_bind]
  by_cases h : s.head? = some c
  · obtain ⟨t, rfl⟩ := List.head?_eq_some_iff.1 h
    simp only [if_pos h, bind_assoc, pure_bind, reads_advance_one_bind]
    simp
  · have hne : ∀ t, s ≠ c :: t := fun t hs => h (by rw [hs]; rfl)
    simp [h, hne]

theorem reads_expect_bind {f : Unit → OfText β} :
    Reads (expect c >>= f) s b u ↔ ∃ t, s = c :: t ∧ Reads (f ()) t b u := by
  rw [expect, bind_assoc, reads_eat_bind]
  simp

theorem reads_expect {a : Unit} : Reads (expect c) s a t ↔ s = c :: t := by
  rw [← bind_pure (expect c), reads_expect_bind]
  simp

/-! ### Loops -/

/-- The values of steps one after the other, up to one that declines. -/
inductive Steps (step : OfText (Option α)) : List Char → List α → List Char → Prop
  | stop {s t : List Char} (h : Reads step s none t) : Steps step s [] t
  | more {s t u : List Char} {a : α} {as : List α} (h : Reads step s (some a) t)
      (h' : Steps step t as u) : Steps step s (a :: as) u

/-- A step that returns a value takes something off the text. -/
def Shortens (step : OfText (Option α)) : Prop :=
  ∀ s a t, Reads step s (some a) t → t.length < s.length

variable {step : OfText (Option α)} {as : List α}

theorem steps_of_reads_collect {budget : List Char} (h : Reads (collect step budget) s as t) :
    Steps step s as t := by
  induction budget generalizing s as with
  | nil =>
    rw [collect, reads_bind] at h
    obtain ⟨a?, u, hstep, h⟩ := h
    cases a? with
    | some a => exact absurd h not_reads_throw
    | none =>
      obtain ⟨rfl, rfl⟩ := reads_pure.1 h
      exact .stop hstep
  | cons _ budget ih =>
    rw [collect, reads_bind] at h
    obtain ⟨a?, u, hstep, h⟩ := h
    cases a? with
    | some a =>
      rw [reads_bind] at h
      obtain ⟨rest, v, hrest, h⟩ := h
      obtain ⟨rfl, rfl⟩ := reads_pure.1 h
      exact .more hstep (ih hrest)
    | none =>
      obtain ⟨rfl, rfl⟩ := reads_pure.1 h
      exact .stop hstep

theorem Steps.reads_collect (hshort : Shortens step) (h : Steps step s as t) :
    ∀ budget : List Char, s.length ≤ budget.length → Reads (collect step budget) s as t := by
  induction h with
  | stop h =>
    intro budget _
    cases budget with
    | nil => exact reads_bind.2 ⟨none, _, h, reads_pure.2 ⟨rfl, rfl⟩⟩
    | cons => exact reads_bind.2 ⟨none, _, h, reads_pure.2 ⟨rfl, rfl⟩⟩
  | @more s t u a as h _ ih =>
    intro budget hbudget
    have hlt := hshort s a t h
    cases budget with
    | nil => exact absurd (Nat.lt_of_lt_of_le hlt hbudget) (Nat.not_lt_zero _)
    | cons _ budget =>
      have hrest := ih budget (Nat.le_of_lt_succ (Nat.lt_of_lt_of_le hlt hbudget))
      exact reads_bind.2 ⟨some a, t, h, reads_bind.2 ⟨as, u, hrest, reads_pure.2 ⟨rfl, rfl⟩⟩⟩

theorem steps_of_reads_many (h : Reads (many step) s as t) : Steps step s as t :=
  steps_of_reads_collect h

theorem Steps.reads_many (hshort : Shortens step) (h : Steps step s as t) :
    Reads (many step) s as t := h.reads_collect hshort s (Nat.le_refl _)

theorem reads_many_iff (hshort : Shortens step) : Reads (many step) s as t ↔ Steps step s as t :=
  ⟨steps_of_reads_many, fun h => h.reads_many hshort⟩

end MarkupTree.Reader
