import MarkupTree.Proofs.RoundTrip
import MarkupTree.Signal.Repair

/-!
# Repaired signals nest

Repaired signals are those of trees, and signals that nest are their own repair. So cleaned signals
are left as they are just if they nest.
-/

namespace MarkupTree

namespace Signal

variable {signals : List Signal} {drop : Bool}

/-- Cleaning leaves the signal as it is. -/
def Clean (drop : Bool) (signal : Signal) : Prop := signal.clean? drop = some signal

theorem clean_of_clean? {signal signal' : Signal} (h : signal.clean? drop = some signal') :
    signal'.Clean drop := by
  cases signal with
  | startTag name as =>
    obtain rfl := Option.some.inj h
    rw [Clean, clean?, Text.lower_lower,
      Attribute.keepFirst_of_nodup (Attribute.nodup_keepFirst as)]
  | endTag name =>
    obtain rfl := Option.some.inj h
    rw [Clean, clean?, Text.lower_lower]
  | text s =>
    have hs : Signal.text s = signal' := by
      rw [clean?, Option.ite_none_left_eq_some] at h
      exact Option.some.inj h.2
    rw [Clean, ← hs, h, hs]
  | comment | doctype | processingInstruction => cases h

theorem clean_of_mem_clean {signal : Signal} (h : signal ∈ clean drop signals) :
    signal.Clean drop := by
  obtain ⟨_, -, hs⟩ := List.mem_filterMap.1 h
  exact clean_of_clean? hs

/-- What is clean when blank texts are dropped is so when they are kept. -/
theorem Clean.keepBlankText {signal : Signal} (h : signal.Clean drop) : signal.Clean false := by
  cases signal with
  | text s =>
    rw [Clean, clean?, Option.ite_none_left_eq_some, Bool.or_eq_true, not_or] at h
    have hs : ¬ (s.isEmpty || (false && Text.isBlank s)) = true := by
      rw [Bool.false_and, Bool.or_false]
      exact h.1.1
    exact if_neg hs
  | startTag | endTag | comment | doctype | processingInstruction => exact h

theorem Clean.ne_text_empty {signal : Signal} (h : signal.Clean drop) : signal ≠ .text "" := by
  rintro rfl
  cases h

theorem length_le_mostOpen (opened : List String) (signals : List Signal) :
    opened.length ≤ mostOpen opened signals := by
  cases signals with
  | nil => exact Nat.le_refl _
  | cons => exact Nat.le_max_left _ _

/-! ### The shape of repaired signals -/

/-- Trees, and then for every open element its end tag and more trees. -/
inductive Unwinds : List String → List Signal → Prop
  | last {ts : List Tree} (h : Tree.InnerList ts) : Unwinds [] (Tree.signalsOfList ts)
  | close (name : String) {ts : List Tree} {opened : List String} {rest : List Signal}
      (h : Tree.InnerList ts) (h' : Unwinds opened rest) :
      Unwinds (name :: opened) (Tree.signalsOfList ts ++ .endTag name :: rest)

variable {opened : List String} {rest : List Signal}

namespace Unwinds

/-- A tree that comes first is put to the trees that come before the first end tag. -/
theorem cons {t : Tree} (ht : t.Inner) (h : Unwinds opened rest) :
    Unwinds opened (t.signals ++ rest) := by
  cases h with
  | @last ts hts =>
    have hall : Tree.InnerList (t :: ts) := ⟨ht, hts⟩
    exact last hall
  | @close name ts _ _ hts h' =>
    have hall : Tree.InnerList (t :: ts) := ⟨ht, hts⟩
    have hclose := close name hall h'
    rwa [Tree.signalsOfList, List.append_assoc] at hclose

/-- What follows a start tag up to its end tag becomes a tree. -/
theorem startTag {name : String} {as : List Attribute}
    (hs : (Content.element name as).Spelled) (h : Unwinds (name :: opened) rest) :
    Unwinds opened (.startTag name as :: rest) := by
  cases h with
  | @close _ ts _ _ hts h' =>
    have hcons := h'.cons (t := .element name as ts) ⟨hs, hts⟩
    rwa [Tree.signals, List.cons_append, List.append_assoc] at hcons

theorem endTags (h : Unwinds opened rest) : ∀ names : List String,
    Unwinds (names ++ opened) (names.map .endTag ++ rest)
  | [] => h
  | name :: names => by
    have hnil : Tree.InnerList [] := trivial
    exact close name hnil (h.endTags names)

end Unwinds

theorem idxOf?_split {name : String} {inner : Nat} (h : opened.idxOf? name = some inner) :
    opened = opened.take inner ++ name :: opened.drop (inner + 1) := by
  obtain ⟨hlt, hname, -⟩ := List.idxOf?_eq_some_iff.1 h
  rw [← hname]
  simp

theorem unwinds_repairFrom : ∀ {signals : List Signal} {opened : List String},
    (∀ signal ∈ signals, signal.Clean drop) → Unwinds opened (repairFrom opened signals)
  | [], opened, _ => by
    have hnil : Tree.InnerList [] := trivial
    have hend := (Unwinds.last hnil).endTags opened
    rwa [List.append_nil, Tree.signalsOfList, List.append_nil] at hend
  | signal :: rest, opened, h => by
    have hsignal := h signal List.mem_cons_self
    have ih : ∀ opened, Unwinds opened (repairFrom opened rest) := fun _ =>
      unwinds_repairFrom fun s hs => h s (List.mem_cons_of_mem signal hs)
    rw [repairFrom]
    cases signal with
    | startTag name as =>
      obtain ⟨hname, has⟩ := Signal.startTag.inj (Option.some.inj hsignal)
      exact (ih _).startTag ⟨hname, has ▸ Attribute.nodup_keepFirst as⟩
    | endTag name =>
      cases hidx : opened.idxOf? name with
      | none =>
        rw [mend, nowOpen, hidx]
        exact ih opened
      | some inner =>
        have hclose := (ih (opened.drop (inner + 1))).endTags (opened.take inner ++ [name])
        rw [List.append_assoc, List.singleton_append, ← idxOf?_split hidx] at hclose
        rw [mend, nowOpen, hidx]
        simpa using hclose
    | text s => exact (ih opened).cons (t := .text s) trivial
    | comment | doctype | processingInstruction => cases hsignal

/-- Repaired signals are those of trees. -/
theorem exists_trees (drop : Bool) (signals : List Signal) :
    ∃ ts, Tree.InnerList ts ∧ repair drop signals = Tree.signalsOfList ts := by
  have hr : Unwinds [] (repair drop signals) := unwinds_repairFrom fun _ => clean_of_mem_clean
  generalize repair drop signals = repaired at hr
  cases hr with
  | @last ts hts => exact ⟨ts, hts, rfl⟩

/-- Repairing adds end tags only. -/
theorem mem_repairFrom {signal : Signal} : ∀ {signals : List Signal} {opened : List String},
    signal ∈ repairFrom opened signals → signal ∈ signals ∨ ∃ name, signal = .endTag name
  | [], opened, h => by
    obtain ⟨name, -, rfl⟩ := List.mem_map.1 h
    exact .inr ⟨name, rfl⟩
  | first :: rest, opened, h => by
    rw [repairFrom, List.mem_append] at h
    rcases h with h | h
    · cases first with
      | endTag name =>
        rw [mend] at h
        cases hidx : opened.idxOf? name with
        | none =>
          rw [hidx] at h
          cases h
        | some inner =>
          simp only [hidx, List.mem_append, List.mem_map, List.mem_singleton] at h
          rcases h with ⟨name, -, rfl⟩ | rfl
          · exact .inr ⟨name, rfl⟩
          · exact .inr ⟨name, rfl⟩
      | startTag | text | comment | doctype | processingInstruction =>
        exact .inl (List.mem_cons.2 (.inl (List.mem_singleton.1 h)))
    · exact (mem_repairFrom h).imp_left (List.mem_cons_of_mem first)

theorem ne_text_empty_of_mem_repair {signal : Signal} (h : signal ∈ repair drop signals) :
    signal ≠ .text "" := by
  rcases mem_repairFrom h with h | ⟨name, rfl⟩
  · exact (clean_of_mem_clean h).ne_text_empty
  · exact nofun

/-! ### Signals that nest -/

theorem Nested.append {signals rest : List Signal} (h : Nested signals) (h' : Nested rest) :
    Nested (signals ++ rest) := by
  induction h with
  | nil => exact h'
  | text s _ ih => exact .text s ih
  | element name as hinner _ _ ih =>
    rw [List.cons_append, List.append_assoc]
    exact .element name as hinner ih

theorem nested_signalsOfList : ∀ {ts : List Tree}, Tree.InnerList ts →
    Nested (Tree.signalsOfList ts)
  | [], _ => .nil
  | .text s :: _, h => .text s (nested_signalsOfList h.2)
  | .element name as cs :: ts, h => by
    have hcs := nested_signalsOfList h.1.2
    have hts := nested_signalsOfList h.2
    rw [Tree.signalsOfList, Tree.signals, List.cons_append, List.append_assoc]
    exact .element name as hcs hts
  | .document _ :: _, h => h.1.elim

/-- Signals that nest are repaired as they are, whatever is open and whatever follows. -/
theorem Nested.repairFrom_append (h : Nested signals) :
    ∀ (opened : List String) (rest : List Signal),
      repairFrom opened (signals ++ rest) = signals ++ repairFrom opened rest := by
  induction h with
  | nil => exact fun _ _ => rfl
  | text s _ ih =>
    intro opened rest
    exact congrArg (_ :: ·) (ih opened rest)
  | @element name as inner after _ _ ih ih' =>
    intro opened rest
    have hidx : (name :: opened).idxOf? name = some 0 := by simp [List.idxOf?, List.findIdx?_cons]
    have hend : repairFrom (name :: opened) (.endTag name :: (after ++ rest)) =
        .endTag name :: (after ++ repairFrom opened rest) := by
      rw [repairFrom, mend, nowOpen, hidx]
      exact congrArg (_ :: ·) (ih' opened rest)
    have hstart : ∀ rest, repairFrom opened (.startTag name as :: rest) =
        .startTag name as :: repairFrom (name :: opened) rest := fun _ => rfl
    rw [List.cons_append, List.append_assoc, List.cons_append, hstart, ih, hend]
    simp

theorem repair_eq_clean_iff (drop : Bool) (signals : List Signal) :
    repair drop signals = clean drop signals ↔ Nested (clean drop signals) := by
  constructor
  · intro h
    obtain ⟨ts, hts, hrepair⟩ := exists_trees drop signals
    rw [← h, hrepair]
    exact nested_signalsOfList hts
  · intro h
    have happend := h.repairFrom_append [] []
    rwa [List.append_nil, repairFrom, List.map_nil, List.append_nil] at happend

end Signal

end MarkupTree
