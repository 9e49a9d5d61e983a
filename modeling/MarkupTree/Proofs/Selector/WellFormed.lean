import MarkupTree.Proofs.Selector.Parse
import MarkupTree.Proofs.Text.LowerCase

/-!
# Well-formed selectors

What every list of alternatives that comes from a text has in common: no name is empty, a tag is in
lower case, only a test that compares has a value, and no list of alternatives or parts is empty,
but for the one empty chain that white space stands for.
-/

namespace MarkupTree.Selector

mutual

def SimpleWellFormed : Simple → Prop
  | .hasClass name | .hasId name => name ≠ ""
  | .hasAttribute test => test.name ≠ "" ∧ (test.operator = .present → test.value = "")
  | .not alternatives => alternatives ≠ [] ∧ ChainsWellFormed alternatives
  | _ => True

def PartWellFormed : Part → Prop
  | ⟨_, tag?, simples⟩ =>
    (∀ tag ∈ tag?, tag ≠ "" ∧ Text.lower tag = tag) ∧ SimplesWellFormed simples

def SimplesWellFormed : List Simple → Prop
  | [] => True
  | simple :: simples => SimpleWellFormed simple ∧ SimplesWellFormed simples

def PartsWellFormed : List Part → Prop
  | [] => True
  | part :: parts => PartWellFormed part ∧ PartsWellFormed parts

def ChainsWellFormed : List (List Part) → Prop
  | [] => True
  | chain :: chains => (chain ≠ [] ∧ PartsWellFormed chain) ∧ ChainsWellFormed chains

end

/-- A list of alternatives is the empty chain alone, or it has alternatives, each with parts. -/
def WellFormed (alternatives : List Chain) : Prop :=
  alternatives = [[]] ∨ alternatives ≠ [] ∧ ChainsWellFormed alternatives

variable {s t : List Char}

theorem IsName.ne_empty {n : String} (h : IsName s n t) : n ≠ "" := by
  cases h with
  | mk hsome h => simpa using hsome

theorem not_isOperator_present : ¬ IsOperator s .present t := by
  intro h
  cases h with
  | other _ h =>
    unfold operatorOf? at h
    split at h <;> cases h

theorem IsAttributeTest.wellFormed {test : AttributeTest} (h : IsAttributeTest s test t) :
    SimpleWellFormed (.hasAttribute test) := by
  rw [SimpleWellFormed]
  cases h with
  | present _ hname => exact ⟨hname.isName.ne_empty, fun _ => rfl⟩
  | compared _ hname _ ho =>
    refine ⟨hname.isName.ne_empty, fun hpresent => ?_⟩
    dsimp only at hpresent
    subst hpresent
    exact absurd ho not_isOperator_present

theorem wellFormed_of_plain {name : String} {x : Simple} (h : plainPseudoClass? name = some x) :
    SimpleWellFormed x := by
  unfold plainPseudoClass? at h
  split at h <;> cases h <;> exact trivial

theorem wellFormed_of_counting {name : String} {counts : Nth → Simple} (f : Nth)
    (h : countingPseudoClass? name = some counts) : SimpleWellFormed (counts f) := by
  unfold countingPseudoClass? at h
  split at h <;> cases h <;> exact trivial

mutual

theorem IsList.wellFormed : ∀ {s t : List Char} {chains : List Chain}, IsList s chains t →
    chains ≠ [] ∧ ChainsWellFormed chains
  | _, _, _, .last h => ⟨List.cons_ne_nil _ _, h.wellFormed, trivial⟩
  | _, _, _, .comma h h' => ⟨List.cons_ne_nil _ _, h.wellFormed, h'.wellFormed.2⟩

theorem IsChain.wellFormed : ∀ {s t : List Char} {chain : Chain}, IsChain s chain t →
    chain ≠ [] ∧ PartsWellFormed chain
  | _, _, _, .mk _ _ hpart htail => ⟨List.cons_ne_nil _ _, hpart.wellFormed, htail.wellFormed⟩

theorem IsTail.wellFormed : ∀ {s t : List Char} {parts : List Part}, IsTail s parts t →
    PartsWellFormed parts
  | _, _, _, .nil _ => trivial
  | _, _, _, .mark _ _ _ hpart htail => ⟨hpart.wellFormed, htail.wellFormed⟩
  | _, _, _, .space _ _ hpart htail => ⟨hpart.wellFormed, htail.wellFormed⟩

theorem IsPart.wellFormed : ∀ {relation : Combinator} {s t : List Char} {part : Part},
    IsPart relation s part t → PartWellFormed part
  | _, _, _, _, .star h => ⟨nofun, h.wellFormed⟩
  | _, _, _, _, .named hname h => by
    refine ⟨?_, h.wellFormed⟩
    rintro _ ⟨⟩
    exact ⟨Text.lower_ne_empty hname.isName.ne_empty, Text.lower_lower _⟩
  | _, _, _, _, .simples _ h => ⟨nofun, h.wellFormed⟩

theorem IsSimples.wellFormed : ∀ {s t : List Char} {simples : List Simple},
    IsSimples s simples t → SimplesWellFormed simples
  | _, _, _, .nil _ => trivial
  | _, _, _, .cons h h' => ⟨h.wellFormed, h'.wellFormed⟩

theorem IsSimple.wellFormed {s t : List Char} {simple : Simple} (h : IsSimple s simple t) :
    SimpleWellFormed simple := by
  cases h with
  | hasClass h => exact h.isName.ne_empty
  | hasId h => exact h.ne_empty
  | hasAttribute h => exact h.wellFormed
  | plain _ h => exact wellFormed_of_plain h
  | counting _ h => exact wellFormed_of_counting _ h
  | not _ _ _ hlist => exact hlist.wellFormed
  | contains => exact trivial

end

theorem IsSelector.wellFormed {L : List Chain} (h : IsSelector s L) : WellFormed L := by
  cases h with
  | blank => exact .inl rfl
  | list _ h => exact .inr h.wellFormed

end MarkupTree.Selector
