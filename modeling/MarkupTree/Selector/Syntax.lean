import MarkupTree.Selector.Grammar

/-!
# Selector texts

What selector texts are, rule by rule. A rule relates a text to what its beginning stands for and
to the rest of the text. White space, names and escapes go on for as long as they can.
-/

namespace MarkupTree.Selector

/-- The text is `run`, all of it characters of one kind, and then `rest`, which does not begin with
such a character. -/
structure IsRun (kind : Char → Bool) (text run rest : List Char) : Prop where
  text_eq : text = run ++ rest
  all : ∀ c ∈ run, kind c = true
  ends : ∀ c ∈ rest.head?, ¬ kind c = true

/-- White space, perhaps none, and then `rest`. -/
def IsSpaces (text rest : List Char) : Prop := ∃ run, IsRun Text.isSpace text run rest

/-! ### Names -/

/-- One space more or, if none comes next, nothing. -/
inductive IsOptionalSpace : List Char → List Char → Prop
  | space (rest : List Char) : IsOptionalSpace (' ' :: rest) rest
  | none {rest : List Char} (h : rest.head? ≠ some ' ') : IsOptionalSpace rest rest

/-- What follows a backslash: one to six hexadecimal digits of the code point of a character, or
another character for itself. -/
inductive IsEscape : List Char → Char → List Char → Prop
  | literal {c : Char} (rest : List Char) (h : ¬ Text.isHexDigit c = true) :
      IsEscape (c :: rest) c rest
  | code {digits after rest : List Char} {c : Char} (hsome : digits ≠ [])
      (hmost : digits.length ≤ 6) (hall : ∀ d ∈ digits, Text.isHexDigit d = true)
      (hends : digits.length = 6 ∨ ∀ d ∈ after.head?, ¬ Text.isHexDigit d = true)
      (hcode : charOf? (Text.hexValue digits) = some c) (hspace : IsOptionalSpace after rest) :
      IsEscape (digits ++ after) c rest

/-- A character of a name. -/
inductive IsLetter : List Char → Char → List Char → Prop
  | plain {c : Char} (rest : List Char) (h : isNameChar c = true) : IsLetter (c :: rest) c rest
  | escaped {text rest : List Char} {c : Char} (h : IsEscape text c rest) :
      IsLetter ('\\' :: text) c rest

/-- The characters of a name up to where none comes next. -/
inductive IsLetters : List Char → List Char → List Char → Prop
  | stop {rest : List Char} (h : ∀ c ∈ rest.head?, ¬ isNameChar c = true ∧ c ≠ '\\') :
      IsLetters rest [] rest
  | more {text after rest cs : List Char} {c : Char} (h : IsLetter text c after)
      (h' : IsLetters after cs rest) : IsLetters text (c :: cs) rest

inductive IsName : List Char → String → List Char → Prop
  | mk {text cs rest : List Char} (hsome : cs ≠ []) (h : IsLetters text cs rest) :
      IsName text (String.ofList cs) rest

/-- A name that begins with no digit. -/
structure IsIdentifier (text : List Char) (s : String) (rest : List Char) : Prop where
  begins : beginsName text.head? = true
  isName : IsName text s rest

/-! ### Strings -/

/-- The characters of a string up to its closing quote `q`. -/
inductive IsQuoted (q : Char) : List Char → List Char → List Char → Prop
  | close (rest : List Char) : IsQuoted q (q :: rest) [] rest
  | plain {text cs rest : List Char} {c : Char} (hq : c ≠ q) (hplain : c ≠ '\\')
      (h : IsQuoted q text cs rest) : IsQuoted q (c :: text) (c :: cs) rest
  | escaped {text cs rest : List Char} (c : Char) (h : IsQuoted q text cs rest) :
      IsQuoted q ('\\' :: c :: text) (c :: cs) rest

/-- A string between quotes, or a word. -/
inductive IsValue (IsWord : List Char → String → List Char → Prop) :
    List Char → String → List Char → Prop
  | string {text cs rest : List Char} {q : Char} (hq : isQuote q = true)
      (h : IsQuoted q text cs rest) : IsValue IsWord (q :: text) (String.ofList cs) rest
  | word {text rest : List Char} {s : String} (h : IsWord text s rest) : IsValue IsWord text s rest

/-! ### Attributes and formulas -/

inductive IsOperator : List Char → AttributeOperator → List Char → Prop
  | equals (rest : List Char) : IsOperator ('=' :: rest) .equals rest
  | other {c : Char} {o : AttributeOperator} (rest : List Char) (h : operatorOf? c = some o) :
      IsOperator (c :: '=' :: rest) o rest

/-- A name in brackets, or a name, an operator and a value. -/
inductive IsAttributeTest : List Char → AttributeTest → List Char → Prop
  | present {s₀ s₁ s₂ rest : List Char} {name : String} (h₀ : IsSpaces s₀ s₁)
      (hname : IsIdentifier s₁ name s₂) (h₂ : IsSpaces s₂ (']' :: rest)) :
      IsAttributeTest ('[' :: s₀) ⟨name, .present, ""⟩ rest
  | compared {s₀ s₁ s₂ s₃ s₄ s₅ s₆ rest : List Char} {name value : String} {o : AttributeOperator}
      (h₀ : IsSpaces s₀ s₁) (hname : IsIdentifier s₁ name s₂) (h₂ : IsSpaces s₂ s₃)
      (hoperator : IsOperator s₃ o s₄) (h₄ : IsSpaces s₄ s₅) (hvalue : IsValue IsName s₅ value s₆)
      (h₆ : IsSpaces s₆ (']' :: rest)) :
      IsAttributeTest ('[' :: s₀) ⟨name, o, value⟩ rest

/-- Everything up to the next closing bracket, as a formula. -/
inductive IsFormula : List Char → Nth → List Char → Prop
  | mk {formula rest : List Char} {f : Nth} (hopen : ')' ∉ formula)
      (h : Nth.ofChars? (Text.lowerAscii (formula.filter (!Text.isSpace ·))) = some f) :
      IsFormula (formula ++ ')' :: rest) f (')' :: rest)

/-! ### Selectors -/

/-- A combinator mark between white space, or nothing for a descendant. -/
inductive IsLead : List Char → Combinator → List Char → Prop
  | mark {c : Char} {relation : Combinator} {text rest : List Char}
      (h : combinatorOf? c = some relation) (h' : IsSpaces text rest) :
      IsLead (c :: text) relation rest
  | none (rest : List Char) : IsLead rest .descendant rest

mutual

/-- Chains between commas. -/
inductive IsList : List Char → List Chain → List Char → Prop
  | last {text rest : List Char} {chain : Chain} (h : IsChain text chain rest) :
      IsList text [chain] rest
  | comma {text after rest : List Char} {chain : Chain} {chains : List Chain}
      (h : IsChain text chain (',' :: after)) (h' : IsList after chains rest) :
      IsList text (chain :: chains) rest

inductive IsChain : List Char → Chain → List Char → Prop
  | mk {s₀ s₁ s₂ s₃ rest : List Char} {relation : Combinator} {first : Part} {parts : List Part}
      (hspaces : IsSpaces s₀ s₁) (hlead : IsLead s₁ relation s₂)
      (hpart : IsPart relation s₂ first s₃) (htail : IsTail s₃ parts rest) :
      IsChain s₀ (first :: parts) rest

/-- The further parts of a chain, and white space at the end. -/
inductive IsTail : List Char → List Part → List Char → Prop
  | nil {text rest : List Char} (h : IsSpaces text rest) : IsTail text [] rest
  | mark {s₀ s₁ s₂ s₃ rest : List Char} {c : Char} {relation : Combinator} {part : Part}
      {parts : List Part} (h₀ : IsSpaces s₀ (c :: s₁)) (hmark : combinatorOf? c = some relation)
      (h₁ : IsSpaces s₁ s₂) (hpart : IsPart relation s₂ part s₃) (htail : IsTail s₃ parts rest) :
      IsTail s₀ (part :: parts) rest
  | space {s₀ s₁ s₂ rest : List Char} {part : Part} {parts : List Part} (h₀ : IsSpaces s₀ s₁)
      (hspace : s₀ ≠ s₁) (hpart : IsPart .descendant s₁ part s₂) (htail : IsTail s₂ parts rest) :
      IsTail s₀ (part :: parts) rest

/-- A star or a name and simple selectors, or simple selectors alone. -/
inductive IsPart : Combinator → List Char → Part → List Char → Prop
  | star {relation : Combinator} {text rest : List Char} {simples : List Simple}
      (h : IsSimples text simples rest) :
      IsPart relation ('*' :: text) ⟨relation, none, simples⟩ rest
  | named {relation : Combinator} {text after rest : List Char} {name : String}
      {simples : List Simple} (hname : IsIdentifier text name after)
      (h : IsSimples after simples rest) :
      IsPart relation text ⟨relation, some (Text.lower name), simples⟩ rest
  | simples {relation : Combinator} {text rest : List Char} {simples : List Simple}
      (hsome : simples ≠ []) (h : IsSimples text simples rest) :
      IsPart relation text ⟨relation, none, simples⟩ rest

inductive IsSimples : List Char → List Simple → List Char → Prop
  | nil (rest : List Char) : IsSimples rest [] rest
  | cons {text after rest : List Char} {simple : Simple} {simples : List Simple}
      (h : IsSimple text simple after) (h' : IsSimples after simples rest) :
      IsSimples text (simple :: simples) rest

inductive IsSimple : List Char → Simple → List Char → Prop
  | hasClass {text rest : List Char} {name : String} (h : IsIdentifier text name rest) :
      IsSimple ('.' :: text) (.hasClass name) rest
  | hasId {text rest : List Char} {name : String} (h : IsName text name rest) :
      IsSimple ('#' :: text) (.hasId name) rest
  | hasAttribute {text rest : List Char} {test : AttributeTest}
      (h : IsAttributeTest text test rest) : IsSimple text (.hasAttribute test) rest
  | plain {text rest : List Char} {name : String} {simple : Simple}
      (hname : IsIdentifier text name rest)
      (h : plainPseudoClass? (Text.lower name) = some simple) : IsSimple (':' :: text) simple rest
  | counting {s₀ s₁ s₂ s₃ rest : List Char} {name : String} {f : Nth} {counts : Nth → Simple}
      (hname : IsIdentifier s₀ name ('(' :: s₁))
      (h : countingPseudoClass? (Text.lower name) = some counts) (h₁ : IsSpaces s₁ s₂)
      (hformula : IsFormula s₂ f s₃) (h₃ : IsSpaces s₃ (')' :: rest)) :
      IsSimple (':' :: s₀) (counts f) rest
  | not {s₀ s₁ s₂ s₃ rest : List Char} {name : String} {alternatives : List Chain}
      (hname : IsIdentifier s₀ name ('(' :: s₁)) (h : Text.lower name = "not")
      (h₁ : IsSpaces s₁ s₂) (hlist : IsList s₂ alternatives s₃) (h₃ : IsSpaces s₃ (')' :: rest)) :
      IsSimple (':' :: s₀) (.not alternatives) rest
  | contains {s₀ s₁ s₂ s₃ rest : List Char} {name value : String}
      (hname : IsIdentifier s₀ name ('(' :: s₁)) (h : Text.lower name = "contains")
      (h₁ : IsSpaces s₁ s₂) (hvalue : IsValue IsIdentifier s₂ value s₃)
      (h₃ : IsSpaces s₃ (')' :: rest)) : IsSimple (':' :: s₀) (.contains value) rest

end

/-- A whole selector text: white space alone, which stands for the empty chain, or chains. -/
inductive IsSelector : List Char → List Chain → Prop
  | blank {text : List Char} (h : IsSpaces text []) : IsSelector text [[]]
  | list {text after : List Char} {alternatives : List Chain} (h : IsSpaces text after)
      (h' : IsList after alternatives []) : IsSelector text alternatives

end MarkupTree.Selector
