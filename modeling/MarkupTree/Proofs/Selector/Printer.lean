import MarkupTree.Proofs.Selector.WellFormed
import MarkupTree.Selector.Printer

/-!
# Every well-formed selector has a text

What is written for a well-formed list of alternatives stands for that list, whatever names and
values it has. A rule is put to the text that is written and what follows it, so the text behind a
name is limited to what does not go on with the name.
-/

namespace MarkupTree.Selector

variable {rest : List Char}

/-- A name ends before this text. -/
def StopsName (rest : List Char) : Prop := ∀ c ∈ rest.head?, ¬ isNameChar c = true ∧ c ≠ '\\'

theorem isSpaces_self (h : ∀ c ∈ rest.head?, ¬ Text.isSpace c = true) : IsSpaces rest rest :=
  ⟨[], rfl, nofun, h⟩

theorem isSpaces_nil : IsSpaces [] [] := isSpaces_self nofun

theorem isSpaces_cons {c : Char} (h : ¬ Text.isSpace c = true) :
    IsSpaces (c :: rest) (c :: rest) :=
  isSpaces_self (by rintro _ ⟨⟩; exact h)

/-! ### Names -/

theorem of_isPlainLetter {c : Char} (h : isPlainLetter c = true) :
    isNameChar c = true ∧ isNameStart c = true ∧ ¬ Text.isSpace c = true := by
  rw [isPlainLetter, Bool.and_eq_true, Bool.and_eq_true, isAscii, decide_eq_true_eq] at h
  obtain ⟨hascii, hstart, hname⟩ := h
  have hall : ∀ n < 128, isNameChar (Char.ofNat n) = true → ¬ Text.isSpace (Char.ofNat n) = true := by
    decide
  have hspace := hall c.toNat hascii
  rw [Char.ofNat_toNat] at hspace
  exact ⟨hname, hstart, hspace hname⟩

theorem length_sixDigits (n : Nat) : (sixDigits n).length = 6 := rfl

theorem isHexDigit_of_mem_sixDigits {n : Nat} {d : Char} (h : d ∈ sixDigits n) :
    Text.isHexDigit d = true := by
  obtain ⟨k, hk, rfl⟩ := List.mem_map.1 h
  have hlt : k < 16 := by
    simp only [List.mem_cons, List.not_mem_nil, or_false] at hk
    omega
  rw [Text.isHexDigit, Text.hexDigit?_digitChar hlt]
  rfl

theorem hexValue_sixDigits {n : Nat} (h : n < 0x1000000) : Text.hexValue (sixDigits n) = n := by
  have hdigit : ∀ k, Text.hexDigit? (k % 16).digitChar = some (k % 16) :=
    fun k => Text.hexDigit?_digitChar (Nat.mod_lt k (by decide))
  simp only [Text.hexValue, sixDigits, List.map_cons, List.map_nil, List.foldl_cons,
    List.foldl_nil, hdigit, Option.getD_some]
  omega

theorem charOf?_toNat (c : Char) : charOf? c.toNat = some c := by
  have hvalid : c.toNat.isValidChar := c.valid
  rw [charOf?, if_pos hvalid, Char.ofNat_toNat]

/-- The space behind a code point is part of the escape, so no space behind a name is lost. -/
theorem isEscape_sixDigits (c : Char) (rest : List Char) :
    IsEscape (sixDigits c.toNat ++ ' ' :: rest) c rest := by
  have hlt : c.toNat < 0x1000000 := by
    have hvalid := c.valid
    simp only [UInt32.isValidChar, Nat.isValidChar] at hvalid
    show c.val.toNat < 0x1000000
    omega
  refine .code (List.cons_ne_nil _ _) (Nat.le_of_eq (length_sixDigits _))
    (fun d hd => isHexDigit_of_mem_sixDigits hd) (.inl (length_sixDigits _)) ?_ (.space rest)
  rw [hexValue_sixDigits hlt, charOf?_toNat]

theorem isLetter_writeLetter (c : Char) (rest : List Char) :
    IsLetter (writeLetter c ++ rest) c rest := by
  unfold writeLetter
  split
  · exact .plain rest (of_isPlainLetter ‹_›).1
  · rw [List.cons_append, List.append_assoc]
    exact .escaped (isEscape_sixDigits c rest)

theorem isLetters_flatMap_writeLetter (h : StopsName rest) :
    ∀ cs : List Char, IsLetters (cs.flatMap writeLetter ++ rest) cs rest
  | [] => .stop h
  | c :: cs => by
    rw [List.flatMap_cons, List.append_assoc]
    exact .more (isLetter_writeLetter c _) (isLetters_flatMap_writeLetter h cs)

theorem isName_writeName {s : String} (hs : s ≠ "") (h : StopsName rest) :
    IsName (writeName s ++ rest) s rest := by
  have hname := IsName.mk (fun e => hs (String.toList_eq_nil_iff.1 e))
    (isLetters_flatMap_writeLetter h s.toList)
  rwa [String.ofList_toList] at hname

/-- A name begins with a letter or with an escape. -/
theorem begins_writeName {s : String} (hs : s ≠ "") (rest : List Char) :
    ∃ c ∈ (writeName s ++ rest).head?, isNameStart c = true ∧ ¬ Text.isSpace c = true := by
  unfold writeName
  cases hcs : s.toList with
  | nil => exact absurd (String.toList_eq_nil_iff.1 hcs) hs
  | cons c cs =>
    rw [List.flatMap_cons, List.append_assoc]
    unfold writeLetter
    split
    · exact ⟨c, rfl, (of_isPlainLetter ‹_›).2⟩
    · exact ⟨'\\', rfl, rfl, nofun⟩

theorem isIdentifier_writeName {s : String} (hs : s ≠ "") (h : StopsName rest) :
    IsIdentifier (writeName s ++ rest) s rest := by
  refine ⟨?_, isName_writeName hs h⟩
  obtain ⟨c, hc, hstart, -⟩ := begins_writeName hs rest
  rw [Option.mem_def.1 hc]
  exact hstart

theorem isSpaces_writeName {s : String} (hs : s ≠ "") (rest : List Char) :
    IsSpaces (writeName s ++ rest) (writeName s ++ rest) := by
  obtain ⟨c, hc, -, hspace⟩ := begins_writeName hs rest
  refine isSpaces_self fun d hd => ?_
  rw [← Option.some.inj ((Option.mem_def.1 hc).symm.trans hd)]
  exact hspace

/-! ### What follows a name -/

/-- The characters that are written behind names. -/
def nameStops : List Char :=
  [' ', '>', '+', '~', ',', '(', ')', '.', '#', '[', ']', ':', '=', '|', '^', '$', '*']

theorem stopsName_cons {c : Char} (h : c ∈ nameStops) (rest : List Char) :
    StopsName (c :: rest) := by
  have hall : nameStops.all (fun c => !isNameChar c && c != '\\') = true := by decide
  have hc := List.all_eq_true.1 hall c h
  rw [Bool.and_eq_true, Bool.not_eq_true', bne_iff_ne] at hc
  rintro _ ⟨⟩
  exact ⟨Bool.eq_false_iff.1 hc.1, hc.2⟩

/-! ### Strings and attributes -/

theorem isQuoted_flatMap_writeQuoted (rest : List Char) : ∀ cs : List Char,
    IsQuoted '"' (cs.flatMap writeQuoted ++ '"' :: rest) cs rest
  | [] => .close rest
  | c :: cs => by
    have ih := isQuoted_flatMap_writeQuoted rest cs
    rw [List.flatMap_cons, List.append_assoc]
    unfold writeQuoted
    split
    · exact .escaped c ih
    · rename_i h
      rw [not_or] at h
      exact .plain h.1 h.2 ih

theorem isValue_writeString {IsWord : List Char → String → List Char → Prop} (s : String)
    (rest : List Char) : IsValue IsWord (writeString s ++ rest) s rest := by
  have h : IsValue IsWord ('"' :: (s.toList.flatMap writeQuoted ++ '"' :: rest))
      (String.ofList s.toList) rest := .string rfl (isQuoted_flatMap_writeQuoted rest s.toList)
  rw [String.ofList_toList] at h
  simpa [writeString] using h

theorem isOperator_writeOperator {o : AttributeOperator} (h : o ≠ .present) (rest : List Char) :
    IsOperator (writeOperator o ++ rest) o rest := by
  cases o with
  | present => exact absurd rfl h
  | equals => exact .equals rest
  | includes | dashMatch | begins | ends | holds => exact .other rest rfl

theorem begins_writeOperator {o : AttributeOperator} (h : o ≠ .present) :
    ∃ c ∈ nameStops, ¬ Text.isSpace c = true ∧ ∃ cs, writeOperator o = c :: cs := by
  cases o with
  | present => exact absurd rfl h
  | equals => exact ⟨'=', by decide, nofun, _, rfl⟩
  | includes => exact ⟨'~', by decide, nofun, _, rfl⟩
  | dashMatch => exact ⟨'|', by decide, nofun, _, rfl⟩
  | begins => exact ⟨'^', by decide, nofun, _, rfl⟩
  | ends => exact ⟨'$', by decide, nofun, _, rfl⟩
  | holds => exact ⟨'*', by decide, nofun, _, rfl⟩

theorem isAttributeTest_writeTest {test : AttributeTest}
    (h : SimpleWellFormed (.hasAttribute test)) (rest : List Char) :
    IsAttributeTest (writeTest test ++ rest) test rest := by
  rcases test with ⟨name, o, value⟩
  obtain ⟨hname, hvalue⟩ := h
  have hbracket : IsSpaces (']' :: rest) (']' :: rest) := isSpaces_cons nofun
  by_cases ho : o = .present
  · obtain rfl : value = "" := hvalue ho
    subst ho
    have hstop : StopsName (']' :: rest) := stopsName_cons (by decide) rest
    have htest := IsAttributeTest.present (isSpaces_writeName hname _)
      (isIdentifier_writeName hname hstop) hbracket
    simpa [writeTest] using htest
  · obtain ⟨c, hc, hspace, cs, hcs⟩ := begins_writeOperator ho
    have hoperator := isOperator_writeOperator ho (writeString value ++ ']' :: rest)
    rw [hcs] at hoperator
    have htest := IsAttributeTest.compared (isSpaces_writeName hname _)
      (isIdentifier_writeName hname (stopsName_cons hc _)) (isSpaces_cons hspace) hoperator
      (isSpaces_cons nofun) (isValue_writeString value _) hbracket
    simpa [writeTest, ho, hcs] using htest

/-! ### Formulas -/

theorem unsigned?_toDigits (n : Nat) : Nth.unsigned? (Nat.toDigits 10 n) = some n := by
  have hdigits : (Nat.toDigits 10 n).all Char.isDigit = true :=
    List.all_eq_true.2 fun c hc => Nat.isDigit_of_mem_toDigits (by decide) (by decide) hc
  have hvalue : Text.decimalValue (Nat.toDigits 10 n) = n :=
    Nat.ofDigitChars_toDigits (by decide) (by decide)
  rw [Nth.unsigned?, hdigits, hvalue]
  simp

theorem word?_toInt (n : Int32) : Nth.word? n.toInt = some n := by
  have := n.le_toInt
  have := n.toInt_lt
  rw [Nth.word?, if_pos (by omega), Int32.ofInt_toInt]

theorem signed?_writeSigned (n : Int32) : Nth.signed? (writeSigned n) = some n := by
  unfold writeSigned
  split
  · have hn : -(n.toInt.natAbs : Int) = n.toInt := by omega
    rw [Nth.signed?, unsigned?_toDigits, Option.bind_eq_bind, Option.bind_some, hn, word?_toInt]
  · have hn : (n.toInt.natAbs : Int) = n.toInt := by omega
    rw [Nth.signed?, unsigned?_toDigits, Option.bind_eq_bind, Option.bind_some, hn, word?_toInt]

/-- A sign, and digits behind it. -/
theorem exists_writeSigned (n : Int32) :
    ∃ d ds, writeSigned n = '+' :: d :: ds ∨ writeSigned n = '-' :: d :: ds := by
  unfold writeSigned
  cases h : Nat.toDigits 10 n.toInt.natAbs with
  | nil => exact absurd h Nat.toDigits_ne_nil
  | cons d ds =>
    refine ⟨d, ds, ?_⟩
    split
    · exact .inr rfl
    · exact .inl rfl

theorem factor?_writeSigned (n : Int32) : Nth.factor? (writeSigned n) = some n := by
  rw [← signed?_writeSigned n]
  obtain ⟨d, ds, h | h⟩ := exists_writeSigned n
  · rw [h]
    rfl
  · rw [h]
    rfl

theorem addend?_writeSigned (n : Int32) : Nth.addend? (writeSigned n) = some n := by
  rw [← signed?_writeSigned n]
  obtain ⟨d, ds, h | h⟩ := exists_writeSigned n
  · rw [h]
    rfl
  · rw [h]
    rfl

theorem mem_digits_of_isDigit {c : Char} (h : c.isDigit = true) :
    c ∈ (List.range 10).map Nat.digitChar := by
  simp only [Char.isDigit, Bool.and_eq_true, decide_eq_true_eq, ge_iff_le,
    UInt32.le_iff_toNat_le] at h
  have hlow : 48 ≤ c.toNat := h.1
  have hhigh : c.toNat ≤ 57 := h.2
  refine List.mem_map.2 ⟨c.toNat - 48, List.mem_range.2 (by omega), Char.toNat_inj.1 ?_⟩
  rw [Nat.toNat_digitChar_of_lt_ten (by omega)]
  omega

theorem mem_writeSigned {n : Int32} {c : Char} (h : c ∈ writeSigned n) :
    c ∈ ['+', '-'] ++ (List.range 10).map Nat.digitChar := by
  rcases List.mem_cons.1 h with rfl | h
  · split <;> decide
  · refine List.mem_append_right _ (mem_digits_of_isDigit ?_)
    exact Nat.isDigit_of_mem_toDigits (by decide) (by decide) h

theorem ofChars?_writeFormula (f : Nth) : Nth.ofChars? (writeFormula f) = some f := by
  have hn : 'n' ∉ writeSigned f.a := fun h => absurd (mem_writeSigned h) (by decide)
  have hcut : Nth.cut? (writeFormula f) = some (writeSigned f.a, writeSigned f.b) := by
    rw [Nth.cut?, writeFormula, dropWhile_ne_append hn, takeWhile_ne_append hn]
  have hword : writeFormula f ≠ ['o', 'd', 'd'] ∧ writeFormula f ≠ ['e', 'v', 'e', 'n'] := by
    obtain ⟨d, ds, h | h⟩ := exists_writeSigned f.a
    · rw [writeFormula, h]
      constructor <;> (intro hword; cases hword)
    · rw [writeFormula, h]
      constructor <;> (intro hword; cases hword)
  rw [Nth.ofChars?, hcut, Nth.ofCut?, if_neg hword.1, if_neg hword.2]
  simp [factor?_writeSigned, addend?_writeSigned]

theorem of_mem_writeFormula {f : Nth} {c : Char} (h : c ∈ writeFormula f) :
    c ≠ ')' ∧ Text.isSpace c = false ∧ c.toLower = c := by
  have hmem : c ∈ ['+', '-'] ++ (List.range 10).map Nat.digitChar ++ ['n'] := by
    rcases List.mem_append.1 h with h | h
    · exact List.mem_append_left _ (mem_writeSigned h)
    · rcases List.mem_cons.1 h with rfl | h
      · decide
      · exact List.mem_append_left _ (mem_writeSigned h)
  have hall : (['+', '-'] ++ (List.range 10).map Nat.digitChar ++ ['n']).all
      (fun c => c != ')' && (!Text.isSpace c && c.toLower == c)) = true := by decide
  have hc := List.all_eq_true.1 hall c hmem
  rwa [Bool.and_eq_true, Bool.and_eq_true, bne_iff_ne, Bool.not_eq_true', beq_iff_eq] at hc

theorem isFormula_writeFormula (f : Nth) (rest : List Char) :
    IsFormula (writeFormula f ++ ')' :: rest) f (')' :: rest) := by
  have hspace : (writeFormula f).filter (!Text.isSpace ·) = writeFormula f :=
    List.filter_eq_self.2 fun c hc => by rw [(of_mem_writeFormula hc).2.1]; rfl
  have hlower : Text.lowerAscii (writeFormula f) = writeFormula f := by
    rw [Text.lowerAscii, List.map_congr_left fun c hc => (of_mem_writeFormula hc).2.2]
    exact List.map_id' _
  refine .mk (fun h => (of_mem_writeFormula h).1 rfl) ?_
  rw [hspace, hlower]
  exact ofChars?_writeFormula f

theorem isSpaces_writeFormula (f : Nth) (rest : List Char) :
    IsSpaces (writeFormula f ++ rest) (writeFormula f ++ rest) := by
  obtain ⟨d, ds, h | h⟩ := exists_writeSigned f.a
  · rw [writeFormula, h]
    exact isSpaces_cons nofun
  · rw [writeFormula, h]
    exact isSpaces_cons nofun

/-! ### Pseudo-classes -/

/-- The names of pseudo-classes are ASCII and in lower case. -/
theorem isSimple_writePseudoClass {name : String} {x : Simple}
    (hlower : name.toList.all Text.isLowerAscii = true)
    (hx : plainPseudoClass? name = some x) (h : StopsName rest) :
    IsSimple (writePseudoClass name ++ rest) x rest := by
  have hname : name ≠ "" := by
    rintro rfl
    cases hx
  refine .plain (isIdentifier_writeName hname h) ?_
  rw [Text.lower_eq_of_isLowerAscii hlower]
  exact hx

theorem writePseudoClassWith_append (name : String) (argument rest : List Char) :
    writePseudoClassWith name argument ++ rest =
      ':' :: (writeName name ++ '(' :: (argument ++ ')' :: rest)) := by
  simp [writePseudoClassWith]

theorem isSimple_writeCounting {name : String} {counts : Nth → Simple}
    (hlower : name.toList.all Text.isLowerAscii = true)
    (hcounts : countingPseudoClass? name = some counts) (f : Nth) (rest : List Char) :
    IsSimple (writePseudoClassWith name (writeFormula f) ++ rest) (counts f) rest := by
  have hname : name ≠ "" := by
    rintro rfl
    cases hcounts
  rw [writePseudoClassWith_append]
  refine .counting (isIdentifier_writeName hname (stopsName_cons (by decide) _)) ?_
    (isSpaces_writeFormula f _) (isFormula_writeFormula f rest) (isSpaces_cons nofun)
  rw [Text.lower_eq_of_isLowerAscii hlower]
  exact hcounts

theorem isSimple_writeContains (text : String) (rest : List Char) :
    IsSimple (writePseudoClassWith "contains" (writeString text) ++ rest) (.contains text) rest := by
  rw [writePseudoClassWith_append]
  exact .contains (isIdentifier_writeName (by decide) (stopsName_cons (by decide) _))
    (Text.lower_eq_of_isLowerAscii (by decide)) (isSpaces_cons nofun)
    (isValue_writeString text _) (isSpaces_cons nofun)

theorem isSimple_writeNot {alternatives : List Chain}
    (hspaces : IsSpaces (writeChains alternatives ++ ')' :: rest)
      (writeChains alternatives ++ ')' :: rest))
    (hlist : IsList (writeChains alternatives ++ ')' :: rest) alternatives (')' :: rest)) :
    IsSimple (writePseudoClassWith "not" (writeChains alternatives) ++ rest) (.not alternatives)
      rest := by
  rw [writePseudoClassWith_append]
  exact .not (isIdentifier_writeName (by decide) (stopsName_cons (by decide) _))
    (Text.lower_eq_of_isLowerAscii (by decide)) hspaces hlist (isSpaces_cons nofun)

/-! ### Parts and chains -/

theorem begins_writeSimple (x : Simple) : ∃ c ∈ nameStops, ∃ cs, writeSimple x = c :: cs := by
  cases x with
  | hasClass => exact ⟨'.', by decide, _, rfl⟩
  | hasId => exact ⟨'#', by decide, _, rfl⟩
  | hasAttribute => exact ⟨'[', by decide, _, rfl⟩
  | _ => exact ⟨':', by decide, _, rfl⟩

theorem stopsName_writeSimples (h : StopsName rest) (xs : List Simple) :
    StopsName (writeSimples xs ++ rest) := by
  cases xs with
  | nil => exact h
  | cons x xs =>
    obtain ⟨c, hc, cs, hx⟩ := begins_writeSimple x
    rw [writeSimples, hx]
    exact stopsName_cons hc _

theorem stopsName_writeParts (h : StopsName rest) (parts : List Part) :
    StopsName (writeParts parts ++ rest) := by
  cases parts with
  | nil => exact h
  | cons part parts =>
    rw [writeParts]
    refine stopsName_cons ?_ _
    cases part.relation <;> decide

theorem isSpaces_writePart {part : Part} (h : PartWellFormed part) (rest : List Char) :
    IsSpaces (writePart part ++ rest) (writePart part ++ rest) := by
  rcases part with ⟨relation, tag?, simples⟩
  cases tag? with
  | none => exact isSpaces_cons nofun
  | some tag =>
    rw [writePart, List.append_assoc]
    exact isSpaces_writeName (h.1 tag rfl).1 _

theorem isSpaces_space (h : IsSpaces rest rest) : IsSpaces (' ' :: rest) rest := by
  obtain ⟨_, h⟩ := h
  refine ⟨[' '], rfl, fun c hc => ?_, h.ends⟩
  rw [List.mem_singleton.1 hc]
  rfl

theorem isLead_leadOf (relation : Combinator) (h : IsSpaces rest rest) :
    IsSpaces (leadOf relation ++ rest) (leadOf relation ++ rest) ∧
      IsLead (leadOf relation ++ rest) relation rest := by
  cases relation with
  | descendant => exact ⟨h, .none rest⟩
  | child | adjacent | general => exact ⟨isSpaces_cons nofun, .mark rfl h⟩

theorem isSpaces_writeChain {chain : Chain} (hsome : chain ≠ []) (h : PartsWellFormed chain)
    (rest : List Char) : IsSpaces (writeChain chain ++ rest) (writeChain chain ++ rest) := by
  cases chain with
  | nil => exact absurd rfl hsome
  | cons first parts =>
    rw [writeChain, List.append_assoc, List.append_assoc]
    exact (isLead_leadOf _ (isSpaces_writePart h.1 _)).1

theorem isSpaces_writeChains {alternatives : List Chain} (hsome : alternatives ≠ [])
    (h : ChainsWellFormed alternatives) (rest : List Char) :
    IsSpaces (writeChains alternatives ++ rest) (writeChains alternatives ++ rest) := by
  match alternatives with
  | [] => exact absurd rfl hsome
  | [chain] => exact isSpaces_writeChain h.1.1 h.1.2 rest
  | chain :: next :: chains =>
    rw [writeChains, List.append_assoc]
    exact isSpaces_writeChain h.1.1 h.1.2 _

/-- A part behind its mark, and what comes after it. -/
theorem isTail_markOf {part : Part} {parts : List Part} {text after rest : List Char}
    (hspaces : IsSpaces text text) (hpart : IsPart part.relation text part after)
    (htail : IsTail after parts rest) :
    IsTail (markOf part.relation :: text) (part :: parts) rest := by
  cases hr : part.relation with
  | descendant =>
    rw [hr] at hpart
    exact .space (isSpaces_space hspaces) (List.cons_ne_self _ _) hpart htail
  | child | adjacent | general =>
    rw [hr] at hpart
    exact .mark (isSpaces_cons nofun) rfl hspaces hpart htail

mutual

theorem isSimple_writeSimple : ∀ (x : Simple), SimpleWellFormed x → ∀ {rest : List Char},
    StopsName rest → IsSimple (writeSimple x ++ rest) x rest
  | .hasClass name, h, _, hrest => .hasClass (isIdentifier_writeName h hrest)
  | .hasId name, h, _, hrest => .hasId (isName_writeName h hrest)
  | .hasAttribute test, h, rest, _ => .hasAttribute (isAttributeTest_writeTest h rest)
  | .firstChild, _, _, hrest => isSimple_writePseudoClass (by decide) rfl hrest
  | .lastChild, _, _, hrest => isSimple_writePseudoClass (by decide) rfl hrest
  | .onlyChild, _, _, hrest => isSimple_writePseudoClass (by decide) rfl hrest
  | .firstOfType, _, _, hrest => isSimple_writePseudoClass (by decide) rfl hrest
  | .lastOfType, _, _, hrest => isSimple_writePseudoClass (by decide) rfl hrest
  | .onlyOfType, _, _, hrest => isSimple_writePseudoClass (by decide) rfl hrest
  | .nthChild f, _, rest, _ => isSimple_writeCounting (by decide) rfl f rest
  | .nthLastChild f, _, rest, _ => isSimple_writeCounting (by decide) rfl f rest
  | .nthOfType f, _, rest, _ => isSimple_writeCounting (by decide) rfl f rest
  | .nthLastOfType f, _, rest, _ => isSimple_writeCounting (by decide) rfl f rest
  | .empty, _, _, hrest => isSimple_writePseudoClass (by decide) rfl hrest
  | .root, _, _, hrest => isSimple_writePseudoClass (by decide) rfl hrest
  | .not alternatives, h, rest, _ =>
    isSimple_writeNot (isSpaces_writeChains h.1 h.2 _)
      (isList_writeChains alternatives h.1 h.2 (stopsName_cons (by decide) rest) (isSpaces_cons nofun))
  | .contains text, _, rest, _ => isSimple_writeContains text rest

theorem isPart_writePart : ∀ (part : Part), PartWellFormed part → ∀ {rest : List Char},
    StopsName rest → IsPart part.relation (writePart part ++ rest) part rest
  | ⟨relation, none, simples⟩, h, _, hrest => .star (isSimples_writeSimples simples h.2 hrest)
  | ⟨relation, some tag, simples⟩, h, rest, hrest => by
    obtain ⟨hsome, hlower⟩ := h.1 tag rfl
    have hpart : IsPart relation _ ⟨relation, some (Text.lower tag), simples⟩ rest :=
      .named (isIdentifier_writeName hsome (stopsName_writeSimples hrest simples))
        (isSimples_writeSimples simples h.2 hrest)
    rw [hlower] at hpart
    rw [writePart, List.append_assoc]
    exact hpart

theorem isSimples_writeSimples : ∀ (xs : List Simple), SimplesWellFormed xs →
    ∀ {rest : List Char}, StopsName rest → IsSimples (writeSimples xs ++ rest) xs rest
  | [], _, rest, _ => .nil rest
  | x :: xs, h, _, hrest => by
    rw [writeSimples, List.append_assoc]
    exact .cons (isSimple_writeSimple x h.1 (stopsName_writeSimples hrest xs))
      (isSimples_writeSimples xs h.2 hrest)

theorem isTail_writeParts : ∀ (parts : List Part), PartsWellFormed parts → ∀ {rest : List Char},
    StopsName rest → IsSpaces rest rest → IsTail (writeParts parts ++ rest) parts rest
  | [], _, _, _, hspaces => .nil hspaces
  | part :: parts, h, rest, hrest, hspaces => by
    rw [writeParts, List.cons_append, List.append_assoc]
    exact isTail_markOf (isSpaces_writePart h.1 _)
      (isPart_writePart part h.1 (stopsName_writeParts hrest parts))
      (isTail_writeParts parts h.2 hrest hspaces)

theorem isChain_writeChain : ∀ (chain : List Part), chain ≠ [] → PartsWellFormed chain →
    ∀ {rest : List Char}, StopsName rest → IsSpaces rest rest →
      IsChain (writeChain chain ++ rest) chain rest
  | [], hsome, _, _, _, _ => absurd rfl hsome
  | first :: parts, _, h, rest, hrest, hspaces => by
    rw [writeChain, List.append_assoc, List.append_assoc]
    obtain ⟨hlead, hmark⟩ := isLead_leadOf first.relation (isSpaces_writePart h.1 _)
    exact .mk hlead hmark (isPart_writePart first h.1 (stopsName_writeParts hrest parts))
      (isTail_writeParts parts h.2 hrest hspaces)

theorem isList_writeChains : ∀ (chains : List (List Part)), chains ≠ [] →
    ChainsWellFormed chains → ∀ {rest : List Char}, StopsName rest → IsSpaces rest rest →
      IsList (writeChains chains ++ rest) chains rest
  | [], hsome, _, _, _, _ => absurd rfl hsome
  | [chain], _, h, _, hrest, hspaces => .last (isChain_writeChain chain h.1.1 h.1.2 hrest hspaces)
  | chain :: next :: chains, _, h, rest, hrest, hspaces => by
    rw [writeChains, List.append_assoc]
    exact .comma (isChain_writeChain chain h.1.1 h.1.2 (stopsName_cons (by decide) _)
      (isSpaces_cons nofun))
      (isList_writeChains (next :: chains) (List.cons_ne_nil _ _) h.2 hrest hspaces)

end

theorem isSelector_write {alternatives : List Chain} (h : WellFormed alternatives) :
    IsSelector (write alternatives).toList alternatives := by
  rw [write, String.toList_ofList]
  rcases h with rfl | ⟨hsome, h⟩
  · exact .blank isSpaces_nil
  · have hspaces := isSpaces_writeChains hsome h []
    have hlist : IsList (writeChains alternatives ++ []) alternatives [] :=
      isList_writeChains alternatives hsome h nofun isSpaces_nil
    rw [List.append_nil] at hspaces hlist
    exact .list hspaces hlist

/-- The space behind a code point is read with it, so it is no combinator. -/
example : write [[⟨.child, some "a", [.hasClass "b c", .not [[⟨.descendant, none, []⟩]]]⟩]] =
    ">a.b\\000020 c:not(*)" := by decide

/-- The lists of alternatives that texts compile to are the well-formed ones. -/
theorem exists_scan_iff_wellFormed (alternatives : List Chain) :
    (∃ source, (scan source).map (·.alternatives) = .ok alternatives) ↔ WellFormed alternatives := by
  constructor
  · rintro ⟨source, h⟩
    rw [scan_eq] at h
    rcases parse_cases source with ⟨L, hL, hparse⟩ | ⟨-, e, hparse⟩
    · rw [hparse] at h
      cases h
      exact hL.wellFormed
    · rw [hparse] at h
      cases h
  · intro h
    refine ⟨write alternatives, ?_⟩
    rw [scan_eq]
    rcases parse_cases (write alternatives) with ⟨L, hL, hparse⟩ | ⟨hnone, -⟩
    · rw [hparse, (isSelector_write h).unique hL]
      rfl
    · exact absurd ⟨alternatives, isSelector_write h⟩ hnone

end MarkupTree.Selector
