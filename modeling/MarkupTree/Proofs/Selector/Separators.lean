import MarkupTree.Proofs.Selector.Enclosed
import MarkupTree.Proofs.Selector.Errors
import MarkupTree.Proofs.Text.LowerCase

/-!
# White space between parts

White space behind a part separates it from the next one, however much there is and of whatever
kind, but for one thing: characters that are not ASCII are characters of names, so white space of
that kind goes on with a name that the part ends with.
-/

namespace MarkupTree

/-- The text of a part ends with a name, and not with a star or a bracket. -/
def Part.endsInName (p : Part) : Bool :=
  match p.simples.getLast? with
  | some x => x.endsInName
  | none => p.tag?.isSome

namespace Selector

open Reader

variable {s t u x y w : List Char} {c : Char} {n m : String}

/-! ### Names to the end of a text -/

/-- White space that is ASCII stops a name, and other white space is in names. -/
theorem isNameChar_of_isSpace (h : Text.isSpace c = true) : isNameChar c = !isAscii c := by
  by_cases hc : c.toNat < 128
  · exact Text.forall_ascii (P := fun c => Text.isSpace c = true → isNameChar c = !isAscii c)
      (by decide) hc h
  · have hascii : isAscii c = false := decide_eq_false hc
    simp [isNameChar, hascii]

/-- Without a backslash a name is what it says. -/
theorem IsLetters.plain {cs : List Char} (h : IsLetters s cs t) :
    t = [] → '\\' ∉ s → cs = s ∧ ∀ c ∈ s, isNameChar c = true := by
  induction h with
  | stop =>
    rintro rfl -
    exact ⟨rfl, nofun⟩
  | more h h' ih =>
    intro ht hs
    cases h with
    | plain rest hc =>
      obtain ⟨rfl, hall⟩ := ih ht fun hmem => hs (List.mem_cons_of_mem _ hmem)
      exact ⟨rfl, List.forall_mem_cons.2 ⟨hc, hall⟩⟩
    | escaped => exact absurd List.mem_cons_self hs

/-- Characters of names that are not escaped are read one by one. -/
theorem isLetters_append {ds : List Char} (hall : ∀ c ∈ s, isNameChar c = true) :
    IsLetters (s ++ x) ds t ↔ ∃ cs, ds = s ++ cs ∧ IsLetters x cs t := by
  induction s generalizing ds with
  | nil => simp
  | cons c s ih =>
    obtain ⟨hc, hall⟩ := List.forall_mem_cons.1 hall
    constructor
    · intro h
      cases h with
      | stop h => exact absurd hc (h c rfl).1
      | more h h' =>
        cases h with
        | plain =>
          obtain ⟨cs, rfl, hcs⟩ := (ih hall).1 h'
          exact ⟨cs, rfl, hcs⟩
        | escaped => cases hc
    · rintro ⟨cs, rfl, h⟩
      exact .more (.plain _ hc) ((ih hall).2 ⟨cs, rfl, h⟩)

theorem IsName.plain (h : IsName s n []) (hs : '\\' ∉ s) :
    n = String.ofList s ∧ s ≠ [] ∧ ∀ c ∈ s, isNameChar c = true := by
  cases h with
  | mk hsome h =>
    obtain ⟨rfl, hall⟩ := h.plain rfl hs
    exact ⟨rfl, hsome, hall⟩

theorem IsName.append_stop (h : IsName s n []) (hs : '\\' ∉ s) (hx : StopsName x) :
    IsName (s ++ x) n x := by
  obtain ⟨rfl, hsome, hall⟩ := h.plain hs
  have hletters := (isLetters_append hall).2 ⟨[], rfl, .stop hx⟩
  rw [List.append_nil] at hletters
  exact .mk hsome hletters

theorem IsIdentifier.append_stop (h : IsIdentifier s n []) (hs : '\\' ∉ s) (hx : StopsName x) :
    IsIdentifier (s ++ x) n x := ⟨h.begins_append x, h.isName.append_stop hs hx⟩

/-- With a character of names behind it a name goes on, and is another name in lower case too. -/
theorem IsName.lower_ne (h : IsName s n []) (hs : '\\' ∉ s)
    (hx : ∃ c ∈ x.head?, isNameChar c = true) (h' : IsName (s ++ x) m t) :
    Text.lower n ≠ Text.lower m := by
  obtain ⟨rfl, -, hall⟩ := h.plain hs
  cases h' with
  | mk _ h' =>
    obtain ⟨cs, rfl, hcs⟩ := (isLetters_append hall).1 h'
    refine Ne.symm (Text.lower_append_ne s fun hnil => ?_)
    subst hnil
    obtain ⟨c, hc, hname⟩ := hx
    cases hcs with
    | stop h => exact (h c hc).1 hname

/-! ### Simple selectors to the end of a text -/

/-- The name of a pseudo-class without an argument. -/
def plainName : Simple → String
  | .firstChild => "first-child"
  | .lastChild => "last-child"
  | .onlyChild => "only-child"
  | .firstOfType => "first-of-type"
  | .lastOfType => "last-of-type"
  | .onlyOfType => "only-of-type"
  | .empty => "empty"
  | .root => "root"
  | _ => ""

theorem plainName_eq {a : Simple} (h : plainPseudoClass? n = some a) : plainName a = n := by
  unfold plainPseudoClass? at h
  split at h <;> cases h <;> rfl

theorem endsInName_of_counting {counts : Nth → Simple} (h : countingPseudoClass? n = some counts)
    (f : Nth) : (counts f).endsInName = false := by
  unfold countingPseudoClass? at h
  split at h <;> cases h <;> rfl

/-- The mark of a simple selector that ends with a name, and the name. -/
inductive IsNamed : Char → String → Simple → Prop
  | hasClass (n : String) : IsNamed '.' n (.hasClass n)
  | hasId (n : String) : IsNamed '#' n (.hasId n)
  | plain {n : String} {a : Simple} (h : plainPseudoClass? (Text.lower n) = some a) :
      IsNamed ':' n a

/-- Up to lower case a simple selector tells its name. -/
theorem IsNamed.unique {a : Simple} (h : IsNamed c n a) (h' : IsNamed c m a) :
    Text.lower n = Text.lower m := by
  cases h with
  | hasClass => cases h' with
    | hasClass => rfl
  | hasId => cases h' with
    | hasId => rfl
  | plain h => cases h' with
    | plain h' => rw [← plainName_eq h, ← plainName_eq h']

theorem IsSimple.exists_isNamed {a : Simple} (h : IsSimple s a t) (ha : a.endsInName = true) :
    ∃ c s₁ n, s = c :: s₁ ∧ IsName s₁ n t ∧ IsNamed c n a := by
  cases h with
  | hasClass h => exact ⟨_, _, _, rfl, h.isName, .hasClass _⟩
  | hasId h => exact ⟨_, _, _, rfl, h, .hasId _⟩
  | hasAttribute => cases ha
  | plain hname h => exact ⟨_, _, _, rfl, hname.isName, .plain h⟩
  | counting _ h => cases (endsInName_of_counting h _).symm.trans ha
  | not => cases ha
  | contains => cases ha

/-- With a character of names behind it, a simple selector that ends with a name is another one. -/
theorem IsSimple.not_append {a : Simple} (h : IsSimple s a []) (hs : '\\' ∉ s)
    (ha : a.endsInName = true) (hx : ∃ c ∈ x.head?, isNameChar c = true) :
    ¬ IsSimple (s ++ x) a t := by
  intro h'
  obtain ⟨c, s₁, n, rfl, hn, hnamed⟩ := h.exists_isNamed ha
  obtain ⟨d, s₂, m, heq, hm, hnamed'⟩ := h'.exists_isNamed ha
  obtain ⟨rfl, rfl⟩ := List.cons.inj heq
  exact hn.lower_ne (mt (List.mem_cons_of_mem _) hs) hx hm (hnamed.unique hnamed')

theorem IsSimple.append_stop {a : Simple} (h : IsSimple s a []) (hs : '\\' ∉ s)
    (hx : a.endsInName = true → StopsName x) : IsSimple (s ++ x) a x := by
  cases ha : a.endsInName with
  | false => exact h.append fun hname => absurd hname (Bool.eq_false_iff.1 ha)
  | true =>
    have hstop := hx ha
    cases h with
    | hasClass h => exact .hasClass (h.append_stop (mt (List.mem_cons_of_mem _) hs) hstop)
    | hasId h => exact .hasId (h.append_stop (mt (List.mem_cons_of_mem _) hs) hstop)
    | hasAttribute => cases ha
    | plain hname h =>
      exact .plain (hname.append_stop (mt (List.mem_cons_of_mem _) hs) hstop) h
    | counting _ h => cases (endsInName_of_counting h _).symm.trans ha
    | not => cases ha
    | contains => cases ha

/-! ### What is left is an end of the text -/

theorem IsSimple.suffix {a : Simple} (h : IsSimple s a t) (ht : t.head? ≠ some '(') : t <:+ s := by
  have hagree : Agree s s (simpleStep (chains s.length)) (simpleStep (chains s.length)) :=
    agree_simpleStep List.suffix_rfl (innerAgree_chains List.suffix_rfl (Nat.le_succ _))
  exact hagree.suffix (h.reads (Nat.le_succ _) ht)

theorem IsPart.suffix {relation : Combinator} {p : Part} (h : IsPart relation s p t)
    (ht : EndsPart t) : t <:+ s := by
  have hagree : Agree s s (part (chains s.length) relation) (part (chains s.length) relation) :=
    agree_part (isList_of_reads_chains _) relation List.suffix_rfl
      (innerAgree_chains List.suffix_rfl (Nat.le_succ _))
  exact hagree.suffix (h.reads (Nat.le_succ _) ht)

theorem IsSimples.head? {a : Simple} {xs : List Simple} (h : IsSimples s (a :: xs) t) :
    ∃ c s₁, s = c :: s₁ ∧ isSimpleMark c = true := by
  obtain ⟨c, hc, hmark⟩ := h.begins (List.cons_ne_nil _ _)
  obtain ⟨s₁, rfl⟩ := List.head?_eq_some_iff.1 hc
  exact ⟨c, s₁, rfl, hmark⟩

/-- A simple selector and further ones behind it, with more behind all. -/
theorem IsSimple.append_of_more {a b : Simple} {xs : List Simple} (h : IsSimple s a u)
    (h' : IsSimples u (b :: xs) t) (x : List Char) :
    u <:+ s ∧ IsSimple (s ++ x) a (u ++ x) ∧ (u ++ x).head? ≠ some '(' := by
  obtain ⟨c, u₁, rfl, hmark⟩ := h'.head?
  have hc : some c ≠ some '(' := by
    rintro ⟨⟩
    cases hmark
  exact ⟨h.suffix hc, h.append fun _ => seam_cons c u₁ x, hc⟩

/-- The simple selectors to the end of a text are read before more text as well, if that does not go
on with a name at the end. -/
theorem IsSimples.append_stop {xs : List Simple} (h : IsSimples s xs []) (hs : '\\' ∉ s)
    (hx : (∃ a ∈ xs.getLast?, a.endsInName = true) → StopsName x) : IsSimples (s ++ x) xs x := by
  induction xs generalizing s with
  | nil =>
    cases h
    exact .nil x
  | cons a xs ih =>
    cases h with
    | cons h h' =>
      cases xs with
      | nil =>
        cases h'
        exact .cons (h.append_stop hs fun ha => hx ⟨a, rfl, ha⟩) (.nil x)
      | cons b xs =>
        obtain ⟨hsuffix, happend, -⟩ := h.append_of_more h' x
        rw [List.getLast?_cons_cons] at hx
        exact .cons happend (ih h' (fun hmem => hs (hsuffix.subset hmem)) hx)

/-- The simple selectors to the end of a text are not read if a name at the end goes on. -/
theorem IsSimples.not_steps {xs : List Simple} {depth : Nat} (h : IsSimples s xs [])
    (hs : '\\' ∉ s) (hends : ∃ a ∈ xs.getLast?, a.endsInName = true)
    (hx : ∃ c ∈ x.head?, isNameChar c = true) (hlen : (s ++ x).length ≤ depth + 1) :
    ¬ Steps (simpleStep (chains depth)) (s ++ x) xs t := by
  intro hsteps
  -- All but the last of them end at the mark of the next, so only the last one sees what is behind.
  induction xs generalizing s with
  | nil =>
    obtain ⟨a, ha, -⟩ := hends
    cases ha
  | cons a xs ih =>
    cases h with
    | cons h h' =>
      cases hsteps with
      | more hstep hsteps =>
        cases xs with
        | nil =>
          cases h'
          obtain ⟨_, ⟨⟩, ha⟩ := hends
          exact h.not_append hs ha hx (isSimple_of_reads (isList_of_reads_chains depth) hstep)
        | cons b xs =>
          obtain ⟨hsuffix, happend, hbracket⟩ := h.append_of_more h' x
          have hread := happend.reads hlen hbracket
          obtain ⟨-, rfl⟩ := hread.unique hstep
          rw [List.getLast?_cons_cons] at hends
          have hle := Nat.le_trans (Nat.le_of_lt happend.length_lt) hlen
          exact ih h' (fun hmem => hs (hsuffix.subset hmem)) hends hle hsteps

/-! ### Parts to the end of a text -/

theorem endsInName_simples {relation : Combinator} {tag? : Option String} {xs : List Simple}
    (hxs : tag? = none ∨ xs ≠ []) (h : (⟨relation, tag?, xs⟩ : Part).endsInName = true) :
    ∃ a ∈ xs.getLast?, a.endsInName = true := by
  unfold Part.endsInName at h
  split at h
  · next a ha => exact ⟨a, ha, h⟩
  · next hnone =>
    rcases hxs with rfl | hxs
    · cases h
    · exact absurd (List.getLast?_eq_none_iff.1 hnone) hxs

theorem endsInName_of_simples {relation : Combinator} {tag? : Option String} {xs : List Simple}
    (h : ∃ a ∈ xs.getLast?, a.endsInName = true) :
    (⟨relation, tag?, xs⟩ : Part).endsInName = true := by
  obtain ⟨a, ha, h⟩ := h
  show (match xs.getLast? with | some x => x.endsInName | none => tag?.isSome) = true
  rw [Option.mem_def.1 ha]
  exact h

/-- A name with simple selectors behind it ends before their first mark. -/
theorem IsIdentifier.append_of_more {a : Simple} {xs : List Simple} (h : IsIdentifier s n u)
    (h' : IsSimples u (a :: xs) t) (x : List Char) :
    u <:+ s ∧ IsIdentifier (s ++ x) n (u ++ x) := by
  obtain ⟨c, u₁, rfl, -⟩ := h'.head?
  have hagree : Agree s s identifier identifier := agree_identifier List.suffix_rfl
  exact ⟨hagree.suffix (reads_identifier.2 h), h.append (seam_cons c u₁ x)⟩

/-- A part to the end of a text is read before more text as well, if that does not go on with a name
at the end. -/
theorem IsPart.append_stop {relation : Combinator} {p : Part} (h : IsPart relation s p [])
    (hs : '\\' ∉ s) (hx : p.endsInName = true → StopsName x) : IsPart relation (s ++ x) p x := by
  cases h with
  | star h =>
    refine .star (h.append_stop (mt (List.mem_cons_of_mem _) hs) fun hends => ?_)
    exact hx (endsInName_of_simples hends)
  | simples hsome h =>
    exact .simples hsome (h.append_stop hs fun hends => hx (endsInName_of_simples hends))
  | @named _ _ _ _ _ xs hname h =>
    cases xs with
    | nil =>
      cases h
      exact .named (hname.append_stop hs (hx rfl)) (.nil x)
    | cons a xs =>
      obtain ⟨hsuffix, happend⟩ := hname.append_of_more h x
      refine .named happend (h.append_stop (fun hmem => hs (hsuffix.subset hmem)) fun hends => ?_)
      exact hx (endsInName_of_simples hends)

/-- A part to the end of a text is not read if a name at the end goes on. -/
theorem IsPart.not_reads {relation : Combinator} {p : Part} {depth : Nat}
    (h : IsPart relation s p []) (hs : '\\' ∉ s) (hends : p.endsInName = true)
    (hx : ∃ c ∈ x.head?, isNameChar c = true) (hlen : (s ++ x).length ≤ depth + 1) :
    ¬ Reads (part (chains depth) relation) (s ++ x) p t := by
  intro hreads
  -- How the part begins decides which of its readers reads it, with more text behind it or not.
  cases h with
  | star h =>
    rcases reads_part.1 hreads with ⟨_, xs, hu, hmany, hp⟩ | ⟨hstar, -⟩ | ⟨hstar, -⟩
    · cases hu
      cases hp
      exact h.not_steps (mt (List.mem_cons_of_mem _) hs) (endsInName_simples (.inl rfl) hends) hx
        (Nat.le_of_succ_le hlen) (steps_of_reads_many hmany)
    · exact hstar rfl
    · exact hstar rfl
  | simples hsome h =>
    obtain ⟨c, hc, hmark⟩ := h.begins hsome
    obtain ⟨s₁, rfl⟩ := List.head?_eq_some_iff.1 hc
    have hhead : c ≠ '*' ∧ ¬ isNameStart c = true := by
      rcases isSimpleMark_iff.1 hmark with rfl | rfl | rfl | rfl <;> exact ⟨nofun, nofun⟩
    rcases reads_part.1 hreads with ⟨_, xs, hu, -⟩ | ⟨-, m, u, xs, hm, -⟩ | ⟨-, -, xs, -, hmany, hp⟩
    · exact hhead.1 (List.cons.inj hu).1
    · exact hhead.2 hm.begins
    · cases hp
      exact h.not_steps hs (endsInName_simples (.inl rfl) hends) hx hlen (steps_of_reads_many hmany)
  | @named _ _ _ _ _ xs hname h =>
    have hbegins := hname.begins_append x
    rcases reads_part.1 hreads with ⟨_, xs, hu, -⟩ | ⟨-, m, u, ys, hm, hmany, hp⟩ | ⟨-, hne, -⟩
    · rw [hu] at hbegins
      cases hbegins
    · obtain ⟨-, htag, rfl⟩ := Part.mk.inj hp
      cases xs with
      | nil =>
        cases h
        exact hname.isName.lower_ne hs hx hm.isName (Option.some.inj htag)
      | cons a xs =>
        obtain ⟨hsuffix, happend⟩ := hname.append_of_more h x
        obtain ⟨-, rfl⟩ := happend.unique hm
        have hle := Nat.le_trans (Nat.le_of_lt happend.length_lt) hlen
        have hlast := endsInName_simples (.inr (List.cons_ne_nil _ _)) hends
        exact h.not_steps (fun hmem => hs (hsuffix.subset hmem)) hlast hx hle
          (steps_of_reads_many hmany)
    · exact hne hbegins

/-! ### Chains of parts -/

theorem IsPart.relation_eq {relation : Combinator} {p : Part} (h : IsPart relation s p t) :
    p.relation = relation := by
  cases h <;> rfl

/-- One alternative without a mark at its beginning. -/
theorem isSelector_cons {p : Part} {ps : List Part} (hp : p.relation = .descendant) :
    IsSelector s [p :: ps] ↔
      ∃ u v, IsSpaces s u ∧ IsPart .descendant u p v ∧ IsTail v ps [] := by
  constructor
  · intro h
    cases h with
    | list hspaces hlist =>
      cases hlist with
      | comma _ h => cases h
      | last h =>
        cases h with
        | mk hspaces' hlead hpart htail =>
          obtain rfl := hspaces.self.unique hspaces'
          rw [hpart.relation_eq] at hp
          subst hp
          cases hlead with
          | mark hmark => rcases combinatorOf?_eq_some hmark with rfl | rfl | rfl <;> cases hmark
          | none => exact ⟨_, _, hspaces, hpart, htail⟩
  · rintro ⟨u, v, hspaces, hpart, htail⟩
    exact .list hspaces (.last (.mk hspaces.self (.none u) hpart htail))

/-- A single part without white space is all of its text. -/
theorem isPart_of_isSelector {p : Part} (h : IsSelector s [[p]]) (hp : p.relation = .descendant)
    (hspace : ∀ c ∈ s, ¬ Text.isSpace c = true) : IsPart .descendant s p [] := by
  obtain ⟨u, v, hspaces, hpart, htail⟩ := (isSelector_cons hp).1 h
  obtain rfl := (isSpaces_self fun c hc => hspace c (List.mem_of_mem_head? hc)).unique hspaces
  have hsuffix := hpart.suffix (htail.endsPart rfl)
  cases htail with
  | nil hblank =>
    obtain ⟨run, hrun⟩ := hblank
    have hv : v = [] := by
      refine List.eq_nil_iff_forall_not_mem.2 fun c hc => hspace c (hsuffix.subset hc) ?_
      rw [hrun.text_eq, List.append_nil] at hc
      exact hrun.all c hc
    exact hv ▸ hpart

theorem IsSpaces.append_left (h : IsSpaces y u) (hw : ∀ c ∈ w, Text.isSpace c = true) :
    IsSpaces (w ++ y) u := by
  obtain ⟨run, h⟩ := h
  refine ⟨w ++ run, ?_, List.forall_mem_append.2 ⟨hw, h.all⟩, h.ends⟩
  rw [h.text_eq, List.append_assoc]

/-- White space between two parts makes them a chain just if it does not go on with a name at the
end of the first. -/
theorem isSelector_separated {p q : Part} (hs : IsSelector s [[p]])
    (hp : p.relation = .descendant) (hplain : ∀ c ∈ s, c ≠ '\\' ∧ ¬ Text.isSpace c = true)
    (hy : IsSelector y [[q]]) (hq : q.relation = .descendant)
    (hw : ∀ d ∈ c :: w, Text.isSpace d = true) :
    IsSelector (s ++ (c :: w ++ y)) [[p, q]] ↔ isAscii c = true ∨ ¬ p.endsInName = true := by
  have hpart := isPart_of_isSelector hs hp fun d hd => (hplain d hd).2
  have hslash : '\\' ∉ s := fun hmem => (hplain _ hmem).1 rfl
  have hc := hw c List.mem_cons_self
  have hname := isNameChar_of_isSpace hc
  have hbegins : IsSpaces (s ++ (c :: w ++ y)) (s ++ (c :: w ++ y)) := by
    have hlt := hpart.length_lt
    cases s with
    | nil => cases hlt
    | cons d s => exact isSpaces_cons (hplain d List.mem_cons_self).2
  constructor
  · intro h
    cases hascii : isAscii c with
    | true => exact .inl rfl
    | false =>
      refine .inr fun hends => ?_
      obtain ⟨u, v, hspaces, hpart', htail⟩ := (isSelector_cons hp).1 h
      obtain rfl := hbegins.unique hspaces
      have hgoes : isNameChar c = true := by rw [hname, hascii]; rfl
      exact hpart.not_reads hslash hends ⟨c, rfl, hgoes⟩ (Nat.le_succ _)
        (hpart'.reads (Nat.le_succ _) (htail.endsPart rfl))
  · intro h
    obtain ⟨u, v, hspaces, hpart', htail⟩ := (isSelector_cons hq).1 hy
    have hstop : p.endsInName = true → StopsName (c :: w ++ y) := by
      rintro hends _ ⟨⟩
      refine ⟨?_, ?_⟩
      · rw [hname, h.resolve_right fun hn => hn hends]
        exact nofun
      · rintro rfl
        cases hc
    have hne : c :: w ++ y ≠ u := by
      rintro rfl
      have hle := hspaces.length_le
      rw [List.length_append, List.length_cons] at hle
      omega
    refine (isSelector_cons hp).2 ⟨_, _, hbegins, hpart.append_stop hslash hstop, ?_⟩
    exact .space (hspaces.append_left hw) hne hpart' htail

/-- Two selectors of one part each, the first without a backslash and white space in it, with a
space between them are a chain of both parts. With other white space between them they are the same
chain just if it begins with an ASCII character or the first part does not end with a name. -/
theorem scan_separated {a b gap : String} {p q : Part} (ha : scan a = .ok ⟨a, [[p]]⟩)
    (hb : scan b = .ok ⟨b, [[q]]⟩) (hp : p.relation = .descendant)
    (hq : q.relation = .descendant)
    (hplain : ∀ c ∈ a.toList, c ≠ '\\' ∧ ¬ Text.isSpace c = true) (hgap : gap ≠ "")
    (hspace : ∀ c ∈ gap.toList, Text.isSpace c = true) :
    scan (a ++ " " ++ b) = .ok ⟨a ++ " " ++ b, [[p, q]]⟩ ∧
    (scan (a ++ gap ++ b) = .ok ⟨a ++ gap ++ b, [[p, q]]⟩ ↔
      (∀ c ∈ gap.toList.head?, isAscii c = true) ∨ ¬ p.endsInName = true) := by
  have hchain : ∀ (c : Char) (w : List Char), (∀ d ∈ c :: w, Text.isSpace d = true) →
      ∀ g : String, g.toList = c :: w → (scan (a ++ g ++ b) = .ok ⟨a ++ g ++ b, [[p, q]]⟩ ↔
        isAscii c = true ∨ ¬ p.endsInName = true) := by
    intro c w hw g hg
    rw [scan_eq_ok, String.toList_append, String.toList_append, List.append_assoc, hg]
    exact (and_iff_right rfl).trans
      (isSelector_separated (scan_eq_ok.1 ha).2 hp hplain (scan_eq_ok.1 hb).2 hq hw)
  constructor
  · exact (hchain ' ' [] (List.forall_mem_singleton.2 rfl) " " rfl).2 (.inl rfl)
  · obtain ⟨c, w, hcw⟩ := List.exists_cons_of_ne_nil (mt String.toList_eq_nil_iff.1 hgap)
    rw [hchain c w (hcw ▸ hspace) gap hcw, hcw]
    simp

/-- A star is no name, so a no-break space separates it from what follows. -/
theorem scan_separated_star :
    scan "*" = .ok ⟨"*", [[⟨.descendant, none, []⟩]]⟩ ∧
    scan "b" = .ok ⟨"b", [[⟨.descendant, some "b", []⟩]]⟩ ∧
    (∀ c ∈ "*".toList, c ≠ '\\' ∧ ¬ Text.isSpace c = true) ∧ "\u00a0" ≠ "" ∧
    (∀ c ∈ "\u00a0".toList, Text.isSpace c = true) ∧
    scan "* b" = .ok ⟨"* b", [[⟨.descendant, none, []⟩, ⟨.descendant, some "b", []⟩]]⟩ ∧
    scan "*\u00a0b" = .ok
      ⟨"*\u00a0b", [[⟨.descendant, none, []⟩, ⟨.descendant, some "b", []⟩]]⟩ := by
  have ha : scan "*" = .ok ⟨"*", [[⟨.descendant, none, []⟩]]⟩ := rfl
  have hb : scan "b" = .ok ⟨"b", [[⟨.descendant, some "b", []⟩]]⟩ := rfl
  have hplain : ∀ c ∈ "*".toList, c ≠ '\\' ∧ ¬ Text.isSpace c = true :=
    List.forall_mem_singleton.2 ⟨by decide, nofun⟩
  have hspace : ∀ c ∈ "\u00a0".toList, Text.isSpace c = true :=
    List.forall_mem_singleton.2 rfl
  obtain ⟨hone, hgap⟩ := scan_separated ha hb rfl rfl hplain (by decide) hspace
  exact ⟨ha, hb, hplain, by decide, hspace, hone, hgap.2 (.inr nofun)⟩

/-- Behind a name a no-break space goes on with it, and the two names become one. -/
theorem scan_no_break_space :
    scan "a" = .ok ⟨"a", [[⟨.descendant, some "a", []⟩]]⟩ ∧
    scan "b" = .ok ⟨"b", [[⟨.descendant, some "b", []⟩]]⟩ ∧
    Text.isSpace '\u00a0' = true ∧
    scan "a b" = .ok ⟨"a b", [[⟨.descendant, some "a", []⟩, ⟨.descendant, some "b", []⟩]]⟩ ∧
    scan "a\u00a0b" = .ok ⟨"a\u00a0b", [[⟨.descendant, some "a\u00a0b", []⟩]]⟩ :=
  ⟨rfl, rfl, rfl, rfl, rfl⟩

end Selector

end MarkupTree
