import MarkupTree.Document.Texts
import MarkupTree.Proofs.Document.Frames
import MarkupTree.Proofs.Reachable
import MarkupTree.Proofs.Text.Tokens

/-!
# Class lists as ordered sets

The classes of an element are kept in the value of one attribute, with white space between them and
with repetitions. Adding and removing a class does to that text what it does to the list of its
tokens, and so to the ordered set of them. An edit that does not change the set does nothing at all.
-/

namespace MarkupTree

/-- A call that edits the class list of an element. -/
inductive ClassEdit where
  | add (token : String)
  | remove (token : String)
deriving DecidableEq, Repr

namespace ClassEdit

def token : ClassEdit → String
  | add token | remove token => token

def command (x : NodeId) : ClassEdit → Command
  | add token => .addClass x token
  | remove token => .removeClass x token

/-- What a call does to an ordered set: a token is put behind the others unless it is there, or is
taken away. -/
def onSet (tokens : List String) : ClassEdit → List String
  | add token => if token ∈ tokens then tokens else tokens ++ [token]
  | remove token => tokens.filter (· != token)

def onAttributes (as : List Attribute) : ClassEdit → List Attribute
  | add token => Attribute.addToken token as
  | remove token => Attribute.removeToken token as

variable {c : ClassEdit} {tokens : List String} {t : String}

theorem distinct_onSet (tokens : List String) (c : ClassEdit) :
    Text.distinct (c.onSet tokens) = c.onSet (Text.distinct tokens) := by
  cases c with
  | add t =>
    simp only [onSet, Text.mem_distinct]
    split
    · rfl
    · rename_i ht
      exact Text.distinct_concat ht
  | remove t => exact Text.distinct_filter _ tokens

theorem onSet_add_eq_self : (add t).onSet tokens = tokens ↔ t ∈ tokens := by
  by_cases ht : t ∈ tokens <;> simp [onSet, ht]

theorem onSet_remove_eq_self : (remove t).onSet tokens = tokens ↔ t ∉ tokens := by
  simp only [onSet, List.filter_eq_self, bne_iff_ne]
  exact ⟨fun h ht => h t ht rfl, fun h a ha hat => h (hat ▸ ha)⟩

theorem onSet_distinct_eq_self :
    c.onSet (Text.distinct tokens) = Text.distinct tokens ↔ c.onSet tokens = tokens := by
  cases c with
  | add t => rw [onSet_add_eq_self, onSet_add_eq_self, Text.mem_distinct]
  | remove t => rw [onSet_remove_eq_self, onSet_remove_eq_self, Text.mem_distinct]

theorem onSet_add_ne_nil : (add t).onSet tokens ≠ [] := by
  rw [onSet]
  split
  · rename_i ht
    exact List.ne_nil_of_mem ht
  · exact List.append_ne_nil_of_right_ne_nil _ (List.cons_ne_nil _ _)

theorem remove_add (h : t ∉ tokens) : (remove t).onSet ((add t).onSet tokens) = tokens := by
  have hself : tokens.filter (· != t) = tokens := onSet_remove_eq_self.2 h
  rw [onSet, onSet, if_neg h, List.filter_append, hself]
  simp

end ClassEdit

/-! ### The value of the attribute -/

namespace Attribute

open ClassEdit

variable {as : List Attribute} {c : ClassEdit} {t : String}

/-- The tokens of the class list, repeated as they are. -/
def classTokens (as : List Attribute) : List String :=
  match lookup? "class" as with
  | some value => Text.tokens value
  | none => []

theorem classTokens_of_some {value : String} (h : lookup? "class" as = some value) :
    classTokens as = Text.tokens value := by
  rw [classTokens, h]

theorem classTokens_of_none (h : lookup? "class" as = none) : classTokens as = [] := by
  rw [classTokens, h]

theorem classTokens_assign (value : String) (as : List Attribute) :
    classTokens (assign "class" value as) = Text.tokens value :=
  classTokens_of_some (lookup?_assign_self ..)

theorem addToken_of_mem (h : t ∈ classTokens as) : addToken t as = as := by
  cases hvalue : lookup? "class" as with
  | none =>
    rw [classTokens_of_none hvalue] at h
    cases h
  | some value =>
    rw [classTokens_of_some hvalue] at h
    rw [addToken, hvalue]
    exact if_pos (Text.hasToken_iff.2 h)

theorem removeToken_of_not_mem (h : t ∉ classTokens as) : removeToken t as = as := by
  cases hvalue : lookup? "class" as with
  | none => rw [removeToken, hvalue]
  | some value =>
    rw [classTokens_of_some hvalue] at h
    rw [removeToken, hvalue]
    exact if_neg (mt Text.hasToken_iff.1 h)

theorem classTokens_addToken (ht : Text.IsWord t.toList) (h : t ∉ classTokens as) :
    classTokens (addToken t as) = classTokens as ++ [t] := by
  cases hvalue : lookup? "class" as with
  | none =>
    rw [addToken, hvalue, classTokens_of_none hvalue, List.nil_append]
    exact (classTokens_assign t as).trans (Text.tokens_of_isWord ht)
  | some value =>
    rw [classTokens_of_some hvalue] at h ⊢
    have hadd : addToken t as =
        if Text.isBlank value then assign "class" t as
        else assign "class" (value ++ " " ++ t) as := by
      rw [addToken, hvalue]
      exact if_neg (mt Text.hasToken_iff.1 h)
    rw [hadd]
    by_cases hblank : Text.isBlank value = true
    · rw [if_pos hblank, classTokens_assign, Text.tokens_of_isWord ht,
        Text.tokens_eq_nil.2 hblank, List.nil_append]
    · rw [if_neg hblank, classTokens_assign, Text.tokens_append_blank, Text.tokens_of_isWord ht]

/-- Where the last token goes the attribute goes, and else the tokens that are left are the
value. -/
theorem removeToken_of_mem (h : t ∈ classTokens as) :
    removeToken t as = match (classTokens as).filter (· != t) with
      | [] => erase "class" as
      | rest => assign "class" (" ".intercalate rest) as := by
  cases hvalue : lookup? "class" as with
  | none =>
    rw [classTokens_of_none hvalue] at h
    cases h
  | some value =>
    rw [classTokens_of_some hvalue] at h ⊢
    rw [removeToken, hvalue]
    exact if_pos (Text.hasToken_iff.2 h)

theorem isWord_of_mem_classTokens (h : t ∈ classTokens as) : Text.IsWord t.toList := by
  unfold classTokens at h
  split at h
  · exact Text.isWord_of_mem_tokens h
  · cases h

theorem classTokens_removeToken (hd : (as.map (·.name)).Nodup) (h : t ∈ classTokens as) :
    classTokens (removeToken t as) = (classTokens as).filter (· != t) := by
  rw [removeToken_of_mem h]
  split
  · rename_i hrest
    rw [hrest, classTokens_of_none (lookup?_erase_self hd)]
  · rw [classTokens_assign]
    exact Text.tokens_intercalate fun u hu =>
      isWord_of_mem_classTokens (List.mem_filter.1 hu).1

/-- An edit of the class list is an edit of the list of its tokens. -/
theorem classTokens_onAttributes (hd : (as.map (·.name)).Nodup) (hc : Text.IsWord c.token.toList) :
    classTokens (c.onAttributes as) = c.onSet (classTokens as) := by
  cases c with
  | add t =>
    rw [onAttributes, onSet]
    split
    · rename_i h
      rw [addToken_of_mem h]
    · rename_i h
      exact classTokens_addToken hc h
  | remove t =>
    rw [onAttributes, onSet]
    by_cases h : t ∈ classTokens as
    · exact classTokens_removeToken hd h
    · rw [removeToken_of_not_mem h]
      exact (onSet_remove_eq_self.2 h).symm

theorem onAttributes_of_onSet_eq (h : c.onSet (classTokens as) = classTokens as) :
    c.onAttributes as = as := by
  cases c with
  | add t => exact addToken_of_mem (onSet_add_eq_self.1 h)
  | remove t => exact removeToken_of_not_mem (onSet_remove_eq_self.1 h)

/-- With the last token the attribute goes. -/
theorem lookup?_onAttributes (hd : (as.map (·.name)).Nodup)
    (hne : c.onSet (classTokens as) ≠ classTokens as) (hnil : c.onSet (classTokens as) = []) :
    lookup? "class" (c.onAttributes as) = none := by
  cases c with
  | add t => exact absurd hnil onSet_add_ne_nil
  | remove t =>
    have h : t ∈ classTokens as := not_not.1 (mt onSet_remove_eq_self.2 hne)
    rw [onAttributes, removeToken_of_mem h]
    rw [onSet] at hnil
    rw [hnil]
    exact lookup?_erase_self hd

theorem others_onAttributes (as : List Attribute) (c : ClassEdit) :
    others "class" (c.onAttributes as) = others "class" as := by
  cases c with
  | add t => exact others_addToken t as
  | remove t => exact others_removeToken t as

end Attribute

namespace Document

variable {d e f : Document} {x : NodeId} {c : ClassEdit} {edits edits' : List ClassEdit}

/-- The tokens of the class attribute, repeated as they are. -/
def classTokens (d : Document) (x : NodeId) : List String := Attribute.classTokens (d.attributes x)

/-- The calls one after the other, up to the first that is refused. -/
def editClasses (d : Document) (x : NodeId) (edits : List ClassEdit) : Except EditError Document :=
  edits.foldlM (fun d c => (c.command x).apply d) d

theorem classes_eq (d : Document) (x : NodeId) : d.classes x = Text.distinct (d.classTokens x) := by
  rw [classes, attribute?, classTokens, Attribute.classTokens]
  cases Attribute.lookup? "class" (d.attributes x) <;> rfl

theorem hasClass_iff {t : String} : d.hasClass x t = true ↔ t ∈ d.classes x := by
  rw [classes_eq, Text.mem_distinct, hasClass, attribute?, classTokens]
  cases hvalue : Attribute.lookup? "class" (d.attributes x) with
  | none =>
    rw [Attribute.classTokens_of_none hvalue]
    exact iff_of_false Bool.false_ne_true List.not_mem_nil
  | some value =>
    rw [Attribute.classTokens_of_some hvalue]
    exact Text.hasToken_iff

theorem attributes_of_element {tag : String} {as : List Attribute}
    (h : d.content? x = some (.element tag as)) : d.attributes x = as := by
  rw [attributes, h]
  rfl

theorem editClasses_append (h : d.editClasses x edits = .ok e) (edits' : List ClassEdit) :
    d.editClasses x (edits ++ edits') = e.editClasses x edits' := by
  have happend : d.editClasses x (edits ++ edits') =
      d.editClasses x edits >>= fun e => e.editClasses x edits' := List.foldlM_append
  rw [happend, h]
  rfl

theorem editClasses_cons (h : (c.command x).apply d = .ok e) (edits : List ClassEdit) :
    d.editClasses x (c :: edits) = e.editClasses x edits := by
  have hcons : d.editClasses x (c :: edits) =
      (c.command x).apply d >>= fun e => e.editClasses x edits := List.foldlM_cons
  rw [hcons, h]
  rfl

/-- `e` is `d` with the class list of `x` edited, and nothing else. -/
structure Reclassed (d : Document) (x : NodeId) (edits : List ClassEdit) (e : Document) : Prop where
  classes_eq : e.classes x = edits.foldl ClassEdit.onSet (d.classes x)
  others : Attribute.others "class" (e.attributes x) = Attribute.others "class" (d.attributes x)
  name?_eq : e.name? x = d.name? x
  reworded : Reworded d x e

theorem Reclassed.refl (d : Document) (x : NodeId) : Reclassed d x [] d :=
  ⟨rfl, rfl, rfl, .refl d x⟩

theorem Reclassed.trans (h : Reclassed d x edits e) (h' : Reclassed e x edits' f) :
    Reclassed d x (edits ++ edits') f where
  classes_eq := by rw [h'.classes_eq, h.classes_eq, List.foldl_append]
  others := h'.others.trans h.others
  name?_eq := h'.name?_eq.trans h.name?_eq
  reworded := h.reworded.trans h'.reworded

theorem Reclassed.isElement (h : Reclassed d x edits e) (hx : d.isElement x = true) :
    e.isElement x = true := by
  obtain ⟨tag, as, hc⟩ := isElement_iff_content?.1 hx
  have hname : e.name? x = some tag := by
    rw [h.name?_eq, name?, hc]
    rfl
  obtain ⟨content, hcontent, hn⟩ := Option.bind_eq_some_iff.1 hname
  cases content with
  | element name bs => exact isElement_iff_content?.2 ⟨name, bs, hcontent⟩
  | document | text => cases hn

/-! ### One call -/

/-- A call on an element changes its attributes as `onAttributes` says. -/
theorem apply_command_of_element {tag : String} {as : List Attribute} (ht : IsToken c.token)
    (hc : d.content? x = some (.element tag as)) :
    (c.command x).apply d = .ok (d.setContent x (.element tag (c.onAttributes as))) := by
  cases c with
  | add t => exact addClass_of_element ht hc
  | remove t => exact removeClass_of_element ht hc

theorem isWord_of_isToken {t : String} (h : IsToken t) : Text.IsWord t.toList :=
  ⟨mt String.toList_eq_nil_iff.1 h.1, h.2⟩

/-- The call is done, it edits the token list as it edits the set, and nothing else. -/
theorem WellFormed.classTokens_apply (h : d.WellFormed) (hx : d.isElement x = true)
    (ht : IsToken c.token) : ∃ e, (c.command x).apply d = .ok e ∧
      e.classTokens x = c.onSet (d.classTokens x) ∧ Reclassed d x [c] e := by
  obtain ⟨tag, as, hc⟩ := isElement_iff_content?.1 hx
  have hself := content?_setContent_self (contains_iff_content?.2 ⟨_, hc⟩)
    (.element tag (c.onAttributes as))
  have hd := attributes_of_element hc
  have he := attributes_of_element hself
  have htokens : (d.setContent x (.element tag (c.onAttributes as))).classTokens x =
      c.onSet (d.classTokens x) := by
    rw [classTokens, classTokens, he, hd]
    exact Attribute.classTokens_onAttributes (h.spelled hc).2 (isWord_of_isToken ht)
  refine ⟨_, apply_command_of_element ht hc, htokens, ?_, ?_, ?_, .setContent d x _⟩
  · rw [classes_eq, htokens, ClassEdit.distinct_onSet, ← classes_eq]
    rfl
  · rw [he, hd, Attribute.others_onAttributes]
  · rw [name?, name?, hself, hc]
    rfl

/-- A call that does not change the set does nothing. -/
theorem apply_command_eq_self (hx : d.isElement x = true) (ht : IsToken c.token)
    (hc : c.onSet (d.classes x) = d.classes x) : (c.command x).apply d = .ok d := by
  obtain ⟨tag, as, hcontent⟩ := isElement_iff_content?.1 hx
  rw [classes_eq, ClassEdit.onSet_distinct_eq_self, classTokens,
    attributes_of_element hcontent] at hc
  rw [apply_command_of_element ht hcontent, Attribute.onAttributes_of_onSet_eq hc,
    setContent_self hcontent]

/-- A call that takes the last class away takes the attribute away. -/
theorem WellFormed.attribute?_apply (h : d.WellFormed) (hx : d.isElement x = true)
    (ht : IsToken c.token) (hne : c.onSet (d.classes x) ≠ d.classes x)
    (hnil : c.onSet (d.classes x) = []) (he : (c.command x).apply d = .ok e) :
    e.attribute? x "class" = none := by
  obtain ⟨tag, as, hc⟩ := isElement_iff_content?.1 hx
  rw [apply_command_of_element ht hc] at he
  obtain rfl := ok_eq_ok.1 he
  have hself := content?_setContent_self (contains_iff_content?.2 ⟨_, hc⟩)
    (.element tag (c.onAttributes as))
  rw [classes_eq, ne_eq, ClassEdit.onSet_distinct_eq_self, classTokens,
    attributes_of_element hc] at hne
  rw [classes_eq, ← ClassEdit.distinct_onSet, Text.distinct_eq_nil, classTokens,
    attributes_of_element hc] at hnil
  rw [attribute?, attributes_of_element hself]
  exact Attribute.lookup?_onAttributes (h.spelled hc).2 hne hnil

/-! ### A run of calls -/

theorem exists_editClasses (h : Reachable d) (hx : d.isElement x = true)
    (ht : ∀ c ∈ edits, IsToken c.token) :
    ∃ e, d.editClasses x edits = .ok e ∧ Reachable e ∧ Reclassed d x edits e := by
  induction edits generalizing d with
  | nil => exact ⟨d, rfl, h, .refl d x⟩
  | cons c edits ih =>
    obtain ⟨hc, hedits⟩ := List.forall_mem_cons.1 ht
    obtain ⟨d₁, happly, -, hone⟩ := (wellFormed_of_reachable h).classTokens_apply hx hc
    obtain ⟨e, he, hreach, hrest⟩ := ih (reachable_apply h happly) (hone.isElement hx) hedits
    exact ⟨e, (editClasses_cons happly edits).trans he, hreach, hone.trans hrest⟩

theorem editClasses_eq_self (hx : d.isElement x = true) (ht : ∀ c ∈ edits, IsToken c.token)
    (hc : ∀ c ∈ edits, c.onSet (d.classes x) = d.classes x) : d.editClasses x edits = .ok d := by
  induction edits with
  | nil => rfl
  | cons c edits ih =>
    obtain ⟨htc, htrest⟩ := List.forall_mem_cons.1 ht
    obtain ⟨hcc, hcrest⟩ := List.forall_mem_cons.1 hc
    rw [editClasses_cons (apply_command_eq_self hx htc hcc)]
    exact ih htrest hcrest

/-- If the last call of a run that has an effect takes the last class away, then the run takes the
attribute away. -/
theorem attribute?_editClasses {before after : List ClassEdit} (h : Reachable d)
    (hx : d.isElement x = true) (ht : ∀ a ∈ before ++ c :: after, IsToken a.token)
    (hne : c.onSet (before.foldl ClassEdit.onSet (d.classes x)) ≠
      before.foldl ClassEdit.onSet (d.classes x))
    (hnil : c.onSet (before.foldl ClassEdit.onSet (d.classes x)) = [])
    (hafter : ∀ a ∈ after, a.onSet [] = []) (he : d.editClasses x (before ++ c :: after) = .ok e) :
    e.attribute? x "class" = none := by
  obtain ⟨htbefore, htrest⟩ := List.forall_mem_append.1 ht
  obtain ⟨htc, htafter⟩ := List.forall_mem_cons.1 htrest
  obtain ⟨d₁, h₁, hreach, hrun⟩ := exists_editClasses h hx htbefore
  have hx₁ := hrun.isElement hx
  rw [← hrun.classes_eq] at hne hnil
  obtain ⟨d₂, h₂, -, hone⟩ := (wellFormed_of_reachable hreach).classTokens_apply hx₁ htc
  -- The calls that follow find the set empty and have no effect on it, so they do nothing.
  have hclasses : d₂.classes x = [] := hone.classes_eq.trans hnil
  have hrest := editClasses_eq_self (hone.isElement hx₁) htafter (by rwa [hclasses])
  rw [editClasses_append h₁, editClasses_cons h₂, hrest] at he
  obtain rfl := ok_eq_ok.1 he
  exact (wellFormed_of_reachable hreach).attribute?_apply hx₁ htc hne hnil h₂

/-- Calls that add and remove classes do to the classes of an element what they do to an ordered
set, and touch nothing else. A call without effect on the set does nothing, and the attribute is
gone if the last call with an effect takes the last class away. Adding a token that is not there
and removing it gives back the list of tokens. -/
theorem classes_refine_set (h : Reachable d) (hx : d.isElement x = true) :
    (∀ edits : List ClassEdit, (∀ c ∈ edits, IsToken c.token) →
      ∃ e, d.editClasses x edits = .ok e ∧ Reclassed d x edits e ∧
        (∀ t, e.hasClass x t = true ↔ t ∈ edits.foldl ClassEdit.onSet (d.classes x)) ∧
        ∀ before c after, edits = before ++ c :: after →
          (c.onSet (before.foldl ClassEdit.onSet (d.classes x)) =
              before.foldl ClassEdit.onSet (d.classes x) →
            ∃ f, d.editClasses x before = .ok f ∧ (c.command x).apply f = .ok f) ∧
          (c.onSet (before.foldl ClassEdit.onSet (d.classes x)) ≠
              before.foldl ClassEdit.onSet (d.classes x) →
            c.onSet (before.foldl ClassEdit.onSet (d.classes x)) = [] →
            (∀ a ∈ after, a.onSet [] = []) → e.attribute? x "class" = none)) ∧
    ∀ t, IsToken t → t ∉ d.classes x →
      ∃ e, d.editClasses x [.add t, .remove t] = .ok e ∧ e.classTokens x = d.classTokens x := by
  refine ⟨fun edits ht => ?_, fun t ht hnot => ?_⟩
  · obtain ⟨e, he, -, hrun⟩ := exists_editClasses h hx ht
    refine ⟨e, he, hrun, fun t => ?_, ?_⟩
    · rw [hasClass_iff, hrun.classes_eq]
    rintro before c after rfl
    refine ⟨fun hc => ?_, fun hne hnil hafter => attribute?_editClasses h hx ht hne hnil hafter he⟩
    obtain ⟨htbefore, htrest⟩ := List.forall_mem_append.1 ht
    obtain ⟨f, hf, -, hbefore⟩ := exists_editClasses h hx htbefore
    rw [← hbefore.classes_eq] at hc
    exact ⟨f, hf, apply_command_eq_self (hbefore.isElement hx) (htrest c List.mem_cons_self) hc⟩
  · have hw := wellFormed_of_reachable h
    obtain ⟨f, hf, hadd, hrun⟩ := hw.classTokens_apply (c := .add t) hx ht
    obtain ⟨e, he, hremove, -⟩ := (wellFormed_of_reachable (reachable_apply h hf)).classTokens_apply
      (c := .remove t) (hrun.isElement hx) ht
    rw [classes_eq, Text.mem_distinct] at hnot
    refine ⟨e, ?_, ?_⟩
    · rw [editClasses_cons hf, editClasses_cons he]
      rfl
    · rw [hremove, hadd, ClassEdit.remove_add hnot]

/-- A class that is there twice goes with one call and takes the attribute along. Another one comes
and goes, and the list is as it was. -/
theorem classes_refine_set_repeated : ∃ d e f : Document,
    d.attribute? ⟨1, 0⟩ "class" = some "a\u2003a" ∧
      d.editClasses ⟨1, 0⟩ [.remove "a", .remove "b"] = .ok e ∧
      e.attribute? ⟨1, 0⟩ "class" = none ∧
      d.editClasses ⟨1, 0⟩ [.add "b", .remove "b"] = .ok f ∧
      f.classTokens ⟨1, 0⟩ = ["a", "a"] := by
  obtain ⟨d, hd, hx, hvalue, htokens, hclasses⟩ : ∃ d : Document, Reachable d ∧
      d.isElement ⟨1, 0⟩ = true ∧ d.attribute? ⟨1, 0⟩ "class" = some "a\u2003a" ∧
        d.classTokens ⟨1, 0⟩ = ["a", "a"] ∧ d.classes ⟨1, 0⟩ = ["a"] := by
    refine ⟨_, @Reachable.ofSignals .default [.startTag "p" [⟨"class", "a\u2003a"⟩],
      .endTag "p"] _ rfl, ?_, ?_, ?_, ?_⟩ <;> decide +kernel
  have ha : IsToken "a" := checkToken_eq_ok.1 rfl
  have hb : IsToken "b" := checkToken_eq_ok.1 rfl
  obtain ⟨hruns, hback⟩ := classes_refine_set hd hx
  obtain ⟨e, he, -, -, hsplit⟩ := hruns [.remove "a", .remove "b"]
    (List.forall_mem_cons.2 ⟨ha, List.forall_mem_singleton.2 hb⟩)
  have hgone := (hsplit [] (.remove "a") [.remove "b"] rfl).2
  rw [hclasses] at hgone
  obtain ⟨f, hf, hlist⟩ := hback "b" hb (by rw [hclasses]; decide)
  exact ⟨d, e, f, hvalue, he, hgone (by decide) (by decide) (by decide), hf, hlist.trans htokens⟩

end Document

end MarkupTree
