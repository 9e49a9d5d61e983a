import MarkupTree.Document.Content
import MarkupTree.Proofs.Document.Moves

/-!
# What edits of contents do

Each of them puts one new content into one node, and the content is spelled like the old one: names
are put in lower case and an attribute is added only where it is missing.
-/

namespace MarkupTree

namespace Attribute

/-- The attributes with a token in the class list. -/
def addToken (token : String) (as : List Attribute) : List Attribute :=
  match lookup? "class" as with
  | some value =>
    if Text.hasToken value token then as
    else if Text.isBlank value then assign "class" token as
    else assign "class" (value ++ " " ++ token) as
  | none => assign "class" token as

/-- The attributes without a token in the class list. -/
def removeToken (token : String) (as : List Attribute) : List Attribute :=
  match lookup? "class" as with
  | some value =>
    if Text.hasToken value token then
      match (Text.tokens value).filter (· != token) with
      | [] => erase "class" as
      | rest => assign "class" (" ".intercalate rest) as
    else as
  | none => as

variable {name value token : String} {as : List Attribute} {b : Attribute}

theorem mem_names_assign : ∀ {as : List Attribute}, b ∈ assign name value as →
    b.name = name ∨ b.name ∈ as.map (·.name)
  | [], hb => by
    rw [assign, List.mem_singleton] at hb
    exact .inl (hb ▸ rfl)
  | a :: as, hb => by
    rw [assign] at hb
    split at hb
    · rcases List.mem_cons.1 hb with rfl | hb
      · exact .inr List.mem_cons_self
      · exact .inr (List.mem_cons_of_mem _ (List.mem_map_of_mem hb))
    · rcases List.mem_cons.1 hb with rfl | hb
      · exact .inr List.mem_cons_self
      · exact (mem_names_assign hb).imp_right (List.mem_cons_of_mem _)

theorem nodup_assign : ∀ {as : List Attribute}, (as.map (·.name)).Nodup →
    ((assign name value as).map (·.name)).Nodup
  | [], _ => List.nodup_singleton _
  | a :: as, h => by
    rw [assign]
    split
    · exact h
    · rename_i hne
      rw [List.map_cons, List.nodup_cons] at h ⊢
      refine ⟨fun ha => ?_, nodup_assign h.2⟩
      obtain ⟨b, hb, hba⟩ := List.mem_map.1 ha
      rcases mem_names_assign hb with hname | hmem
      · exact hne (hba ▸ hname)
      · exact h.1 (hba ▸ hmem)

theorem nodup_erase (h : (as.map (·.name)).Nodup) : ((erase name as).map (·.name)).Nodup :=
  (List.eraseP_sublist.map _).nodup h

end Attribute

namespace Document

variable {d e : Document} {x : NodeId} {c : Content}

/-- A class token: not empty, without white space. -/
def IsToken (token : String) : Prop := token ≠ "" ∧ ∀ c ∈ token.toList, ¬ Text.isSpace c = true

theorem checkToken_eq_ok {token : String} : checkToken token = .ok () ↔ IsToken token := by
  rw [checkToken, ite_error_eq_ok, and_iff_left rfl, IsToken, Bool.or_eq_true, not_or,
    String.isEmpty_iff, List.any_eq_true]
  simp only [not_exists, not_and, ne_eq]

theorem setContent_self (h : d.content? x = some c) : d.setContent x c = d := by
  obtain ⟨node, hn, rfl⟩ := Option.map_eq_some_iff.1 h
  have hslots : (d.setContent x node.content).slots = d.slots := by
    refine Array.ext_getElem? fun i => ?_
    rw [setContent, modify, Array.getElem?_modify]
    split
    · subst i
      unfold get? at hn
      cases hs : d.slots[x.index]? with
      | none => rfl
      | some slot =>
        rw [hs] at hn
        by_cases hg : slot.generation = x.generation
        · simp only [hg, if_true] at hn
          cases slot
          simp_all
        · simp [hg]
    · rfl
  calc d.setContent x node.content
      = { d with slots := (d.setContent x node.content).slots } := rfl
    _ = d := by rw [hslots]

theorem requireElement_eq_ok {tag : String} {as : List Attribute} :
    d.requireElement x = .ok (tag, as) ↔ d.content? x = some (.element tag as) := by
  rw [requireElement, bind_eq_ok]
  simp only [require_eq_ok, content?, Option.map_eq_some_iff]
  refine exists_congr fun node => and_congr_right fun _ => ?_
  cases hc : node.content <;> simp

theorem setAttribute_eq_ok {name value : String} : d.setAttribute x name value = .ok e ↔
    ∃ tag as, d.content? x = some (.element tag as) ∧
      e = d.setContent x (.element tag (Attribute.assign name value as)) := by
  rw [setAttribute, bind_eq_ok]
  simp only [Prod.exists, requireElement_eq_ok, ok_eq_ok]

theorem deleteAttribute_eq_ok {name : String} {r : Document × Option String} :
    d.deleteAttribute x name = .ok r ↔ ∃ tag as, d.content? x = some (.element tag as) ∧
      r = (d.setContent x (.element tag (Attribute.erase name as)), Attribute.lookup? name as) := by
  rw [deleteAttribute, bind_eq_ok]
  simp only [Prod.exists, requireElement_eq_ok, ok_eq_ok]

theorem rename_eq_ok {name : String} : d.rename x name = .ok e ↔
    ∃ tag as, d.content? x = some (.element tag as) ∧ name ≠ "" ∧
      e = d.setContent x (.element (Text.lower name) as) := by
  rw [rename, bind_eq_ok]
  simp only [Prod.exists, requireElement_eq_ok, ite_error_eq_ok, ok_eq_ok, String.isEmpty_iff,
    ne_eq]

theorem setText_eq_ok {text : String} :
    d.setText x text = .ok e ↔ d.isText x = true ∧ e = d.setContent x (.text text) := by
  rw [setText, bind_unit_eq_ok, requireKind_eq_ok, ← isText_iff, ok_eq_ok]

theorem get?_of_content? (h : d.content? x = some c) :
    ∃ node, d.get? x = some node ∧ node.content = c := Option.map_eq_some_iff.1 h

theorem addClass_of_element {token tag : String} {as : List Attribute} (ht : IsToken token)
    (hc : d.content? x = some (.element tag as)) :
    d.addClass x token = .ok (d.setContent x (.element tag (Attribute.addToken token as))) := by
  obtain ⟨node, hn, hnc⟩ := get?_of_content? hc
  have hset : ∀ value, d.setAttribute x "class" value =
      .ok (d.setContent x (.element tag (Attribute.assign "class" value as))) :=
    fun value => setAttribute_eq_ok.2 ⟨tag, as, hc, rfl⟩
  refine bind_unit_eq_ok.2 ⟨checkToken_eq_ok.2 ht, bind_eq_ok.2 ⟨node, require_eq_ok.2 hn, ?_⟩⟩
  rw [hnc, Content.attribute?, Content.attributes, Attribute.addToken]
  cases Attribute.lookup? "class" as with
  | none => exact hset token
  | some value =>
    by_cases h₁ : Text.hasToken value token = true
    · simp only [h₁, if_true, setContent_self hc]; rfl
    · by_cases h₂ : Text.isBlank value = true
      · simp only [h₁, h₂, if_true]; exact hset token
      · simp only [h₁, h₂]; exact hset _

theorem addClass_eq_ok {token : String} : d.addClass x token = .ok e ↔ IsToken token ∧
    ∃ tag as, d.content? x = some (.element tag as) ∧
      e = d.setContent x (.element tag (Attribute.addToken token as)) := by
  constructor
  · intro h
    obtain ⟨ht, h'⟩ := bind_unit_eq_ok.1 h
    obtain ⟨node, hn, h'⟩ := bind_eq_ok.1 h'
    have ht := checkToken_eq_ok.1 ht
    have hel : ∃ tag as, d.content? x = some (.element tag as) := by
      rw [require_eq_ok] at hn
      cases hc : node.content with
      | element tag as => exact ⟨tag, as, by rw [content?, hn, Option.map_some, hc]⟩
      | document =>
        rw [hc] at h'
        obtain ⟨tag, as, hc', -⟩ := setAttribute_eq_ok.1 h'
        exact ⟨tag, as, hc'⟩
      | text =>
        rw [hc] at h'
        obtain ⟨tag, as, hc', -⟩ := setAttribute_eq_ok.1 h'
        exact ⟨tag, as, hc'⟩
    obtain ⟨tag, as, hc⟩ := hel
    rw [addClass_of_element ht hc] at h
    exact ⟨ht, tag, as, hc, (Except.ok.inj h).symm⟩
  · rintro ⟨ht, tag, as, hc, rfl⟩
    exact addClass_of_element ht hc

theorem removeClass_of_element {token tag : String} {as : List Attribute} (ht : IsToken token)
    (hc : d.content? x = some (.element tag as)) :
    d.removeClass x token =
      .ok (d.setContent x (.element tag (Attribute.removeToken token as))) := by
  obtain ⟨node, hn, hnc⟩ := get?_of_content? hc
  refine bind_unit_eq_ok.2 ⟨checkToken_eq_ok.2 ht, bind_eq_ok.2 ⟨node, require_eq_ok.2 hn, ?_⟩⟩
  rw [hnc, Content.attribute?, Content.attributes, Attribute.removeToken]
  cases Attribute.lookup? "class" as with
  | none =>
    have hkind : d.requireKind x .element = .ok () :=
      requireKind_eq_ok.2 (isElement_iff.1 (isElement_iff_content?.2 ⟨tag, as, hc⟩))
    exact bind_unit_eq_ok.2 ⟨hkind, by rw [setContent_self hc]; rfl⟩
  | some value =>
    by_cases h₁ : Text.hasToken value token = true
    · simp only [h₁, if_true]
      cases (Text.tokens value).filter (· != token) with
      | nil => exact bind_eq_ok.2 ⟨_, deleteAttribute_eq_ok.2 ⟨tag, as, hc, rfl⟩, rfl⟩
      | cons t rest => exact setAttribute_eq_ok.2 ⟨tag, as, hc, rfl⟩
    · simp only [h₁, Bool.false_eq_true, if_false, setContent_self hc]; rfl

theorem removeClass_eq_ok {token : String} : d.removeClass x token = .ok e ↔ IsToken token ∧
    ∃ tag as, d.content? x = some (.element tag as) ∧
      e = d.setContent x (.element tag (Attribute.removeToken token as)) := by
  constructor
  · intro h
    obtain ⟨ht, h'⟩ := bind_unit_eq_ok.1 h
    obtain ⟨node, hn, h'⟩ := bind_eq_ok.1 h'
    have ht := checkToken_eq_ok.1 ht
    have hel : d.isElement x = true := by
      rw [require_eq_ok] at hn
      cases hc : node.content with
      | element tag as =>
        exact isElement_iff_content?.2 ⟨tag, as, by rw [content?, hn, Option.map_some, hc]⟩
      | document =>
        rw [hc] at h'
        exact isElement_iff.2 (requireKind_eq_ok.1 (bind_unit_eq_ok.1 h').1)
      | text =>
        rw [hc] at h'
        exact isElement_iff.2 (requireKind_eq_ok.1 (bind_unit_eq_ok.1 h').1)
    obtain ⟨tag, as, hc⟩ := isElement_iff_content?.1 hel
    rw [removeClass_of_element ht hc] at h
    exact ⟨ht, tag, as, hc, (Except.ok.inj h).symm⟩
  · rintro ⟨ht, tag, as, hc, rfl⟩
    exact removeClass_of_element ht hc

namespace WellFormed

/-- An element keeps its name and its new attributes have different names. -/
theorem setAttributes (h : d.WellFormed) {tag : String} {as bs : List Attribute}
    (hc : d.content? x = some (.element tag as))
    (hbs : (as.map (·.name)).Nodup → (bs.map (·.name)).Nodup) :
    (d.setContent x (.element tag bs)).WellFormed :=
  h.setContent (isElement_iff.1 (isElement_iff_content?.2 ⟨tag, as, hc⟩))
    ⟨(h.spelled hc).1, hbs (h.spelled hc).2⟩

theorem rename (h : d.WellFormed) {tag : String} {as : List Attribute} (name : String)
    (hc : d.content? x = some (.element tag as)) :
    (d.setContent x (.element (Text.lower name) as)).WellFormed :=
  h.setContent (isElement_iff.1 (isElement_iff_content?.2 ⟨tag, as, hc⟩))
    ⟨Text.lower_lower name, (h.spelled hc).2⟩

theorem setText (h : d.WellFormed) (hx : d.isText x = true) (text : String) :
    (d.setContent x (.text text)).WellFormed :=
  h.setContent (isText_iff.1 hx) trivial

end WellFormed

end Document

namespace InPlace

open Document

variable {d : Document} {x : NodeId}

theorem changeAttributes_carries (h : d.WellFormed) {f : List Attribute → List Attribute}
    (hf : ∀ as, (as.map (·.name)).Nodup → ((f as).map (·.name)).Nodup) :
    Carries d (changeAttributes x f) (d.requireElement x >>= fun r =>
      pure (d.setContent x (.element r.1 (f r.2)))) := by
  rw [requireElement, bind_assoc]
  refine .check rfl fun node hn => ?_
  have hn := require_eq_ok.1 hn
  refine .read (fetch_of_get? hn) ?_
  cases hc : node.content with
  | document =>
    rw [Node.kind, hc]
    exact .refuse _
  | text =>
    rw [Node.kind, hc]
    exact .refuse _
  | element tag as =>
    have hcontent : d.content? x = some (.element tag as) := by
      rw [content?, hn, Option.map_some, hc]
    exact ⟨change_of_contains (contains_iff.2 ⟨node, hn⟩) _, h.setAttributes hcontent (hf as)⟩

theorem setAttribute_carries (h : d.WellFormed) (name value : String) :
    Carries d (setAttribute x name value) (d.setAttribute x name value) :=
  changeAttributes_carries h fun _ => Attribute.nodup_assign

theorem deleteAttribute_carries (h : d.WellFormed) (name : String) :
    Carries d (deleteAttribute x name) (d.deleteAttribute x name >>= fun r => pure r.1) := by
  rw [Document.deleteAttribute, bind_assoc]
  exact changeAttributes_carries h fun _ => Attribute.nodup_erase

theorem addClass_carries (h : d.WellFormed) (token : String) :
    Carries d (addClass x token) (d.addClass x token) := by
  refine .check rfl fun _ _ => .check rfl fun node _ => ?_
  cases node.content.attribute? "class" with
  | none => exact setAttribute_carries h "class" token
  | some value =>
    refine .ite (fun _ => .unchanged h) fun _ => ?_
    by_cases hb : Text.isBlank value = true
    · rw [if_pos hb, if_neg (not_not_intro hb)]
      exact setAttribute_carries h "class" token
    · rw [if_neg hb, if_pos hb]
      exact setAttribute_carries h "class" _

theorem removeClass_carries (h : d.WellFormed) (token : String) :
    Carries d (removeClass x token) (d.removeClass x token) := by
  refine .check rfl fun _ _ => .check rfl fun node _ => ?_
  cases node.content.attribute? "class" with
  | none => exact .only_check h _
  | some value =>
    by_cases ht : Text.hasToken value token = true
    · simp only [ht, if_true, not_true_eq_false, if_false]
      cases (Text.tokens value).filter (· != token) with
      | nil => exact deleteAttribute_carries h "class"
      | cons t rest => exact setAttribute_carries h "class" _
    · simp only [ht, Bool.false_eq_true, not_false_eq_true, if_true, if_false]
      exact .unchanged h

theorem rename_carries (h : d.WellFormed) (name : String) :
    Carries d (rename x name) (d.rename x name) := by
  rw [Document.rename, requireElement, bind_assoc]
  show Carries d (check (d.require x >>= _) >>= _) _
  rw [check_of_bind, bind_assoc]
  refine .check rfl fun node hn => ?_
  have hn := require_eq_ok.1 hn
  rw [Node.kind]
  cases hc : node.content with
  | document => exact .refuse _
  | text => exact .refuse _
  | element tag as =>
    refine .ite (fun _ => .refuse _) fun _ => .read (fetch_of_get? hn) ?_
    have hcontent : d.content? x = some (.element tag as) := by
      rw [content?, hn, Option.map_some, hc]
    rw [hc]
    exact ⟨change_of_contains (contains_iff.2 ⟨node, hn⟩) _, h.rename name hcontent⟩

theorem setText_carries (h : d.WellFormed) (text : String) :
    Carries d (setText x text) (d.setText x text) := by
  refine .check rfl fun _ hk => ?_
  rw [requireKind_eq_ok] at hk
  obtain ⟨node, hn⟩ := contains_iff.1 (contains_of_kind? hk)
  refine .read (fetch_of_get? hn) ?_
  have hkind := hk
  rw [kind?_of_get? hn, Option.some.injEq, Node.kind] at hkind
  cases hc : node.content with
  | text => exact ⟨change_of_contains (contains_of_kind? hk) _, h.setText (isText_iff.2 hk) text⟩
  | document => rw [hc] at hkind; cases hkind
  | element => rw [hc] at hkind; cases hkind

end InPlace

end MarkupTree
