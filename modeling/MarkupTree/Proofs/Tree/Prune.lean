import MarkupTree.Signal
import MarkupTree.Tree.Equal

/-!
# Trees without empty texts

Taking the empty texts away from below the top of a tree takes them out of its signals and changes
nothing that equality sees: a run of texts says the same without them.
-/

namespace MarkupTree.Tree

def isEmptyText : Tree → Bool
  | .text s => s.isEmpty
  | _ => false

mutual

/-- The tree without the empty texts below its top. -/
def prune : Tree → Tree
  | .document ts => .document (pruneList ts)
  | .element name as ts => .element name as (pruneList ts)
  | .text s => .text s

def pruneList : List Tree → List Tree
  | [] => []
  | t :: ts => if t.isEmptyText then pruneList ts else t.prune :: pruneList ts

end

variable {t : Tree} {ts : List Tree}

theorem pruneList_cons_of_isEmptyText (h : t.isEmptyText = true) :
    pruneList (t :: ts) = pruneList ts := by rw [pruneList, if_pos h]

theorem pruneList_cons_of_not (h : ¬ t.isEmptyText = true) :
    pruneList (t :: ts) = t.prune :: pruneList ts := by rw [pruneList, if_neg h]

theorem pruneList_element (name : String) (as : List Attribute) (ts : List Tree) :
    pruneList [.element name as ts] = [.element name as (pruneList ts)] := rfl

theorem pruneList_append (ts us : List Tree) :
    pruneList (ts ++ us) = pruneList ts ++ pruneList us := by
  induction ts with
  | nil => rfl
  | cons t ts ih =>
    rw [List.cons_append]
    by_cases h : t.isEmptyText = true
    · rw [pruneList_cons_of_isEmptyText h, pruneList_cons_of_isEmptyText h, ih]
    · rw [pruneList_cons_of_not h, pruneList_cons_of_not h, ih, List.cons_append]

/-! ### Signals -/

mutual

theorem signals_prune : ∀ {t : Tree}, ¬ t.isEmptyText = true →
    t.prune.signals = t.signals.filter fun s => s != .text ""
  | .document ts, _ => signalsOfList_pruneList ts
  | .element name as ts, _ => by
    rw [prune, signals, signals, signalsOfList_pruneList ts]
    simp
  | .text s, ht => by
    have hs : s ≠ "" := fun hs => ht (by rw [isEmptyText, hs]; rfl)
    simp [prune, signals, hs]

theorem signalsOfList_pruneList : ∀ ts : List Tree,
    signalsOfList (pruneList ts) = (signalsOfList ts).filter fun s => s != .text ""
  | [] => rfl
  | t :: ts => by
    rw [signalsOfList, List.filter_append, ← signalsOfList_pruneList ts]
    by_cases ht : t.isEmptyText = true
    · rw [pruneList_cons_of_isEmptyText ht]
      cases t with
      | text s =>
        rw [isEmptyText, String.isEmpty_iff] at ht
        simp [signals, ht]
      | document => cases ht
      | element => cases ht
    · rw [pruneList_cons_of_not ht, signalsOfList, signals_prune ht]

end

/-! ### Equality -/

/-- The text at the beginning of a list of trees; it is empty if there is none. -/
def leadingText : List Tree → String
  | .text s :: _ => s
  | _ => ""

/-- A list of trees from its first tree on that is no text. -/
def afterText : List Tree → List Tree
  | .text _ :: ts => ts
  | ts => ts

theorem leadingText_joinText (s : String) (ts : List Tree) :
    leadingText (joinText s ts) = s ++ leadingText ts := by
  cases ts with
  | nil => simp [joinText, leadingText]
  | cons t ts => cases t <;> simp [joinText, leadingText]

theorem afterText_joinText (s : String) (ts : List Tree) :
    afterText (joinText s ts) = afterText ts := by
  cases ts with
  | nil => rfl
  | cons t ts => cases t <;> rfl

theorem dropEmpty_eq (ts : List Tree) : dropEmpty ts =
    (if (leadingText ts).isEmpty then [] else [.text (leadingText ts)]) ++
      dropEmpty (afterText ts) := by
  cases ts with
  | nil => rfl
  | cons t ts =>
    cases t with
    | text s =>
      by_cases hs : s.isEmpty = true
      · simp [dropEmpty, leadingText, afterText, hs]
      · simp [dropEmpty, leadingText, afterText, hs]
    | document => simp [leadingText, afterText]
    | element => simp [leadingText, afterText]

theorem normalList_document (f : String → String) (cs ts : List Tree) :
    normalList f (.document cs :: ts) = .document (dropEmpty (normalList f cs)) :: normalList f ts :=
  rfl

theorem normalList_element (f : String → String) (name : String) (as : List Attribute)
    (cs ts : List Tree) : normalList f (.element name as cs :: ts) =
      .element name as (dropEmpty (normalList f cs)) :: normalList f ts := rfl

/-- The lists say the same: the same text at the beginning, and the same behind it if empty texts
do not count. -/
structure SaysSame (ts us : List Tree) : Prop where
  leading : leadingText ts = leadingText us
  rest : dropEmpty (afterText ts) = dropEmpty (afterText us)

namespace SaysSame

variable {ts us : List Tree}

theorem dropEmpty_eq (h : SaysSame ts us) : dropEmpty ts = dropEmpty us := by
  rw [Tree.dropEmpty_eq ts, Tree.dropEmpty_eq us, h.leading, h.rest]

theorem joinText (h : SaysSame ts us) (s : String) :
    SaysSame (joinText s ts) (joinText s us) := by
  refine ⟨?_, ?_⟩
  · rw [leadingText_joinText, leadingText_joinText, h.leading]
  · rw [afterText_joinText, afterText_joinText, h.rest]

theorem joinText_empty (h : SaysSame ts us) : SaysSame ts (Tree.joinText "" us) := by
  refine ⟨?_, ?_⟩
  · rw [leadingText_joinText, String.empty_append, h.leading]
  · rw [afterText_joinText, h.rest]

theorem cons (h : SaysSame ts us) (t : Tree) : SaysSame (t :: ts) (t :: us) := by
  have hdrop := h.dropEmpty_eq
  cases t with
  | text s => exact ⟨rfl, hdrop⟩
  | document cs => exact ⟨rfl, by simpa [afterText, dropEmpty] using hdrop⟩
  | element name as cs => exact ⟨rfl, by simpa [afterText, dropEmpty] using hdrop⟩

end SaysSame

mutual

theorem normal_prune : ∀ t : Tree, t.prune.normal id = t.normal id
  | .document ts => by
    rw [prune, normal, normal, (saysSame_pruneList ts).dropEmpty_eq]
  | .element name as ts => by
    rw [prune, normal, normal, (saysSame_pruneList ts).dropEmpty_eq]
  | .text s => rfl

theorem saysSame_pruneList : ∀ ts : List Tree,
    SaysSame (normalList id (pruneList ts)) (normalList id ts)
  | [] => ⟨rfl, rfl⟩
  | t :: ts => by
    have ih := saysSame_pruneList ts
    cases t with
    | text s =>
      by_cases hs : (text s).isEmptyText = true
      · rw [pruneList_cons_of_isEmptyText hs]
        rw [isEmptyText, String.isEmpty_iff] at hs
        rw [hs]
        exact ih.joinText_empty
      · rw [pruneList_cons_of_not hs]
        exact ih.joinText s
    | document cs =>
      have hne : ¬ (document cs).isEmptyText = true := Bool.false_ne_true
      have hcs := normal_prune (.document cs)
      rw [prune, normal, normal] at hcs
      rw [pruneList_cons_of_not hne, prune, normalList_document,
        normalList_document, hcs]
      exact ih.cons _
    | element name as cs =>
      have hne : ¬ (element name as cs).isEmptyText = true := Bool.false_ne_true
      have hcs := normal_prune (.element name as cs)
      rw [prune, normal, normal] at hcs
      rw [pruneList_cons_of_not hne, prune, normalList_element,
        normalList_element, hcs]
      exact ih.cons _

end

mutual

theorem same_refl : ∀ t : Tree, t.same t = true
  | .document ts => sameList_refl ts
  | .element name as ts => by
    rw [same, sameList_refl ts]
    simp [sameAttributes]
  | .text s => by simp [same]

theorem sameList_refl : ∀ ts : List Tree, sameList ts ts = true
  | [] => rfl
  | t :: ts => by rw [sameList, same_refl t, sameList_refl ts]; rfl

end

theorem equal_prune (t : Tree) : t.equal t.prune = true := by
  rw [equal, normal_prune, same_refl]

end MarkupTree.Tree
