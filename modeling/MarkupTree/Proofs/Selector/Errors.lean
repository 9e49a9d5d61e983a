import MarkupTree.Proofs.Selector.Parse

/-!
# Where a selector text is wrong

A text that does not compile is refused at a place between two of its characters or at its end, and
the error shows what begins there. Nothing else goes wrong while a text is read: every slice is
there, and each loop of the readers gets on with every step.
-/

namespace MarkupTree

open Reader

variable {α : Type} {text s : List Char} {a : α}

theorem Text.utf8Length_toList (s : String) : Text.utf8Length s.toList = s.utf8ByteSize := by
  have hlist : ∀ cs : List Char, (String.ofList cs).utf8ByteSize = Text.utf8Length cs := by
    intro cs
    induction cs with
    | nil => rfl
    | cons c cs ih =>
      have hsplit : String.ofList (c :: cs) = String.singleton c ++ String.ofList cs := by
        rw [String.singleton_eq_ofList, ← String.ofList_append]
        rfl
      rw [hsplit, String.utf8ByteSize_append, String.utf8ByteSize_singleton, ih,
        Text.utf8Length_cons]
  rw [← hlist, String.ofList_toList]

/-- What a reader by bytes returns is what the reader of the text that is left returns, and its
place is before what that one leaves. -/
theorem Agree.reads_of_run {x : OfText α} {y : Reader Cursor Stop α} (h : Agree text s x y)
    {k : Cursor} (hrun : y.run (.before text s) = .ok (a, k)) :
    ∃ t, t <:+ s ∧ k = .before text t ∧ Reads x s a t := by
  unfold Agree at h
  unfold Reads
  rw [hrun] at h
  generalize x.run s = left at h
  cases h with
  | @ok _ t ht => exact ⟨t, ht, rfl, rfl⟩

theorem Agree.suffix {x : OfText α} {y : Reader Cursor Stop α} {t : List Char}
    (h : Agree text s x y) (hreads : Reads x s a t) : t <:+ s := by
  unfold Agree at h
  unfold Reads at hreads
  rw [hreads] at h
  generalize y.run (Cursor.before text s) = right at h
  cases h with
  | ok ht => exact ht

/-- A step that takes something off the text that is left ends at a later place. -/
theorem Agree.forward {x : OfText (Option α)} {y : Reader Cursor Stop (Option α)}
    (h : Agree text s x y) (hshort : Shortens x) (hs : s <:+ text) {k : Cursor}
    (hstep : y.run (.before text s) = .ok (some a, k)) :
    ∃ t, t <:+ s ∧ k = .before text t ∧ (Cursor.before text s).position < k.position := by
  obtain ⟨t, ht, rfl, hreads⟩ := h.reads_of_run hstep
  refine ⟨t, ht, rfl, ?_⟩
  have hlt := hshort s a t hreads
  obtain ⟨cs, rfl⟩ := ht
  have hcs : cs ≠ [] := by
    rintro rfl
    exact Nat.lt_irrefl _ hlt
  have hpos := Nat.pos_of_ne_zero (mt utf8Length_eq_zero_iff.1 hcs)
  have hle := utf8Length_le_of_suffix hs
  show Text.utf8Length text - Text.utf8Length (cs ++ t) <
    Text.utf8Length text - Text.utf8Length t
  rw [Text.utf8Length_append] at *
  omega

namespace Selector

/-! ### Places and fragments -/

/-- What is shown of a text: its first character and all up to the next white space, or a remark
that there is nothing. -/
inductive IsFragment : List Char → String → Prop
  | atEnd : IsFragment [] "end of selector"
  | word {c : Char} {text run rest : List Char} (h : IsRun (!Text.isSpace ·) text run rest) :
      IsFragment (c :: text) (String.ofList (c :: run))

/-- The error tells the number of bytes before some part of the text, and shows that part. -/
def PointsInto (source : String) (e : SyntaxError) : Prop :=
  ∃ before rest : String, source = before ++ rest ∧ e.position = before.utf8ByteSize ∧
    e.position ≤ source.utf8ByteSize ∧ IsFragment rest.toList e.fragment

theorem isRun_takeWhile (kind : Char → Bool) (text : List Char) :
    IsRun kind text (text.takeWhile kind) (text.dropWhile kind) where
  text_eq := List.takeWhile_append_dropWhile.symm
  all c hc := List.all_eq_true.1 List.all_takeWhile c hc
  ends c hc := by
    have hhead := List.head?_dropWhile_not kind text
    rw [Option.mem_def.1 hc] at hhead
    simpa using hhead

theorem isFragment_fragment (f : Fault) : IsFragment f.rest f.fragment := by
  unfold Fault.fragment
  cases f.rest with
  | nil => exact .atEnd
  | cons c cs => exact .word (isRun_takeWhile _ cs)

/-- A fault before the end of a text points to where that end begins. -/
theorem pointsInto_toError {source : String} {f : Fault} (h : f.rest <:+ source.toList) :
    PointsInto source (f.toError source.toList) := by
  obtain ⟨before, h⟩ := h
  have hsource : source = String.ofList before ++ String.ofList f.rest := by
    rw [← String.ofList_append, h, String.ofList_toList]
  have hposition : (f.toError source.toList).position = (String.ofList before).utf8ByteSize := by
    show Text.utf8Length source.toList - Text.utf8Length f.rest = _
    rw [← h, Text.utf8Length_append, Nat.add_sub_cancel_right, ← Text.utf8Length_toList,
      String.toList_ofList]
  refine ⟨_, _, hsource, hposition, ?_, ?_⟩
  · rw [hposition, hsource, String.utf8ByteSize_append]
    exact Nat.le_add_right _ _
  · rw [String.toList_ofList]
    exact isFragment_fragment f

theorem rest_suffix_of_whole {f : Fault} (h : whole.run text = .error f) : f.rest <:+ text := by
  have hagree := agree_whole text
  unfold Agree at hagree
  rw [h] at hagree
  generalize whole.run (Cursor.before text text) = right at hagree
  cases hagree with
  | error h => exact h

/-! ### Loops -/

/-- The loops of the readers of a text, each by its step. The argument of `:not` nests at most
`depth` times more. -/
inductive IsLoop (text : List Char) (depth : Nat) :
    ∀ {α : Type}, Reader Cursor Stop (Option α) → Prop
  | spaces : IsLoop text depth spaceStep
  | name : IsLoop text depth nameStep
  | string {start : List Char} (h : start <:+ text) (q : Char) :
      IsLoop text depth (stringStep (Cursor.before text start) q)
  | simples : IsLoop text depth (simpleStep (chains depth))
  | parts : IsLoop text depth (partStep (chains depth))
  | chains : IsLoop text depth (chainStep (chains depth))

/-- In front of the argument of `:not` stand a colon and a name, so it does not nest as deep. -/
theorem innerAgree_chains {depth : Nat} (hs : s <:+ text) (hlen : s.length ≤ depth + 1) :
    InnerAgree text s (chains depth) (chains depth) := by
  intro u hu hlen'
  cases depth with
  | zero => omega
  | succ depth => exact agree_chains depth (hu.trans hs) (by omega)

theorem IsLoop.forward {depth : Nat} {step : Reader Cursor Stop (Option α)}
    (h : IsLoop text depth step) (hs : s <:+ text) (hlen : s.length ≤ depth + 1) {k : Cursor}
    (hstep : step.run (.before text s) = .ok (some a, k)) :
    ∃ t, t <:+ s ∧ k = .before text t ∧ (Cursor.before text s).position < k.position := by
  have hsound : Sound (Selector.chains depth) := isList_of_reads_chains depth
  have hinner := innerAgree_chains hs hlen
  cases h with
  | spaces => exact (agree_spaceStep hs).forward shortens_spaceStep hs hstep
  | name => exact (agree_nameStep hs).forward shortens_nameStep hs hstep
  | string hstart q =>
    exact (agree_stringStep hstart q hs).forward (shortens_stringStep _ q) hs hstep
  | simples =>
    exact (agree_simpleStep hs hinner).forward (shortens_simpleStep hsound) hs hstep
  | parts =>
    exact (agree_partStep hsound hs hinner).forward (shortens_partStep hsound) hs hstep
  | chains =>
    exact (agree_chainStep hsound hs hinner).forward (shortens_chainStep hsound) hs hstep

/-- Every text compiles or is refused with an error that points into it; no slice is missing and no
loop goes on for ever. Wherever a loop of the readers stands in a text, between two characters, each
step but the last leads to a later place between two characters. -/
theorem scan_points_into (source : String) :
    ((∃ x, scan source = .ok x) ∨
      ∃ e, scan source = .error (.refused e) ∧ PointsInto source e) ∧
    ∀ (α : Type) (depth : Nat) (step : Reader Cursor Stop (Option α)) (s : List Char),
      IsLoop source.toList depth step → s <:+ source.toList → s.length ≤ depth + 1 →
      ∀ (a : α) (k : Cursor), step.run (.before source.toList s) = .ok (some a, k) →
        ∃ t, t <:+ s ∧ k = .before source.toList t ∧
          (Cursor.before source.toList s).position < k.position := by
  constructor
  · rw [scan_eq, parse, readChars]
    cases hrun : (whole : OfText (List Chain)).run source.toList with
    | ok p => exact .inl ⟨_, rfl⟩
    | error f => exact .inr ⟨_, rfl, pointsInto_toError (rest_suffix_of_whole hrun)⟩
  · intro α depth step s hloop hs hlen a k hstep
    exact hloop.forward hs hlen hstep

/-- A name of one letter with two bytes, and behind a blank a mark that begins nothing. -/
theorem scan_points_into_mark :
    (scan "é !" = .error (.refused ⟨.unexpectedInside, "!", 3⟩) ∧
      PointsInto "é !" ⟨.unexpectedInside, "!", 3⟩) ∧
    IsLoop "é !".toList 2 nameStep ∧ "é !".toList <:+ "é !".toList ∧
    "é !".toList.length ≤ 2 + 1 ∧
    nameStep.run (Cursor.before "é !".toList "é !".toList) = .ok (some 'é', ⟨"é !".toList, 2⟩) ∧
    ∃ t, t <:+ "é !".toList ∧ ⟨"é !".toList, 2⟩ = Cursor.before "é !".toList t ∧
      (Cursor.before "é !".toList "é !".toList).position < 2 := by
  obtain ⟨houtcome, hforward⟩ := scan_points_into "é !"
  have hscan : scan "é !" = .error (.refused ⟨.unexpectedInside, "!", 3⟩) := by rfl
  refine ⟨⟨hscan, ?_⟩, .name, List.suffix_rfl, by decide, rfl, ?_⟩
  · rcases houtcome with ⟨x, hx⟩ | ⟨e, he, hpoints⟩
    · cases hscan.symm.trans hx
    · cases hscan.symm.trans he
      exact hpoints
  · exact hforward _ 2 nameStep _ .name List.suffix_rfl (by decide) 'é' ⟨_, 2⟩ rfl

end Selector

end MarkupTree
