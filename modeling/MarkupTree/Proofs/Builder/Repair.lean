import MarkupTree.Proofs.Signal.Repair

/-!
# Builders repair

A lenient builder makes of any signals what a strict one makes of the repaired signals. A strict
builder takes only signals that need no repair.
-/

namespace MarkupTree

open Document Signal

namespace Builder

variable {b : Builder} {names : List String} {signals : List Signal} {c c' : Config}

/-- The builder under another configuration. -/
def under (b : Builder) (c : Config) : Builder := { b with config := c }

/-- The builder after an element has been opened. -/
def openElement (b : Builder) (name : String) (attributes : List Attribute) : Builder :=
  { b with
    document := (b.document.createElement name attributes).1.linkLast b.current
      (b.document.createElement name attributes).2
    opened := (b.document.createElement name attributes).2 :: b.opened }

/-- The builder after a text. -/
def addText (b : Builder) (s : String) : Builder :=
  { b with document := (b.document.createText s).1.linkLast b.current (b.document.createText s).2 }

/-- The builder after the innermost open elements have been closed. -/
def closeInner (b : Builder) (count : Nat) : Builder := { b with opened := b.opened.drop count }

/-- The document that the signals make of what the builder has. -/
def run (b : Builder) (signals : List Signal) : Except BuildError Document := do
  (← signals.foldlM push b).finish

theorem run_nil (b : Builder) : b.run [] = b.finish := rfl

theorem run_cons (b : Builder) (signal : Signal) (signals : List Signal) :
    b.run (signal :: signals) = b.push signal >>= fun b' => b'.run signals := by
  rw [run, List.foldlM_cons, bind_assoc]
  rfl

theorem run_cons_of_push {b' : Builder} {signal : Signal} (h : b.push signal = .ok b') :
    b.run (signal :: signals) = b'.run signals := by
  rw [run_cons, h]
  rfl

theorem run_cons_of_error {e : BuildError} {signal : Signal} (h : b.push signal = .error e) :
    b.run (signal :: signals) = .error e := by
  rw [run_cons, h]
  rfl

/-! ### Cleaning -/

/-- A builder sees of a signal what cleaning leaves of it. -/
theorem push_eq (b : Builder) (signal : Signal) : b.push signal =
    match signal.clean? b.config.dropBlankText with
    | some signal' => b.push signal'
    | none => .ok b := by
  cases signal with
  | startTag name as =>
    have hnew : b.document.createElement (Text.lower name) (Attribute.keepFirst as) =
        b.document.createElement name as := by
      rw [createElement, createElement, Text.lower_lower,
        Attribute.keepFirst_of_nodup (Attribute.nodup_keepFirst as)]
    simp only [clean?, push, hnew]
  | endTag name => simp only [clean?, push, Text.lower_lower]
  | text s =>
    by_cases hs : (s.isEmpty || (b.config.dropBlankText && Text.isBlank s)) = true
    · rw [clean?, if_pos hs, push, if_pos hs]
    · rw [clean?, if_neg hs]
  | comment | doctype | processingInstruction => rfl

theorem config_push {b' : Builder} {signal : Signal} (h : b.push signal = .ok b') :
    b'.config = b.config := by
  cases signal with
  | startTag name as =>
    rw [push] at h
    split at h <;> cases h
    rfl
  | endTag name =>
    rw [push, close] at h
    split at h <;> split at h <;> cases h <;> rfl
  | text s =>
    rw [push] at h
    split at h <;> cases h <;> rfl
  | comment | doctype | processingInstruction => cases h; rfl

theorem run_clean (signals : List Signal) (b : Builder) :
    b.run (clean b.config.dropBlankText signals) = b.run signals := by
  induction signals generalizing b with
  | nil => rfl
  | cons signal rest ih =>
    have hrest : ∀ b', b.push signal = .ok b' →
        b'.run (clean b.config.dropBlankText rest) = b'.run rest := by
      intro b' hb'
      rw [← config_push hb', ih]
    have hpush := push_eq b signal
    rw [clean, List.filterMap_cons]
    cases hclean : signal.clean? b.config.dropBlankText with
    | none =>
      rw [hclean] at hpush
      rw [run_cons_of_push hpush]
      exact ih b
    | some signal' =>
      rw [hclean] at hpush
      cases hb' : b.push signal with
      | error e => rw [run_cons_of_error hb', run_cons_of_error (hpush ▸ hb')]
      | ok b' =>
        rw [run_cons_of_push hb', run_cons_of_push (hpush ▸ hb')]
        exact hrest b' hb'

/-! ### One step -/

theorem push_startTag (b : Builder) (c : Config) (name : String) (as : List Attribute) :
    (b.under c).push (.startTag name as) =
      if c.maxDepth ≤ b.depth then .error (.tooDeep (b.depth + 1) c.maxDepth)
      else .ok ((b.openElement name as).under c) := rfl

theorem push_text (b : Builder) {s : String} (hs : (Signal.text s).Clean c.dropBlankText) :
    (b.under c).push (.text s) = .ok ((b.addText s).under c) := by
  rw [Clean, clean?, Option.ite_none_left_eq_some] at hs
  exact if_neg hs.1

/-! ### The names of the open elements -/

/-- The open elements have the names, the innermost first. -/
structure Opens (b : Builder) (names : List String) : Prop where
  sound : b.Sound
  names : b.opened.map b.document.name? = names.map some

namespace Opens

theorem new (c : Config) : (new c).Opens [] := ⟨sound_new c, rfl⟩

theorem depth_eq (h : b.Opens names) : b.depth = names.length := by
  have hlength := congrArg List.length h.names
  rwa [List.length_map, List.length_map] at hlength

theorem lower_eq (h : b.Opens names) {name : String} (hn : name ∈ names) :
    Text.lower name = name := by
  have hmem : some name ∈ b.opened.map b.document.name? := by
    rw [h.names]
    exact List.mem_map_of_mem hn
  obtain ⟨x, -, hx⟩ := List.mem_map.1 hmem
  obtain ⟨content, hcontent, hname⟩ := Option.bind_eq_some_iff.1 hx
  cases content with
  | element name' as =>
    obtain rfl := Option.some.inj hname
    exact (h.sound.wellFormed.spelled hcontent).1
  | document | text => cases hname

theorem findIdx? (h : b.Opens names) (name : String) :
    b.opened.findIdx? (fun x => b.document.name? x == some name) = names.idxOf? name := by
  have hmap : b.opened.findIdx? (fun x => b.document.name? x == some name) =
      (b.opened.map b.document.name?).findIdx? (· == some name) := by
    rw [List.findIdx?_map]
    rfl
  rw [hmap, h.names, List.findIdx?_map]
  simp [List.idxOf?, Function.comp_def]

theorem closeInner (h : b.Opens names) (count : Nat) :
    (b.closeInner count).Opens (names.drop count) := by
  refine ⟨⟨h.sound.wellFormed, fun x hx => h.sound.opened x (List.mem_of_mem_drop hx)⟩, ?_⟩
  have hdrop := congrArg (List.drop count) h.names
  rwa [← List.map_drop, ← List.map_drop] at hdrop

/-- The open elements keep their names when a node is added. -/
theorem map_name?_of_added (h : b.Opens names) {e : Document} {p x : NodeId} {content : Content}
    (hadd : Added b.document e p content x) : b.opened.map e.name? = names.map some := by
  rw [← h.names]
  refine List.map_congr_left fun y hy => ?_
  rw [name?, name?, hadd.content_of_contains (contains_of_isElement (h.sound.opened y hy))]

theorem openElement (h : b.Opens names) (name : String) (as : List Attribute) :
    (b.openElement name as).Opens (Text.lower name :: names) := by
  have hroom : (b.under ⟨false, b.depth + 1, false⟩).push (.startTag name as) =
      .ok ((b.openElement name as).under ⟨false, b.depth + 1, false⟩) := by
    exact if_neg (Nat.not_succ_le_self b.depth)
  have hsound : (b.under ⟨false, b.depth + 1, false⟩).Sound := ⟨h.sound.wellFormed, h.sound.opened⟩
  have hafter := hsound.push hroom
  have hadd := h.sound.wellFormed.stored.added h.sound.contains_current
    (.element (Text.lower name) (Attribute.keepFirst as))
  refine ⟨⟨hafter.wellFormed, hafter.opened⟩, ?_⟩
  have hself : (b.openElement name as).document.name? (b.document.createElement name as).2 =
      some (Text.lower name) := congrArg (·.bind Content.name?) hadd.content_self
  exact congrArg₂ List.cons hself (h.map_name?_of_added hadd)

theorem addText (h : b.Opens names) {s : String} (hs : (Signal.text s).Clean c.dropBlankText) :
    (b.addText s).Opens names := by
  have hsound : (b.under c).Sound := ⟨h.sound.wellFormed, h.sound.opened⟩
  have hafter := hsound.push (push_text b hs)
  have hadd := h.sound.wellFormed.stored.added h.sound.contains_current (.text s)
  exact ⟨⟨hafter.wellFormed, hafter.opened⟩, h.map_name?_of_added hadd⟩

/-- An end tag closes the innermost open element of its name and all elements opened in it. -/
theorem push_endTag (h : b.Opens names) {name : String} (hn : Text.lower name = name) :
    (b.under c).push (.endTag name) =
      match names.idxOf? name with
      | none =>
        if c.strict then .error (.unbalanced (.notOpen name)) else .ok (b.under c)
      | some inner =>
        if c.strict && inner ≠ 0 then .error (.unbalanced (.wouldClose name inner))
        else .ok ((b.closeInner (inner + 1)).under c) := by
  rw [← h.findIdx? name, push, hn]
  rfl

/-- End tags of the innermost open elements one after the other close just these. -/
theorem run_endTags (h : b.Opens names) (c : Config) (signals : List Signal) (count : Nat) :
    (b.under c).run ((names.take count).map .endTag ++ signals) =
      ((b.closeInner count).under c).run signals := by
  induction count generalizing b names with
  | zero => rfl
  | succ count ih =>
    cases names with
    | nil =>
      have hopened : b.opened = [] := List.map_eq_nil_iff.1 h.names
      have hclose : b.closeInner (count + 1) = b := by
        rw [Builder.closeInner, hopened, List.drop_nil, ← hopened]
      rw [hclose]
      rfl
    | cons name names =>
      have hpush : (b.under c).push (.endTag name) = .ok ((b.closeInner 1).under c) := by
        rw [h.push_endTag (h.lower_eq List.mem_cons_self)]
        simp [List.idxOf?, List.findIdx?_cons]
      have hrest : (b.closeInner 1).Opens names := h.closeInner 1
      have hinner : (b.closeInner 1).closeInner count = b.closeInner (count + 1) := by
        simp [Builder.closeInner]
      rw [List.take_succ_cons, List.map_cons, List.cons_append, run_cons_of_push hpush, ih hrest,
        hinner]

end Opens

/-! ### Repaired signals -/

theorem finish_lenient (c : Config) (hc : c.strict = false) :
    (b.under c).finish = .ok b.document := by
  have hlenient : ¬ (c.strict && !b.opened.isEmpty) = true := by simp [hc]
  exact if_neg hlenient

theorem not_clean {signal : Signal} (h : signal.clean? c.dropBlankText = none) :
    ¬ signal.Clean c.dropBlankText := by
  rw [Clean, h]
  exact (Option.some_ne_none signal).symm

/-- What a lenient builder makes of one signal: it opens and closes elements as the signal tells, or
refuses one that is too deep. A builder that takes what stands for the signal in repaired signals
does the same. -/
theorem push_mend (hc : c.strict = false) (hdepth : c'.maxDepth = c.maxDepth) (h : b.Opens names)
    (hroom : names.length ≤ c.maxDepth) {signal : Signal} (hs : signal.Clean c.dropBlankText)
    (hs' : signal.Clean c'.dropBlankText) :
    (∃ b' : Builder, b'.Opens (nowOpen names signal) ∧ (nowOpen names signal).length ≤ c.maxDepth ∧
      (b.under c).push signal = .ok (b'.under c) ∧
      ∀ rest, (b.under c').run (mend names signal ++ rest) = (b'.under c').run rest) ∨
    (c.maxDepth < (nowOpen names signal).length ∧
      (b.under c).push signal = .error (.tooDeep (c.maxDepth + 1) c.maxDepth) ∧
      ∀ rest, (b.under c').run (mend names signal ++ rest) =
        .error (.tooDeep (c.maxDepth + 1) c.maxDepth)) := by
  cases signal with
  | startTag name as =>
    have hname : Text.lower name = name := (Signal.startTag.inj (Option.some.inj hs)).1
    have hpush := push_startTag b c name as
    have hpush' := push_startTag b c' name as
    rw [h.depth_eq] at hpush hpush'
    rw [hdepth] at hpush'
    rcases Nat.lt_or_ge names.length c.maxDepth with hlt | hge
    · rw [if_neg (Nat.not_le.2 hlt)] at hpush hpush'
      have hopens := h.openElement name as
      rw [hname] at hopens
      exact .inl ⟨b.openElement name as, hopens, hlt, hpush, fun _ => run_cons_of_push hpush'⟩
    · rw [if_pos hge, Nat.le_antisymm hroom hge] at hpush hpush'
      exact .inr ⟨Nat.lt_succ_of_le hge, hpush, fun _ => run_cons_of_error hpush'⟩
  | endTag name =>
    have hname : Text.lower name = name := Signal.endTag.inj (Option.some.inj hs)
    have hpush := h.push_endTag (c := c) hname
    rw [hc] at hpush
    rw [mend, nowOpen]
    cases hidx : names.idxOf? name with
    | none =>
      simp only [hidx, Bool.false_eq_true, if_false] at hpush
      exact .inl ⟨b, h, hroom, hpush, fun _ => rfl⟩
    | some inner =>
      simp only [hidx, Bool.false_and, Bool.false_eq_true, if_false] at hpush
      have hsplit : names.take (inner + 1) = names.take inner ++ [name] := by
        obtain ⟨hlt, hget, -⟩ := List.idxOf?_eq_some_iff.1 hidx
        rw [List.take_succ_eq_append_getElem hlt, hget]
      refine .inl ⟨b.closeInner (inner + 1), h.closeInner (inner + 1), ?_, hpush, fun rest => ?_⟩
      · exact List.length_drop ▸ Nat.le_trans (Nat.sub_le _ _) hroom
      · have htags := h.run_endTags c' rest (inner + 1)
        rwa [hsplit, List.map_append] at htags
  | text s =>
    have hpush' := push_text b hs'
    exact .inl ⟨b.addText s, h.addText hs, hroom, push_text b hs, fun _ => run_cons_of_push hpush'⟩
  | comment | doctype | processingInstruction => exact absurd hs (not_clean rfl)

/-- A lenient builder makes of signals what any builder makes of the repaired ones, and refuses them
just if too many elements are open at once. -/
theorem run_repairFrom (hc : c.strict = false) (hdepth : c'.maxDepth = c.maxDepth)
    (h : b.Opens names) (hroom : names.length ≤ c.maxDepth)
    (hs : ∀ s ∈ signals, s.Clean c.dropBlankText) (hs' : ∀ s ∈ signals, s.Clean c'.dropBlankText) :
    (mostOpen names signals ≤ c.maxDepth ∧ ∃ d, (b.under c).run signals = .ok d ∧
      (b.under c').run (repairFrom names signals) = .ok d) ∨
    (c.maxDepth < mostOpen names signals ∧
      (b.under c).run signals = .error (.tooDeep (c.maxDepth + 1) c.maxDepth)) := by
  induction signals generalizing b names with
  | nil =>
    refine .inl ⟨hroom, b.document, finish_lenient c hc, ?_⟩
    have hall := h.run_endTags c' [] names.length
    have hnone : (b.closeInner names.length).opened = [] := by
      rw [← h.depth_eq]
      exact List.drop_length
    rw [List.take_length, List.append_nil, run_nil] at hall
    rw [repairFrom, hall]
    exact finish_of_opened (b := (b.closeInner names.length).under c') hnone
  | cons signal rest ih =>
    have hsignal := hs signal List.mem_cons_self
    have hsignal' := hs' signal List.mem_cons_self
    rw [mostOpen, repairFrom]
    rcases push_mend hc hdepth h hroom hsignal hsignal' with
      ⟨b', hopens, hroom', hpush, hmend⟩ | ⟨hdeep, hpush, -⟩
    · rw [run_cons_of_push hpush, hmend]
      rcases ih hopens hroom' (fun s hm => hs s (List.mem_cons_of_mem signal hm))
        fun s hm => hs' s (List.mem_cons_of_mem signal hm) with ⟨hmost, hrun⟩ | ⟨hmost, hrun⟩
      · exact .inl ⟨Nat.max_le.2 ⟨hroom, hmost⟩, hrun⟩
      · exact .inr ⟨Nat.lt_of_lt_of_le hmost (Nat.le_max_right _ _), hrun⟩
    · have hmost := Nat.lt_of_lt_of_le hdeep (length_le_mostOpen _ rest)
      refine .inr ⟨Nat.lt_of_lt_of_le hmost (Nat.le_max_right _ _), ?_⟩
      rw [run_cons_of_error hpush]

/-- Signals that a strict builder takes need no repair. -/
theorem repairFrom_eq_of_strict {d : Document} (hc : c.strict = true) (h : b.Opens names)
    (hs : ∀ s ∈ signals, s.Clean c.dropBlankText) (hrun : (b.under c).run signals = .ok d) :
    repairFrom names signals = signals := by
  induction signals generalizing b names with
  | nil =>
    rw [run_nil, finish] at hrun
    split at hrun
    · cases hrun
    · next hnone =>
      have hopened : b.opened = [] := by simpa [under, hc] using hnone
      have hnames := h.names
      rw [hopened, List.map_nil, eq_comm, List.map_eq_nil_iff] at hnames
      rw [hnames]
      rfl
  | cons signal rest ih =>
    have hsignal := hs signal List.mem_cons_self
    have hrest {b : Builder} {names : List String} (h : b.Opens names) :=
      ih h fun s hm => hs s (List.mem_cons_of_mem signal hm)
    rw [run_cons] at hrun
    cases signal with
    | startTag name as =>
      have hname : Text.lower name = name := (Signal.startTag.inj (Option.some.inj hsignal)).1
      have hopens := h.openElement name as
      rw [hname] at hopens
      rw [push_startTag] at hrun
      split at hrun
      · cases hrun
      · exact congrArg (_ :: ·) (hrest hopens hrun)
    | endTag name =>
      have hname : Text.lower name = name := Signal.endTag.inj (Option.some.inj hsignal)
      rw [h.push_endTag hname] at hrun
      rw [repairFrom, mend, nowOpen]
      cases hidx : names.idxOf? name with
      | none =>
        simp only [hidx, hc, if_true] at hrun
        cases hrun
      | some inner =>
        cases inner with
        | zero =>
          simp only [hidx, hc] at hrun
          exact congrArg (_ :: ·) (hrest (h.closeInner 1) hrun)
        | succ inner =>
          simp [hidx, hc] at hrun
          cases hrun
    | text s =>
      rw [push_text b hsignal] at hrun
      exact congrArg (_ :: ·) (hrest (h.addText hsignal) hrun)
    | comment | doctype | processingInstruction => cases hsignal

end Builder

namespace Document

variable {c c' : Config} {signals : List Signal} {d : Document}

theorem ofSignals_clean (c : Config) (signals : List Signal) :
    ofSignals c (clean c.dropBlankText signals) = ofSignals c signals :=
  Builder.run_clean signals (.new c)

theorem ofSignals_repairFrom (c c' : Config) (signals : List Signal) (hc : c.strict = false)
    (hdepth : c'.maxDepth = c.maxDepth)
    (hs : ∀ s ∈ clean c.dropBlankText signals, s.Clean c'.dropBlankText) :
    (mostOpen [] (clean c.dropBlankText signals) ≤ c.maxDepth ∧
      ∃ d, ofSignals c signals = .ok d ∧ ofSignals c' (repair c.dropBlankText signals) = .ok d) ∨
    (c.maxDepth < mostOpen [] (clean c.dropBlankText signals) ∧
      ofSignals c signals = .error (.tooDeep (c.maxDepth + 1) c.maxDepth)) := by
  rw [← ofSignals_clean c signals]
  exact Builder.run_repairFrom hc hdepth (.new c) (Nat.zero_le _) (fun _ => clean_of_mem_clean) hs

/-- The document of signals is played back as the repaired signals. -/
theorem signals_of_ofSignals (hc : c.strict = false) (hd : ofSignals c signals = .ok d) :
    d.WellFormed ∧ d.signals .root = repair c.dropBlankText signals := by
  obtain ⟨ts, hts, hrepair⟩ := exists_trees c.dropBlankText signals
  have hkeep : ∀ s ∈ clean c.dropBlankText signals, s.Clean false := fun s hs =>
    (clean_of_mem_clean hs).keepBlankText
  rcases ofSignals_repairFrom c ⟨c.strict, c.maxDepth, false⟩ signals hc rfl hkeep with
    ⟨-, e, he, hrun⟩ | ⟨-, herror⟩
  · obtain rfl := Except.ok.inj (hd.symm.trans he)
    rw [hrepair] at hrun
    have hnodrop : (⟨c.strict, c.maxDepth, false⟩ : Config).dropBlankText = false := rfl
    rcases ofSignals_signalsOfList hnodrop hts with ⟨-, e, he', hw, hshows⟩ | ⟨-, herror⟩
    · obtain rfl := Except.ok.inj (hrun.symm.trans he')
      refine ⟨hw, ?_⟩
      have hkept : ∀ s ∈ repair c.dropBlankText signals, (s != .text "") = true := fun _ hs =>
        bne_iff_ne.2 (ne_text_empty_of_mem_repair hs)
      rw [Document.signals, hshows.tree?_eq hw.linked]
      show Tree.signalsOfList (Tree.pruneList ts) = _
      rw [Tree.signalsOfList_pruneList, ← hrepair, List.filter_eq_self.2 hkept]
    · rw [hrun] at herror
      cases herror
  · rw [hd] at herror
    cases herror

/-- Signals that a strict builder takes are left as they are by repairing once they are clean. -/
theorem repair_eq_clean_of_strict (hc : c.strict = true) (hd : ofSignals c signals = .ok d) :
    repair c.dropBlankText signals = clean c.dropBlankText signals := by
  rw [← ofSignals_clean] at hd
  exact Builder.repairFrom_eq_of_strict hc (.new c) (fun _ => clean_of_mem_clean) hd

/-- Building signals. A lenient builder makes a document of them that is played back as the repaired
signals, unless too many elements are open at once. A strict builder takes the signals just if they
need no repair, that is if they nest once they are clean, and makes the very same document of them.
It makes the same of the repaired signals of any text. -/
theorem ofSignals_repair (config : Config) (signals : List Signal) :
    let lenient : Config := { config with strict := false }
    let strict : Config := { config with strict := true }
    let cleaned := clean config.dropBlankText signals
    let repaired := repair config.dropBlankText signals
    (¬ mostOpen [] cleaned ≤ config.maxDepth → ofSignals lenient signals =
      .error (.tooDeep (config.maxDepth + 1) config.maxDepth)) ∧
    (mostOpen [] cleaned ≤ config.maxDepth → ∃ d, ofSignals lenient signals = .ok d ∧
      d.signals .root = repaired ∧ d.Plays [.enter .root] repaired ∧
      ((∃ e, ofSignals strict signals = .ok e) ↔ repaired = cleaned) ∧
      (repaired = cleaned ↔ Nested cleaned) ∧
      (∀ e, ofSignals strict signals = .ok e → e = d) ∧
      ofSignals strict repaired = .ok d) := by
  intro lenient strict cleaned repaired
  have hrun := ofSignals_repairFrom lenient strict signals rfl rfl fun _ => clean_of_mem_clean
  refine ⟨fun hdeep => ?_, fun hroom => ?_⟩
  · rcases hrun with ⟨hroom, -⟩ | ⟨-, herror⟩
    · exact absurd hroom hdeep
    · exact herror
  · rcases hrun with ⟨-, d, hd, hrepaired⟩ | ⟨hdeep, -⟩
    · obtain ⟨hw, hsignals⟩ := signals_of_ofSignals rfl hd
      have hplays : d.Plays [.enter .root] repaired := hw.linked.plays_iff.2 hsignals.symm
      -- Once they need no repair, the signals and the repaired ones are the same to a builder.
      have hsame (h : repaired = cleaned) : ofSignals strict signals = .ok d := by
        rw [← ofSignals_clean strict signals]
        exact (congrArg (ofSignals strict) h).symm.trans hrepaired
      refine ⟨d, hd, hsignals, hplays, ⟨?_, fun h => ⟨d, hsame h⟩⟩, repair_eq_clean_iff _ _, ?_,
        hrepaired⟩
      · rintro ⟨e, he⟩
        exact repair_eq_clean_of_strict (c := strict) rfl he
      · intro e he
        have h : repaired = cleaned := repair_eq_clean_of_strict (c := strict) rfl he
        exact Except.ok.inj (he.symm.trans (hsame h))
    · exact absurd hroom (Nat.not_le.2 hdeep)

/-- Tags that overlap: the inner element is closed with the outer one, and its own end tag comes too
late. -/
theorem ofSignals_repair_overlap :
    ∃ d, ofSignals ⟨false, 2, false⟩
        [.startTag "b" [], .startTag "I" [], .text "x", .endTag "b", .endTag "i"] = .ok d ∧
      d.signals .root =
        [.startTag "b" [], .startTag "i" [], .text "x", .endTag "i", .endTag "b"] := by
  obtain ⟨d, hd, hsignals, -⟩ := (ofSignals_repair ⟨false, 2, false⟩
    [.startTag "b" [], .startTag "I" [], .text "x", .endTag "b", .endTag "i"]).2
      (by decide +kernel)
  exact ⟨d, hd, hsignals.trans (by decide +kernel)⟩

end Document

end MarkupTree
