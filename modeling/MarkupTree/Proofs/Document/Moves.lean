import MarkupTree.Proofs.Document.Outcome
import MarkupTree.Proofs.Document.Steps

/-!
# Edits of the tree in place

An edit in place either is refused, with the document as it was, or runs to its end and makes of
the document what the edit makes of it, and the document stays well-formed. Wherever an edit is half
done, what comes next is again taken where it belongs.
-/

namespace MarkupTree.InPlace

open Document

variable {d e : Document} {x y p q c a b n new : NodeId} {α β : Type}

/-- The run ends as the edit does. -/
def Carries (d : Document) (m : Run Unit) : Except EditError Document → Prop
  | .ok e => m d = .ok () e ∧ e.WellFormed
  | .error cause => m d = .error (.refused cause) d

theorem check_bind {s : Except EditError α} {f : α → Run β} {g : α → Except EditError β}
    (h : ∀ v, f v d = check (g v) d) : (check s >>= f) d = check (s >>= g) d := by
  cases s with
  | ok v => exact h v
  | error cause => rfl

theorem check_of_bind {β : Type} (s : Except EditError α) (g : α → Except EditError β) :
    (check (s >>= g) : Run β) = check s >>= fun v => check (g v) := by
  cases s <;> rfl

theorem check_ite {s : Prop} [Decidable s] {m m' : Run α} {r r' : Except EditError α}
    (h : m d = check r d) (h' : m' d = check r' d) :
    (if s then m else m') d = check (if s then r else r') d := by
  split
  · exact h
  · exact h'

theorem checkInsert_eq (h : d.Linked) (p c : NodeId) :
    checkInsert p c d = check (d.checkInsert p c) d := by
  refine check_bind fun pn => check_bind fun cn => check_ite rfl (check_ite rfl ?_)
  rw [bind_of_ok (isAncestorOrSelf_eq h c p)]
  exact check_ite rfl rfl

namespace Carries

variable {m m' : Run Unit} {r r' : Except EditError Document}

theorem read {m : Run α} {v : α} {f : α → Run Unit} (hm : m d = .ok v d)
    (h : Carries d (f v) r) : Carries d (m >>= f) r := by
  have hrun : (m >>= f) d = f v d := bind_of_ok hm f
  unfold Carries at h ⊢
  rwa [hrun]

theorem check {m : Run α} {s : Except EditError α} {f : α → Run Unit}
    {g : α → Except EditError Document} (hm : m d = check s d)
    (h : ∀ v, s = .ok v → Carries d (f v) (g v)) : Carries d (m >>= f) (s >>= g) := by
  cases s with
  | ok v => exact read (r := g v) hm (h v rfl)
  | error cause =>
    show (m >>= f) d = .error (.refused cause) d
    rw [bind_congr hm]
    rfl

theorem ite {s : Prop} [Decidable s] (h : s → Carries d m r) (h' : ¬ s → Carries d m' r') :
    Carries d (if s then m else m') (if s then r else r') := by
  split
  · exact h ‹_›
  · exact h' ‹_›

theorem only_check (h : d.WellFormed) (s : Except EditError Unit) :
    Carries d (InPlace.check s) (s >>= fun _ => pure d) := by
  cases s with
  | ok => exact ⟨rfl, h⟩
  | error cause => exact (rfl : Carries d (throw (.refused cause)) (.error cause))

/-- A look at the document decides the same in place and not. -/
theorem look {s : Bool} {f : Run Bool} (hf : f d = .ok s d) (h : s = true → Carries d m r)
    (h' : ¬ s = true → Carries d m' r') :
    Carries d (f >>= fun t => if t = true then m else m') (if s = true then r else r') :=
  read hf (ite h h')

theorem refuse (cause : EditError) : Carries d (throw (.refused cause)) (.error cause) := rfl

theorem unchanged (h : d.WellFormed) : Carries d (pure ()) (pure d) := ⟨rfl, h⟩

end Carries

/-- A node can go into its wrapper once the wrapper stands at the place of the node: from the old
parent of the node one can meet neither the wrapper nor the node. -/
theorem insertable_of_placed (h : d.Linked) (hp : d.parent? n = some p) (hi : d.Insertable a n)
    (hia : (d.unlink n).Insertable p a) (i : Nat) :
    ((d.unlink n).linkAt p i a).Insertable a n := by
  refine (hi.unlink n).relink (Relinked.linkAt _ p _ a) fun hr => ?_
  rw [parent?_linkAt hia.child] at hr
  rcases hr.cases with han | ⟨r, hr₁, hr⟩
  · exact hi.not_self han
  · rw [Function.update_self, Option.some.injEq] at hr₁
    rw [← hr₁, Reaches.congr_of_not (fun y hy => Function.update_of_ne hy _ _) hia.apart] at hr
    refine h.forest.grounded.not_reaches_of_passes (.single hp) (hr.mono ?_)
    exact fun y r hy => parent?_of_unlink hy

/-- The former children of a node can take its place. -/
theorem insertable_of_orphan (h : d.Linked) (hp : d.parent? n = some p) (hc : c ∈ d.children n) :
    ((d.orphan n).unlink n).Insertable p c ∧ ((d.orphan n).unlink n).parent? c = none := by
  have hup := h.mem_children.1 hc
  have hnc : c ≠ n := (h.forest.grounded.ne_of_up hup).symm
  have hrel := (Relinked.orphan d n).trans (Relinked.unlink (d.orphan n) n)
  have hle : ∀ y r, ((d.orphan n).unlink n).parent? y = some r → d.parent? y = some r :=
    fun y r hy => parent?_of_orphan (fun _ => h.mem_children) (parent?_of_unlink hy)
  refine ⟨⟨?_, ?_, ?_, ?_, fun hr => ?_⟩, ?_⟩
  · rw [hrel.contains]; exact h.contains_parent hp
  · rw [hrel.contains]; exact contains_of_parent? hup
  · rw [hrel.isText]; exact h.not_isText_parent hp
  · rw [hrel.isDocument]; exact h.not_isDocument_child hup
  · exact h.forest.grounded.not_reaches_of_passes
      (passes_iff.2 ⟨n, hup, .step hp .refl⟩) (hr.mono hle)
  · rw [parent?_unlink_of_ne hnc, parent?_orphan fun _ => h.mem_children]
    exact if_pos hup

section
variable (h : d.WellFormed)
include h

/-- A detached node is put in its new place. -/
theorem linkAt_eq (hi : d.Insertable p c) (hup : d.parent? c = none) (n : Nat) :
    linkAt p n c d = .ok () (d.linkAt p n c) ∧ (d.linkAt p n c).WellFormed :=
  ⟨linkAt_of_detached hi.parent hi.child hup n, h.linkAt hi hup n⟩

/-- A node is moved to a place that is told once the node has been taken out. -/
theorem move_eq (hi : d.Insertable p c) (n : Document → Nat) :
    (unlink c >>= fun _ => get >>= fun e => linkAt p (n e) c) d =
        .ok () ((d.unlink c).linkAt p (n (d.unlink c)) c) ∧
      ((d.unlink c).linkAt p (n (d.unlink c)) c).WellFormed := by
  rw [bind_of_ok (unlink_eq h hi.child), get_bind]
  exact linkAt_eq (h.unlink c) (hi.unlink c) (parent?_unlink_self d c) _

theorem append_carries : Carries d (append p x) (d.append p x) := by
  refine .check (checkInsert_eq h.linked p x) fun _ hi => ?_
  rw [linkLast_eq]
  exact move_eq h ((checkInsert_eq_ok h.linked).1 hi) fun e => (e.children p).length

theorem prepend_carries : Carries d (prepend p x) (d.prepend p x) :=
  .check (checkInsert_eq h.linked p x) fun _ hi =>
    move_eq h ((checkInsert_eq_ok h.linked).1 hi) fun _ => 0

theorem insertAt_carries (k : Int) : Carries d (insertAt k p x) (d.insertAt k p x) :=
  .check (checkInsert_eq h.linked p x) fun _ hi =>
    move_eq h ((checkInsert_eq_ok h.linked).1 hi) fun _ => (k - 1).toNat

theorem insertBeside_carries (after : Nat) (use : ParentUse) :
    Carries d (insertBeside n new after use) (d.insertBeside n new after use) :=
  .check rfl fun p _ => .check (checkInsert_eq h.linked p new) fun _ hi =>
    .ite (fun _ => .unchanged h) fun _ =>
      move_eq h ((checkInsert_eq_ok h.linked).1 hi) fun e => e.offset n + after

theorem detach_carries : Carries d (detach n) (d.detach n) :=
  .check rfl fun _ hn => ⟨unlink_eq h (exists_require.1 ⟨_, hn⟩), h.unlink n⟩

theorem clear_carries : Carries d (clear n) (d.clear n) := by
  refine .check rfl fun _ hn => ⟨?_, h.orphan n⟩
  rw [bind_of_ok (takeChildren_eq h (exists_require.1 ⟨_, hn⟩))]
  rfl

theorem delete_carries : Carries d (delete n) (d.delete n) := by
  refine .check rfl fun _ hn => .ite (fun _ => .refuse _) fun hroot => ?_
  have hn := exists_require.1 ⟨_, hn⟩
  have hup := parent?_unlink_self d n
  have hn' : (d.unlink n).contains n = true := by rw [contains_unlink]; exact hn
  refine ⟨?_, (h.unlink n).reclaim hn' hup hroot⟩
  rw [bind_of_ok (unlink_eq h hn), freeSubtree_eq (h.unlink n) hn' hup]

theorem replace_carries : Carries d (replace n new) (d.replace n new) := by
  refine .check rfl fun p hp => .check (checkInsert_eq h.linked p new) fun _ hi =>
    .ite (fun _ => .unchanged h) fun hne =>
      .look (isAncestorOrSelf_eq h.linked n new) (fun _ => .refuse _) fun _ => ?_
  have hp := requireParent_eq_ok.1 hp
  have hi := (checkInsert_eq_ok h.linked).1 hi
  have h₁ := h.unlink new
  have h₂ := h₁.unlink n
  have hn₁ : (d.unlink new).contains n = true := by
    rw [contains_unlink]; exact contains_of_parent? hp
  have hup : ((d.unlink new).unlink n).parent? new = none := by
    rw [parent?_unlink_of_ne hne, parent?_unlink_self]
  obtain ⟨hrun, h₃⟩ := linkAt_eq h₂ ((hi.unlink new).unlink n) hup ((d.unlink new).offset n)
  have hn₃ : (((d.unlink new).unlink n).linkAt p ((d.unlink new).offset n) new).contains n =
      true := by rw [contains_linkAt, contains_unlink]; exact hn₁
  have hup₃ : (((d.unlink new).unlink n).linkAt p ((d.unlink new).offset n) new).parent? n =
      none := by
    rw [parent?_linkAt ((hi.unlink new).unlink n).child, Function.update_of_ne (Ne.symm hne),
      parent?_unlink_self]
  refine ⟨?_, h₃.reclaim hn₃ hup₃ (h.ne_root_of_parent? hp)⟩
  rw [bind_of_ok (unlink_eq h hi.child), get_bind, bind_of_ok (unlink_eq h₁ hn₁), bind_of_ok hrun,
    freeSubtree_eq h₃ hn₃ hup₃]

/-- The wrapper takes the place of the node, if the node has one, and then the node. -/
theorem enclose_eq (hi : d.Insertable a n) (hup : d.parent? a = none)
    (hsub : ∀ p, d.parent? n = some p → d.Insertable p a) :
    (takePlace n a >>= fun _ => linkAt a 0 n) d = .ok () (d.enclose n a) ∧
      (d.enclose n a).WellFormed := by
  have hpos := position?_eq h.linked.forest n
  cases hp : d.parent? n with
  | none =>
    rw [hp] at hpos
    have hplace : takePlace n a d = .ok () d := by
      rw [takePlace, get_bind, hpos]
      rfl
    rw [enclose, hpos, bind_of_ok hplace]
    exact linkAt_eq h hi hp 0
  | some p =>
    rw [hp] at hpos
    have hplace : takePlace n a d =
        (unlink n >>= fun _ => linkAt p ((d.children p).idxOf n) a) d := by
      rw [takePlace, get_bind, hpos]
      rfl
    rw [enclose, hpos]
    have hia := (hsub p hp).unlink n
    have hupa : (d.unlink n).parent? a = none := by rw [parent?_unlink_of_ne hi.not_self, hup]
    obtain ⟨hrun, h₂⟩ := linkAt_eq (h.unlink n) hia hupa ((d.children p).idxOf n)
    have hin := insertable_of_placed h.linked hp hi hia ((d.children p).idxOf n)
    have hupn : ((d.unlink n).linkAt p ((d.children p).idxOf n) a).parent? n = none := by
      rw [parent?_linkAt hia.child, Function.update_of_ne (Ne.symm hi.not_self),
        parent?_unlink_self]
    obtain ⟨hrun', h₃⟩ := linkAt_eq h₂ hin hupn 0
    refine ⟨?_, h₃⟩
    rw [bind_of_ok (hplace.trans ((bind_of_ok (unlink_eq h hi.child) _).trans hrun)), hrun']
    rfl

theorem wrap_carries {w : NodeId} : Carries d (wrap n w) (d.wrap n w) := by
  refine .check rfl fun _ hw => .check rfl fun node hn => .ite (fun _ => .refuse _) fun hk =>
    .look (isAncestorOrSelf_eq h.linked w n) (fun _ => .refuse _) fun hr => ?_
  rw [requireKind_eq_ok, ← isElement_iff] at hw
  rw [require_eq_ok] at hn
  rw [h.linked.isAncestorOrSelf_iff] at hr
  have hcw := contains_of_isElement hw
  have hcn := contains_iff.2 ⟨node, hn⟩
  have hdoc : ¬ d.isDocument n = true := by
    rwa [isDocument_iff, kind?_of_get? hn, Option.some.injEq]
  have h₁ := (h.orphan w).unlink w
  have hrel := (Relinked.orphan d w).trans (Relinked.unlink (d.orphan w) w)
  have hle : ∀ y r, ((d.orphan w).unlink w).parent? y = some r → d.parent? y = some r :=
    fun y r hy => parent?_of_orphan (fun _ => h.linked.mem_children) (parent?_of_unlink hy)
  have hup := parent?_unlink_self (d.orphan w) w
  have hi : ((d.orphan w).unlink w).Insertable w n := by
    refine ⟨?_, ?_, ?_, ?_, ?_⟩
    · rw [hrel.contains]; exact hcw
    · rw [hrel.contains]; exact hcn
    · rw [hrel.isText]; exact not_isText_of_isElement hw
    · rw [hrel.isDocument]; exact hdoc
    · exact fun hr' => hr (hr'.eq_of_none hup ▸ .refl)
  have hsub : ∀ p, ((d.orphan w).unlink w).parent? n = some p →
      ((d.orphan w).unlink w).Insertable p w := by
    intro p hp
    refine ⟨h₁.linked.contains_parent hp, ?_, h₁.linked.not_isText_parent hp, ?_,
      fun hpw => hr (.step (hle n p hp) (hpw.mono hle))⟩
    · rw [hrel.contains]; exact hcw
    · rw [hrel.isDocument]; exact not_isDocument_of_isElement hw
  have hcw' : (d.orphan w).contains w = true := by
    rw [(Relinked.orphan d w).contains]; exact hcw
  obtain ⟨hrun, hwf⟩ := enclose_eq h₁ hi hup hsub
  refine ⟨?_, hwf⟩
  rw [bind_of_ok (takeChildren_eq h hcw), bind_of_ok (unlink_eq (h.orphan w) hcw')]
  exact hrun

theorem unwrap_carries : Carries d (unwrap n) (d.unwrap n) := by
  refine .check rfl fun p hp => ?_
  have hp := requireParent_eq_ok.1 hp
  have hcn := contains_of_parent? hp
  have hcn' : (d.orphan n).contains n = true := by
    rw [(Relinked.orphan d n).contains]; exact hcn
  have h₁ := (h.orphan n).unlink n
  have hrel := (Relinked.orphan d n).trans (Relinked.unlink (d.orphan n) n)
  have hsub : ∀ c ∈ d.children n, ((d.orphan n).unlink n).Insertable p c ∧
      ((d.orphan n).unlink n).parent? c = none := fun c hc => insertable_of_orphan h.linked hp hc
  have hnd : ((d.children n).zipIdx.map Prod.fst).Nodup := by
    rw [List.zipIdx_map_fst]; exact h.linked.forest.nodup n
  have hmem : ∀ b ∈ (d.children n).zipIdx, b.1 ∈ d.children n := fun b hb => by
    rw [← List.zipIdx_map_fst 0 (d.children n)]; exact List.mem_map_of_mem hb
  have hlinked := h₁.linked.foldl_linkAt (fun _ b => d.offset n + b.2) Prod.fst hnd
    fun b hb => hsub b.1 (hmem b hb)
  have hrun := forM_linkAt_of_detached (fun _ b => d.offset n + b.2) Prod.fst
    (by rw [hrel.contains]; exact h.linked.contains_parent hp) hnd
    fun b hb => ⟨(hsub b.1 (hmem b hb)).1.child, (hsub b.1 (hmem b hb)).2⟩
  refine ⟨?_, h₁.relink (Relinked.foldl (fun e (b : NodeId × Nat) =>
    Relinked.linkAt e p (d.offset n + b.2) b.1) _ _) hlinked⟩
  rw [get_bind, bind_of_ok (takeChildren_eq h hcn), bind_of_ok (unlink_eq (h.orphan n) hcn')]
  exact hrun

end

end MarkupTree.InPlace
