import MarkupTree.Document.Normalize
import MarkupTree.Proofs.Document.WellFormed

/-!
# When edits of the tree succeed

For every edit, what it needs of a document with its links in order, and the document that it then
gives. An edit that succeeds has gone through all its checks, so each statement is an equivalence.
-/

namespace MarkupTree.Document

variable {d e : Document} {x y p a b n new : NodeId}

theorem bind_eq_ok {ε α β : Type} {r : Except ε α} {f : α → Except ε β} {v : β} :
    r >>= f = .ok v ↔ ∃ u, r = .ok u ∧ f u = .ok v := by
  cases r <;> simp [bind, Except.bind]

theorem bind_unit_eq_ok {ε β : Type} {r : Except ε Unit} {f : Unit → Except ε β} {v : β} :
    r >>= f = .ok v ↔ r = .ok () ∧ f () = .ok v := by
  rw [bind_eq_ok]
  exact ⟨fun ⟨_, h⟩ => h, fun h => ⟨(), h⟩⟩

theorem ok_eq_ok {ε α : Type} {u v : α} : (pure u : Except ε α) = .ok v ↔ v = u :=
  ⟨fun h => (Except.ok.inj h).symm, fun h => congrArg Except.ok h.symm⟩

theorem ite_error_eq_ok {ε α : Type} {c : Prop} [Decidable c] {err : ε} {r : Except ε α} {v : α} :
    (if c then .error err else r) = .ok v ↔ ¬ c ∧ r = .ok v := by
  split <;> simp [*]

theorem require_eq_ok {node : Node} : d.require x = .ok node ↔ d.get? x = some node := by
  unfold require; split <;> simp_all

theorem exists_require : (∃ node, d.require x = .ok node) ↔ d.contains x = true := by
  simp only [require_eq_ok, contains_iff]

theorem kind?_of_get? {node : Node} (h : d.get? x = some node) : d.kind? x = some node.kind := by
  simp [kind?, content?, h, Node.kind]

theorem parent?_of_get? {node : Node} (h : d.get? x = some node) : d.parent? x = node.parent? := by
  simp [parent?, h]

theorem requireKind_eq_ok {k : Kind} : d.requireKind x k = .ok () ↔ d.kind? x = some k := by
  rw [requireKind, bind_eq_ok]
  constructor
  · rintro ⟨node, hnode, hk⟩
    split at hk
    · rw [kind?_of_get? (require_eq_ok.1 hnode), ‹node.kind = k›]
    · cases hk
  · intro hk
    obtain ⟨node, hnode⟩ := contains_iff.1 (contains_of_kind? hk)
    rw [kind?_of_get? hnode, Option.some.injEq] at hk
    exact ⟨node, require_eq_ok.2 hnode, if_pos hk⟩

theorem requireParent_eq_ok {use : ParentUse} :
    d.requireParent x use = .ok p ↔ d.parent? x = some p := by
  rw [requireParent, bind_eq_ok]
  constructor
  · rintro ⟨node, hnode, hp⟩
    rw [parent?_of_get? (require_eq_ok.1 hnode)]
    split at hp <;> simp_all
  · intro hp
    obtain ⟨node, hnode⟩ := contains_iff.1 (contains_of_parent? hp)
    rw [parent?_of_get? hnode] at hp
    exact ⟨node, require_eq_ok.2 hnode, by rw [hp]⟩

theorem checkInsert_eq_ok (h : d.Linked) : d.checkInsert p x = .ok () ↔ d.Insertable p x := by
  simp only [checkInsert, bind_eq_ok, ite_error_eq_ok, h.isAncestorOrSelf_iff, and_true]
  constructor
  · rintro ⟨pn, hp, xn, hx, htext, hdoc, hapart⟩
    have hpk := kind?_of_get? (require_eq_ok.1 hp)
    have hxk := kind?_of_get? (require_eq_ok.1 hx)
    refine ⟨contains_of_kind? hpk, contains_of_kind? hxk, ?_, ?_, hapart⟩
    · rwa [isText_iff, hpk, Option.some.injEq]
    · rwa [isDocument_iff, hxk, Option.some.injEq]
  · intro hi
    obtain ⟨pn, hp⟩ := contains_iff.1 hi.parent
    obtain ⟨xn, hx⟩ := contains_iff.1 hi.child
    have htext := hi.container
    have hdoc := hi.not_document
    rw [isText_iff, kind?_of_get? hp, Option.some.injEq] at htext
    rw [isDocument_iff, kind?_of_get? hx, Option.some.injEq] at hdoc
    exact ⟨pn, require_eq_ok.2 hp, xn, require_eq_ok.2 hx, htext, hdoc, hi.apart⟩

theorem append_eq_ok (h : d.Linked) :
    d.append p x = .ok e ↔ d.Insertable p x ∧ e = (d.unlink x).linkLast p x := by
  rw [append, bind_unit_eq_ok, ok_eq_ok, checkInsert_eq_ok h]

theorem prepend_eq_ok (h : d.Linked) :
    d.prepend p x = .ok e ↔ d.Insertable p x ∧ e = (d.unlink x).linkAt p 0 x := by
  rw [prepend, bind_unit_eq_ok, ok_eq_ok, checkInsert_eq_ok h]

theorem insertAt_eq_ok (h : d.Linked) {k : Int} : d.insertAt k p x = .ok e ↔
    d.Insertable p x ∧ e = (d.unlink x).linkAt p (k - 1).toNat x := by
  rw [insertAt, bind_unit_eq_ok, ok_eq_ok, checkInsert_eq_ok h]

theorem insertBeside_eq_ok (h : d.Linked) {after : Nat} {use : ParentUse} :
    d.insertBeside n new after use = .ok e ↔ ∃ p, d.parent? n = some p ∧ d.Insertable p new ∧
      e = if new = n then d else
        (d.unlink new).linkAt p ((d.unlink new).offset n + after) new := by
  rw [insertBeside, bind_eq_ok]
  simp only [requireParent_eq_ok, bind_unit_eq_ok, checkInsert_eq_ok h]
  refine exists_congr fun p => and_congr_right fun _ => and_congr_right fun _ => ?_
  split <;> exact ok_eq_ok

theorem detach_eq_ok : d.detach n = .ok e ↔ d.contains n = true ∧ e = d.unlink n := by
  simp only [detach, bind_eq_ok, ok_eq_ok, ← exists_require, exists_and_right]

theorem delete_eq_ok :
    d.delete n = .ok e ↔ d.contains n = true ∧ n ≠ .root ∧ e = (d.unlink n).reclaim n := by
  simp only [delete, bind_eq_ok, ← exists_require, ← exists_and_right]
  refine exists_congr fun _ => and_congr_right fun _ => ?_
  rw [ite_error_eq_ok, ok_eq_ok]

theorem clear_eq_ok : d.clear n = .ok e ↔ d.contains n = true ∧ e = d.orphan n := by
  simp only [clear, bind_eq_ok, ok_eq_ok, ← exists_require, exists_and_right]

theorem replace_eq_ok (h : d.Linked) :
    d.replace n new = .ok e ↔ ∃ p, d.parent? n = some p ∧ d.Insertable p new ∧
      (new = n ∧ e = d ∨ new ≠ n ∧ ¬ Reaches d.parent? new n ∧
        e = (((d.unlink new).unlink n).linkAt p ((d.unlink new).offset n) new).reclaim n) := by
  rw [replace, bind_eq_ok]
  simp only [requireParent_eq_ok, bind_unit_eq_ok, checkInsert_eq_ok h]
  refine exists_congr fun p => and_congr_right fun _ => and_congr_right fun _ => ?_
  by_cases hn : new = n
  · simp [hn, ok_eq_ok]
  · rw [if_neg hn, ite_error_eq_ok, ok_eq_ok, h.isAncestorOrSelf_iff]
    simp only [hn, false_and, false_or, ne_eq, not_false_eq_true, true_and]

/-- What `wrap` does once the wrapper stands alone. -/
def enclose (d : Document) (n w : NodeId) : Document :=
  (match d.position? n with
    | some (p, i) => (d.unlink n).linkAt p i w
    | none => d).linkAt w 0 n

theorem wrap_eq_ok (h : d.Linked) {w : NodeId} : d.wrap n w = .ok e ↔ d.isElement w = true ∧
    d.contains n = true ∧ ¬ d.isDocument n = true ∧ ¬ Reaches d.parent? n w ∧
      e = ((d.orphan w).unlink w).enclose n w := by
  rw [wrap, bind_unit_eq_ok, requireKind_eq_ok, ← isElement_iff, bind_eq_ok]
  refine and_congr_right fun _ => ?_
  rw [← exists_require, ← exists_and_right]
  refine exists_congr fun node => and_congr_right fun hnode => ?_
  rw [isDocument_iff, kind?_of_get? (require_eq_ok.1 hnode), Option.some.injEq]
  show (if _ then _ else _) = _ ↔ _
  rw [ite_error_eq_ok, ite_error_eq_ok, ok_eq_ok, h.isAncestorOrSelf_iff]
  rfl

theorem unwrap_eq_ok : d.unwrap n = .ok e ↔ ∃ p, d.parent? n = some p ∧
    e = (d.children n).zipIdx.foldl (fun e (c, i) => e.linkAt p (d.offset n + i) c)
      ((d.orphan n).unlink n) := by
  simp only [unwrap, bind_eq_ok, requireParent_eq_ok, ok_eq_ok]

theorem normalize_eq_ok : d.normalize n = .ok e ↔ d.contains n = true ∧
    e = ((n :: d.descendants n).filter fun x => !d.isText x).foldl normalizeOne d := by
  simp only [normalize, bind_eq_ok, ok_eq_ok, ← exists_require, exists_and_right]

end MarkupTree.Document
