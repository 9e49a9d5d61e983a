import MarkupTree.Text.Lowercase

/-!
# Lower case is final

Putting a text in lower case twice is putting it in lower case once. No character that the mapping
gives is moved by it again, and none is a capital sigma, so the surroundings play no part the
second time. A longer text is longer in lower case.
-/

namespace MarkupTree.Text

/-- What holds of the ASCII characters one by one holds of each. -/
theorem forall_ascii {P : Char → Prop} (h : ∀ n < 128, P (Char.ofNat n)) {c : Char}
    (hc : c.toNat < 128) : P c := by
  have hP := h c.toNat hc
  rwa [Char.ofNat_toNat] at hP

namespace CaseRun

variable {r s : CaseRun} {m n : Nat}

/-- No target of `r` lies in `s`: they are apart, or both go by twos on different parities. -/
def misses (r s : CaseRun) : Bool :=
  Nat.blt (r.target + (r.last - r.first)) s.first || Nat.blt s.last r.target ||
    (Nat.beq s.step 2 && (Nat.beq r.step 2 || Nat.beq r.last r.first) &&
      Nat.beq ((r.target + s.first) % 2) 1)

theorem image?_of_misses (h : r.misses s = true) (hm : r.image? n = some m) :
    s.image? m = none := by
  simp only [image?, Option.ite_none_right_eq_some, Option.some.injEq] at hm
  obtain ⟨⟨hfirst, hlast, hstep⟩, rfl⟩ := hm
  simp only [misses, Bool.or_eq_true, Bool.and_eq_true, Nat.blt_eq, Nat.beq_eq] at h
  rw [image?, if_neg]
  rintro ⟨h₁, h₂, h₃⟩
  rcases h with (h | h) | ⟨⟨hs, hr⟩, hpar⟩
  · omega
  · omega
  · rw [hs] at h₃
    rcases hr with hr | hr
    · rw [hr] at hstep; omega
    · omega

/-- The targets are characters, and neither U+0130 nor the capital sigma. -/
def isPlain (r : CaseRun) : Bool :=
  (Nat.blt (r.target + (r.last - r.first)) 0xD800 ||
    Nat.blt 0xDFFF r.target && Nat.blt (r.target + (r.last - r.first)) 0x110000) &&
    (Nat.blt (r.target + (r.last - r.first)) 0x130 || Nat.blt 0x130 r.target) &&
    (Nat.blt (r.target + (r.last - r.first)) 0x3A3 || Nat.blt 0x3A3 r.target)

theorem plain_image (h : r.isPlain = true) (hm : r.image? n = some m) :
    m.isValidChar ∧ m ≠ 0x130 ∧ m ≠ 0x3A3 := by
  simp only [image?, Option.ite_none_right_eq_some, Option.some.injEq] at hm
  obtain ⟨⟨hfirst, hlast, -⟩, rfl⟩ := hm
  simp only [isPlain, Bool.and_eq_true, Bool.or_eq_true, Nat.blt_eq] at h
  simp only [Nat.isValidChar]
  omega

end CaseRun

theorem toNat_ofNat {n : Nat} (h : n.isValidChar) : (Char.ofNat n).toNat = n := by
  rw [Char.ofNat, dif_pos h]; rfl

theorem misses_lowerRuns : lowerRuns.all (fun r => lowerRuns.all r.misses) = true := by
  decide +kernel

theorem isPlain_lowerRuns : lowerRuns.all CaseRun.isPlain = true := by decide +kernel

/-- A character that lower case leaves alone wherever it stands. -/
def Settled (c : Char) : Prop := c ≠ 'Σ' ∧ lowerChar c = [c]

theorem settled_ofNat_of_image? {r : CaseRun} (hr : r ∈ lowerRuns) {n m : Nat}
    (hm : r.image? n = some m) : Settled (Char.ofNat m) := by
  obtain ⟨hvalid, hdot, hsigma⟩ :=
    CaseRun.plain_image (List.all_eq_true.1 isPlain_lowerRuns r hr) hm
  have hnat : (Char.ofNat m).toNat = m := toNat_ofNat hvalid
  have hnone : lowerRuns.findSome? (·.image? m) = none := by
    rw [List.findSome?_eq_none_iff]
    intro s hs
    exact CaseRun.image?_of_misses
      (List.all_eq_true.1 (List.all_eq_true.1 misses_lowerRuns r hr) s hs) hm
  refine ⟨fun h => hsigma ?_, ?_⟩
  · rw [← hnat, h]; rfl
  · rw [lowerChar, hnat, if_neg hdot, hnone]

theorem settled_of_mem_lowerChar {a c : Char} (ha : a ≠ 'Σ') (h : c ∈ lowerChar a) :
    Settled c := by
  unfold lowerChar at h
  split at h
  · rcases List.mem_cons.1 h with rfl | h
    · exact ⟨by decide, by decide +kernel⟩
    · rw [List.mem_singleton.1 h]; exact ⟨by decide, by decide +kernel⟩
  · rename_i hdot
    split at h
    · rename_i m hm
      obtain ⟨r, hr, hm⟩ := List.exists_of_findSome?_eq_some hm
      rw [List.mem_singleton.1 h]
      exact settled_ofNat_of_image? hr hm
    · rename_i hnone
      rw [List.mem_singleton.1 h]
      exact ⟨ha, by rw [lowerChar, if_neg hdot, hnone]⟩

theorem settled_lowerSigma (before after : List Char) : Settled (lowerSigma before after) := by
  unfold lowerSigma
  split <;> exact ⟨by decide, by decide +kernel⟩

theorem settled_of_mem_lowerFrom {c : Char} : ∀ {before cs : List Char},
    c ∈ lowerFrom before cs → Settled c
  | _, [], h => absurd h List.not_mem_nil
  | before, a :: cs, h => by
    rw [lowerFrom, List.mem_append] at h
    rcases h with h | h
    · split at h
      · rw [List.mem_singleton.1 h]; exact settled_lowerSigma before cs
      · exact settled_of_mem_lowerChar ‹_› h
    · exact settled_of_mem_lowerFrom h

theorem lowerFrom_of_settled : ∀ (before cs : List Char), (∀ c ∈ cs, Settled c) →
    lowerFrom before cs = cs
  | _, [], _ => rfl
  | before, c :: cs, h => by
    obtain ⟨hsigma, hc⟩ := h c List.mem_cons_self
    rw [lowerFrom, if_neg hsigma, hc,
      lowerFrom_of_settled (c :: before) cs fun a ha => h a (List.mem_cons_of_mem c ha)]
    rfl

theorem lower_lower (s : String) : lower (lower s) = lower s := by
  simp only [lower, String.toList_ofList]
  rw [lowerFrom_of_settled [] _ fun c hc => settled_of_mem_lowerFrom hc]

theorem lowerChar_ne_nil (c : Char) : lowerChar c ≠ [] := by
  unfold lowerChar
  repeat' split
  all_goals exact List.cons_ne_nil _ _

theorem lowerFrom_ne_nil (before : List Char) {cs : List Char} (h : cs ≠ []) :
    lowerFrom before cs ≠ [] := by
  cases cs with
  | nil => exact absurd rfl h
  | cons c cs =>
    rw [lowerFrom]
    split
    · exact List.cons_ne_nil _ _
    · exact List.append_ne_nil_of_left_ne_nil (lowerChar_ne_nil c) _

theorem lower_ne_empty {s : String} (h : s ≠ "") : lower s ≠ "" := by
  rw [lower, ne_eq, String.ofList_eq_empty_iff]
  exact lowerFrom_ne_nil [] (mt String.toList_eq_nil_iff.1 h)

/-- The lower case of a character does not depend on what comes behind it, but for which sigma it
is. -/
theorem length_lowerFrom_append : ∀ before cs ds : List Char, ∃ before' : List Char,
    (lowerFrom before (cs ++ ds)).length =
      (lowerFrom before cs).length + (lowerFrom before' ds).length
  | before, [], ds => ⟨before, (Nat.zero_add _).symm⟩
  | before, c :: cs, ds => by
    obtain ⟨before', h⟩ := length_lowerFrom_append (c :: before) cs ds
    refine ⟨before', ?_⟩
    rw [List.cons_append, lowerFrom, lowerFrom, List.length_append, List.length_append, h,
      Nat.add_assoc]
    split <;> rfl

/-- A longer text is longer in lower case. -/
theorem lower_append_ne (cs : List Char) {ds : List Char} (h : ds ≠ []) :
    lower (String.ofList (cs ++ ds)) ≠ lower (String.ofList cs) := by
  obtain ⟨before, hlength⟩ := length_lowerFrom_append [] cs ds
  have hpos := List.length_pos_iff.2 (lowerFrom_ne_nil before h)
  intro heq
  rw [lower, lower, String.ofList_inj, String.toList_ofList, String.toList_ofList] at heq
  rw [heq] at hlength
  omega

def isLowerAscii (c : Char) : Bool := c.toNat < 128 && c.toLower = c

/-- ASCII text without capital letters is in lower case. -/
theorem lower_eq_of_isLowerAscii {s : String} (h : s.toList.all isLowerAscii = true) :
    lower s = s := by
  rw [lower, lowerFrom_of_settled, String.ofList_toList]
  intro c hc
  have hc := List.all_eq_true.1 h c hc
  rw [isLowerAscii, Bool.and_eq_true, decide_eq_true_eq, decide_eq_true_eq] at hc
  refine ⟨?_, by rw [lowerChar_of_lt hc.1, hc.2]⟩
  rintro rfl
  exact absurd hc.1 (by decide)

end MarkupTree.Text
