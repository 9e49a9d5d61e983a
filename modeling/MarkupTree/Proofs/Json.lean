import MarkupTree.Json.Reader
import MarkupTree.Json.Writer

/-!
# Reading what was written

The reader of JSON texts undoes the writer. A string literal comes back character by character,
through every escape; a value comes back with all that follows it left over, so that the entries of
a list and the members of an object can be read one after the other.
-/

namespace MarkupTree.Json

/-! ### String literals -/

/-- A piece of a string literal that stands for one character. -/
def Piece.Means (p : Piece) (c : Char) : Prop := p = .char c ∨ p = .unit c.toNat

/-- No code point of a character is a surrogate. -/
theorem not_surrogate (c : Char) : ¬ (0xD800 ≤ c.toNat ∧ c.toNat < 0xE000) := by
  rintro ⟨hlow, hhigh⟩
  rcases c.valid with h | ⟨h, -⟩
  · exact absurd h (Nat.not_lt.2 hlow)
  · exact absurd (Nat.lt_of_lt_of_le h (Nat.le_of_lt_succ hhigh)) (Nat.lt_irrefl _)

theorem Piece.Means.joinPieces_cons {p : Piece} {c : Char} (h : p.Means c) (ps : List Piece) :
    joinPieces (p :: ps) = (joinPieces ps).map (c :: ·) := by
  rcases h with rfl | rfl
  · cases hps : joinPieces ps <;> simp [joinPieces, hps]
  · have hc := not_surrogate c
    cases ps with
    | nil => simp [joinPieces, hc]
    | cons q ps => cases hps : joinPieces (q :: ps) <;> simp [joinPieces, hc, hps]

theorem unitValue?_digitChar {n : Nat} (h : n < 0x20) :
    unitValue? '0' '0' (n / 16).digitChar (n % 16).digitChar = some n := by
  revert n
  decide

/-- A character that needs no escape stands for itself. -/
theorem readPieces_cons {c : Char} (hquote : c ≠ '"') (hbackslash : c ≠ '\\')
    (hcontrol : ¬ c.toNat < 0x20) (cs : List Char) :
    readPieces (c :: cs) = (readPieces cs).map fun r => (.char c :: r.1, r.2) := by
  rw [readPieces, if_neg hcontrol]
  · cases readPieces cs <;> rfl
  · exact hquote
  · exact fun _ _ _ _ _ h => absurd h hbackslash
  · exact fun _ _ h => absurd h hbackslash

/-- What a character is written as is read as one piece, which stands for the character. -/
theorem readPieces_escapeChar (c : Char) (cs : List Char) : ∃ p : Piece, p.Means c ∧
    readPieces (escapeChar c ++ cs) = (readPieces cs).map fun r => (p :: r.1, r.2) := by
  unfold escapeChar
  split
  iterate 7
    refine ⟨_, .inl rfl, ?_⟩
    cases h : readPieces cs <;> simp [readPieces, unescape?, h]
  split
  · rename_i hc
    refine ⟨_, .inr rfl, ?_⟩
    cases h : readPieces cs <;> simp [readPieces, unitValue?_digitChar hc, h]
  · rename_i hquote hbackslash _ _ _ _ _ hcontrol
    exact ⟨_, .inl rfl, readPieces_cons hquote hbackslash hcontrol cs⟩

theorem readPieces_flatMap_escapeChar (rest : List Char) : ∀ cs : List Char, ∃ ps,
    readPieces (cs.flatMap escapeChar ++ '"' :: rest) = some (ps, rest) ∧ joinPieces ps = some cs
  | [] => ⟨[], by simp [readPieces], rfl⟩
  | c :: cs => by
    obtain ⟨ps, hread, hjoin⟩ := readPieces_flatMap_escapeChar rest cs
    obtain ⟨p, hp, hstep⟩ := readPieces_escapeChar c (cs.flatMap escapeChar ++ '"' :: rest)
    refine ⟨p :: ps, ?_, ?_⟩
    · rw [List.flatMap_cons, List.append_assoc, hstep, hread]
      rfl
    · rw [hp.joinPieces_cons, hjoin]
      rfl

/-- A string literal is read back, also one without a text. -/
theorem readLiteral_writeLiteral (literal : Option String) (rest : List Char) :
    ∃ body, writeLiteral literal rest = '"' :: body ∧ readLiteral body = some (literal, rest) := by
  cases literal with
  | none => exact ⟨_, rfl, rfl⟩
  | some s =>
    obtain ⟨ps, hread, hjoin⟩ := readPieces_flatMap_escapeChar rest s.toList
    refine ⟨_, rfl, ?_⟩
    simp [readLiteral, hread, hjoin]

/-! ### Values -/

mutual

/-- No number is in the value. Numbers are written as they are spelled, in whatever way. -/
def NumberFree : Json → Prop
  | .number _ => False
  | .array items => NumberFreeItems items
  | .object members => NumberFreeMembers members
  | _ => True

def NumberFreeItems : List Json → Prop
  | [] => True
  | item :: items => NumberFree item ∧ NumberFreeItems items

def NumberFreeMembers : List (Option String × Json) → Prop
  | [] => True
  | (_, value) :: members => NumberFree value ∧ NumberFreeMembers members

end

theorem skipGap_of_not {c : Char} (h : isGap c = false) (cs : List Char) :
    skipGap (c :: cs) = c :: cs := by
  simp [skipGap, h]

/-- A value is written as a token that is neither white space nor a closing bracket. -/
theorem write_eq_cons {v : Json} (h : v.NumberFree) (rest : List Char) :
    ∃ c cs, write v rest = c :: cs ∧ isGap c = false ∧ c ≠ ']' := by
  cases v with
  | null => exact ⟨_, _, rfl, rfl, nofun⟩
  | bool b => cases b <;> exact ⟨_, _, rfl, rfl, nofun⟩
  | number => exact h.elim
  | string literal =>
    obtain ⟨body, hbody, -⟩ := readLiteral_writeLiteral literal rest
    exact ⟨_, _, hbody, rfl, nofun⟩
  | array items => cases items <;> exact ⟨_, _, rfl, rfl, nofun⟩
  | object members => cases members <;> exact ⟨_, _, rfl, rfl, nofun⟩

theorem length_writeLiteral (literal : Option String) (rest : List Char) :
    rest.length + 2 ≤ (writeLiteral literal rest).length := by
  cases literal with
  | none => simp [writeLiteral]
  | some s =>
    simp only [writeLiteral, List.length_cons, List.length_append]
    omega

mutual

theorem length_write {v : Json} (h : v.NumberFree) (rest : List Char) :
    rest.length < (write v rest).length := by
  match v, h with
  | .null, _ => exact Nat.lt_add_of_pos_right (by decide : 0 < 4)
  | .bool true, _ => exact Nat.lt_add_of_pos_right (by decide : 0 < 4)
  | .bool false, _ => exact Nat.lt_add_of_pos_right (by decide : 0 < 5)
  | .string literal, _ => exact Nat.lt_of_lt_of_le (by simp) (length_writeLiteral literal rest)
  | .array [], _ => exact Nat.lt_add_of_pos_right (by decide : 0 < 2)
  | .array (item :: items), h =>
    have hitem := length_write h.1 (writeItems items rest)
    have hitems := length_writeItems h.2 rest
    exact Nat.lt_succ_of_lt (Nat.lt_trans hitems hitem)
  | .object [], _ => exact Nat.lt_add_of_pos_right (by decide : 0 < 2)
  | .object ((key, value) :: members), h =>
    have hkey := length_writeLiteral key (':' :: write value (writeMembers members rest))
    have hvalue := length_write h.1 (writeMembers members rest)
    have hmembers := length_writeMembers h.2 rest
    simp only [write, List.length_cons] at hkey ⊢
    omega

theorem length_writeItems {items : List Json} (h : NumberFreeItems items) (rest : List Char) :
    rest.length < (writeItems items rest).length := by
  match items, h with
  | [], _ => simp [writeItems]
  | item :: items, h =>
    have hitem := length_write h.1 (writeItems items rest)
    have hitems := length_writeItems h.2 rest
    exact Nat.lt_succ_of_lt (Nat.lt_trans hitems hitem)

theorem length_writeMembers {members : List (Option String × Json)}
    (h : NumberFreeMembers members) (rest : List Char) :
    rest.length < (writeMembers members rest).length := by
  match members, h with
  | [], _ => simp [writeMembers]
  | (key, value) :: members, h =>
    have hkey := length_writeLiteral key (':' :: write value (writeMembers members rest))
    have hvalue := length_write h.1 (writeMembers members rest)
    have hmembers := length_writeMembers h.2 rest
    simp only [writeMembers, List.length_cons] at hkey ⊢
    omega

end

mutual

/-- A value is read back with what follows it, if there are two units of fuel for each of its
characters, less one. -/
theorem readValue_write (fuel : Nat) {v : Json} (h : v.NumberFree) (rest : List Char)
    (hfuel : 2 * (write v rest).length ≤ fuel + 2 * rest.length + 1) :
    readValue fuel (write v rest) = some (v, rest) := by
  have hlength := length_write h rest
  match fuel with
  | 0 => omega
  | fuel + 1 =>
  match v, h with
  | .null, _ => rfl
  | .bool true, _ => rfl
  | .bool false, _ => rfl
  | .string literal, _ =>
    obtain ⟨body, hbody, hread⟩ := readLiteral_writeLiteral literal rest
    simp [write, hbody, readValue, skipGap_of_not (rfl : isGap '"' = false), hread]
  | .array [], _ => rfl
  | .array (item :: items), h =>
    obtain ⟨c, cs, hcs, hgap, hc⟩ := write_eq_cons h.1 (writeItems items rest)
    simp only [write, List.length_cons] at hfuel
    have hitems := readItems_write fuel h rest (by omega)
    simp only [write, readValue, skipGap_of_not (rfl : isGap '[' = false)]
    rw [hcs] at hitems ⊢
    rw [skipGap_of_not hgap]
    split
    · rename_i heq
      exact absurd (List.cons.inj heq).1 hc
    · rw [hitems]
      rfl
  | .object [], _ => rfl
  | .object ((key, value) :: members), h =>
    obtain ⟨body, hbody, -⟩ :=
      readLiteral_writeLiteral key (':' :: write value (writeMembers members rest))
    simp only [write, List.length_cons] at hfuel
    have hmembers := readMembers_write fuel key h rest (by omega)
    simp only [write, readValue, skipGap_of_not (rfl : isGap '\x7b' = false)]
    rw [hbody] at hmembers ⊢
    simp [skipGap_of_not (rfl : isGap '"' = false), hmembers]

theorem readItems_write (fuel : Nat) {item : Json} {items : List Json}
    (h : NumberFreeItems (item :: items)) (rest : List Char)
    (hfuel : 2 * (write item (writeItems items rest)).length ≤ fuel + 2 * rest.length) :
    readItems fuel (write item (writeItems items rest)) = some (item :: items, rest) := by
  have hlength := length_write h.1 (writeItems items rest)
  have hlength' := length_writeItems h.2 rest
  match fuel with
  | 0 => omega
  | fuel + 1 =>
    have hitem := readValue_write fuel h.1 (writeItems items rest) (by omega)
    rw [readItems, hitem]
    match items, h.2 with
    | [], _ => rfl
    | next :: items, h' =>
      simp only [writeItems, List.length_cons] at hlength hfuel
      have hitems := readItems_write fuel h' rest (by omega)
      simp [writeItems, skipGap_of_not (rfl : isGap ',' = false), hitems]

theorem readMembers_write (fuel : Nat) (key : Option String) {value : Json}
    {members : List (Option String × Json)} (h : NumberFreeMembers ((key, value) :: members))
    (rest : List Char)
    (hfuel : 2 * (writeLiteral key (':' :: write value (writeMembers members rest))).length ≤
      fuel + 2 * rest.length) :
    readMembers fuel (writeLiteral key (':' :: write value (writeMembers members rest))) =
      some ((key, value) :: members, rest) := by
  have hkey := length_writeLiteral key (':' :: write value (writeMembers members rest))
  have hlength := length_write h.1 (writeMembers members rest)
  have hlength' := length_writeMembers h.2 rest
  rw [List.length_cons] at hkey
  match fuel with
  | 0 => omega
  | fuel + 1 =>
    obtain ⟨body, hbody, hread⟩ :=
      readLiteral_writeLiteral key (':' :: write value (writeMembers members rest))
    have hvalue := readValue_write fuel h.1 (writeMembers members rest) (by omega)
    rw [hbody, readMembers]
    simp only [skipGap_of_not (rfl : isGap '"' = false), skipGap_of_not (rfl : isGap ':' = false),
      hread, hvalue, Option.bind_eq_bind, Option.bind_some]
    match members, h.2 with
    | [], _ => rfl
    | (nextKey, next) :: members, h' =>
      simp only [writeMembers, List.length_cons] at hkey hlength hfuel
      have hmembers := readMembers_write fuel nextKey h' rest (by omega)
      simp [writeMembers, skipGap_of_not (rfl : isGap ',' = false), hmembers]

end

/-- The text of a value is read back as the value. -/
theorem parse?_render {v : Json} (h : v.NumberFree) : parse? (render v) = some v := by
  have hread := readValue_write (2 * (write v []).length + 2) h [] (by omega)
  rw [parse?, render, String.toList_ofList, readAll, hread]
  rfl

end MarkupTree.Json
