import ServiceDirectory.Json.Value

namespace ServiceDirectory.Json

/-! Strings as the grammar has them, whichever way their characters are spelled, and that each is
read. -/

/-- A character that may stand for itself. -/
def IsBare (c : Char) : Prop := c ≠ '"' ∧ c ≠ '\\' ∧ 0x20 ≤ c.toNat

instance : DecidablePred IsBare := fun _ => inferInstanceAs (Decidable (_ ∧ _))

/-- The letter that names a character after a backslash, and that character. -/
def namedEscapes : List (Char × Char) :=
  [('"', '"'), ('\\', '\\'), ('/', '/'), ('b', '\x08'), ('f', '\x0c'), ('n', '\n'), ('r', '\r'),
    ('t', '\t')]

/-- A hexadecimal digit, in either case. -/
def HexDigit (d : Fin 16) (c : Char) : Prop := c = Hex.digit d ∨ c = (Hex.digit d).toUpper

/-- A number given by a backslash and four hexadecimal digits. -/
inductive NumberedEscape (n : Nat) : List Char → Prop
  | intro {p q r s : Fin 16} {w x y z : Char} (hn : n = ((p.val * 16 + q.val) * 16 + r.val) * 16 + s.val)
    (hw : HexDigit p w) (hx : HexDigit q x) (hy : HexDigit r y) (hz : HexDigit s z) :
    NumberedEscape n ['\\', 'u', w, x, y, z]

/-- The ways to spell a character within a string. -/
inductive SpellsChar : Char → List Char → Prop
  | bare {c : Char} (h : IsBare c) : SpellsChar c [c]
  | named {e c : Char} (h : (e, c) ∈ namedEscapes) : SpellsChar c ['\\', e]
  | numbered {c : Char} {us : List Char} (h : NumberedEscape c.toNat us) : SpellsChar c us
  /-- A character past the basic plane takes two numbers. -/
  | paired {c : Char} {high low : Nat} {us vs : List Char} (hh : 0xD800 ≤ high ∧ high < 0xDC00)
    (hl : 0xDC00 ≤ low ∧ low < 0xE000)
    (hc : c.toNat = 0x10000 + (high - 0xD800) * 0x400 + (low - 0xDC00))
    (hus : NumberedEscape high us) (hvs : NumberedEscape low vs) : SpellsChar c (us ++ vs)

inductive Spells : List Char → List Char → Prop
  | nil : Spells [] []
  | cons {c : Char} {cs us body : List Char} (h : SpellsChar c us) (hs : Spells cs body) :
    Spells (c :: cs) (us ++ body)

/-- `text` is a string that spells `s`. -/
def StringOf (s : String) (text : List Char) : Prop :=
  ∃ body, Spells s.toList body ∧ text = '"' :: body ++ ['"']

/-- What may stand between quotes; the numbers in it need not make up characters. -/
inductive IsBody : List Char → Prop
  | nil : IsBody []
  | bare {c : Char} {body : List Char} (h : IsBare c) (hb : IsBody body) : IsBody (c :: body)
  | named {e c : Char} {body : List Char} (h : (e, c) ∈ namedEscapes) (hb : IsBody body) :
    IsBody ('\\' :: e :: body)
  | numbered {n : Nat} {us body : List Char} (h : NumberedEscape n us) (hb : IsBody body) :
    IsBody (us ++ body)

def IsString (text : List Char) : Prop := ∃ body, IsBody body ∧ text = '"' :: body ++ ['"']

theorem value?_of_hexDigit {d : Fin 16} {c : Char} (h : HexDigit d c) : Hex.value? c = some d := by
  have hl : ∀ d, Hex.value? (Hex.digit d) = some d := by decide
  have hu : ∀ d, Hex.value? (Hex.digit d).toUpper = some d := by decide
  rcases h with rfl | rfl
  · exact hl d
  · exact hu d

theorem pieces_bare {c : Char} (h : IsBare c) (r : List Glyph) :
    pieces (some c :: r) = (pieces r).map fun p => (.char c :: p.1, p.2) := by
  obtain ⟨hq, hb, hc⟩ := h
  rw [pieces, if_neg (by simp [hb]; omega)]
  all_goals simp [hq, hb]

theorem pieces_named {e c : Char} (h : (e, c) ∈ namedEscapes) (r : List Glyph) :
    pieces (some '\\' :: some e :: r) = (pieces r).map fun p => (.char c :: p.1, p.2) := by
  have hall : ∀ p ∈ namedEscapes, p.1 ≠ 'u' ∧ escape? p.1 = some p.2 := by decide
  obtain ⟨hu, he⟩ := hall _ h
  rw [pieces, he, Option.bind_some]
  simp [hu]

theorem pieces_numbered {n : Nat} {us : List Char} (h : NumberedEscape n us) (r : List Glyph) :
    pieces (us.map some ++ r) = (pieces r).map fun p => (.ofUnit n :: p.1, p.2) := by
  obtain ⟨rfl, hw, hx, hy, hz⟩ := h
  simp [pieces, unit?, Hex.toNat, value?_of_hexDigit hw, value?_of_hexDigit hx,
    value?_of_hexDigit hy, value?_of_hexDigit hz]

theorem ofUnit_toNat (c : Char) : Piece.ofUnit c.toNat = .char c := by
  have hv : c.toNat < 0xD800 ∨ (0xDFFF < c.toNat ∧ c.toNat < 0x110000) := c.valid
  rw [Piece.ofUnit, if_neg (by omega), Char.ofNat_toNat]

/-- However a character is spelled, its pieces make it up. -/
theorem SpellsChar.exists_pieces {c : Char} {us : List Char} (h : SpellsChar c us) : ∃ ps,
    (∀ r, pieces (us.map some ++ r) = (pieces r).map fun p => (ps ++ p.1, p.2)) ∧
    ∀ qs, textOf (ps ++ qs) = (c :: ·) <$> textOf qs := by
  cases h with
  | bare h => exact ⟨[.char c], pieces_bare h, fun _ => rfl⟩
  | named h => exact ⟨[.char c], pieces_named h, fun _ => rfl⟩
  | numbered h =>
    refine ⟨[.char c], fun r => ?_, fun _ => rfl⟩
    rw [pieces_numbered h, ofUnit_toNat]
    rfl
  | @paired _ high low us vs hh hl hc hus hvs =>
    have hhigh : Piece.ofUnit high = .surrogate high := if_pos ⟨hh.1, by omega⟩
    have hlow : Piece.ofUnit low = .surrogate low := if_pos ⟨by omega, hl.2⟩
    refine ⟨[.surrogate high, .surrogate low], fun r => ?_, fun qs => ?_⟩
    · rw [List.map_append, List.append_assoc, pieces_numbered hus, pieces_numbered hvs, hhigh, hlow,
        Option.map_map]
      rfl
    · rw [List.cons_append, List.cons_append, List.nil_append, textOf, if_pos ⟨hh.2, hl.1⟩, ← hc,
        Char.ofNat_toNat]

theorem Spells.exists_pieces {cs body : List Char} (h : Spells cs body) : ∃ ps,
    (∀ r, pieces (body.map some ++ some '"' :: r) = some (ps, r)) ∧ textOf ps = some cs := by
  induction h with
  | nil => exact ⟨[], fun r => by simp [pieces], rfl⟩
  | cons hc _ ih =>
    obtain ⟨ps, hps, htext⟩ := hc.exists_pieces
    obtain ⟨qs, hqs, hrest⟩ := ih
    refine ⟨ps ++ qs, fun r => ?_, ?_⟩
    · rw [List.map_append, List.append_assoc, hps, hqs]
      rfl
    · rw [htext, hrest]
      rfl

theorem IsBody.exists_pieces {body : List Char} (h : IsBody body) :
    ∃ ps, ∀ r, pieces (body.map some ++ some '"' :: r) = some (ps, r) := by
  induction h with
  | nil => exact ⟨[], fun r => by simp [pieces]⟩
  | @bare c _ h _ ih =>
    obtain ⟨ps, hps⟩ := ih
    exact ⟨.char c :: ps, fun r => by
      rw [List.map_cons, List.cons_append, pieces_bare h, hps, Option.map_some]⟩
  | @named _ c _ h _ ih =>
    obtain ⟨ps, hps⟩ := ih
    exact ⟨.char c :: ps, fun r => by
      rw [List.map_cons, List.map_cons, List.cons_append, List.cons_append, pieces_named h, hps,
        Option.map_some]⟩
  | @numbered n _ _ h _ ih =>
    obtain ⟨ps, hps⟩ := ih
    exact ⟨.ofUnit n :: ps, fun r => by
      rw [List.map_append, List.append_assoc, pieces_numbered h, hps, Option.map_some]⟩

theorem token_body {body : List Char} {ps : List Piece}
    (h : ∀ r, pieces (body.map some ++ some '"' :: r) = some (ps, r)) (r : List Glyph) :
    token (('"' :: body ++ ['"']).map some ++ r) = some (.text ((textOf ps).map String.ofList), r) := by
  have hps := h r
  simp [token, hps]

theorem StringOf.token {s : String} {text : List Char} (h : StringOf s text) (r : List Glyph) :
    token (text.map some ++ r) = some (.text (some s), r) := by
  obtain ⟨body, hs, rfl⟩ := h
  obtain ⟨ps, hps, htext⟩ := hs.exists_pieces
  rw [token_body hps, htext, Option.map_some, String.ofList_toList]

theorem IsString.exists_token {text : List Char} (h : IsString text) :
    ∃ s, ∀ r, token (text.map some ++ r) = some (.text s, r) := by
  obtain ⟨body, hb, rfl⟩ := h
  obtain ⟨ps, hps⟩ := hb.exists_pieces
  exact ⟨_, token_body hps⟩

/-! What is written is spelled in one of these ways. -/

theorem spellsChar_escaped (c : Char) : SpellsChar c (escaped c) := by
  fun_cases escaped c with
  | case8 =>
    have hz : HexDigit 0 '0' := .inl rfl
    refine .numbered (.intro ?_ hz hz (.inl rfl) (.inl rfl))
    change c.toNat = ((0 * 16 + 0) * 16 + c.toNat / 16) * 16 + c.toNat % 16
    omega
  | case9 h1 h2 _ _ _ _ _ h8 => exact .bare ⟨h1, h2, Nat.le_of_not_lt h8⟩
  | _ => exact .named (by subst c; decide)

theorem spells_flatMap_escaped (cs : List Char) : Spells cs (cs.flatMap escaped) := by
  induction cs with
  | nil => exact .nil
  | cons c cs ih => exact .cons (spellsChar_escaped c) ih

theorem stringOf_quoted (s : String) : StringOf s (quoted s) :=
  ⟨_, spells_flatMap_escaped s.toList, rfl⟩

end ServiceDirectory.Json
