import ServiceDirectory.Text.Hex
import ServiceDirectory.Text.Utf8

namespace ServiceDirectory.Json

/-- The smallest parts of a JSON text. -/
inductive Token
  | openObject
  | closeObject
  | openArray
  | closeArray
  | comma
  | colon
  | null
  /-- A number or a truth value, as it is written. -/
  | scalar (literal : List Char)
  /-- A string; `none` if what it spells is not Unicode text. -/
  | text (s : Option String)
deriving DecidableEq

/-- A character of the input, or `none` for bytes that spell none. -/
abbrev Glyph := Option Char

def isBlank (g : Glyph) : Bool := g == some ' ' || g == some '\t' || g == some '\n' || g == some '\r'

/-- What a string is made of before surrogates are paired. -/
inductive Piece
  | char (c : Char)
  | surrogate (unit : Nat)
  | broken

def Piece.ofUnit (n : Nat) : Piece :=
  if 0xD800 ≤ n ∧ n < 0xE000 then .surrogate n else .char (Char.ofNat n)

/-- The character after a backslash, other than for a numbered escape. -/
def escape? : Char → Option Char
  | '"' => some '"'
  | '\\' => some '\\'
  | '/' => some '/'
  | 'b' => some '\x08'
  | 'f' => some '\x0c'
  | 'n' => some '\n'
  | 'r' => some '\r'
  | 't' => some '\t'
  | _ => none

def unit? (gs : List Glyph) : Option Nat := do
  let ds ← gs.mapM fun g => g.bind Hex.value?
  return Hex.toNat ds

/-- The rest of a string up to its closing quote, and what follows the quote. -/
def pieces : List Glyph → Option (List Piece × List Glyph)
  | [] => none
  | some '"' :: r => some ([], r)
  | some '\\' :: some 'u' :: a :: b :: c :: d :: r =>
    (unit? [a, b, c, d]).bind fun n => (pieces r).map fun p => (.ofUnit n :: p.1, p.2)
  | some '\\' :: some e :: r =>
    (escape? e).bind fun c => (pieces r).map fun p => (.char c :: p.1, p.2)
  | some c :: r =>
    if c = '\\' ∨ c.toNat < 0x20 then none else (pieces r).map fun p => (.char c :: p.1, p.2)
  | none :: r => (pieces r).map fun p => (.broken :: p.1, p.2)

/-- A high surrogate must be followed by a low one, and a low one must follow a high one. -/
def textOf : List Piece → Option (List Char)
  | [] => some []
  | .char c :: ps => (c :: ·) <$> textOf ps
  | .surrogate h :: .surrogate l :: ps =>
    if h < 0xDC00 ∧ 0xDC00 ≤ l then
      (Char.ofNat (0x10000 + (h - 0xD800) * 0x400 + (l - 0xDC00)) :: ·) <$> textOf ps
    else none
  | .surrogate _ :: _ | .broken :: _ => none

/-- The digits at the front. -/
def digits : List Glyph → List Char × List Glyph
  | some c :: r => if c.isDigit then (c :: (digits r).1, (digits r).2) else ([], some c :: r)
  | r => ([], r)

/-- At least one digit. -/
def digits1 (s : List Glyph) : Option (List Char × List Glyph) :=
  if (digits s).1 = [] then none else some (digits s)

/-- A zero stands alone. -/
def integer : List Glyph → Option (List Char × List Glyph)
  | some '0' :: r => some (['0'], r)
  | r => digits1 r

def fraction : List Glyph → Option (List Char × List Glyph)
  | some '.' :: r => (digits1 r).map fun p => ('.' :: p.1, p.2)
  | r => some ([], r)

def exponentDigits : List Glyph → Option (List Char × List Glyph)
  | some '+' :: r => (digits1 r).map fun p => ('+' :: p.1, p.2)
  | some '-' :: r => (digits1 r).map fun p => ('-' :: p.1, p.2)
  | r => digits1 r

def exponent : List Glyph → Option (List Char × List Glyph)
  | some 'e' :: r => (exponentDigits r).map fun p => ('e' :: p.1, p.2)
  | some 'E' :: r => (exponentDigits r).map fun p => ('E' :: p.1, p.2)
  | r => some ([], r)

def unsigned (s : List Glyph) : Option (List Char × List Glyph) := do
  let (i, r) ← integer s
  let (f, r) ← fraction r
  let (e, r) ← exponent r
  return (i ++ f ++ e, r)

def number : List Glyph → Option (List Char × List Glyph)
  | some '-' :: r => (unsigned r).map fun p => ('-' :: p.1, p.2)
  | r => unsigned r

/-- What follows `word`, if the text starts with it. -/
def dropWord (word : List Char) (s : List Glyph) : Option (List Glyph) :=
  if s.take word.length = word.map some then some (s.drop word.length) else none

/-- The token at the front of a text that does not start with a blank. -/
def token (s : List Glyph) : Option (Token × List Glyph) :=
  match s with
  | some '\x7b' :: r => some (.openObject, r)
  | some '\x7d' :: r => some (.closeObject, r)
  | some '[' :: r => some (.openArray, r)
  | some ']' :: r => some (.closeArray, r)
  | some ',' :: r => some (.comma, r)
  | some ':' :: r => some (.colon, r)
  | some '"' :: r => (pieces r).map fun p => (.text ((textOf p.1).map String.ofList), p.2)
  | some 'n' :: _ => (dropWord "null".toList s).map fun r => (.null, r)
  | some 't' :: _ => (dropWord "true".toList s).map fun r => (.scalar "true".toList, r)
  | some 'f' :: _ => (dropWord "false".toList s).map fun r => (.scalar "false".toList, r)
  | _ => (number s).map fun p => (.scalar p.1, p.2)

theorem pieces_length {s : List Glyph} {p : List Piece × List Glyph} (h : pieces s = some p) :
    p.2.length < s.length := by
  fun_induction pieces s generalizing p with
  | case1 => simp at h
  | case2 r =>
    simp only [Option.some.injEq] at h
    simp [← h]
  | case3 a b c d r ih =>
    simp only [Option.bind_eq_some_iff, Option.map_eq_some_iff] at h
    obtain ⟨n, -, q, hq, rfl⟩ := h
    have := ih hq
    simp only [List.length_cons]
    omega
  | case4 e r _ ih =>
    simp only [Option.bind_eq_some_iff, Option.map_eq_some_iff] at h
    obtain ⟨n, -, q, hq, rfl⟩ := h
    have := ih hq
    simp only [List.length_cons]
    omega
  | case5 => simp at h
  | case6 c r _ _ _ _ ih =>
    simp only [Option.map_eq_some_iff] at h
    obtain ⟨q, hq, rfl⟩ := h
    have := ih hq
    simp only [List.length_cons]
    omega
  | case7 r ih =>
    simp only [Option.map_eq_some_iff] at h
    obtain ⟨q, hq, rfl⟩ := h
    have := ih hq
    simp only [List.length_cons]
    omega

theorem digits_length (s : List Glyph) : (digits s).1.length + (digits s).2.length = s.length := by
  fun_induction digits s with
  | case1 c r _ ih =>
    simp only [List.length_cons]
    omega
  | case2 => simp
  | case3 => simp

theorem digits1_length {s r : List Glyph} {ds : List Char} (h : digits1 s = some (ds, r)) :
    r.length < s.length := by
  unfold digits1 at h
  split at h
  · simp at h
  · rename_i hne
    simp only [Option.some.injEq] at h
    have := digits_length s
    have := List.length_pos_iff.2 hne
    simp only [h] at *
    omega

theorem integer_length {s r : List Glyph} {ds : List Char} (h : integer s = some (ds, r)) :
    r.length < s.length := by
  unfold integer at h
  split at h
  · simp only [Option.some.injEq, Prod.mk.injEq] at h
    simp [h.2]
  · exact digits1_length h

theorem fraction_length {s r : List Glyph} {ds : List Char} (h : fraction s = some (ds, r)) :
    r.length ≤ s.length := by
  unfold fraction at h
  split at h
  · simp only [Option.map_eq_some_iff, Prod.mk.injEq] at h
    obtain ⟨p, hp, -, rfl⟩ := h
    have := digits1_length hp
    simp only [List.length_cons]
    omega
  · simp only [Option.some.injEq, Prod.mk.injEq] at h
    simp [h.2]

theorem exponentDigits_length {s r : List Glyph} {ds : List Char}
    (h : exponentDigits s = some (ds, r)) : r.length < s.length := by
  unfold exponentDigits at h
  split at h
  case h_3 => exact digits1_length h
  all_goals
    simp only [Option.map_eq_some_iff, Prod.mk.injEq] at h
    obtain ⟨p, hp, -, rfl⟩ := h
    have := digits1_length hp
    simp only [List.length_cons]
    omega

theorem exponent_length {s r : List Glyph} {ds : List Char} (h : exponent s = some (ds, r)) :
    r.length ≤ s.length := by
  unfold exponent at h
  split at h
  case h_3 =>
    simp only [Option.some.injEq, Prod.mk.injEq] at h
    simp [h.2]
  all_goals
    simp only [Option.map_eq_some_iff, Prod.mk.injEq] at h
    obtain ⟨p, hp, -, rfl⟩ := h
    have := exponentDigits_length hp
    simp only [List.length_cons]
    omega

theorem unsigned_length {s r : List Glyph} {ds : List Char} (h : unsigned s = some (ds, r)) :
    r.length < s.length := by
  simp only [unsigned, Option.bind_eq_bind, Option.bind_eq_some_iff, Option.pure_def,
    Option.some.injEq, Prod.mk.injEq] at h
  obtain ⟨⟨i, r₁⟩, hi, ⟨f, r₂⟩, hf, ⟨e, r₃⟩, he, -, rfl⟩ := h
  have := integer_length hi
  have := fraction_length hf
  have := exponent_length he
  simp only at *
  omega

theorem number_length {s r : List Glyph} {ds : List Char} (h : number s = some (ds, r)) :
    r.length < s.length := by
  unfold number at h
  split at h
  · simp only [Option.map_eq_some_iff, Prod.mk.injEq] at h
    obtain ⟨p, hp, -, rfl⟩ := h
    have := unsigned_length hp
    simp only [List.length_cons]
    omega
  · exact unsigned_length h

theorem dropWord_length {w : List Char} {s r : List Glyph} (hw : w ≠ [])
    (h : dropWord w s = some r) : r.length < s.length := by
  unfold dropWord at h
  split at h
  · rename_i ht
    simp only [Option.some.injEq] at h
    subst h
    have := congrArg List.length ht
    have := List.length_pos_iff.2 hw
    simp only [List.length_take, List.length_map, List.length_drop] at *
    omega
  · simp at h

theorem token_length {s r : List Glyph} {t : Token} (h : token s = some (t, r)) :
    r.length < s.length := by
  unfold token at h
  split at h
  case h_7 =>
    simp only [Option.map_eq_some_iff, Prod.mk.injEq] at h
    obtain ⟨p, hp, -, rfl⟩ := h
    have := pieces_length hp
    simp only [List.length_cons]
    omega
  case h_11 =>
    simp only [Option.map_eq_some_iff, Prod.mk.injEq] at h
    obtain ⟨p, hp, -, rfl⟩ := h
    exact number_length hp
  all_goals first
    | (simp only [Option.some.injEq, Prod.mk.injEq] at h
       simp [h.2])
    | (simp only [Option.map_eq_some_iff, Prod.mk.injEq] at h
       obtain ⟨r', hr, -, rfl⟩ := h
       exact dropWord_length (by decide) hr)

/-- The whole text as tokens; blanks between them mean nothing. -/
def tokens (s : List Glyph) : Option (List Token) :=
  match s with
  | [] => some []
  | g :: r =>
    if isBlank g then tokens r
    else
      match _h : token (g :: r) with
      | none => none
      | some (t, rest) => (t :: ·) <$> tokens rest
termination_by s.length
decreasing_by
  · simp
  · exact token_length _h

end ServiceDirectory.Json
