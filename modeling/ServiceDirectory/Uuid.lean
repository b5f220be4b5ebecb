import ServiceDirectory.Text.Hex

namespace ServiceDirectory

/-- A universally unique identifier: its 32 hexadecimal digits. -/
structure Uuid where
  digits : List (Fin 16)
  length_eq : digits.length = 32

namespace Uuid

instance : DecidableEq Uuid := fun a b =>
  decidable_of_iff (a.digits = b.digits)
    ⟨fun h => by cases a; cases b; cases h; rfl, fun h => h ▸ rfl⟩

def ofDigits? (ds : List (Fin 16)) : Option Uuid :=
  if h : ds.length = 32 then some ⟨ds, h⟩ else none

/-- Made of 16 random bytes and marked as such. -/
def ofRandom? (bs : List UInt8) : Option Uuid :=
  ofDigits? (((bs.flatMap Hex.ofByte).set 12 4).modify 16 fun d => ⟨8 + d.val % 4, by omega⟩)

/-- Digits in groups joined by hyphens. -/
def groups : List Nat → List (Fin 16) → List Char
  | [], ds | [_], ds => ds.map Hex.digit
  | n :: ns, ds => (ds.take n).map Hex.digit ++ '-' :: groups ns (ds.drop n)

def chars (id : Uuid) : List Char := groups [8, 4, 4, 4, 12] id.digits

/-- Lower case with hyphens. -/
def text (id : Uuid) : String := String.ofList id.chars

def readGroups : List Nat → List Char → Option (List (Fin 16))
  | [], _ => none
  | [n], cs => if cs.length = n then cs.mapM Hex.value? else none
  | n :: m :: ns, cs =>
    match cs.drop n with
    | '-' :: rest => do return (← (cs.take n).mapM Hex.value?) ++ (← readGroups (m :: ns) rest)
    | _ => none

/-- The hyphenated form may stand in braces or after `urn:uuid:` in any case. -/
def unwrap (cs : List Char) : List Char :=
  if cs.length = 38 ∧ cs.head? = some '\x7b' ∧ cs.getLast? = some '\x7d' then cs.tail.dropLast
  else if (cs.take 9).map Char.toLower = "urn:uuid:".toList then cs.drop 9
  else cs

/-- Plain digits or the hyphenated form, in any case. -/
def parse? (s : String) : Option Uuid :=
  let cs := s.toList
  (if cs.length = 32 then cs.mapM Hex.value? else readGroups [8, 4, 4, 4, 12] (unwrap cs)).bind ofDigits?

end Uuid

end ServiceDirectory
