import ServiceDirectory.Json.Token

namespace ServiceDirectory.Json

inductive Value
  | null
  /-- A number or a truth value, as it is written. -/
  | scalar (literal : List Char)
  | text (s : Option String)
  | array (items : List Value)
  | object (members : List (Option String × Value))

/-- A value that is still open: what it holds so far, last first. -/
inductive Frame
  | array (items : List Value)
  | object (members : List (Option String × Value)) (name : Option String)

mutual

def readValue (open_ : List Frame) : List Token → Option Value
  | .null :: ts => close .null open_ ts
  | .scalar l :: ts => close (.scalar l) open_ ts
  | .text s :: ts => close (.text s) open_ ts
  | .openArray :: .closeArray :: ts => close (.array []) open_ ts
  | .openArray :: ts => readValue (.array [] :: open_) ts
  | .openObject :: .closeObject :: ts => close (.object []) open_ ts
  | .openObject :: ts => readMember [] open_ ts
  | _ => none

def readMember (members : List (Option String × Value)) (open_ : List Frame) :
    List Token → Option Value
  | .text name :: .colon :: ts => readValue (.object members name :: open_) ts
  | _ => none

/-- Goes on after a complete value. -/
def close (v : Value) : List Frame → List Token → Option Value
  | [], [] => some v
  | .array vs :: open_, .comma :: ts => readValue (.array (v :: vs) :: open_) ts
  | .array vs :: open_, .closeArray :: ts => close (.array (v :: vs).reverse) open_ ts
  | .object ms n :: open_, .comma :: ts => readMember ((n, v) :: ms) open_ ts
  | .object ms n :: open_, .closeObject :: ts => close (.object ((n, v) :: ms).reverse) open_ ts
  | _, _ => none

end

/-- One value with nothing but blanks around it. -/
def parse (bs : Bytes) : Option Value := (tokens (Utf8.scan bs)).bind (readValue [])

/-- How a character is written inside a string: controls, quotes and backslashes escaped, all else
as it is. -/
def escaped (c : Char) : List Char :=
  if c = '"' then ['\\', '"']
  else if c = '\\' then ['\\', '\\']
  else if c = '\x08' then ['\\', 'b']
  else if c = '\x0c' then ['\\', 'f']
  else if c = '\n' then ['\\', 'n']
  else if c = '\r' then ['\\', 'r']
  else if c = '\t' then ['\\', 't']
  else if h : c.toNat < 0x20 then
    ['\\', 'u', '0', '0', Hex.digit ⟨c.toNat / 16, by omega⟩, Hex.digit ⟨c.toNat % 16, by omega⟩]
  else [c]

def quoted (s : String) : List Char := '"' :: s.toList.flatMap escaped ++ ['"']

mutual

/-- Without blanks. -/
def Value.chars : Value → List Char
  | .null => "null".toList
  | .scalar l => l
  | .text s => quoted (s.getD "")
  | .array items => '[' :: itemChars items ++ [']']
  | .object members => '\x7b' :: memberChars members ++ ['\x7d']

def itemChars : List Value → List Char
  | [] => []
  | [v] => v.chars
  | v :: w :: vs => v.chars ++ ',' :: itemChars (w :: vs)

def memberChars : List (Option String × Value) → List Char
  | [] => []
  | [(n, v)] => quoted (n.getD "") ++ ':' :: v.chars
  | (n, v) :: m :: ms => quoted (n.getD "") ++ ':' :: v.chars ++ ',' :: memberChars (m :: ms)

end

def Value.write (v : Value) : Bytes := v.chars.flatMap Utf8.encodeChar

namespace Value

/-- The values of the named fields of a record, `none` for those it lacks. An object may hold other
members too but none of these twice; an array holds them in order and may break off early. -/
def fields? (names : List String) : Value → Option (List (Option Value))
  | .object members =>
    if members.all (·.1.isSome) then
      names.mapM fun n =>
        match members.filter (·.1 = some n) with
        | [] => some none
        | [m] => some (some m.2)
        | _ => none
    else none
  | .array items =>
    if items.length ≤ names.length then
      some (items.map some ++ List.replicate (names.length - items.length) none)
    else none
  | _ => none

def text? : Value → Option String
  | .text s => s
  | _ => none

/-- A field that may be missing or null. -/
def optional {α : Type} (read : Value → Option α) : Option Value → Option (Option α)
  | none | some .null => some none
  | some v => (read v).map some

def ofText (s : String) : Value := .text (some s)

def record (members : List (String × Value)) : Value := .object (members.map fun m => (some m.1, m.2))

end Value

end ServiceDirectory.Json
