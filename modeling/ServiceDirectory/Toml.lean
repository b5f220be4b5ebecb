import ServiceDirectory.Toml.Item
import ServiceDirectory.Toml.Number

namespace ServiceDirectory.Toml

open Reader Config

/-- A name and its value. -/
def entry (value : Reader Value) : Reader (Key × Value) := do
  let k ← key
  char '='
  blanks
  return (k, ← value)

def items (value : Reader Value) : Reader Value := do
  let item := do
    space
    let v ← value
    space
    return v
  char '['
  let vs ← (do
    let vs ← separated item (char ',')
    char ',' <|> pure ()
    return vs) <|> pure []
  space
  char ']'
  return .array vs

def inlineTable (value : Reader Value) : Reader Value := do
  char '\x7b'
  let entries ← separated (do
    let e ← entry value
    blanks
    return e) (char ',') <|> pure []
  blanks
  char '\x7d'
  let members ← entries.foldlM (fun m e => assign e.1 e.2 m) []
  return .table (membersToValue members)

/-- A value in which arrays and tables are nested no deeper than `depth`. -/
def value (depth : Nat) : Reader Value := do
  match depth, ← next? with
  | _, some '"' | _, some '\'' => return .text (← text)
  | depth + 1, some '[' => items (value depth)
  | depth + 1, some '\x7b' => inlineTable (value depth)
  | _, some 't' => do word "true"; return .flag true
  | _, some 'f' => do word "false"; return .flag false
  | _, _ => moment <|> real <|> whole

inductive Statement
  | blank
  | heading (k : Key)
  | repeatedHeading (k : Key)
  | assignment (k : Key) (v : Value)

def statement : Reader Statement := do
  notAtEnd
  blanks
  match ← next? with
  | some '[' =>
    if ← takes "[[" then do
      let k ← key
      word "]]"
      lineEnd
      return .repeatedHeading k
    else do
      char '['
      let k ← key
      char ']'
      lineEnd
      return .heading k
  | some '#' | some '\n' | some '\r' | none =>
    lineEnd
    return .blank
  | _ =>
    let (k, v) ← entry (value 79)
    lineEnd
    return .assignment k v

/-- A document so far, and the path to the table that assignments belong to. -/
structure Draft where
  root : Members := []
  here : List String := []

def Draft.add (d : Draft) : Statement → Option Draft
  | .blank => some d
  | .heading k => do return { root := ← openTable k d.root, here := k.parents ++ [k.name] }
  | .repeatedHeading k => do return { root := ← openElement k d.root, here := k.parents ++ [k.name] }
  | .assignment k v => do return { d with root := ← within .path d.here (assign k v) d.root }

/-- Reads a document; a byte order mark may come first. -/
def parse (s : String) : Option Value := do
  let statements ← all? (do discard (takes "\uFEFF"); repeated statement) s.toList
  let d ← statements.foldlM Draft.add {}
  return .table (membersToValue d.root)

end ServiceDirectory.Toml
