import ServiceDirectory.Config.Value
import ServiceDirectory.Text.Blank
import ServiceDirectory.Text.Quoted

namespace ServiceDirectory.Config.Environment

open Reader

def isBlank (c : Char) : Bool := c = ' ' || c = '\t' || c = '\n' || c = '\x0c' || c = '\r'

def blanks : Reader Unit := discard (span isBlank)

def isSeparator (c : Char) : Bool := c = '\x7b' || c = '\x7d' || c = '[' || c = ']' || c = ','

def natural? (cs : List Char) : Option Nat :=
  if cs ≠ [] ∧ cs.all Char.isDigit then
    some (cs.foldl (fun n c => n * 10 + (c.toNat - 48)) 0)
  else none

/-- A whole number of one machine word, with or without a sign. -/
def whole? : List Char → Option Int
  | '-' :: cs =>
    (natural? cs).bind fun n => if n ≤ 0x8000000000000000 then some (-(n : Int)) else none
  | '+' :: cs | cs =>
    (natural? cs).bind fun n => if n < 0x10000000000000000 then some (n : Int) else none

/-- A number with a point, which must have a digit on one of its sides. -/
def real : Reader Unit := do
  char '-' <|> char '+' <|> pure ()
  let before ← span Char.isDigit
  char '.'
  let after ← span Char.isDigit
  if before ++ after = [] then failure
  (do
    char 'e' <|> char 'E'
    char '-' <|> char '+' <|> pure ()
    discard (one Char.isDigit)
    discard (span Char.isDigit)) <|> pure ()

/-- Anything that is not a number is a text. -/
def ofPlain (cs : List Char) : Value :=
  if (all? real cs).isSome then .real
  else match whole? cs with
    | some i => .whole i
    | none => .text (String.ofList cs)

def isNameChar (c : Char) : Bool := c.isAlphanum || c = '_' || c = '-'

def name : Reader String := do
  match ← next? with
  | some '"' => Quoted.text
  | _ =>
    let cs ← span isNameChar
    if cs = [] then failure else return String.ofList cs

/-- Parts with commas between them, and maybe one more at the end. -/
def listUpTo {α : Type} (close : Char) (part : Reader α) : Nat → Reader (List α)
  | 0 => failure
  | n + 1 => do
    if (← next?) = some close then
      char close
      return []
    let a ← part
    if ← takes "," then return a :: (← listUpTo close part n)
    char close
    return [a]

/-- Parts between brackets. -/
def listed {α : Type} (opening close : Char) (part : Reader α) : Reader (List α) := do
  char opening
  fun cs => listUpTo close part (cs.length + 1) cs

/-- Reads a value in which lists and tables are nested no deeper than `depth`. -/
def value (depth : Nat) : Reader Value := do
  blanks
  let v ← do
    if ← takes "true" then pure (Value.flag true)
    else if ← takes "false" then pure (Value.flag false)
    else match depth, ← next? with
      | depth + 1, some '[' => Value.array <$> listed '[' ']' (value depth)
      | depth + 1, some '\x7b' => do
        let members ← listed '\x7b' '\x7d' do
          blanks
          let k ← name
          blanks
          char '='
          return (k, ← value depth)
        pure (Value.table (members.foldl (fun m r => setMember r.1 r.2 m) []))
      | _, some '"' => Value.text <$> Quoted.text
      | _, some '\'' => do
        char '\''
        let c ← one fun _ => true
        char '\''
        pure (Value.text (String.ofList [c]))
      | _, _ => do return ofPlain (trimmed (← span fun c => !isSeparator c))
  blanks
  return v

/-- What a variable says. A text that is not one value as a whole stands for itself. -/
def read (s : String) : Value :=
  let cs := trimmed s.toList
  (all? (value cs.length) cs).getD (.text (String.ofList cs))

/-- Two underscores, like a point, go one table down. -/
def pointed : List Char → List Char
  | '_' :: '_' :: cs => '.' :: pointed cs
  | c :: cs => c :: pointed cs
  | [] => []

def splitAtPoints : List Char → List (List Char)
  | [] => [[]]
  | c :: cs =>
    match c, splitAtPoints cs with
    | '.', parts => [] :: parts
    | _, part :: parts => (c :: part) :: parts
    | _, [] => [[c]]

def namespaceMark : List Char := "discovery_".toList

/-- The path that a variable sets; none if it is not a setting. The first empty part ends it. -/
def path? (name : String) : Option (List String) :=
  let cs := name.toList.map Char.toLower
  let rest := cs.drop namespaceMark.length
  if namespaceMark.isPrefixOf cs ∧ rest ≠ [] then
    some (((splitAtPoints (pointed rest)).takeWhile (· ≠ [])).map String.ofList)
  else none

def nested (v : Value) (path : List String) : Value := path.foldr (fun k v => .table [(k, v)]) v

/-- The settings among some variables, of which later ones win. A variable that names no place must
hold a table. -/
def layer (env : List (String × String)) : Option Value :=
  env.foldlM (fun v r =>
    match path? r.1 with
    | none => some v
    | some path =>
      match nested (read r.2) path with
      | .table members => some (v.merge (.table members))
      | _ => none) (.table [])

end ServiceDirectory.Config.Environment
