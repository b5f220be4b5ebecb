import ServiceDirectory.Text.Quoted

namespace ServiceDirectory.Toml

open Reader

def isBlank (c : Char) : Bool := c = ' ' || c = '\t'

def blanks : Reader Unit := discard (span isBlank)

def newline : Reader Unit := char '\n' <|> word "\r\n"

/-- The rest of a line. -/
def lineEnd : Reader Unit := do
  blanks
  if ← takes "#" then discard (span Quoted.isPlain)
  newline <|> atEnd

/-- Blanks, line ends and comments. -/
def space : Reader Unit := discard <| repeated do
  discard (one isBlank) <|> newline <|> do
    char '#'
    discard (span Quoted.isPlain)
    newline <|> atEnd

/-- One or two quotes within a text that three of them close. -/
def innerQuotes (q : Char) : Reader (List Char) := do
  let run ← span (· = q)
  if run.length = 1 ∨ run.length = 2 then return run else failure

/-- Closing quotes; of up to five, those before the last three belong to the text. -/
def closingQuotes (q : Char) : Reader (List Char) := do
  let run ← span (· = q)
  if 3 ≤ run.length ∧ run.length ≤ 5 then return run.drop 3 else failure

/-- A text over several lines, between threefold quotes. A line end right after the opening quotes
is not part of it. -/
def lines (q : Char) (part : Reader (List Char)) : Reader String := do
  word (String.ofList [q, q, q])
  newline <|> pure ()
  let parts ← repeated (part <|> (do newline; return ['\n']) <|> innerQuotes q)
  return String.ofList (parts.flatten ++ (← closingQuotes q))

/-- A backslash at the end of a line joins it with the next text, wherever that begins. -/
def joint : Reader Unit := do
  char '\\'
  blanks
  newline
  discard (repeated (discard (one isBlank) <|> newline))

def multiLine : Reader String :=
  lines '"' <|
    (return [← one fun c => Quoted.isPlain c && c ≠ '"' && c ≠ '\\']) <|>
    (do joint; return []) <|>
    (do char '\\'; return [← Quoted.escape])

def isLiteral (c : Char) : Bool := Quoted.isPlain c && c ≠ '\''

def multiLineLiteral : Reader String := lines '\'' (return [← one isLiteral])

def literal : Reader String := do
  char '\''
  let cs ← span isLiteral
  char '\''
  return String.ofList cs

def text : Reader String := multiLine <|> Quoted.text <|> multiLineLiteral <|> literal

/-- The parts of a dotted name, at most 79 of them. -/
structure Key where
  parents : List String
  name : String

def isBare (c : Char) : Bool := c.isAlphanum || c = '_' || c = '-'

def bareName : Reader String := do
  let cs ← span isBare
  if cs = [] then failure else return String.ofList cs

def key : Reader Key := do
  let names ← separated (do
    blanks
    let n ← Quoted.text <|> literal <|> bareName
    blanks
    return n) (char '.')
  match names.getLast? with
  | some name => if names.length < 80 then return { parents := names.dropLast, name } else failure
  | none => failure

end ServiceDirectory.Toml
