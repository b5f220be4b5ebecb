namespace ServiceDirectory

/-- Takes something from the front of a text and leaves the rest for the next. -/
abbrev Reader (α : Type) := StateT (List Char) Option α

namespace Reader

/-- One character that passes. -/
def one (p : Char → Bool) : Reader Char
  | [] => none
  | c :: cs => if p c then some (c, cs) else none

def char (c : Char) : Reader Unit := discard (one (· = c))

def word (w : String) : Reader Unit := fun cs =>
  if w.toList.isPrefixOf cs then some ((), cs.drop w.toList.length) else none

/-- Takes `w` if it comes next. Whether it did. -/
def takes (w : String) : Reader Bool := fun cs =>
  if w.toList.isPrefixOf cs then some (true, cs.drop w.toList.length) else some (false, cs)

def next? : Reader (Option Char) := fun cs => some (cs.head?, cs)

/-- All characters up to the first that does not pass. -/
def span (p : Char → Bool) : Reader (List Char) := fun cs => some (cs.takeWhile p, cs.dropWhile p)

def exactly (n : Nat) (p : Char → Bool) : Reader (List Char) := fun cs =>
  if (cs.take n).length = n ∧ (cs.take n).all p then some (cs.take n, cs.drop n) else none

def atEnd : Reader Unit
  | [] => some ((), [])
  | _ :: _ => none

def notAtEnd : Reader Unit
  | [] => none
  | c :: cs => some ((), c :: cs)

def atMost {α : Type} (r : Reader α) : Nat → Reader (List α)
  | 0 => return []
  | n + 1 => (do return (← r) :: (← atMost r n)) <|> return []

/-- As often as it succeeds; each time must take a character. -/
def repeated {α : Type} (r : Reader α) : Reader (List α) := fun cs => atMost r cs.length cs

/-- One or more, with something in between. -/
def separated {α : Type} (r : Reader α) (between : Reader Unit) : Reader (List α) := do
  return (← r) :: (← repeated (do between; r))

/-- Reads all of a text. -/
def all? {α : Type} (r : Reader α) (cs : List Char) : Option α :=
  (StateT.run (do let a ← r; atEnd; return a) cs).map (·.1)

end Reader

end ServiceDirectory
