import ServiceDirectory.Text.Hex
import ServiceDirectory.Text.Reader

namespace ServiceDirectory.Quoted

open Reader

/-- A tab, or any character that is not a control. -/
def isPlain (c : Char) : Bool := c = '\t' || (0x20 ≤ c.toNat && c.toNat ≠ 0x7F)

/-- A character given by `n` hexadecimal digits. -/
def numbered (n : Nat) : Reader Char := do
  let ds ← exactly n fun c => (Hex.value? c).isSome
  let v := Hex.toNat (ds.filterMap Hex.value?)
  if v < 0xD800 ∨ (0xDFFF < v ∧ v < 0x110000) then return Char.ofNat v else failure

/-- The rest of an escape after its backslash. -/
def escape : Reader Char := do
  match ← one fun _ => true with
  | 'b' => return '\x08'
  | 't' => return '\t'
  | 'n' => return '\n'
  | 'f' => return '\x0c'
  | 'r' => return '\r'
  | '"' => return '"'
  | '\\' => return '\\'
  | 'u' => numbered 4
  | 'U' => numbered 8
  | _ => failure

/-- A text between double quotes, on one line. -/
def text : Reader String := do
  char '"'
  let cs ← repeated (one (fun c => isPlain c && c ≠ '"' && c ≠ '\\') <|> do char '\\'; escape)
  char '"'
  return String.ofList cs

end ServiceDirectory.Quoted
