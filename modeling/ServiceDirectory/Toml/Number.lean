import ServiceDirectory.Config.Value
import ServiceDirectory.Text.Hex
import ServiceDirectory.Text.Reader

namespace ServiceDirectory.Toml

open Reader Config

/-- Digits; a single underscore may stand between two of them. -/
def digits (p : Char → Bool) : Reader (List Char) := do
  let c ← one p
  return c :: (← repeated ((do char '_'; one p) <|> one p))

/-- A number without superfluous zeros in front. -/
def plainDigits : Reader (List Char) := do
  let ds ← digits Char.isDigit
  if ds.head? = some '0' ∧ 1 < ds.length then failure else return ds

def numeral (base : Nat) (ds : List Char) : Nat :=
  (ds.filterMap Hex.value?).foldl (fun n d => n * base + d.val) 0

/-- Whether a minus sign was there. -/
def sign : Reader Bool := (do char '-'; return true) <|> (do char '+'; return false) <|> return false

/-- A number in another base; it has no sign. -/
def based (mark : String) (base : Nat) : Reader Int := do
  word mark
  let n := numeral base (← digits fun c => (Hex.value? c).any (·.val < base))
  if n < 0x8000000000000000 then return n else failure

def decimal : Reader Int := do
  let isNegative ← sign
  let n := numeral 10 (← plainDigits)
  if isNegative ∧ n ≤ 0x8000000000000000 then return -(n : Int)
  else if n < 0x8000000000000000 then return n
  else failure

def whole : Reader Value := do
  return .whole (← based "0x" 16 <|> based "0o" 8 <|> based "0b" 2 <|> decimal)

/-- Whether `m * 10 ^ e` is nearer to the first power of two past all double-precision numbers than
to the last of these. -/
def passesDoubles (m : Nat) (e : Int) : Bool :=
  let size : Int := (Nat.toDigits 10 m).length + e
  if m = 0 ∨ size < 300 then false
  else if 320 < size then true
  else (Nat.pow 2 1024 - Nat.pow 2 970) * Nat.pow 10 (-e).toNat ≤ m * Nat.pow 10 e.toNat

def exponent : Reader Int := do
  char 'e' <|> char 'E'
  let isNegative ← sign
  let n : Int := numeral 10 (← digits Char.isDigit)
  return if isNegative then -n else n

def fraction : Reader (List Char) := do
  char '.'
  digits Char.isDigit

/-- A number with a fraction, an exponent or both. None may be too great. -/
def real : Reader Value := do
  let isNegative ← sign
  (do word "inf" <|> word "nan"; return .real) <|> do
    let ds ← plainDigits
    let (frac, e) ←
      (do return (← fraction, ← exponent <|> pure 0)) <|> (do return ([], ← exponent))
    if !isNegative ∧ passesDoubles (numeral 10 (ds ++ frac)) (e - frac.length) then failure
    else return .real

/-- Digits of a date or time, in a given range. -/
def field (width low high : Nat) : Reader Nat := do
  let n := numeral 10 (← exactly width Char.isDigit)
  if low ≤ n ∧ n ≤ high then return n else failure

def daysIn (year month : Nat) : Nat :=
  if month = 2 then if year % 4 = 0 ∧ (year % 100 ≠ 0 ∨ year % 400 = 0) then 29 else 28
  else if month = 4 ∨ month = 6 ∨ month = 9 ∨ month = 11 then 30
  else 31

def date : Reader Unit := do
  let year ← field 4 0 9999
  char '-'
  let month ← field 2 1 12
  char '-'
  discard (field 2 1 (daysIn year month))

/-- Seconds go to 60, for the seconds that are put in at times. -/
def time : Reader Unit := do
  discard (field 2 0 23)
  char ':'
  discard (field 2 0 59)
  char ':'
  discard (field 2 0 60)
  (do char '.'; discard (one Char.isDigit); discard (span Char.isDigit)) <|> pure ()

def zone : Reader Unit :=
  char 'Z' <|> char 'z' <|> do
    char '+' <|> char '-'
    discard (field 2 0 23)
    char ':'
    discard (field 2 0 59)

/-- A date, a time or both. No setting takes one, and laid over a table it changes nothing: so an
empty table stands for it. -/
def moment : Reader Value := do
  (do date; (do char 'T' <|> char 't' <|> char ' '; time; zone <|> pure ()) <|> pure ()) <|> time
  return .table []

end ServiceDirectory.Toml
