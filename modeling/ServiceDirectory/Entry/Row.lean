import ServiceDirectory.Entry

namespace ServiceDirectory.Row

/-- The low `n` bytes of a number, least first. -/
def littleEndian : Nat → Nat → Bytes
  | 0, _ => []
  | n + 1, v => UInt8.ofNat v :: littleEndian n (v / 256)

def ofLittleEndian : Bytes → Nat
  | [] => 0
  | b :: bs => b.toNat + 256 * ofLittleEndian bs

/-- Small numbers take one byte; others follow a mark that tells their width. -/
def putNat (v : Nat) : Bytes :=
  if v < 251 then [UInt8.ofNat v]
  else if v < 0x10000 then 251 :: littleEndian 2 v
  else if v < 0x100000000 then 252 :: littleEndian 4 v
  else 253 :: littleEndian 8 v

/-- The sign goes to the lowest bit. -/
def zigzag (i : Int) : Nat := if i < 0 then 2 * (-i - 1).toNat + 1 else 2 * i.toNat

def unzigzag (n : Nat) : Int := if n % 2 = 0 then (n / 2 : Nat) else -(n / 2 : Nat) - 1

def putBytes (bs : Bytes) : Bytes := putNat bs.length ++ bs

def putOption {α : Type} (put : α → Bytes) : Option α → Bytes
  | none => [0]
  | some a => 1 :: put a

def encode (e : Entry) : Bytes :=
  putBytes e.key ++ putOption putBytes e.value ++ putNat e.version.toNat ++
    putBytes (Utf8.encode e.origin) ++ putNat (zigzag e.timestamp.toInt) ++
    putOption (fun a => putNat a.toNat) e.maxAge

/-- Reads a value off the front of a row. -/
abbrev Reader := StateT Bytes Option

/-- The next `n` bytes. -/
def take (n : Nat) : Reader Bytes := fun bs =>
  if n ≤ bs.length then some (bs.take n, bs.drop n) else none

def byte : Reader UInt8 := fun bs =>
  match bs with
  | [] => none
  | b :: bs => some (b, bs)

/-- Any width is accepted, not only the shortest. -/
def nat : Reader Nat := do
  let b ← byte
  if b < 251 then return b.toNat
  else if b = 251 then return ofLittleEndian (← take 2)
  else if b = 252 then return ofLittleEndian (← take 4)
  else if b = 253 then return ofLittleEndian (← take 8)
  else failure

def bytes : Reader Bytes := do take (← nat)

def option {α : Type} (read : Reader α) : Reader (Option α) := do
  let tag ← byte
  if tag = 0 then return none
  else if tag = 1 then return some (← read)
  else failure

def text : Reader String := do
  let bs ← bytes
  (Utf8.decode? bs : Option String)

def entry : Reader Entry := do
  let key ← bytes
  let value ← option bytes
  let version ← nat
  let origin ← text
  let timestamp ← nat
  let maxAge ← option nat
  return {
    key, value, origin
    version := .ofNat version
    timestamp := .ofInt (unzigzag timestamp)
    maxAge := maxAge.map .ofNat }

/-- Bytes after the entry are ignored. -/
def decode (bs : Bytes) : Option Entry := (entry bs).map (·.1)

end ServiceDirectory.Row
