namespace ServiceDirectory.Hex

/-- Lower-case digits. -/
def digit (d : Fin 16) : Char :=
  if d.val < 10 then Char.ofNat (48 + d.val) else Char.ofNat (87 + d.val)

def value? (c : Char) : Option (Fin 16) :=
  let n := c.toNat
  if h : 48 ≤ n ∧ n < 58 then some ⟨n - 48, by omega⟩
  else if h : 97 ≤ n ∧ n < 103 then some ⟨n - 87, by omega⟩
  else if h : 65 ≤ n ∧ n < 71 then some ⟨n - 55, by omega⟩
  else none

@[simp] theorem value?_digit (d : Fin 16) : value? (digit d) = some d := by
  revert d
  decide

/-- The two digits of a byte. -/
def ofByte (b : UInt8) : List (Fin 16) :=
  [⟨b.toNat / 16, by have := b.toNat_lt; omega⟩, ⟨b.toNat % 16, by omega⟩]

/-- The number written by digits, the first of most weight. -/
def toNat (ds : List (Fin 16)) : Nat := ds.foldl (fun n d => n * 16 + d.val) 0

end ServiceDirectory.Hex
