namespace ServiceDirectory

abbrev Bytes := List UInt8

namespace Utf8

def encodeChar (c : Char) : Bytes :=
  let n := c.toNat
  if n < 0x80 then [.ofNat n]
  else if n < 0x800 then [.ofNat (0xC0 + n / 64), .ofNat (0x80 + n % 64)]
  else if n < 0x10000 then
    [.ofNat (0xE0 + n / 4096), .ofNat (0x80 + n / 64 % 64), .ofNat (0x80 + n % 64)]
  else
    [.ofNat (0xF0 + n / 262144), .ofNat (0x80 + n / 4096 % 64), .ofNat (0x80 + n / 64 % 64),
      .ofNat (0x80 + n % 64)]

def encode (s : String) : Bytes := s.toList.flatMap encodeChar

/-- What a lead byte announces: how many bytes follow, the bits it carries itself and the range of
the first byte that follows. -/
structure Lead where
  follow : Nat
  bits : Nat
  low : Nat := 0x80
  high : Nat := 0xBF

/-- Overlong forms, surrogates and values past the last code point have no lead. -/
def lead? (n : Nat) : Option Lead :=
  if n < 0xC2 then none
  else if n < 0xE0 then some { follow := 1, bits := n - 0xC0 }
  else if n = 0xE0 then some { follow := 2, bits := 0, low := 0xA0 }
  else if n = 0xED then some { follow := 2, bits := 0xD, high := 0x9F }
  else if n < 0xF0 then some { follow := 2, bits := n - 0xE0 }
  else if n = 0xF0 then some { follow := 3, bits := 0, low := 0x90 }
  else if n < 0xF4 then some { follow := 3, bits := n - 0xF0 }
  else if n = 0xF4 then some { follow := 3, bits := 4, high := 0x8F }
  else none

/-- Reads `n` bytes that carry six bits each, and stops before the first that does not. -/
def follow : (n low high bits : Nat) → Bytes → Option Char × Bytes
  | 0, _, _, bits, bs => (some (Char.ofNat bits), bs)
  | _ + 1, _, _, _, [] => (none, [])
  | n + 1, low, high, bits, b :: bs =>
    if low ≤ b.toNat ∧ b.toNat ≤ high then follow n 0x80 0xBF (bits * 64 + (b.toNat - 0x80)) bs
    else (none, b :: bs)

theorem follow_length_le (n low high bits : Nat) (bs : Bytes) :
    (follow n low high bits bs).2.length ≤ bs.length := by
  induction n generalizing low high bits bs with
  | zero => simp [follow]
  | succ n ih =>
    cases bs with
    | nil => simp [follow]
    | cons b bs =>
      unfold follow
      split
      · exact Nat.le_succ_of_le (ih ..)
      · exact Nat.le_refl _

/-- The character that starts with byte `b`, or `none` for the longest start of one that breaks off. -/
def next (b : UInt8) (bs : Bytes) : Option Char × Bytes :=
  if b.toNat < 0x80 then (some (Char.ofNat b.toNat), bs)
  else match lead? b.toNat with
    | some l => follow l.follow l.low l.high l.bits bs
    | none => (none, bs)

theorem next_length_le (b : UInt8) (bs : Bytes) : (next b bs).2.length ≤ bs.length := by
  unfold next
  split
  · exact Nat.le_refl _
  · split
    · exact follow_length_le ..
    · exact Nat.le_refl _

/-- Reads every byte string: `none` stands for each ill-formed stretch. -/
def scan : Bytes → List (Option Char)
  | [] => []
  | b :: bs => (next b bs).1 :: scan (next b bs).2
termination_by bs => bs.length
decreasing_by exact Nat.lt_succ_of_le (next_length_le b bs)

def decode? (bs : Bytes) : Option String := ((scan bs).mapM id).map String.ofList

/-- Puts a replacement character for each ill-formed stretch. -/
def decodeLossy (bs : Bytes) : String := String.ofList ((scan bs).map (·.getD '\uFFFD'))

theorem next_encodeChar (c : Char) : ∃ b bs, encodeChar c = b :: bs ∧
    ∀ r, next b (bs ++ r) = (some c, r) := by
  have hc := c.valid
  have hn : Char.ofNat c.toNat = c := Char.ofNat_toNat c
  have hv : c.toNat < 0xD800 ∨ (0xDFFF < c.toNat ∧ c.toNat < 0x110000) := hc
  unfold encodeChar
  simp only
  generalize c.toNat = n at hn hv
  split
  · refine ⟨_, [], rfl, fun r => ?_⟩
    have h0 : n % 256 = n := by omega
    simp [next, *]
  split
  · refine ⟨_, _, rfl, fun r => ?_⟩
    have h0 : (192 + n / 64) % 256 = 192 + n / 64 := by omega
    have h1 : (128 + n % 64) % 256 = 128 + n % 64 := by omega
    have hl : lead? (192 + n / 64) = some { follow := 1, bits := n / 64 } := by
      unfold lead?
      rw [if_neg (by omega), if_pos (by omega), Nat.add_sub_cancel_left]
    have hb : n / 64 * 64 + (128 + n % 64 - 128) = n := by omega
    simp only [next, UInt8.toNat_ofNat', Nat.reducePow, h0, hl]
    rw [if_neg (by omega)]
    simp only [List.cons_append, List.nil_append, follow, UInt8.toNat_ofNat', Nat.reducePow, h1, hb, hn]
    rw [if_pos (by omega)]
  split
  · refine ⟨_, _, rfl, fun r => ?_⟩
    have h0 : (224 + n / 4096) % 256 = 224 + n / 4096 := by omega
    have h1 : (128 + n / 64 % 64) % 256 = 128 + n / 64 % 64 := by omega
    have h2 : (128 + n % 64) % 256 = 128 + n % 64 := by omega
    have hl : ∃ low high, lead? (224 + n / 4096) =
        some { follow := 2, bits := n / 4096, low := low, high := high } ∧
        low ≤ 128 + n / 64 % 64 ∧ 128 + n / 64 % 64 ≤ high := by
      by_cases he : n / 4096 = 0
      · exact ⟨0xA0, 0xBF, by simp [he, lead?], by omega, by omega⟩
      · by_cases hd : n / 4096 = 0xD
        · exact ⟨0x80, 0x9F, by simp [hd, lead?], by omega, by omega⟩
        · refine ⟨0x80, 0xBF, ?_, by omega, by omega⟩
          unfold lead?
          rw [if_neg (by omega), if_neg (by omega), if_neg (by omega), if_neg (by omega),
            if_pos (by omega), Nat.add_sub_cancel_left]
    obtain ⟨low, high, hl, h3, h4⟩ := hl
    have hb : (n / 4096 * 64 + (128 + n / 64 % 64 - 128)) * 64 + (128 + n % 64 - 128) = n := by omega
    simp only [next, UInt8.toNat_ofNat', Nat.reducePow, h0, hl]
    rw [if_neg (by omega)]
    simp only [List.cons_append, List.nil_append, follow, UInt8.toNat_ofNat', Nat.reducePow, h1, h2, hb, hn]
    rw [if_pos ⟨h3, h4⟩, if_pos (by omega)]
  · refine ⟨_, _, rfl, fun r => ?_⟩
    have h0 : (240 + n / 262144) % 256 = 240 + n / 262144 := by omega
    have h1 : (128 + n / 4096 % 64) % 256 = 128 + n / 4096 % 64 := by omega
    have h2 : (128 + n / 64 % 64) % 256 = 128 + n / 64 % 64 := by omega
    have h3 : (128 + n % 64) % 256 = 128 + n % 64 := by omega
    have hl : ∃ low high, lead? (240 + n / 262144) =
        some { follow := 3, bits := n / 262144, low := low, high := high } ∧
        low ≤ 128 + n / 4096 % 64 ∧ 128 + n / 4096 % 64 ≤ high := by
      by_cases he : n / 262144 = 0
      · exact ⟨0x90, 0xBF, by simp [he, lead?], by omega, by omega⟩
      · by_cases hd : n / 262144 = 4
        · exact ⟨0x80, 0x8F, by simp [hd, lead?], by omega, by omega⟩
        · refine ⟨0x80, 0xBF, ?_, by omega, by omega⟩
          unfold lead?
          rw [if_neg (by omega), if_neg (by omega), if_neg (by omega), if_neg (by omega),
            if_neg (by omega), if_neg (by omega), if_pos (by omega), Nat.add_sub_cancel_left]
    obtain ⟨low, high, hl, h4, h5⟩ := hl
    have hb : ((n / 262144 * 64 + (128 + n / 4096 % 64 - 128)) * 64 + (128 + n / 64 % 64 - 128)) * 64
        + (128 + n % 64 - 128) = n := by omega
    simp only [next, UInt8.toNat_ofNat', Nat.reducePow, h0, hl]
    rw [if_neg (by omega)]
    simp only [List.cons_append, List.nil_append, follow, UInt8.toNat_ofNat', Nat.reducePow, h1, h2, h3, hb,
      hn]
    rw [if_pos ⟨h4, h5⟩, if_pos (by omega), if_pos (by omega)]

theorem scan_encode_append (cs : List Char) (r : Bytes) :
    scan (cs.flatMap encodeChar ++ r) = cs.map some ++ scan r := by
  induction cs with
  | nil => rfl
  | cons c cs ih =>
    obtain ⟨b, bs, h, hnext⟩ := next_encodeChar c
    rw [List.flatMap_cons, h, List.append_assoc, List.cons_append, scan, hnext]
    simp [ih]

@[simp] theorem decode?_encode (s : String) : decode? (encode s) = some s := by
  have h := scan_encode_append s.toList []
  have hm (cs : List Char) : (cs.map some).mapM id = some cs := by
    induction cs with
    | nil => rfl
    | cons c cs ih => simp [ih]
  simp only [List.append_nil, scan] at h
  simp [decode?, encode, h, hm]

theorem encode_injective {s t : String} (h : encode s = encode t) : s = t := by
  simpa using congrArg decode? h

end Utf8

end ServiceDirectory
