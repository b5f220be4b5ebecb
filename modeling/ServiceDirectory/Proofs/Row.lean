import Mathlib.Algebra.Group.Nat.Defs
import ServiceDirectory.Entry.Row

namespace ServiceDirectory

/-- Every length takes a machine word at most, as any byte string in memory does. -/
structure Entry.Fits (e : Entry) : Prop where
  key : e.key.length < 2 ^ 64
  value : ∀ v ∈ e.value, v.length < 2 ^ 64
  origin : (Utf8.encode e.origin).length < 2 ^ 64

instance (e : Entry) : Decidable e.Fits :=
  decidable_of_iff (e.key.length < 2 ^ 64 ∧ (∀ v ∈ e.value, v.length < 2 ^ 64) ∧
    (Utf8.encode e.origin).length < 2 ^ 64)
    ⟨fun h => ⟨h.1, h.2.1, h.2.2⟩, fun h => ⟨h.key, h.value, h.origin⟩⟩

namespace Row

variable {α β : Type}

/-- `read` takes `bs` off the front of any row and gives `a`. -/
def Reads (read : Reader α) (bs : Bytes) (a : α) : Prop :=
  ∀ rest, read (bs ++ rest) = some (a, rest)

theorem Reads.pure (a : α) : Reads (pure a : Reader α) [] a := fun _ => rfl

theorem Reads.bind {read : Reader α} {k : α → Reader β} {bs cs : Bytes} {a : α} {b : β}
    (h : Reads read bs a) (h' : Reads (k a) cs b) : Reads (read >>= k) (bs ++ cs) b := by
  intro rest
  change (read (bs ++ cs ++ rest)).bind _ = _
  rw [List.append_assoc, h]
  exact h' rest

theorem Reads.map {read : Reader α} {bs : Bytes} {a : α} (h : Reads read bs a) (f : α → β) :
    Reads (read >>= fun a => Pure.pure (f a)) bs (f a) := by
  have hb := h.bind (k := fun a => Pure.pure (f a)) (Reads.pure (f a))
  rwa [List.append_nil] at hb

theorem Reads.of_eq {read : Reader α} {bs : Bytes} {a b : α} (h : Reads read bs a) (hab : a = b) :
    Reads read bs b := hab ▸ h

theorem Reads.byte (b : UInt8) : Reads byte [b] b := fun _ => rfl

theorem reads_take (bs : Bytes) : Reads (take bs.length) bs bs := by
  intro rest
  simp [take]

theorem littleEndian_length (n v : Nat) : (littleEndian n v).length = n := by
  induction n generalizing v with
  | zero => rfl
  | succ n ih => simp [littleEndian, ih]

theorem ofLittleEndian_littleEndian {n v : Nat} (h : v < 256 ^ n) :
    ofLittleEndian (littleEndian n v) = v := by
  induction n generalizing v with
  | zero =>
    have hv : v = 0 := by simpa using h
    rw [hv]
    rfl
  | succ n ih =>
    have hd : v / 256 < 256 ^ n := by
      apply Nat.div_lt_of_lt_mul
      rwa [Nat.mul_comm, ← Nat.pow_succ]
    rw [littleEndian, ofLittleEndian, ih hd, UInt8.toNat_ofNat']
    exact Nat.mod_add_div v 256

theorem reads_littleEndian {n v : Nat} (h : v < 256 ^ n) :
    Reads (take n >>= fun bs => Pure.pure (ofLittleEndian bs)) (littleEndian n v) v := by
  have ht := (reads_take (littleEndian n v)).map ofLittleEndian
  rwa [littleEndian_length, ofLittleEndian_littleEndian h] at ht

theorem reads_nat {v : Nat} (h : v < 2 ^ 64) : Reads nat (putNat v) v := by
  unfold putNat
  split
  · rename_i hv
    have hn : (UInt8.ofNat v).toNat = v := UInt8.toNat_ofNat_of_lt' (Nat.lt_trans hv (by decide))
    have hb : UInt8.ofNat v < 251 := by
      rw [UInt8.lt_iff_toNat_lt, hn]
      exact hv
    intro rest
    change (if UInt8.ofNat v < 251 then Pure.pure (UInt8.ofNat v).toNat else _ : Reader Nat) rest = _
    rw [if_pos hb, hn]
    rfl
  split
  · exact (Reads.byte 251).bind (reads_littleEndian (n := 2) (by omega))
  split
  · exact (Reads.byte 252).bind (reads_littleEndian (n := 4) (by omega))
  · exact (Reads.byte 253).bind (reads_littleEndian (n := 8) (by omega))

theorem reads_bytes {bs : Bytes} (h : bs.length < 2 ^ 64) : Reads bytes (putBytes bs) bs :=
  (reads_nat h).bind (reads_take bs)

theorem reads_text {s : String} (h : (Utf8.encode s).length < 2 ^ 64) :
    Reads text (putBytes (Utf8.encode s)) s := by
  intro rest
  change (bytes (putBytes (Utf8.encode s) ++ rest)).bind _ = _
  rw [reads_bytes h]
  change ((Utf8.decode? (Utf8.encode s)).bind _ : Option (String × Bytes)) = _
  rw [Utf8.decode?_encode]
  rfl

theorem reads_option {read : Reader β} {put : α → Bytes} {f : α → β} {o : Option α}
    (h : ∀ a ∈ o, Reads read (put a) (f a)) :
    Reads (option read) (putOption put o) (o.map f) := by
  cases o with
  | none => exact (Reads.byte 0).bind (Reads.pure none)
  | some a => exact (Reads.byte 1).bind ((h a rfl).map some)

theorem unzigzag_zigzag (i : Int) : unzigzag (zigzag i) = i := by
  unfold zigzag unzigzag
  split <;> split <;> omega

theorem zigzag_lt (t : Instant) : zigzag t.toInt < 2 ^ 64 := by
  have hl := t.le_toInt
  have hu := t.toInt_lt
  unfold zigzag
  split <;> omega

theorem reads_entry {e : Entry} (h : e.Fits) : Reads entry (encode e) e := by
  have he : encode e = putBytes e.key ++ (putOption putBytes e.value ++ (putNat e.version.toNat ++
      (putBytes (Utf8.encode e.origin) ++ (putNat (zigzag e.timestamp.toInt) ++
        putOption (fun a => putNat a.toNat) e.maxAge)))) := by
    simp only [encode, List.append_assoc]
  rw [he, entry]
  apply (reads_bytes h.key).bind
  apply (reads_option (f := id) fun v hv => reads_bytes (h.value v hv)).bind
  apply (reads_nat e.version.toNat_lt).bind
  apply (reads_text h.origin).bind
  apply (reads_nat (zigzag_lt e.timestamp)).bind
  apply ((reads_option fun a _ => reads_nat a.toNat_lt).map _).of_eq
  have hid : UInt64.ofNat ∘ UInt64.toNat = id := funext fun _ => UInt64.ofNat_toNat
  rw [unzigzag_zigzag, Int64.ofInt_toInt, UInt64.ofNat_toNat, Option.map_map, hid, Option.map_id,
    Option.map_id]
  rfl

theorem decode_encode_append {e : Entry} (h : e.Fits) (rest : Bytes) :
    decode (encode e ++ rest) = some e := by
  rw [decode, reads_entry h rest]
  rfl

theorem decode_encode {e : Entry} (h : e.Fits) : decode (encode e) = some e := by
  have hd := decode_encode_append h []
  rwa [List.append_nil] at hd

/-- A row that begins another is the same row: its reader stops where it ends. -/
theorem eq_of_prefix_encode {e e' : Entry} (h : e.Fits) (h' : e'.Fits)
    (hp : encode e <+: encode e') : e = e' := by
  obtain ⟨rest, hr⟩ := hp
  have hd := decode_encode_append h rest
  rw [hr, decode_encode h'] at hd
  exact (Option.some.inj hd).symm

/-- Rows mark their own end: whatever bytes follow one, it is read as the entry that it was made of,
and the rows of different entries differ and do not begin each other. -/
theorem rows_self_delimiting {e : Entry} (h : e.Fits) :
    (∀ rest, decode (encode e ++ rest) = some e) ∧
    ∀ e' : Entry, e'.Fits → e' ≠ e →
      encode e' ≠ encode e ∧ ¬ encode e' <+: encode e ∧ ¬ encode e <+: encode e' := by
  refine ⟨decode_encode_append h, fun e' h' hne => ⟨fun he => ?_, fun hp => ?_, fun hp => ?_⟩⟩
  · exact hne (eq_of_prefix_encode h' h (he ▸ List.prefix_rfl))
  · exact hne (eq_of_prefix_encode h' h hp)
  · exact hne (eq_of_prefix_encode h h' hp).symm

/-- The first instant, the last version, and an age of two bytes at most. -/
def extremeEntry : Entry where
  key := []
  value := some []
  version := 0xFFFFFFFFFFFFFFFF
  origin := "é"
  timestamp := Int64.minValue
  maxAge := some 0xFFFF

/-- The first age of four bytes. -/
def widerEntry : Entry := { extremeEntry with maxAge := some 0x10000 }

theorem rows_self_delimiting_extreme : extremeEntry.Fits ∧ widerEntry.Fits ∧
    widerEntry ≠ extremeEntry ∧ decode (encode extremeEntry ++ [0, 255]) = some extremeEntry ∧
    ¬ encode widerEntry <+: encode extremeEntry := by
  have hfits : extremeEntry.Fits := by decide
  have hfits' : widerEntry.Fits := by decide
  have hne : widerEntry ≠ extremeEntry := by decide
  obtain ⟨hdecode, hapart⟩ := rows_self_delimiting hfits
  exact ⟨hfits, hfits', hne, hdecode [0, 255], (hapart widerEntry hfits' hne).2.1⟩

end Row

end ServiceDirectory
