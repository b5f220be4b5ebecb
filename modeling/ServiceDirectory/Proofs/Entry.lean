import Mathlib.Algebra.Group.Nat.Defs
import Mathlib.Tactic.SplitIfs
import ServiceDirectory.Proofs.Order
import ServiceDirectory.Proofs.Time
import ServiceDirectory.Replica

namespace ServiceDirectory

theorem toNat_max (v w : UInt64) : (max v w).toNat = max v.toNat w.toNat := by
  change (if v ≤ w then w else v).toNat = _
  split <;> rename_i h <;> rw [UInt64.le_iff_toNat_le] at h <;> omega

theorem toNat_nextVersion {v : UInt64} (h : v.toNat + 1 < 2 ^ 64) :
    (nextVersion v).toNat = v.toNat + 1 := by
  have hs : (v + 1).toNat = v.toNat + 1 := by
    rw [UInt64.toNat_add, UInt64.toNat_one, Nat.mod_eq_of_lt h]
  have hne : v + 1 ≠ 0 := by
    intro h0
    rw [h0] at hs
    simp at hs
  rw [nextVersion, if_neg hne, hs]

theorem le_nextVersion (v : UInt64) : v ≤ nextVersion v := by
  rw [UInt64.le_iff_toNat_le]
  by_cases h : v.toNat + 1 < 2 ^ 64
  · rw [toNat_nextVersion h]
    omega
  · have hs : v + 1 = 0 := by
      apply UInt64.toNat_inj.mp
      have hv := v.toNat_lt
      rw [UInt64.toNat_add, UInt64.toNat_one, UInt64.toNat_zero]
      omega
    exact Nat.le_of_eq (by rw [nextVersion, if_pos hs])

theorem toNat_nextVersion_le (v : UInt64) : (nextVersion v).toNat ≤ v.toNat + 1 := by
  by_cases h : v.toNat + 1 < 2 ^ 64
  · exact Nat.le_of_eq (toNat_nextVersion h)
  · have := (nextVersion v).toNat_lt
    omega

namespace Entry

theorem isExpired_iff {e : Entry} {now : Instant} :
    e.isExpired now ↔ ∃ ms ∈ e.maxAge, 0 < ms ∧ e.timestamp.after ms ≤ now := by
  simp only [isExpired, expiresAt, Option.any_eq_true, Option.map_eq_some_iff,
    Option.filter_eq_some_iff, decide_eq_true_eq]
  constructor
  · rintro ⟨_, ⟨ms, ⟨hm, hpos⟩, rfl⟩, hle⟩
    exact ⟨ms, hm, hpos, hle⟩
  · rintro ⟨ms, hm, hpos, hle⟩
    exact ⟨_, ⟨ms, ⟨hm, hpos⟩, rfl⟩, hle⟩

/-- Of two entries with one lifetime the earlier does not outlive the later. -/
theorem isExpired_of_timestamp_le {a b : Entry} {now : Instant} (hm : a.maxAge = b.maxAge)
    (ht : a.timestamp ≤ b.timestamp) (h : b.isExpired now) : a.isExpired now := by
  rw [isExpired_iff] at *
  obtain ⟨ms, hms, hpos, hle⟩ := h
  exact ⟨ms, hm ▸ hms, hpos, Int64.le_trans (Instant.after_mono ht ms) hle⟩

theorem isExpired_mono {e : Entry} {now later : Instant} (hl : now ≤ later) (h : e.isExpired now) :
    e.isExpired later := by
  rw [isExpired_iff] at *
  obtain ⟨ms, hms, hpos, hle⟩ := h
  exact ⟨ms, hms, hpos, Int64.le_trans hle hl⟩

theorem timestamp_lt_of_isExpired {e : Entry} {now : Instant} (ht : e.timestamp < Int64.maxValue)
    (h : e.isExpired now) : e.timestamp < now := by
  rw [isExpired_iff] at h
  obtain ⟨ms, -, hpos, hle⟩ := h
  exact Instant.lt_of_after_le hpos (Instant.lt_maxValue_iff.mp ht) hle

theorem add_le_of_isCollectable {e : Entry} {now : Instant} {age : UInt64} (ht : e.isTombstone)
    (h : e.isCollectable now age) : e.timestamp.toInt + age.toNat ≤ now.toInt := by
  rw [isCollectable, if_pos ht] at h
  simp only [Bool.and_eq_true, decide_eq_true_eq, Int64.le_iff_toInt_le, Instant.since,
    Instant.toInt_clamp, Int64.toInt_zero] at h
  unfold Instant.first Instant.last at h
  omega

/-- What a sweep removes lies before its reading of the clock, unless tombstones may go at once. -/
theorem timestamp_lt_of_isCollectable {e : Entry} {now : Instant} {age : UInt64} (hage : age ≠ 0)
    (ht : e.timestamp < Int64.maxValue) (h : e.isCollectable now age) : e.timestamp < now := by
  unfold isCollectable at h
  split at h
  · have hpos : age.toNat ≠ 0 := fun h0 => hage (UInt64.toNat_inj.mp h0)
    simp only [Bool.and_eq_true, decide_eq_true_eq] at h
    have hsince : 0 < (now.since e.timestamp).toInt := by omega
    rw [Int64.lt_iff_toInt_lt]
    unfold Instant.since at hsince
    rw [Instant.toInt_clamp] at hsince
    simp only [Instant.first, Instant.last] at hsince
    omega
  · exact timestamp_lt_of_isExpired ht h

theorem isLive_eq_false_of_isCollectable {e : Entry} {now : Instant} {age : UInt64}
    (h : e.isCollectable now age) : e.isLive now = false := by
  unfold isCollectable at h
  split at h
  · simp [isLive, *]
  · simp [isLive, h]

theorem flaw?_eq_none_iff {e : Entry} : e.flaw? = none ↔
    e.key ≠ [] ∧ e.origin ≠ "" ∧ e.version ≠ 0 ∧ ¬ e.timestamp < 0 := by
  unfold flaw?
  split_ifs <;> simp_all

section Over

variable {held : Option Entry} {origin : String} {now : Instant} {key : Bytes}
  {value : Option Bytes} {maxAge : Option UInt64}

theorem now_le_timestamp_over : now ≤ (Entry.over held origin now key value maxAge).timestamp := by
  rw [Int64.le_iff_toInt_le]
  cases held with
  | none => exact Int.le_refl _
  | some h =>
    change _ ≤ (now.latest h.timestamp.succ).toInt
    rw [Instant.toInt_latest]
    omega

/-- A write comes after what it is made over, as long as time does not end. -/
theorem timestamp_lt_over {h : Entry}
    (ht : (Entry.over (some h) origin now key value maxAge).timestamp < Int64.maxValue) :
    h.timestamp < (Entry.over (some h) origin now key value maxAge).timestamp := by
  change now.latest h.timestamp.succ < _ at ht
  change _ < now.latest h.timestamp.succ
  rw [Instant.lt_maxValue_iff] at ht
  rw [Int64.lt_iff_toInt_lt]
  rw [Instant.toInt_latest] at *
  have := h.timestamp.bounds
  simp only [Instant.succ, Instant.toInt_clamp] at *
  omega

theorem stamped_over_none (hnow : 1 ≤ now) :
    (Entry.over none origin now key value maxAge).Stamped := by
  rw [Int64.le_iff_toInt_le, Int64.toInt_one] at hnow
  have hv := Instant.toNat_toVersion (t := now) (by omega)
  change ((max 1 now.toVersion).toNat : Int) = now.toInt
  rw [toNat_max, UInt64.toNat_one]
  omega

theorem stamped_over_some {h : Entry} (hnow : 1 ≤ now) (hh : h.Stamped)
    (ht : h.timestamp ≠ Int64.maxValue) : (Entry.over (some h) origin now key value maxAge).Stamped := by
  have hlt := Instant.lt_succ_of_ne ht
  have hle := h.timestamp.succ.bounds
  rw [Int64.lt_iff_toInt_lt] at hlt
  rw [Int64.le_iff_toInt_le, Int64.toInt_one] at hnow
  have hsucc : h.timestamp.succ.toInt = h.timestamp.toInt + 1 := Instant.toInt_succ (by omega)
  have hv := Instant.toNat_toVersion (t := now) (by omega)
  unfold Stamped at hh
  have hnext : (nextVersion h.version).toNat = h.version.toNat + 1 := by
    apply toNat_nextVersion
    unfold Instant.last at hle
    omega
  change ((max (nextVersion h.version) now.toVersion).toNat : Int) =
    (now.latest h.timestamp.succ).toInt
  rw [toNat_max, Instant.toInt_latest]
  omega

theorem stamped_over (hnow : 1 ≤ now) (hheld : ∀ h ∈ held, h.Stamped)
    (ht : (Entry.over held origin now key value maxAge).timestamp < Int64.maxValue) :
    (Entry.over held origin now key value maxAge).Stamped := by
  cases held with
  | none => exact stamped_over_none hnow
  | some h =>
    exact stamped_over_some hnow (hheld h rfl) (Instant.ne_maxValue_of_lt (timestamp_lt_over ht))

/-- A write outranks what it is made over where versions count milliseconds. -/
theorem over_outranks {h : Entry} (hnow : 1 ≤ now) (hh : h.Stamped)
    (ht : (Entry.over (some h) origin now key value maxAge).timestamp < Int64.maxValue) :
    (Entry.over (some h) origin now key value maxAge).Outranks h := by
  have hs := stamped_over hnow (by simpa using hh) ht
  exact hs.outranks_of_timestamp_lt hh (timestamp_lt_over ht)

theorem flaw?_over (hnow : 1 ≤ now) (hkey : key ≠ []) (horigin : origin ≠ "")
    (hheld : ∀ h ∈ held, h.Stamped)
    (ht : (Entry.over held origin now key value maxAge).timestamp < Int64.maxValue) :
    (Entry.over held origin now key value maxAge).flaw? = none := by
  have hs := stamped_over hnow hheld ht
  have hle : 1 ≤ (Entry.over held origin now key value maxAge).timestamp :=
    Int64.le_trans hnow now_le_timestamp_over
  rw [Int64.le_iff_toInt_le, Int64.toInt_one] at hle
  unfold Stamped at hs
  refine flaw?_eq_none_iff.mpr ⟨hkey, horigin, ?_, ?_⟩
  · intro h0
    rw [h0, UInt64.toNat_zero] at hs
    omega
  · rw [Int64.lt_iff_toInt_lt, Int64.toInt_zero]
    omega

/-! Writes over anything, also where neither version nor timestamp has room above. -/

theorem version_le_over {h : Entry} :
    h.version ≤ (Entry.over (some h) origin now key value maxAge).version := by
  change h.version ≤ max (nextVersion h.version) now.toVersion
  have hle := le_nextVersion h.version
  rw [UInt64.le_iff_toNat_le] at *
  rw [toNat_max]
  omega

theorem timestamp_lt_over_of_ne {h : Entry} (ht : h.timestamp ≠ Int64.maxValue) :
    h.timestamp < (Entry.over (some h) origin now key value maxAge).timestamp := by
  have hs := Instant.lt_succ_of_ne ht
  change h.timestamp < now.latest h.timestamp.succ
  rw [Int64.lt_iff_toInt_lt] at *
  rw [Instant.toInt_latest]
  omega

/-- A write outranks what it is made over, as long as that is not at the end of time. -/
theorem over_outranks_of_timestamp_ne {h : Entry} (ht : h.timestamp ≠ Int64.maxValue) :
    (Entry.over (some h) origin now key value maxAge).Outranks h := by
  generalize hn : Entry.over (some h) origin now key value maxAge = new
  have hlt : h.timestamp < new.timestamp := hn ▸ timestamp_lt_over_of_ne ht
  have hv : h.version ≤ new.version := hn ▸ version_le_over
  rw [Outranks, compare_eq]
  split
  · rename_i hne
    rw [Std.compare_eq_gt]
    exact UInt64.lt_of_le_of_ne hv fun he => hne.2 he.symm
  · change (Ord.compare new.timestamp h.timestamp).then _ = .gt
    rw [Std.compare_eq_gt.mpr hlt]
    rfl

/-- What a node writes is not expired by the clock it was written by. -/
theorem isExpired_over (hnow : now < Int64.maxValue) :
    (Entry.over held origin now key value maxAge).isExpired now = false := by
  rw [Bool.eq_false_iff]
  intro hx
  obtain ⟨ms, -, hpos, hle⟩ := isExpired_iff.mp hx
  exact Int64.not_lt.mpr hle (Instant.lt_after hpos now_le_timestamp_over hnow)

/-- At the end of time a tombstone of another node stays over every put. -/
theorem outranks_over_of_timestamp_eq {h : Entry} (ht : h.timestamp = Int64.maxValue)
    (ho : h.origin ≠ origin) (hv : h.value = none) {v : Bytes} :
    h.Outranks (Entry.over (some h) origin now key (some v) maxAge) := by
  have hnew : (Entry.over (some h) origin now key (some v) maxAge).timestamp = h.timestamp := by
    change now.latest h.timestamp.succ = h.timestamp
    rw [ht, Instant.succ_maxValue, Instant.latest, if_pos (Int64.le_maxValue now)]
  have hc : Ord.compare h.timestamp h.timestamp = .eq := Std.ReflCmp.compare_self
  rw [Outranks, compare_eq, if_neg fun hne => ho hne.1]
  change (Ord.compare h.timestamp _).then ((Ord.compare h.isTombstone false).then _) = .gt
  rw [hnew, hc, isTombstone, hv]
  rfl

end Over

end Entry

end ServiceDirectory
