import Mathlib.Algebra.Group.Nat.Defs
import ServiceDirectory.Time

namespace ServiceDirectory

theorem Span.toNat_millisWord {d : Span} (h : d.millis < 2 ^ 64) : d.millisWord.toNat = d.millis :=
  UInt64.toNat_ofNat_of_lt' h

namespace Instant

theorem bounds (t : Instant) : first ≤ t.toInt ∧ t.toInt ≤ last := by
  have hl := t.le_toInt
  have hu := t.toInt_lt
  unfold first last
  omega

theorem lt_maxValue_iff {t : Instant} : t < Int64.maxValue ↔ t.toInt < last := by
  rw [Int64.lt_iff_toInt_lt, Int64.toInt_maxValue]
  unfold last
  omega

theorem toInt_succ {t : Instant} (h : t.toInt < last) : t.succ.toInt = t.toInt + 1 := by
  have := t.bounds
  exact toInt_clamp_of_mem (by omega) (by omega)

theorem toInt_latest (s t : Instant) : (latest s t).toInt = max s.toInt t.toInt := by
  unfold latest
  split <;> rename_i h <;> rw [Int64.le_iff_toInt_le] at h <;> omega

theorem toNat_toVersion {t : Instant} (h : 0 ≤ t.toInt) : (t.toVersion.toNat : Int) = t.toInt := by
  have := t.toInt_lt
  have hlt : t.toInt.toNat < 2 ^ 64 := by omega
  simp only [toVersion, UInt64.toNat_ofNat_of_lt' hlt]
  omega

theorem toNat_toVersion_le (t : Instant) : t.toVersion.toNat ≤ t.toInt.toNat := Nat.mod_le _ _

theorem ne_maxValue_of_lt {s t : Instant} (h : s < t) : s ≠ Int64.maxValue := fun he =>
  Int64.not_lt.mpr (Int64.le_maxValue t) (he ▸ h)

theorem after_mono {s t : Instant} (h : s ≤ t) (ms : UInt64) : s.after ms ≤ t.after ms := by
  rw [Int64.le_iff_toInt_le] at *
  simp only [after, toInt_clamp]
  omega

theorem le_after (t : Instant) (ms : UInt64) : t ≤ t.after ms := by
  have := t.bounds
  rw [Int64.le_iff_toInt_le, after, toInt_clamp]
  unfold first last at *
  omega

theorem lt_of_after_le {s t : Instant} {ms : UInt64} (hms : 0 < ms) (hs : s.toInt < last)
    (h : s.after ms ≤ t) : s < t := by
  rw [Int64.le_iff_toInt_le] at h
  rw [UInt64.lt_iff_toNat_lt] at hms
  rw [Int64.lt_iff_toInt_lt]
  have := s.bounds
  simp only [after, toInt_clamp, last, first] at *
  simp at hms
  omega

theorem lt_after {s t : Instant} {ms : UInt64} (hms : 0 < ms) (hst : s ≤ t)
    (hs : s < Int64.maxValue) : s < t.after ms := by
  rw [UInt64.lt_iff_toNat_lt] at hms
  rw [Int64.le_iff_toInt_le] at hst
  rw [lt_maxValue_iff] at hs
  rw [Int64.lt_iff_toInt_lt]
  have := s.bounds
  simp only [after, toInt_clamp, last, first] at *
  simp at hms
  omega

theorem lt_succ_of_ne {t : Instant} (h : t ≠ Int64.maxValue) : t < t.succ := by
  have hlt : t.toInt < last := by
    have hne : t.toInt ≠ Int64.maxValue.toInt := fun he => h (Int64.toInt_inj.mp he)
    rw [Int64.toInt_maxValue] at hne
    have := t.bounds
    unfold last at *
    omega
  rw [Int64.lt_iff_toInt_lt, toInt_succ hlt]
  omega

@[simp] theorem succ_maxValue : succ Int64.maxValue = Int64.maxValue := by decide

end Instant

end ServiceDirectory
