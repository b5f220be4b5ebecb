import ServiceDirectory.Proofs.Entry

namespace ServiceDirectory

/-! Times that are cut off at the ends of the clock, against the integers. -/

namespace Instant

variable {s t now : Instant} {ms : UInt64}

/-- A lifetime that begins after the epoch ends before the last instant, or not at all. -/
theorem after_le_iff (ht : 0 ≤ t) (hnow : now < Int64.maxValue) :
    t.after ms ≤ now ↔ t.toInt + ms.toNat ≤ now.toInt := by
  rw [Int64.le_iff_toInt_le, Int64.toInt_zero] at ht
  rw [lt_maxValue_iff] at hnow
  -- a sum past the end is cut to the last instant, which `now` has not reached
  rw [Int64.le_iff_toInt_le, after, toInt_clamp]
  unfold first last at *
  omega

/-- The age of what comes after the epoch has room below the last instant. -/
theorem le_since_iff (hs : 0 ≤ s) :
    0 ≤ t.since s ∧ ms.toNat ≤ (t.since s).toInt.toNat ↔ (ms.toNat : Int) ≤ t.toInt - s.toInt := by
  have hb := t.bounds
  rw [Int64.le_iff_toInt_le, Int64.toInt_zero] at hs
  -- a difference is cut only from below, where it is negative anyway
  rw [Int64.le_iff_toInt_le, Int64.toInt_zero, since, toInt_clamp]
  unfold first last at *
  omega

end Instant

namespace Entry

variable {e : Entry} {now later : Instant} {age : UInt64}

theorem isExpired_iff_add_le (he : 0 ≤ e.timestamp) (hnow : now < Int64.maxValue) :
    e.isExpired now ↔
      ∃ ms ∈ e.maxAge, 0 < ms.toNat ∧ e.timestamp.toInt + ms.toNat ≤ now.toInt := by
  rw [isExpired_iff]
  apply exists_congr
  intro ms
  rw [Instant.after_le_iff he hnow, UInt64.lt_iff_toNat_lt, UInt64.toNat_zero]

/-- At the last instant everything with a lifetime has expired, however long it was to last. -/
theorem isExpired_maxValue : e.isExpired Int64.maxValue ↔ ∃ ms ∈ e.maxAge, 0 < ms := by
  rw [isExpired_iff]
  apply exists_congr
  intro ms
  rw [and_iff_left (Int64.le_maxValue _)]

theorem isCollectable_tombstone (ht : e.isTombstone) (he : 0 ≤ e.timestamp) :
    e.isCollectable now age ↔ (age.toNat : Int) ≤ now.toInt - e.timestamp.toInt := by
  rw [isCollectable, if_pos ht, ← Instant.le_since_iff he]
  simp only [Bool.and_eq_true, decide_eq_true_eq]

theorem isCollectable_value (ht : ¬ e.isTombstone) :
    e.isCollectable now age ↔ e.isExpired now := by
  rw [isCollectable, if_neg ht]

theorem isCollectable_mono (he : 0 ≤ e.timestamp) (hl : now ≤ later)
    (h : e.isCollectable now age) : e.isCollectable later age := by
  by_cases ht : e.isTombstone
  · rw [isCollectable_tombstone ht he] at *
    rw [Int64.le_iff_toInt_le] at hl
    omega
  · rw [isCollectable_value ht] at *
    exact isExpired_mono hl h

/-- By a clock that has not run out the entry ages as it would by exact times. -/
structure AgesExactly (e : Entry) (age : UInt64) (now : Instant) : Prop where
  expired : e.isExpired now ↔
    ∃ ms ∈ e.maxAge, 0 < ms.toNat ∧ e.timestamp.toInt + ms.toNat ≤ now.toInt
  tombstone : e.isTombstone →
    (e.isCollectable now age ↔ (age.toNat : Int) ≤ now.toInt - e.timestamp.toInt)
  value : ¬ e.isTombstone → (e.isCollectable now age ↔ e.isExpired now)
  expired_later : e.isExpired now → ∀ later, now ≤ later → e.isExpired later
  collectable_later : e.isCollectable now age → ∀ later, now ≤ later →
    e.isCollectable later age ∧ ¬ e.isLive later

theorem ages_exactly (he : 0 ≤ e.timestamp) (hnow : now < Int64.maxValue) :
    AgesExactly e age now where
  expired := isExpired_iff_add_le he hnow
  tombstone ht := isCollectable_tombstone ht he
  value := isCollectable_value
  expired_later h later hl := isExpired_mono hl h
  collectable_later h later hl := by
    have hlater := isCollectable_mono he hl h
    refine ⟨hlater, ?_⟩
    rw [isLive_eq_false_of_isCollectable hlater]
    exact Bool.false_ne_true

/-- A value of the first millisecond after the epoch. -/
def longLived (maxAge : UInt64) : Entry :=
  { key := [107], value := some [49], version := 1, origin := "a", timestamp := 0
    maxAge := some maxAge }

/-- Of two lifetimes one ends at the last reading that counts and the other, past the end of the
clock, has not ended then. -/
theorem ages_exactly_longLived : (0 : Instant) ≤ (longLived (0x7FFFFFFFFFFFFFFE)).timestamp ∧
    (0 : Instant) ≤ (longLived (0xFFFFFFFFFFFFFFFF)).timestamp ∧ Int64.maxValue - 1 < Int64.maxValue ∧
    (longLived (0x7FFFFFFFFFFFFFFE)).isExpired (Int64.maxValue - 1) ∧
    ¬ (longLived (0x7FFFFFFFFFFFFFFE)).isLive Int64.maxValue ∧
    ¬ (longLived (0xFFFFFFFFFFFFFFFF)).isCollectable (Int64.maxValue - 1) 0 := by
  have hnow : Int64.maxValue - 1 < Int64.maxValue := by decide
  have hends : AgesExactly (longLived (0x7FFFFFFFFFFFFFFE)) 0 (Int64.maxValue - 1) :=
    ages_exactly (Int64.le_refl 0) hnow
  have hlasts : AgesExactly (longLived (0xFFFFFFFFFFFFFFFF)) 0 (Int64.maxValue - 1) :=
    ages_exactly (Int64.le_refl 0) hnow
  have hexpired : (longLived (0x7FFFFFFFFFFFFFFE)).isExpired (Int64.maxValue - 1) :=
    hends.expired.mpr ⟨0x7FFFFFFFFFFFFFFE, rfl, by decide, by decide⟩
  have hcollectable := (hends.value (by decide)).mpr hexpired
  refine ⟨Int64.le_refl 0, Int64.le_refl 0, hnow, hexpired, ?_, ?_⟩
  · exact (hends.collectable_later hcollectable Int64.maxValue (by decide)).2
  · intro h
    obtain ⟨ms, hms, -, hle⟩ := hlasts.expired.mp ((hlasts.value (by decide)).mp h)
    cases hms
    exact absurd hle (by decide)

end Entry

end ServiceDirectory
