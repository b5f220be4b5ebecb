import Mathlib.Order.Defs.Unbundled
import ServiceDirectory.Entry.Order

namespace ServiceDirectory.Entry

/-- How entries of different origins compare, and those of one origin and version. -/
def byTime : Entry → Entry → Ordering :=
  compareLex (compareOn timestamp) <|
  compareLex (compareOn isTombstone) <|
  compareLex (compareOn value) <|
  compareLex (compareOn origin) <|
  compareLex (compareOn version) (compareOn maxAge)

instance : Std.TransCmp byTime := by
  unfold byTime
  infer_instance

theorem compare_eq (a b : Entry) : a.compare b =
    if a.origin = b.origin ∧ a.version ≠ b.version then Ord.compare a.version b.version
    else byTime a b := rfl

theorem compare_swap (a b : Entry) : a.compare b = (b.compare a).swap := by
  rw [compare_eq, compare_eq]
  by_cases h : a.origin = b.origin ∧ a.version ≠ b.version
  · rw [if_pos h, if_pos ⟨h.1.symm, h.2.symm⟩]
    exact Std.OrientedOrd.eq_swap
  · have h' : ¬ (b.origin = a.origin ∧ b.version ≠ a.version) := fun h' => h ⟨h'.1.symm, h'.2.symm⟩
    rw [if_neg h, if_neg h']
    exact Std.OrientedCmp.eq_swap

instance : Std.OrientedCmp compare where
  eq_swap := compare_swap _ _

theorem eq_of_byTime_eq {a b : Entry} (hk : a.key = b.key) (h : byTime a b = .eq) : a = b := by
  simp only [byTime, compareLex_eq_eq, compareOn, Std.LawfulEqOrd.compare_eq_iff_eq] at h
  obtain ⟨ht, -, hv, ho, hn, hm⟩ := h
  cases a
  cases b
  simp_all

theorem eq_of_compare_eq {a b : Entry} (hk : a.key = b.key) (h : a.compare b = .eq) : a = b := by
  rw [compare_eq] at h
  split at h
  · rename_i hne
    exact absurd (Std.LawfulEqOrd.compare_eq_iff_eq.mp h) hne.2
  · exact eq_of_byTime_eq hk h

/-- `a` replaces `b` wherever they meet. -/
def Outranks (a b : Entry) : Prop := a.compare b = .gt

instance (a b : Entry) : Decidable (a.Outranks b) := inferInstanceAs (Decidable (_ = _))

theorem outranks_iff_lt {a b : Entry} : a.Outranks b ↔ b.compare a = .lt :=
  Std.OrientedCmp.gt_iff_lt

theorem not_outranks_self (a : Entry) : ¬ a.Outranks a := by
  have h : a.compare a = .eq := Std.ReflCmp.compare_self
  simp [Outranks, h]

theorem Outranks.asymm {a b : Entry} (h : a.Outranks b) : ¬ b.Outranks a := by
  rw [outranks_iff_lt, h]
  decide

theorem outranks_or_outranks {a b : Entry} (hk : a.key = b.key) (hne : a ≠ b) :
    a.Outranks b ∨ b.Outranks a := by
  rw [outranks_iff_lt (a := b)]
  cases h : a.compare b with
  | lt => exact .inr rfl
  | eq => exact absurd (eq_of_compare_eq hk h) hne
  | gt => exact .inl h

/-- The version counts the milliseconds of the timestamp. -/
def Stamped (e : Entry) : Prop := (e.version.toNat : Int) = e.timestamp.toInt

theorem Stamped.version_eq_iff {a b : Entry} (ha : a.Stamped) (hb : b.Stamped) :
    a.version = b.version ↔ a.timestamp = b.timestamp := by
  unfold Stamped at ha hb
  rw [← UInt64.toNat_inj, ← Int64.toInt_inj]
  omega

theorem Stamped.version_lt_iff {a b : Entry} (ha : a.Stamped) (hb : b.Stamped) :
    a.version < b.version ↔ a.timestamp < b.timestamp := by
  unfold Stamped at ha hb
  rw [UInt64.lt_iff_toNat_lt, Int64.lt_iff_toInt_lt]
  omega

theorem Stamped.compare_version {a b : Entry} (ha : a.Stamped) (hb : b.Stamped) :
    Ord.compare a.version b.version = Ord.compare a.timestamp b.timestamp := by
  cases h : Ord.compare a.timestamp b.timestamp with
  | lt =>
    rw [Std.compare_eq_lt] at h ⊢
    exact (ha.version_lt_iff hb).mpr h
  | eq =>
    rw [Std.LawfulEqOrd.compare_eq_iff_eq] at h ⊢
    exact (ha.version_eq_iff hb).mpr h
  | gt =>
    rw [Std.compare_eq_gt] at h ⊢
    exact (hb.version_lt_iff ha).mpr h

/-- Where versions count milliseconds both rules agree, and time decides first in any case. -/
theorem Stamped.compare_eq_byTime {a b : Entry} (ha : a.Stamped) (hb : b.Stamped) :
    a.compare b = byTime a b := by
  rw [compare_eq]
  split
  · rename_i h
    have hne : Ord.compare a.timestamp b.timestamp ≠ .eq := fun he =>
      h.2 ((ha.version_eq_iff hb).mpr (Std.LawfulEqOrd.compare_eq_iff_eq.mp he))
    rw [ha.compare_version hb]
    change _ = (Ord.compare a.timestamp b.timestamp).then _
    cases hc : Ord.compare a.timestamp b.timestamp with
    | lt => rfl
    | eq => exact absurd hc hne
    | gt => rfl
  · rfl

theorem Outranks.trans {a b c : Entry} (ha : a.Stamped) (hb : b.Stamped) (hc : c.Stamped)
    (hab : a.Outranks b) (hbc : b.Outranks c) : a.Outranks c := by
  unfold Outranks at *
  rw [ha.compare_eq_byTime hb] at hab
  rw [hb.compare_eq_byTime hc] at hbc
  rw [ha.compare_eq_byTime hc]
  exact Std.TransCmp.gt_trans hab hbc

theorem Stamped.outranks_of_timestamp_lt {a b : Entry} (ha : a.Stamped) (hb : b.Stamped)
    (h : b.timestamp < a.timestamp) : a.Outranks b := by
  rw [Outranks, ha.compare_eq_byTime hb]
  change (Ord.compare a.timestamp b.timestamp).then _ = .gt
  rw [Std.compare_eq_gt.mpr h]
  rfl

theorem Outranks.timestamp_le {a b : Entry} (ha : a.Stamped) (hb : b.Stamped)
    (h : a.Outranks b) : b.timestamp ≤ a.timestamp := by
  apply Int64.not_lt.mp
  intro hlt
  exact h.asymm (hb.outranks_of_timestamp_lt ha hlt)

/-- On copies of one key whose versions count milliseconds the order is total. -/
theorem isStrictTotalOrder_compare {p : Entry → Prop} (hs : ∀ e, p e → e.Stamped)
    (hk : ∀ a b, p a → p b → a.key = b.key) :
    IsStrictTotalOrder {e // p e} fun a b => a.1.compare b.1 = .lt where
  irrefl a h := not_outranks_self a.1 (outranks_iff_lt.mpr h)
  trans a b c hab hbc := by
    rw [← outranks_iff_lt] at *
    exact hbc.trans (hs c.1 c.2) (hs b.1 b.2) (hs a.1 a.2) hab
  trichotomous a b hab hba := by
    rw [← outranks_iff_lt] at *
    apply Subtype.ext
    apply Classical.byContradiction
    intro hne
    rcases outranks_or_outranks (hk a.1 b.1 a.2 b.2) hne with h | h
    · exact hba h
    · exact hab h

/-! The winner of two entries. -/

theorem winner_of_outranks {a b : Entry} (h : b.Outranks a) : winner a b = b := by
  rw [outranks_iff_lt] at h
  simp [winner, h]

theorem winner_of_not_outranks {a b : Entry} (h : ¬ b.Outranks a) : winner a b = a := by
  rw [outranks_iff_lt] at h
  unfold winner
  split
  · contradiction
  all_goals rfl

theorem winner_eq (a b : Entry) : winner a b = if b.Outranks a then b else a := by
  split
  · exact winner_of_outranks ‹_›
  · exact winner_of_not_outranks ‹_›

/-- Neither side of a pair is favoured. -/
theorem winner_comm {a b : Entry} (hk : a.key = b.key) : winner a b = winner b a := by
  by_cases hab : a = b
  · rw [hab]
  · rcases outranks_or_outranks hk hab with h | h
    · rw [winner_of_not_outranks h.asymm, winner_of_outranks h]
    · rw [winner_of_outranks h, winner_of_not_outranks h.asymm]

end ServiceDirectory.Entry
