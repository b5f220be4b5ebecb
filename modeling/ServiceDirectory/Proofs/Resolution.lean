import ServiceDirectory.Proofs.Settle

namespace ServiceDirectory.Entry

/-! Two entries of one key, weighed against each other. -/

variable {a b : Entry}

theorem compare_eq_eq_iff (hk : a.key = b.key) : a.compare b = .eq ↔ a = b := by
  constructor
  · exact eq_of_compare_eq hk
  · rintro rfl
    exact Std.ReflCmp.compare_self

theorem winner_eq_or (a b : Entry) : winner a b = a ∨ winner a b = b := by
  rw [winner_eq]
  split
  · exact .inr rfl
  · exact .inl rfl

/-- Once an entry has been weighed, it changes nothing when it comes again. -/
theorem resolve_resolve (held : Option Entry) (e : Entry) :
    resolve (some (resolve held e)) e = resolve held e :=
  winner_of_not_outranks (not_outranks_resolve held e)

/-- A higher version of the same origin, or a later time where versions do not decide. -/
def Newer (a b : Entry) : Prop :=
  (a.origin = b.origin ∧ b.version < a.version) ∨
    ((a.origin ≠ b.origin ∨ a.version = b.version) ∧ b.timestamp < a.timestamp)

instance (a b : Entry) : Decidable (a.Newer b) := inferInstanceAs (Decidable (_ ∨ _))

theorem compare_of_origin_eq (ho : a.origin = b.origin) (hv : a.version ≠ b.version) :
    a.compare b = Ord.compare a.version b.version := by
  rw [compare_eq, if_pos ⟨ho, hv⟩]

theorem compare_of_not_versions (h : a.origin ≠ b.origin ∨ a.version = b.version) :
    a.compare b = byTime a b := by
  rw [compare_eq, if_neg]
  rintro ⟨ho, hv⟩
  exact h.elim (· ho) hv

theorem Newer.outranks (h : a.Newer b) : a.Outranks b := by
  unfold Outranks
  rcases h with ⟨ho, hv⟩ | ⟨hne, ht⟩
  · rw [compare_of_origin_eq ho (UInt64.ne_of_lt hv).symm]
    exact Std.compare_eq_gt.mpr hv
  · rw [compare_of_not_versions hne]
    change (Ord.compare a.timestamp b.timestamp).then _ = .gt
    rw [Std.compare_eq_gt.mpr ht]
    rfl

/-- Where neither is newer, versions and time have nothing to say. -/
theorem timestamp_eq_of_not_newer (h : ¬ a.Newer b) (h' : ¬ b.Newer a) :
    (a.origin ≠ b.origin ∨ a.version = b.version) ∧ a.timestamp = b.timestamp := by
  have hne : a.origin ≠ b.origin ∨ a.version = b.version := by
    by_contra! hc
    obtain ⟨ho, hv⟩ := hc
    rcases UInt64.lt_or_lt_of_ne hv with hlt | hlt
    · exact h' (.inl ⟨ho.symm, hlt⟩)
    · exact h (.inl ⟨ho, hlt⟩)
  have hne' : b.origin ≠ a.origin ∨ b.version = a.version := hne.imp Ne.symm Eq.symm
  refine ⟨hne, Int64.le_antisymm (Int64.not_lt.mp fun hlt => ?_) (Int64.not_lt.mp fun hlt => ?_)⟩
  · exact h (.inr ⟨hne, hlt⟩)
  · exact h' (.inr ⟨hne', hlt⟩)

/-- A deletion gives way only to what is newer. -/
theorem tombstone_outranks (hb : b.isTombstone) (ha : ¬ a.isTombstone) (h : ¬ a.Newer b) :
    b.Outranks a := by
  by_cases h' : b.Newer a
  · exact h'.outranks
  · obtain ⟨hne, ht⟩ := timestamp_eq_of_not_newer h h'
    have hself : Ord.compare a.timestamp a.timestamp = .eq := Std.ReflCmp.compare_self
    rw [Outranks, compare_of_not_versions (hne.imp Ne.symm Eq.symm)]
    change (Ord.compare b.timestamp a.timestamp).then
      ((Ord.compare b.isTombstone a.isTombstone).then _) = .gt
    rw [← ht, hself, hb, Bool.eq_false_iff.mpr ha]
    rfl

/-- What two entries of a key come to, whichever of them is held and whichever comes in. -/
structure ResolvedFairly (a b : Entry) : Prop where
  compare_swap : a.compare b = (b.compare a).swap
  compare_eq_eq_iff : a.compare b = .eq ↔ a = b
  winner_comm : winner a b = winner b a
  winner_eq_or : winner a b = a ∨ winner a b = b
  resolve_again : resolve (some (resolve (some a) b)) b = resolve (some a) b
  tombstone_wins : b.isTombstone → ¬ a.isTombstone → ¬ a.Newer b → winner a b = b

theorem resolved_fairly (hk : a.key = b.key) : ResolvedFairly a b where
  compare_swap := compare_swap a b
  compare_eq_eq_iff := compare_eq_eq_iff hk
  winner_comm := winner_comm hk
  winner_eq_or := winner_eq_or a b
  resolve_again := resolve_resolve (some a) b
  tombstone_wins hb ha h := winner_of_outranks (tombstone_outranks hb ha h)

/-- A write and a deletion of one node in the same version and millisecond. -/
def tiedWrite : Entry :=
  { key := [107], value := some [255], version := 7, origin := "a", timestamp := 300, maxAge := some 10 }

def tiedTomb : Entry := { tiedWrite with value := none, maxAge := none }

theorem resolved_fairly_tied : tiedWrite.key = tiedTomb.key ∧ tiedTomb.isTombstone ∧
    ¬ tiedWrite.isTombstone ∧ ¬ tiedWrite.Newer tiedTomb ∧ winner tiedWrite tiedTomb = tiedTomb := by
  have hfair : ResolvedFairly tiedWrite tiedTomb := resolved_fairly rfl
  have htomb : ¬ tiedWrite.isTombstone := by decide
  have hnewer : ¬ tiedWrite.Newer tiedTomb := by decide
  exact ⟨rfl, rfl, htomb, hnewer, hfair.tombstone_wins rfl htomb hnewer⟩

end ServiceDirectory.Entry
