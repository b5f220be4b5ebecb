import ServiceDirectory.Proofs.Engine

namespace ServiceDirectory

/-! A durable sweep between whose halves anything may be written. -/

variable {chosen rows : Table Bytes Bytes} {now : Instant} {age : UInt64} {k row : Bytes}

/-- A row that a sweep may take away: it cannot be read, or what it holds may be collected. -/
def Row.MayGo (row : Bytes) (now : Instant) (age : UInt64) : Prop :=
  Row.decode row = none ∨ ∃ e, Row.decode row = some e ∧ e.isCollectable now age

theorem Row.isCollectable_iff_mayGo : Row.isCollectable row now age ↔ Row.MayGo row now age := by
  rw [Row.isCollectable, Row.MayGo]
  cases Row.decode row <;> simp

theorem Row.not_mayGo_iff :
    ¬ Row.MayGo row now age ↔ ∃ e, Row.decode row = some e ∧ e.isCollectable now age = false := by
  rw [Row.MayGo]
  cases Row.decode row <;> simp

/-- There is a row for the key, and it may go. -/
def Table.Forfeits (rows : Table Bytes Bytes) (now : Instant) (age : UInt64) (k : Bytes) : Prop :=
  ∃ row, rows.get? k = some row ∧ Row.MayGo row now age

theorem mem_sweepCandidates_iff :
    k ∈ sweepCandidates chosen now age ↔ chosen.Forfeits now age k := by
  rw [mem_sweepCandidates]
  exact exists_congr fun row => and_congr Iff.rfl Row.isCollectable_iff_mayGo

theorem nodup_sweepCandidates (chosen : Table Bytes Bytes) (now : Instant) (age : UInt64) :
    (sweepCandidates chosen now age).Nodup := Table.nodup_keys _

/-- The rows that are taken away, by their keys. -/
theorem map_fst_filterMap (ks : List Bytes) (rows : Table Bytes Bytes) (p : Bytes → Bool) :
    (ks.filterMap fun k => (rows.get? k).bind fun row => if p row then some (k, row) else none).map
      (·.1) = ks.filter fun k => (rows.get? k).any p := by
  induction ks with
  | nil => rfl
  | cons k ks ih =>
    rw [List.filterMap_cons, List.filter_cons, ← ih]
    cases rows.get? k with
    | none => rfl
    | some row =>
      rw [Option.bind_some, Option.any_some]
      cases p row <;> rfl

/-- What the second half of a sweep makes of `rows`, after a first half that saw `chosen`. -/
structure Reweighed (chosen rows : Table Bytes Bytes) (now : Instant) (age : UInt64) (swept : Swept)
    (left : Table Bytes Bytes) : Prop where
  /-- Every row stays as it is, unless it was to go then and is to go now. -/
  get?_left (k row : Bytes) : left.get? k = some row ↔
    rows.get? k = some row ∧ ¬ (chosen.Forfeits now age k ∧ Row.MayGo row now age)
  /-- Those that go are counted once each, and reported where they cannot be read. -/
  gone : ∃ ks : List Bytes, ks.Nodup ∧
    (∀ k, k ∈ ks ↔ chosen.Forfeits now age k ∧ rows.Forfeits now age k) ∧
    swept.removed = ks.length ∧
    swept.undecodable = ks.countP fun k => ((rows.get? k).bind Row.decode).isNone

theorem get?_removeCandidates_iff :
    (removeCandidates (sweepCandidates chosen now age) now age rows).2.get? k = some row ↔
      rows.get? k = some row ∧ ¬ (chosen.Forfeits now age k ∧ Row.MayGo row now age) := by
  rw [get?_removeCandidates, Option.filter_eq_some_iff, ← mem_sweepCandidates_iff,
    ← Row.isCollectable_iff_mayGo]
  simp [imp_iff_not_or]

theorem mem_filter_sweepCandidates :
    k ∈ (sweepCandidates chosen now age).filter
        (fun k => (rows.get? k).any (Row.isCollectable · now age)) ↔
      chosen.Forfeits now age k ∧ rows.Forfeits now age k := by
  rw [List.mem_filter, mem_sweepCandidates_iff, Option.any_eq_true]
  exact and_congr Iff.rfl (exists_congr fun row => and_congr Iff.rfl Row.isCollectable_iff_mayGo)

theorem reweighed_removeCandidates (chosen rows : Table Bytes Bytes) (now : Instant) (age : UInt64) :
    Reweighed chosen rows now age
      (removeCandidates (sweepCandidates chosen now age) now age rows).1
      (removeCandidates (sweepCandidates chosen now age) now age rows).2 where
  get?_left k row := get?_removeCandidates_iff
  gone := by
    have hkeys := map_fst_filterMap (sweepCandidates chosen now age) rows (Row.isCollectable · now age)
    refine ⟨_, (nodup_sweepCandidates chosen now age).filter _,
      fun k => mem_filter_sweepCandidates, ?_, ?_⟩
    · rw [← hkeys, List.length_map]
      rfl
    · rw [← hkeys, List.countP_map]
      refine List.countP_congr fun d hd => ?_
      obtain ⟨k, -, hk⟩ := List.mem_filterMap.mp hd
      obtain ⟨row, hrow, hd⟩ := Option.bind_eq_some_iff.mp hk
      split at hd
      · cases hd
        rw [Function.comp_apply, hrow, Option.bind_some]
      · contradiction

/-! With nothing written in between. -/

theorem mapM_eq_some_filterMap {α β : Type} {f : α → Option β} {l : List α}
    (h : ∀ a ∈ l, (f a).isSome) : l.mapM f = some (l.filterMap f) := by
  induction l with
  | nil => rfl
  | cons a l ih =>
    obtain ⟨b, hb⟩ := Option.isSome_iff_exists.mp (h a (by simp))
    rw [List.mapM_cons, hb, ih fun x hx => h x (List.mem_cons_of_mem a hx),
      List.filterMap_cons_some hb]
    rfl

theorem values_filter (rows : Table Bytes Bytes) (p : Bytes → Bool) :
    (rows.filter fun _ row => p row).values = rows.values.filter p := by
  rw [Table.values, Table.values, List.filter_map]
  rfl

/-- Reading the rows that are not to go is leaving out what may be collected of all that can be
read. -/
theorem filterMap_decode_filter (l : List Bytes) (now : Instant) (age : UInt64) :
    (l.filter fun row => !Row.isCollectable row now age).filterMap Row.decode =
      (l.filterMap Row.decode).filter fun e => !e.isCollectable now age := by
  rw [List.filterMap_filter, List.filter_filterMap]
  refine List.filterMap_congr fun row _ => ?_
  cases h : Row.decode row with
  | none => simp
  | some e =>
    rw [Row.isCollectable_eq h, Option.filter_some]

theorem all_removeCandidates (rows : Table Bytes Bytes) (now : Instant) (age : UInt64) :
    (Medium.durable (removeCandidates (sweepCandidates rows now age) now age rows).2).all =
      .ok ((rows.values.filterMap Row.decode).filter fun e => !e.isCollectable now age) := by
  have hread : ∀ row ∈ rows.values.filter fun row => !Row.isCollectable row now age,
      (Row.decode row).isSome := by
    intro row hrow
    have hstay : ¬ Row.MayGo row now age := by
      rw [← Row.isCollectable_iff_mayGo]
      simpa using (List.mem_filter.mp hrow).2
    obtain ⟨e, he, -⟩ := Row.not_mayGo_iff.mp hstay
    exact Option.isSome_of_eq_some he
  rw [removeCandidates_sweepCandidates]
  simp only [Medium.all, values_filter, mapM_eq_some_filterMap hread, filterMap_decode_filter]

/-- A durable sweep takes away just the rows that were to go when it chose them and are to go still,
whatever has been written since, and no other row is touched. If nothing has been written then what
it leaves are the rows that can be read and may not be collected, so that all of them can be listed,
however bad the rows were before. -/
theorem sweep_between_writes (chosen rows : Table Bytes Bytes) (now : Instant) (age : UInt64) :
    Reweighed chosen rows now age
      (removeCandidates (sweepCandidates chosen now age) now age rows).1
      (removeCandidates (sweepCandidates chosen now age) now age rows).2 ∧
    ∃ swept left,
      (Engine.removeExpired now age).run.run { medium := .durable rows } =
        (.ok swept, { medium := .durable left }) ∧
      (∀ k row, left.get? k = some row ↔
        rows.get? k = some row ∧ ∃ e, Row.decode row = some e ∧ e.isCollectable now age = false) ∧
      swept.removed + left.size = rows.size ∧
      Engine.getAll.run.run { medium := .durable left } =
        (.ok ((rows.values.filterMap Row.decode).filter fun e => !e.isCollectable now age),
          { medium := .durable left }) := by
  refine ⟨reweighed_removeCandidates chosen rows now age,
    (removeCandidates (sweepCandidates rows now age) now age rows).1,
    (removeCandidates (sweepCandidates rows now age) now age rows).2, rfl, ?_, ?_, ?_⟩
  · intro k row
    rw [get?_removeCandidates_iff, ← Row.not_mayGo_iff]
    exact and_congr_right fun hrow => not_congr (and_iff_right_of_imp fun hgo => ⟨row, hrow, hgo⟩)
  · rw [removeCandidates_sweepCandidates]
    exact rows.size_filter_add fun _ row => Row.isCollectable row now age
  · exact congrArg (Prod.mk · _) (all_removeCandidates rows now age)

end ServiceDirectory
