import Mathlib.Data.List.Sort
import ServiceDirectory.Cluster
import ServiceDirectory.Proofs.Row

namespace ServiceDirectory

/-! A durable sweep row by row. -/

theorem Row.isCollectable_eq {row : Bytes} {e : Entry} {now : Instant} {age : UInt64}
    (h : Row.decode row = some e) : Row.isCollectable row now age = e.isCollectable now age := by
  rw [Row.isCollectable, h]
  rfl

theorem mem_sweepCandidates {rows : Table Bytes Bytes} {now : Instant} {age : UInt64} {k : Bytes} :
    k ∈ sweepCandidates rows now age ↔ ∃ row ∈ rows.get? k, Row.isCollectable row now age := by
  simp [sweepCandidates, Table.keys, Table.filter, Table.get?_eq_some_iff]

theorem get?_foldl_erase {β : Type} (doomed : List (Bytes × β)) (rows : Table Bytes Bytes) (k : Bytes) :
    (doomed.foldl (fun rows d => rows.erase d.1) rows).get? k =
      if k ∈ doomed.map (·.1) then none else rows.get? k := by
  induction doomed generalizing rows with
  | nil => simp
  | cons d doomed ih =>
    rw [List.foldl_cons, ih, Table.get?_erase, List.map_cons]
    by_cases hk : d.1 = k
    · simp [hk]
    · simp only [if_neg hk, List.mem_cons, Ne.symm hk, false_or]

theorem get?_removeCandidates (ks : List Bytes) (now : Instant) (age : UInt64)
    (rows : Table Bytes Bytes) (k : Bytes) : (removeCandidates ks now age rows).2.get? k =
      (rows.get? k).filter fun row => !(ks.contains k && Row.isCollectable row now age) := by
  rw [removeCandidates, get?_foldl_erase]
  cases hrow : rows.get? k with
  | none => simp
  | some row =>
    have hmem : k ∈ (ks.filterMap fun k => (rows.get? k).bind fun row =>
        if Row.isCollectable row now age then some (k, row) else none).map (·.1) ↔
        k ∈ ks ∧ Row.isCollectable row now age := by
      simp only [List.mem_map, List.mem_filterMap]
      constructor
      · rintro ⟨d, ⟨j, hj, hd⟩, rfl⟩
        obtain ⟨r, hr, hd⟩ := Option.bind_eq_some_iff.mp hd
        split at hd
        · cases hd
          exact ⟨hj, by simp_all⟩
        · contradiction
      · rintro ⟨hk, hc⟩
        exact ⟨(k, row), ⟨k, hk, by simp [hrow, hc]⟩, rfl⟩
    rw [Option.filter_some]
    by_cases hc : k ∈ ks ∧ Row.isCollectable row now age
    · simp [hmem.mpr hc, hc]
    · simp only [if_neg (mt hmem.mp hc)]
      simp_all

namespace Medium

variable {m m' : Medium} {e : Entry} {k : Bytes} {now : Instant} {age : UInt64}

/-- What is found under a key; nothing where the row cannot be read. -/
def held (m : Medium) (k : Bytes) : Option Entry := (m.get? k).toOption.join

theorem held_volatile (entries : Table Bytes Entry) (k : Bytes) :
    (volatile entries).held k = entries.get? k := rfl

theorem held_durable (rows : Table Bytes Bytes) (k : Bytes) :
    (durable rows).held k = (rows.get? k).bind Row.decode := by
  simp only [held, get?]
  cases rows.get? k with
  | none => rfl
  | some row =>
    simp only [Option.bind_some]
    cases Row.decode row <;> rfl

/-- Whether an entry can be taken up: rows note lengths in machine words. -/
def Takes : Medium → Entry → Prop
  | volatile _, _ => True
  | durable _, e => e.Fits

/-- Every row can be read and stands under the key of its entry. -/
structure Sound (m : Medium) : Prop where
  get?_eq (k : Bytes) : m.get? k = .ok (m.held k)
  key_of_held {k : Bytes} {e : Entry} : m.held k = some e → e.key = k

theorem get?_durable {rows : Table Bytes Bytes} {k : Bytes} :
    (durable rows).get? k = .ok ((durable rows).held k) ↔
      ∀ row ∈ rows.get? k, (Row.decode row).isSome := by
  rw [held_durable]
  simp only [get?]
  cases hr : rows.get? k with
  | none => simp
  | some row => cases hd : Row.decode row <;> simp [hd]

theorem Sound.isSome_decode {rows : Table Bytes Bytes} (h : (durable rows).Sound) {k row : Bytes}
    (hr : rows.get? k = some row) : (Row.decode row).isSome :=
  get?_durable.mp (h.get?_eq k) row hr

/-! Writing one entry. -/

theorem held_put (ht : m.Takes e) (k : Bytes) :
    (m.put e).held k = if e.key = k then some e else m.held k := by
  cases m with
  | volatile entries => exact Table.get?_insert ..
  | durable rows =>
    rw [put, held_durable, held_durable, Table.get?_insert]
    split
    · exact Row.decode_encode ht
    · rfl

theorem takes_put (x : Entry) : (m.put e).Takes x ↔ m.Takes x := by
  cases m <;> exact Iff.rfl

theorem get?_put_self (ht : m.Takes e) : (m.put e).get? e.key = .ok (some e) := by
  cases m with
  | volatile entries => simp [put, get?]
  | durable rows => simp [put, get?, Row.decode_encode ht]

/-- Another key's row stays as it is, whether it can be read or not. -/
theorem get?_put_of_ne (h : e.key ≠ k) :
    (m.put e).get? k = m.get? k ∧ (m.put e).row? k = m.row? k := by
  cases m <;> simp [put, get?, row?, Table.get?_insert, h]

theorem Sound.put (h : m.Sound) (ht : m.Takes e) : (m.put e).Sound where
  get?_eq k := by
    cases m with
    | volatile entries => rfl
    | durable rows =>
      refine get?_durable.mpr fun row hr => ?_
      rw [Table.get?_insert] at hr
      split at hr
      · cases hr
        rw [Row.decode_encode ht]
        rfl
      · exact h.isSome_decode hr
  key_of_held {k e'} hk := by
    rw [held_put ht] at hk
    split at hk
    · cases hk
      assumption
    · exact h.key_of_held hk

/-! A sweep. -/

theorem get?_sweep_durable (rows : Table Bytes Bytes) (k : Bytes) :
    (removeCandidates (sweepCandidates rows now age) now age rows).2.get? k =
      (rows.get? k).filter fun row => !Row.isCollectable row now age := by
  rw [get?_removeCandidates]
  cases hr : rows.get? k with
  | none => rfl
  | some row =>
    have hk : Row.isCollectable row now age → k ∈ sweepCandidates rows now age :=
      fun h => mem_sweepCandidates.mpr ⟨row, hr, h⟩
    cases hc : Row.isCollectable row now age <;> simp_all [Option.filter_some]

theorem held_sweep (h : m.Sound) (k : Bytes) : (m.sweep now age).2.held k =
    (m.held k).filter fun e => !e.isCollectable now age := by
  cases m with
  | volatile entries => exact Table.get?_filter ..
  | durable rows =>
    rw [sweep, held_durable, held_durable, get?_sweep_durable]
    cases hr : rows.get? k with
    | none => rfl
    | some row =>
      obtain ⟨e, he⟩ := Option.isSome_iff_exists.mp (h.isSome_decode hr)
      rw [Option.filter_some, Row.isCollectable_eq he, Option.bind_some, he, Option.filter_some]
      split
      · exact he
      · rfl

theorem takes_sweep (x : Entry) : (m.sweep now age).2.Takes x ↔ m.Takes x := by
  cases m <;> exact Iff.rfl

theorem Sound.sweep (h : m.Sound) : (m.sweep now age).2.Sound where
  get?_eq k := by
    cases m with
    | volatile entries => rfl
    | durable rows =>
      refine get?_durable.mpr fun row hr => ?_
      rw [get?_sweep_durable] at hr
      exact h.isSome_decode (Option.filter_eq_some_iff.mp hr).1
  key_of_held {k e} hk := by
    rw [held_sweep h, Option.filter_eq_some_iff] at hk
    exact h.key_of_held hk.1

/-! All that is held, in key order. -/

def keyLt (a b : Entry) : Prop := compare a.key b.key = .lt

instance : Std.Irrefl keyLt := ⟨fun a h => by simp [keyLt] at h⟩

instance : Std.Antisymm keyLt :=
  ⟨fun a b h h' => by simp [keyLt, Std.OrientedCmp.gt_of_lt h] at h'⟩

theorem exists_mapM {ρ : Type} {f : ρ → Option Entry} {rows : List (Bytes × ρ)}
    (hs : rows.Pairwise fun a b => compare a.1 b.1 = .lt)
    (hf : ∀ r ∈ rows, ∃ e, f r.2 = some e ∧ e.key = r.1) :
    ∃ es, (rows.map (·.2)).mapM f = some es ∧ es.Pairwise keyLt ∧
      ∀ e, e ∈ es ↔ ∃ r, (e.key, r) ∈ rows ∧ f r = some e := by
  induction rows with
  | nil => exact ⟨[], rfl, .nil, by simp⟩
  | cons r rows ih =>
    obtain ⟨hr, hrows⟩ := List.pairwise_cons.mp hs
    obtain ⟨es, hes, hsorted, hmem⟩ := ih hrows fun r' hr' => hf r' (List.mem_cons_of_mem r hr')
    obtain ⟨e, he, hk⟩ := hf r (by simp)
    refine ⟨e :: es, by simp [hes, he], List.pairwise_cons.mpr ⟨?_, hsorted⟩, ?_⟩
    · intro e' he'
      obtain ⟨r', hr', -⟩ := (hmem e').mp he'
      rw [keyLt, hk]
      exact hr _ hr'
    · intro e'
      rw [List.mem_cons, hmem]
      constructor
      · rintro (rfl | ⟨r', hr', hf'⟩)
        · exact ⟨r.2, List.mem_cons.mpr (.inl (by rw [hk])), he⟩
        · exact ⟨r', List.mem_cons_of_mem r hr', hf'⟩
      · rintro ⟨r', hr', hf'⟩
        rcases List.mem_cons.mp hr' with rfl | hr'
        · exact .inl (Option.some.inj (hf'.symm.trans he))
        · exact .inr ⟨r', hr', hf'⟩

theorem Sound.exists_all (h : m.Sound) : ∃ es, m.all = .ok es ∧ es.Pairwise keyLt ∧
    ∀ e, e ∈ es ↔ m.held e.key = some e := by
  cases m with
  | volatile entries =>
    obtain ⟨es, hes, hsorted, hmem⟩ := exists_mapM (f := some) entries.sorted fun r hr =>
      ⟨r.2, rfl, h.key_of_held (Table.get?_eq_some_iff.mpr hr)⟩
    have hes' : es = entries.values := by
      have hp := List.mapM_pure (m := Option) (l := entries.values) (f := id)
      rw [List.map_id] at hp
      exact Option.some.inj (hes.symm.trans hp)
    refine ⟨es, congrArg _ hes'.symm, hsorted, fun e => (hmem e).trans ?_⟩
    rw [held_volatile, Table.get?_eq_some_iff]
    simp
  | durable rows =>
    obtain ⟨es, hes, hsorted, hmem⟩ := exists_mapM (f := Row.decode) rows.sorted fun r hr => by
      have hget := Table.get?_eq_some_iff.mpr hr
      obtain ⟨e, he⟩ := Option.isSome_iff_exists.mp (h.isSome_decode hget)
      exact ⟨e, he, h.key_of_held (by rw [held_durable, hget]; exact he)⟩
    refine ⟨es, ?_, hsorted, fun e => (hmem e).trans ?_⟩
    · simp only [all, Table.values, hes]
    · simp [held_durable, Option.bind_eq_some_iff, Table.get?_eq_some_iff]

/-! Beginning, and beginning again. -/

theorem held_fresh (isDurable : Bool) (k : Bytes) : (fresh isDurable).held k = none := by
  cases isDurable <;> rfl

theorem sound_fresh (isDurable : Bool) : (fresh isDurable).Sound where
  get?_eq k := by cases isDurable <;> rfl
  key_of_held {k e} h := by simp [held_fresh] at h

theorem held_reopened (m : Medium) {k : Bytes} {e : Entry} (h : m.reopened.held k = some e) :
    m.held k = some e := by
  cases m with
  | volatile entries => exact absurd h (by simp [reopened, held_volatile])
  | durable rows => exact h

theorem Sound.reopened (h : m.Sound) : m.reopened.Sound := by
  cases m with
  | volatile entries => exact sound_fresh false
  | durable rows => exact h

end Medium

end ServiceDirectory
