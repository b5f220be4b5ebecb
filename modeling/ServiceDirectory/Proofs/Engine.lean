import ServiceDirectory.Proofs.Medium

namespace ServiceDirectory

namespace Table

section Rows

variable {κ α β : Type} [Ord κ]

/-- The same rows with other contents. -/
def map (f : α → β) (t : Table κ α) : Table κ β :=
  ⟨t.rows.map fun r => (r.1, f r.2), List.pairwise_map.mpr t.sorted⟩

theorem keys_map (f : α → β) (t : Table κ α) : (t.map f).keys = t.keys := by
  simp [keys, map]

theorem values_map (f : α → β) (t : Table κ α) : (t.map f).values = t.values.map f := by
  simp [values, map]

theorem size_map (f : α → β) (t : Table κ α) : (t.map f).size = t.size := by
  simp [size, map]

theorem size_filter_add (t : Table κ α) (p : κ → α → Bool) :
    (t.filter p).size + (t.filter fun k a => !p k a).size = t.size := by
  have h := List.length_eq_countP_add_countP (fun r => p r.1 r.2) (l := t.rows)
  simp only [List.countP_eq_length_filter] at h
  simpa [size, filter] using h.symm

/-- No two rows have one key. -/
theorem nodup_keys [Std.TransOrd κ] (t : Table κ α) : t.keys.Nodup := by
  rw [keys, List.nodup_iff_pairwise_ne, List.pairwise_map]
  refine t.sorted.imp fun hlt heq => ?_
  rw [heq] at hlt
  simp at hlt

variable [DecidableEq κ]

theorem get?_map (f : α → β) (t : Table κ α) (k : κ) : (t.map f).get? k = (t.get? k).map f := by
  simp only [get?, map, List.find?_map, Option.map_map]
  rfl

theorem contains_map (f : α → β) (t : Table κ α) (k : κ) :
    (t.map f).contains k = t.contains k := by
  rw [contains, contains, get?_map, Option.isSome_map]

variable [Std.TransOrd κ] [Std.LawfulEqOrd κ]

theorem map_insert (f : α → β) (t : Table κ α) (k : κ) (a : α) :
    (t.insert k a).map f = (t.map f).insert k (f a) := by
  ext j : 1
  rw [get?_map, get?_insert, get?_insert, get?_map]
  split <;> rfl

theorem map_erase (f : α → β) (t : Table κ α) (k : κ) : (t.erase k).map f = (t.map f).erase k := by
  ext j : 1
  rw [get?_map, get?_erase, get?_erase, get?_map]
  split <;> rfl

end Rows

end Table

theorem mapM_map_eq_some {α β : Type} {f : α → β} {g : β → Option α} {l : List α}
    (h : ∀ a ∈ l, g (f a) = some a) : (l.map f).mapM g = some l := by
  induction l with
  | nil => rfl
  | cons a l ih =>
    rw [List.map_cons, List.mapM_cons, h a (by simp), ih fun b hb => h b (List.mem_cons_of_mem a hb)]
    rfl

/-! The two halves of a durable sweep, nothing being written in between. -/

section Sweep

variable {rows : Table Bytes Bytes} {now : Instant} {age : UInt64}

/-- What is looked at again is still there and still to go. -/
theorem filterMap_sweepCandidates : ((sweepCandidates rows now age).filterMap fun k =>
    (rows.get? k).bind fun row => if Row.isCollectable row now age then some (k, row) else none) =
      (rows.filter fun _ row => Row.isCollectable row now age).rows := by
  have hself : ∀ r ∈ (rows.filter fun _ row => Row.isCollectable row now age).rows,
      ((rows.get? r.1).bind fun row =>
        if Row.isCollectable row now age then some (r.1, row) else none) = some r := by
    intro r hr
    obtain ⟨hmem, hc⟩ := List.mem_filter.mp hr
    rw [Table.get?_eq_some_iff.mpr hmem, Option.bind_some, if_pos hc]
  rw [sweepCandidates, Table.keys, List.filterMap_map]
  exact (List.filterMap_congr hself).trans List.filterMap_some

theorem removeCandidates_sweepCandidates :
    removeCandidates (sweepCandidates rows now age) now age rows =
      (⟨(rows.filter fun _ row => Row.isCollectable row now age).size,
        (rows.filter fun _ row => Row.isCollectable row now age).values.countP
          fun row => (Row.decode row).isNone⟩,
        rows.filter fun _ row => !Row.isCollectable row now age) := by
  apply Prod.ext
  · rw [removeCandidates, filterMap_sweepCandidates, Table.values, List.countP_map]
    rfl
  · ext k : 1
    rw [Medium.get?_sweep_durable, Table.get?_filter]

end Sweep

/-- Every entry stands under its own key and can be noted in a row. -/
def Keyed (entries : Table Bytes Entry) : Prop := ∀ k, ∀ e ∈ entries.get? k, e.key = k ∧ e.Fits

section Keyed

variable {entries : Table Bytes Entry} {e : Entry}

theorem Keyed.empty : Keyed .empty := fun k e he => by simp at he

theorem Keyed.insert (h : Keyed entries) (hf : e.Fits) : Keyed (entries.insert e.key e) := by
  intro k x hx
  rw [Table.get?_insert] at hx
  split at hx
  · cases hx
    exact ⟨by assumption, hf⟩
  · exact h k x hx

theorem Keyed.filter (h : Keyed entries) (p : Bytes → Entry → Bool) : Keyed (entries.filter p) := by
  intro k x hx
  rw [Table.get?_filter] at hx
  exact h k x (Option.filter_eq_some_iff.mp hx).1

theorem Keyed.decode_encode (h : Keyed entries) {k : Bytes} (he : entries.get? k = some e) :
    Row.decode (Row.encode e) = some e := Row.decode_encode (h k e he).2

theorem Keyed.decode_encode_of_mem (h : Keyed entries) (he : e ∈ entries.values) :
    Row.decode (Row.encode e) = some e := by
  obtain ⟨r, hr, rfl⟩ := List.mem_map.mp he
  exact h.decode_encode (Table.get?_eq_some_iff.mpr hr)

theorem Keyed.get?_rows (h : Keyed entries) (k : Bytes) :
    (Medium.durable (entries.map Row.encode)).get? k = .ok (entries.get? k) := by
  rw [Medium.get?, Table.get?_map]
  cases he : entries.get? k with
  | none => rfl
  | some e => simp only [Option.map_some, h.decode_encode he]

theorem Keyed.mapM_decode (h : Keyed entries) :
    (entries.map Row.encode).values.mapM Row.decode = some entries.values := by
  rw [Table.values_map]
  exact mapM_map_eq_some fun e he => h.decode_encode_of_mem he

theorem Keyed.all_rows (h : Keyed entries) :
    (Medium.durable (entries.map Row.encode)).all = .ok entries.values := by
  simp only [Medium.all, h.mapM_decode]

/-- A row may go when its entry may. -/
theorem Keyed.filter_isCollectable (h : Keyed entries) (now : Instant) (age : UInt64)
    (p : Bool → Bool) :
    ((entries.map Row.encode).filter fun _ row => p (Row.isCollectable row now age)) =
      (entries.filter fun _ e => p (e.isCollectable now age)).map Row.encode := by
  ext k : 1
  rw [Table.get?_filter, Table.get?_map, Table.get?_map, Table.get?_filter]
  cases he : entries.get? k with
  | none => rfl
  | some e =>
    rw [Option.map_some, Option.filter_some, Option.filter_some,
      Row.isCollectable_eq (h.decode_encode he)]
    split <;> rfl

theorem Keyed.sweep_rows (h : Keyed entries) (now : Instant) (age : UInt64) :
    (Medium.durable (entries.map Row.encode)).sweep now age =
      (⟨(entries.filter fun _ e => e.isCollectable now age).size, 0⟩,
        .durable ((entries.filter fun _ e => !e.isCollectable now age).map Row.encode)) := by
  have hgone := h.filter_isCollectable now age id
  have hkept := h.filter_isCollectable now age (!·)
  simp only [id] at hgone
  have hreadable : ((entries.filter fun _ e => e.isCollectable now age).map Row.encode).values.countP
      (fun row => (Row.decode row).isNone) = 0 := by
    rw [Table.values_map, List.countP_eq_zero]
    intro row hrow
    obtain ⟨e, he, rfl⟩ := List.mem_map.mp hrow
    simp [(h.filter _).decode_encode_of_mem he]
  simp only [Medium.sweep, removeCandidates_sweepCandidates, hgone, hkept, hreadable, Table.size_map]

end Keyed

namespace Engine

/-- What is asked of an engine. -/
inductive Request
  | put (e : Entry)
  | get (k : Bytes)
  | getAll
  | delete (k : Bytes)
  | removeExpired (now : Instant) (tombstoneMaxAge : UInt64)
  /-- It is closed and opened again. -/
  | reopen

inductive Answer
  | stored (result : Except Failure Unit)
  | found (result : Except Failure (Option Entry))
  | listed (result : Except Failure (List Entry))
  | deleted (result : Except Failure Bool)
  | swept (result : Except Failure Swept)

namespace Request

def isReopen : Request → Bool
  | reopen => true
  | _ => false

def Fits : Request → Prop
  | put e => e.Fits
  | _ => True

instance (q : Request) : Decidable q.Fits :=
  match q with
  | put e => inferInstanceAs (Decidable e.Fits)
  | get _ | getAll | delete _ | removeExpired .. | reopen => .isTrue trivial

/-- The table of entries that it leaves. -/
def leaves (entries : Table Bytes Entry) : Request → Table Bytes Entry
  | put e => entries.insert e.key e
  | delete k => entries.erase k
  | removeExpired now age => entries.filter fun _ e => !e.isCollectable now age
  | get _ | getAll | reopen => entries

/-- What a table of entries has to answer. -/
def answer? (entries : Table Bytes Entry) : Request → Option Answer
  | put _ => some (.stored (.ok ()))
  | get k => some (.found (.ok (entries.get? k)))
  | getAll => some (.listed (.ok entries.values))
  | delete k => some (.deleted (.ok (entries.contains k)))
  | removeExpired now age =>
    some (.swept (.ok ⟨(entries.filter fun _ e => e.isCollectable now age).size, 0⟩))
  | reopen => none

theorem keyed_leaves {entries : Table Bytes Entry} {q : Request} (h : Keyed entries) (hq : q.Fits) :
    Keyed (q.leaves entries) := by
  cases q with
  | put e => exact h.insert hq
  | delete k => exact h.filter _
  | removeExpired now age => exact h.filter _
  | _ => exact h

end Request

/-- The answer, if one is due, and the engine then. -/
def serve (n : Engine) : Request → Option Answer × Engine
  | .put e => let r := (put e).run.run n; (some (.stored r.1), r.2)
  | .get k => let r := (get k).run.run n; (some (.found r.1), r.2)
  | .getAll => let r := getAll.run.run n; (some (.listed r.1), r.2)
  | .delete k => let r := (delete k).run.run n; (some (.deleted r.1), r.2)
  | .removeExpired now age => let r := (removeExpired now age).run.run n; (some (.swept r.1), r.2)
  | .reopen => (none, { medium := n.medium.reopened })

def answers (n : Engine) : List Request → List Answer
  | [] => []
  | q :: qs => (n.serve q).1.toList ++ answers (n.serve q).2 qs

def after (n : Engine) (qs : List Request) : Engine := qs.foldl (fun n q => (n.serve q).2) n

/-- An engine that keeps these entries in memory. -/
def inMemory (entries : Table Bytes Entry) : Engine := { medium := .volatile entries }

/-- An engine that notes these entries in rows. -/
def onDisk (entries : Table Bytes Entry) : Engine := { medium := .durable (entries.map Row.encode) }

variable {entries : Table Bytes Entry} {q : Request} {qs : List Request}

theorem serve_inMemory (hq : q.isReopen = false) :
    (inMemory entries).serve q = (q.answer? entries, inMemory (q.leaves entries)) := by
  cases q with
  | removeExpired now age =>
    have hsize := entries.size_filter_add fun _ e => e.isCollectable now age
    have hremoved : entries.size - (entries.filter fun _ e => !e.isCollectable now age).size =
        (entries.filter fun _ e => e.isCollectable now age).size := by omega
    rw [Request.answer?, ← hremoved]
    rfl
  | reopen => contradiction
  | _ => rfl

theorem serve_onDisk (h : Keyed entries) :
    (onDisk entries).serve q = (q.answer? entries, onDisk (q.leaves entries)) := by
  cases q with
  | put e =>
    rw [Request.leaves, onDisk, onDisk, Table.map_insert]
    rfl
  | get k =>
    rw [Request.answer?, ← h.get?_rows]
    rfl
  | getAll =>
    rw [Request.answer?, ← h.all_rows]
    rfl
  | delete k =>
    rw [Request.answer?, Request.leaves, ← Table.contains_map Row.encode, onDisk, onDisk,
      Table.map_erase]
    rfl
  | removeExpired now age =>
    change (some (Answer.swept (.ok ((Medium.durable (entries.map Row.encode)).sweep now age).1)),
      { medium := ((Medium.durable (entries.map Row.encode)).sweep now age).2 : Engine }) = _
    rw [h.sweep_rows]
    rfl
  | reopen => rfl

theorem answers_onDisk (h : Keyed entries) (hqs : ∀ q ∈ qs, q.Fits) :
    (onDisk entries).answers qs = (inMemory entries).answers (qs.filter (!·.isReopen)) := by
  induction qs generalizing entries with
  | nil => rfl
  | cons q qs ih =>
    have ih' := ih (Request.keyed_leaves h (hqs q (by simp))) fun q' hq' =>
      hqs q' (List.mem_cons_of_mem q hq')
    rw [answers, serve_onDisk h]
    cases hq : q.isReopen with
    -- nothing is asked in memory meanwhile, and nothing is answered here
    | true =>
      cases q with
      | reopen => exact ih'
      | _ => contradiction
    | false =>
      rw [List.filter_cons_of_pos (by simp [hq]), answers, serve_inMemory hq, ih']

/-- The table of entries after all that was asked. -/
def table (entries : Table Bytes Entry) (qs : List Request) : Table Bytes Entry :=
  qs.foldl (fun entries q => q.leaves entries) entries

theorem table_filter : table entries (qs.filter (!·.isReopen)) = table entries qs := by
  induction qs generalizing entries with
  | nil => rfl
  | cons q qs ih => cases q <;> exact ih

theorem keyed_table (h : Keyed entries) (hqs : ∀ q ∈ qs, q.Fits) : Keyed (table entries qs) := by
  induction qs generalizing entries with
  | nil => exact h
  | cons q qs ih =>
    exact ih (Request.keyed_leaves h (hqs q (by simp))) fun q' hq' =>
      hqs q' (List.mem_cons_of_mem q hq')

theorem after_inMemory (hqs : ∀ q ∈ qs, q.isReopen = false) :
    (inMemory entries).after qs = inMemory (table entries qs) := by
  induction qs generalizing entries with
  | nil => rfl
  | cons q qs ih =>
    rw [after, List.foldl_cons, serve_inMemory (hqs q (by simp))]
    exact ih fun q' hq' => hqs q' (List.mem_cons_of_mem q hq')

theorem after_onDisk (h : Keyed entries) (hqs : ∀ q ∈ qs, q.Fits) :
    (onDisk entries).after qs = onDisk (table entries qs) := by
  induction qs generalizing entries with
  | nil => rfl
  | cons q qs ih =>
    rw [after, List.foldl_cons, serve_onDisk h]
    exact ih (Request.keyed_leaves h (hqs q (by simp))) fun q' hq' =>
      hqs q' (List.mem_cons_of_mem q hq')

/-- Begun empty, an engine on disk that is closed and opened again at any points answers like itself
without that, and like one in memory; each of the two has one row for a key, under the key of its
entry. -/
theorem answers_alike (hqs : ∀ q ∈ qs, q.Fits) :
    let calls := qs.filter (!·.isReopen)
    let memory : Engine := { medium := .fresh false }
    let disk : Engine := { medium := .fresh true }
    disk.answers qs = memory.answers calls ∧ disk.answers qs = disk.answers calls ∧
    disk.after qs = disk.after calls ∧
    ∃ entries rows, memory.after calls = { medium := .volatile entries } ∧
      disk.after qs = { medium := .durable rows } ∧ entries.keys.Nodup ∧ rows.keys = entries.keys ∧
      ∀ k, ∀ e ∈ entries.get? k, e.key = k ∧ ∃ row ∈ rows.get? k, Row.decode row = some e := by
  intro calls memory disk
  have hcalls : ∀ q ∈ calls, q.Fits ∧ q.isReopen = false := by
    intro q hq
    obtain ⟨hmem, hopen⟩ := List.mem_filter.mp hq
    exact ⟨hqs q hmem, by simpa using hopen⟩
  have hmemory : memory = inMemory .empty := rfl
  have hdisk : disk = onDisk .empty := rfl
  have hempty : Keyed .empty := Keyed.empty
  have hkeyed := keyed_table hempty hqs
  have hself : calls.filter (!·.isReopen) = calls :=
    List.filter_eq_self.mpr fun q hq => by simp [(hcalls q hq).2]
  refine ⟨?_, ?_, ?_, table .empty qs, (table .empty qs).map Row.encode, ?_, ?_, Table.nodup_keys _,
    Table.keys_map _ _, ?_⟩
  · rw [hdisk, hmemory]
    exact answers_onDisk hempty hqs
  · rw [hdisk, answers_onDisk hempty hqs, answers_onDisk hempty fun q hq => (hcalls q hq).1, hself]
  · rw [hdisk, after_onDisk hempty hqs, after_onDisk hempty fun q hq => (hcalls q hq).1, table_filter]
  · rw [hmemory, after_inMemory fun q hq => (hcalls q hq).2, table_filter]
    rfl
  · rw [hdisk, after_onDisk hempty hqs]
    rfl
  · intro k e he
    refine ⟨(hkeyed k e he).1, Row.encode e, ?_, hkeyed.decode_encode he⟩
    rw [Table.get?_map, he]
    rfl

/-- A value that is read after the engine has been closed, and a tombstone that a sweep takes. -/
def session : List Request := [
  .put { key := [107], value := some [49], version := 5, origin := "a", timestamp := 5,
         maxAge := some 300 },
  .reopen,
  .getAll,
  .put { key := [107], value := none, version := 6, origin := "a", timestamp := 6, maxAge := none },
  .get [107],
  .removeExpired 100 50,
  .reopen,
  .delete [107]]

theorem answers_alike_session : (∀ q ∈ session, q.Fits) ∧
    ({ medium := .fresh true } : Engine).answers session =
      ({ medium := .fresh false } : Engine).answers (session.filter (!·.isReopen)) := by
  have hfits : ∀ q ∈ session, q.Fits := by decide
  exact ⟨hfits, (answers_alike hfits).1⟩

end Engine

end ServiceDirectory
