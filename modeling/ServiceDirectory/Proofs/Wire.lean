import ServiceDirectory.Proofs.Engine
import ServiceDirectory.Proofs.Interruption

namespace ServiceDirectory

/-! Entries as they arrive over the wire. -/

/-- No lifetime in place of one of zero. -/
def unzero (ms : Option UInt64) : Option UInt64 := if ms = some 0 then none else ms

/-- Zero is the least lifetime there is, so that it can be left out without passing another. -/
theorem compare_unzero {a b : Option UInt64} (h : unzero a ≠ unzero b) :
    Ord.compare (unzero a) (unzero b) = Ord.compare a b := by
  have hpos {v : UInt64} (hv : some v ≠ some 0) : Ord.compare 0 v = .lt := by
    rw [Std.compare_eq_lt, UInt64.lt_iff_toNat_lt, UInt64.toNat_zero]
    exact Nat.pos_of_ne_zero fun h0 => hv (congrArg some (UInt64.toNat_inj.mp h0))
  unfold unzero at *
  by_cases ha : a = some 0
  · by_cases hb : b = some 0
    · simp [ha, hb] at h
    · rw [if_pos ha, if_neg hb, ha] at *
      cases b with
      | none => exact absurd rfl h
      | some v => exact (hpos hb).symm
  · by_cases hb : b = some 0
    · rw [if_neg ha, if_pos hb, hb] at *
      cases a with
      | none => exact absurd rfl h
      | some v => exact (Std.OrientedCmp.gt_iff_lt.mpr (hpos ha)).symm
    · rw [if_neg ha, if_neg hb]

namespace Entry

variable {a b e : Entry} {now : Instant}

def unzeroed (e : Entry) : Entry := { e with maxAge := unzero e.maxAge }

theorem toEntry_toWire (e : Entry) : e.toWire.toEntry = e.unzeroed := by
  obtain ⟨key, value, version, origin, timestamp, maxAge⟩ := e
  cases maxAge with
  | none => rfl
  | some v =>
    by_cases hv : v = 0
    · rw [hv]
      rfl
    · simp [toWire, WireEntry.toEntry, unzeroed, unzero, hv]

theorem unzeroed_unzeroed (e : Entry) : e.unzeroed.unzeroed = e.unzeroed := by
  have hu : unzero (unzero e.maxAge) = unzero e.maxAge := by
    unfold unzero
    split_ifs <;> simp_all
  simp only [unzeroed, hu]

theorem flaw?_unzeroed (e : Entry) : e.unzeroed.flaw? = e.flaw? := rfl

theorem expiresAt_unzeroed (e : Entry) : e.unzeroed.expiresAt = e.expiresAt := by
  have hu : (unzero e.maxAge).filter (0 < ·) = e.maxAge.filter (0 < ·) := by
    unfold unzero
    split_ifs with h
    · rw [h]
      rfl
    · rfl
  change ((unzero e.maxAge).filter (0 < ·)).map e.timestamp.after = _
  rw [hu]
  rfl

theorem isExpired_unzeroed (e : Entry) (now : Instant) :
    e.unzeroed.isExpired now = e.isExpired now := by
  rw [isExpired, expiresAt_unzeroed]
  rfl

theorem isCollectable_unzeroed (e : Entry) (now : Instant) (age : UInt64) :
    e.unzeroed.isCollectable now age = e.isCollectable now age := by
  rw [isCollectable, isExpired_unzeroed]
  rfl

theorem isAdmitted_unzeroed (e : Entry) (now : Instant) :
    e.unzeroed.isAdmitted now = e.isAdmitted now := by
  rw [isAdmitted, isExpired_unzeroed]
  rfl

/-- All but the lifetime. -/
def ageless (e : Entry) : Entry := { e with maxAge := none }

/-- The lifetime decides last. -/
theorem compare_eq_then (a b : Entry) :
    a.compare b = (a.ageless.compare b.ageless).then (Ord.compare a.maxAge b.maxAge) := by
  have hc : a.ageless.compare b.ageless =
      if a.origin = b.origin ∧ a.version ≠ b.version then Ord.compare a.version b.version
      else byTime a.ageless b.ageless := rfl
  rw [compare_eq, hc]
  split
  · rename_i hne
    cases h : Ord.compare a.version b.version with
    | eq => exact absurd (Std.LawfulEqOrd.compare_eq_iff_eq.mp h) hne.2
    | lt => rfl
    | gt => rfl
  · simp only [byTime, compareLex, compareOn, ageless, isTombstone, Std.ReflCmp.compare_self,
      Ordering.then_eq, Ordering.then_assoc]

theorem compare_unzeroed (hk : a.key = b.key) (h : a.unzeroed ≠ b.unzeroed) :
    a.unzeroed.compare b.unzeroed = a.compare b := by
  rw [compare_eq_then, compare_eq_then a b]
  change (a.ageless.compare b.ageless).then (Ord.compare (unzero a.maxAge) (unzero b.maxAge)) = _
  cases hc : a.ageless.compare b.ageless with
  | lt => rfl
  | gt => rfl
  | eq =>
    have hab : a.ageless = b.ageless := eq_of_compare_eq hk hc
    have hm : unzero a.maxAge ≠ unzero b.maxAge := by
      intro hm
      apply h
      calc a.unzeroed = { a.ageless with maxAge := unzero a.maxAge } := rfl
        _ = { b.ageless with maxAge := unzero b.maxAge } := by rw [hab, hm]
    rw [compare_unzero hm]

/-- Of two copies of one key the same one wins, unless they have become one. -/
theorem winner_unzeroed (hk : a.key = b.key) :
    (winner a b).unzeroed = winner a.unzeroed b.unzeroed := by
  by_cases h : a.unzeroed = b.unzeroed
  · rw [winner_eq, winner_eq, ← h]
    split_ifs
    · exact h.symm
    · exact h.symm
    · rfl
    · rfl
  · have hc := compare_unzeroed hk h
    unfold winner
    rw [hc]
    cases a.compare b <;> rfl

theorem resolve_unzeroed {held : Option Entry} (hk : ∀ x ∈ held, x.key = e.key) :
    (resolve held e).unzeroed = resolve (held.map unzeroed) e.unzeroed := by
  cases held with
  | none => rfl
  | some x => exact winner_unzeroed (hk x rfl)

end Entry

namespace Medium

variable {m m' : Medium} {e : Entry} {k : Bytes}

/-- The rows with no lifetime of zero in them. One that cannot be read stays as it is. -/
def unzeroed : Medium → Table Bytes (Except Bytes Entry)
  | volatile entries => entries.map fun e => .ok e.unzeroed
  | durable rows => rows.map fun row =>
    match Row.decode row with
    | none => .error row
    | some e => .ok e.unzeroed

/-- What a look at such a row finds. -/
def look : Option (Except Bytes Entry) → Except Failure (Option Entry)
  | none => .ok none
  | some (.ok e) => .ok (some e)
  | some (.error _) => .error .undecodableRow

/-- A lifetime takes the same room whatever it is. -/
theorem takes_unzeroed : m.Takes e.unzeroed ↔ m.Takes e := by
  cases m with
  | volatile entries => exact Iff.rfl
  | durable rows => exact ⟨fun h => ⟨h.key, h.value, h.origin⟩, fun h => ⟨h.key, h.value, h.origin⟩⟩

theorem look_unzeroed (m : Medium) (k : Bytes) :
    look (m.unzeroed.get? k) = (m.get? k).map (·.map Entry.unzeroed) := by
  cases m with
  | volatile entries =>
    rw [unzeroed, Table.get?_map, get?]
    cases entries.get? k <;> rfl
  | durable rows =>
    rw [unzeroed, Table.get?_map, get?]
    cases rows.get? k with
    | none => rfl
    | some row =>
      dsimp only [Option.map_some]
      cases Row.decode row <;> rfl

theorem get?_unzeroed_of_held (h : m.held k = some e) :
    m.unzeroed.get? k = some (.ok e.unzeroed) := by
  cases m with
  | volatile entries =>
    rw [held_volatile] at h
    rw [unzeroed, Table.get?_map, h]
    rfl
  | durable rows =>
    rw [held_durable] at h
    obtain ⟨row, hrow, hd⟩ := Option.bind_eq_some_iff.mp h
    rw [unzeroed, Table.get?_map, hrow, Option.map_some, hd]

theorem unzeroed_put (ht : m.Takes e) :
    (m.put e).unzeroed = m.unzeroed.insert e.key (.ok e.unzeroed) := by
  cases m with
  | volatile entries =>
    rw [put, unzeroed, Table.map_insert]
    rfl
  | durable rows =>
    rw [put, unzeroed, Table.map_insert, Row.decode_encode ht]
    rfl

theorem insert_unzeroed_of_held (h : m.held k = some e) :
    m.unzeroed.insert k (.ok e.unzeroed) = m.unzeroed := by
  ext j : 1
  rw [Table.get?_insert]
  split
  · rename_i hkj
    rw [← hkj, get?_unzeroed_of_held h]
  · rfl

/-- Two stores with the same such rows fail to read the same ones, and read the others alike. -/
theorem map_get?_of_unzeroed_eq (h : m'.unzeroed = m.unzeroed) (k : Bytes) :
    (m'.get? k).map (·.map Entry.unzeroed) = (m.get? k).map (·.map Entry.unzeroed) := by
  rw [← look_unzeroed, ← look_unzeroed, h]

theorem map_held_of_unzeroed_eq (h : m'.unzeroed = m.unzeroed) (k : Bytes) :
    (m'.held k).map Entry.unzeroed = (m.held k).map Entry.unzeroed := by
  have hg := map_get?_of_unzeroed_eq h k
  rw [held, held]
  cases hx : m'.get? k <;> cases hy : m.get? k <;> simp_all [Except.map, Except.toOption]

end Medium

namespace Replica

variable {r r' s s' : Replica} {now : Instant} {e : Entry} {batch : List Entry} {v : Verdict}

/-- No fault is due, and every row that can be read stands under the key of its entry. -/
structure Filed (r : Replica) : Prop where
  faults : r.engine.faults = []
  key_of_held {k : Bytes} {e : Entry} : r.held k = some e → e.key = k

/-- Two stores that differ in lifetimes of zero only. -/
structure Coincide (r s : Replica) : Prop where
  rows : s.engine.medium.unzeroed = r.engine.medium.unzeroed
  faults : s.engine.faults = r.engine.faults
  rest : { s with engine := r.engine } = r
  takes (e : Entry) : s.Takes e ↔ r.Takes e

namespace Weighed

/-- What is admitted leaves the greater of itself and what was held. -/
theorem unzeroed (h : Weighed now e r v r') (ht : r.Takes e) :
    r'.engine.medium.unzeroed = if e.isAdmitted now then
      r.engine.medium.unzeroed.insert e.key (.ok (Entry.resolve (r.held e.key) e).unzeroed)
    else r.engine.medium.unzeroed := by
  cases h with
  | malformed hf =>
    have ha : ¬ e.isAdmitted now := by simp [Entry.isAdmitted, hf]
    rw [if_neg ha]
    rfl
  | late hf ha => rw [if_neg ha]
  | beaten ha hr hw => rw [if_pos ha, Medium.insert_unzeroed_of_held hw]
  | won ha hr hw =>
    have hwe : e = Entry.resolve (r.held e.key) e :=
      (Entry.resolve_eq (r.held e.key) e).resolve_left hw
    rw [if_pos ha, ← hwe]
    exact Medium.unzeroed_put ht

/-- Beside the rows nothing changes but that a flaw is reported. -/
theorem rest (h : Weighed now e r v r') :
    { r' with engine := r.engine } = r.emitAll (e.flaw?.toList.map (.malformedEntry r.name)) := by
  have hnone (hf : e.flaw? = none) : r = r.emitAll (e.flaw?.toList.map (.malformedEntry r.name)) := by
    simp [emitAll, hf]
  have hadmitted (ha : e.isAdmitted now) : e.flaw? = none := by
    simp only [Entry.isAdmitted, Bool.and_eq_true, Option.isNone_iff_eq_none] at ha
    exact ha.1
  cases h with
  | malformed hf =>
    rw [hf]
    rfl
  | late hf ha => exact hnone hf
  | beaten ha hr hw => exact hnone (hadmitted ha)
  | won ha hr hw => exact hnone (hadmitted ha)

theorem filed (h : Weighed now e r v r') (ht : r.Takes e) (hr : r.Filed) : r'.Filed where
  faults := h.faults.trans hr.faults
  key_of_held {k x} hx := by
    rw [h.held ht] at hx
    split at hx
    · rename_i hk
      rcases Entry.resolve_eq (r.held k) e with hres | hres
      · exact hr.key_of_held (hres.trans hx)
      · rw [← Option.some.inj hx, ← hres, hk.1]
    · exact hr.key_of_held hx

end Weighed

namespace Coincide

theorem refl (r : Replica) : Coincide r r := ⟨rfl, rfl, rfl, fun _ => Iff.rfl⟩

theorem map_held (h : Coincide r s) (k : Bytes) :
    (s.held k).map Entry.unzeroed = (r.held k).map Entry.unzeroed :=
  Medium.map_held_of_unzeroed_eq h.rows k

theorem name_eq (h : Coincide r s) : s.name = r.name := congrArg (·.name) h.rest

theorem filed (h : Coincide r s) (hr : r.Filed) : s.Filed where
  faults := h.faults.trans hr.faults
  key_of_held {k x} hx := by
    have hm := h.map_held k
    rw [hx, Option.map_some] at hm
    obtain ⟨y, hy, hyx⟩ := Option.map_eq_some_iff.mp hm.symm
    calc x.key = x.unzeroed.key := rfl
      _ = y.unzeroed.key := by rw [hyx]
      _ = y.key := rfl
      _ = k := hr.key_of_held hy

theorem get?_cases (h : Coincide r s) (k : Bytes) : r.Readable k ∧ s.Readable k ∨
    ∃ f, r.engine.medium.get? k = .error f ∧ s.engine.medium.get? k = .error f := by
  have hg := Medium.map_get?_of_unzeroed_eq h.rows k
  rcases r.readable_or_error k with hr | ⟨f, hf⟩
  · rcases s.readable_or_error k with hs | ⟨f, hf⟩
    · exact .inl ⟨hr, hs⟩
    · rw [hr, hf] at hg
      contradiction
  · rw [hf] at hg
    cases hs : s.engine.medium.get? k with
    | ok x =>
      rw [hs] at hg
      contradiction
    | error f' =>
      rw [hs] at hg
      cases hg
      exact .inr ⟨f, hf, rfl⟩

/-- An entry and its copy without a lifetime of zero come to the same. -/
theorem weighed {v' : Verdict} (h : Coincide r s) (hr : r.Filed) (ht : r.Takes e)
    (hw : Weighed now e r v r') (hw' : Weighed now e.unzeroed s v' s') : Coincide r' s' where
  rows := by
    have hkr : ∀ x ∈ r.held e.key, x.key = e.key := fun x hx => hr.key_of_held hx
    have hks : ∀ x ∈ s.held e.key, x.key = e.unzeroed.key := fun x hx => (h.filed hr).key_of_held hx
    have hwin : (Entry.resolve (s.held e.key) e.unzeroed).unzeroed =
        (Entry.resolve (r.held e.key) e).unzeroed := by
      rw [Entry.resolve_unzeroed hks, Entry.resolve_unzeroed hkr, h.map_held, Entry.unzeroed_unzeroed]
    have ht' : s.Takes e.unzeroed := (h.takes e.unzeroed).mpr (Medium.takes_unzeroed.mpr ht)
    rw [hw'.unzeroed ht', hw.unzeroed ht, Entry.isAdmitted_unzeroed, h.rows]
    change (if _ then r.engine.medium.unzeroed.insert e.key
      (.ok (Entry.resolve (s.held e.key) e.unzeroed).unzeroed) else _) = _
    rw [hwin]
  faults := hw'.faults.trans (h.faults.trans hw.faults.symm)
  rest := by
    have hrest := congrArg (fun x : Replica => { x with engine := r'.engine }) hw.rest
    have hrest' := congrArg (fun x : Replica => { x with engine := r'.engine }) hw'.rest
    have hs := congrArg (fun x : Replica => { x.emitAll
      (e.flaw?.toList.map (.malformedEntry r.name)) with engine := r'.engine }) h.rest
    rw [h.name_eq, Entry.flaw?_unzeroed] at hrest'
    exact hrest'.trans (hs.trans hrest.symm)
  takes x := (hw'.frame.takes x).trans ((h.takes x).trans (hw.frame.takes x).symm)

/-- Either both fail to read what is held, or both weigh their entry. -/
theorem mergeEntry (h : Coincide r s) (hr : r.Filed) (ht : r.Takes e) (now : Instant) :
    (∃ f r' s', (Replica.mergeEntry now e).run.run r = (.error f, r') ∧
      (Replica.mergeEntry now e.unzeroed).run.run s = (.error f, s') ∧ Coincide r' s') ∨
    ∃ v v' r' s', (Replica.mergeEntry now e).run.run r = (.ok v, r') ∧
      (Replica.mergeEntry now e.unzeroed).run.run s = (.ok v', s') ∧ Weighed now e r v r' ∧
      Coincide r' s' := by
  have hs := h.filed hr
  by_cases ha : e.isAdmitted now
  · rcases h.get?_cases e.key with ⟨hkr, hks⟩ | ⟨f, hfr, hfs⟩
    · obtain ⟨v, r', hrun, hw⟩ := exists_weighed now hr.faults fun _ => hkr
      obtain ⟨v', s', hrun', hw'⟩ := exists_weighed (e := e.unzeroed) now hs.faults fun _ => hks
      exact .inr ⟨v, v', r', s', hrun, hrun', hw, h.weighed hr ht hw hw'⟩
    · have ha' : e.unzeroed.isAdmitted now := (Entry.isAdmitted_unzeroed e now).trans ha
      have hget : (onEngine (Engine.get e.key)).run.run r = (.error f, r) := by
        rw [Engine.get, run_onEngine hr.faults, hfr]
      have hget' : (onEngine (Engine.get e.unzeroed.key)).run.run s = (.error f, s) := by
        rw [Engine.get, run_onEngine hs.faults]
        exact congrArg (·, s) hfs
      rw [mergeEntry_of_isAdmitted ha, mergeEntry_of_isAdmitted ha', run_bind_error hget,
        run_bind_error hget']
      exact .inl ⟨f, r, s, rfl, rfl, h⟩
  · have ha' : ¬ e.unzeroed.isAdmitted now := fun ha' => ha (Entry.isAdmitted_unzeroed e now ▸ ha')
    obtain ⟨v, r', hrun, hw⟩ := weighed_of_not_isAdmitted ha r
    obtain ⟨v', s', hrun', hw'⟩ := weighed_of_not_isAdmitted ha' s
    exact .inr ⟨v, v', r', s', hrun, hrun', hw, h.weighed hr ht hw hw'⟩

theorem mergeFrom (h : Coincide r s) (hr : r.Filed) (ht : ∀ e ∈ batch, r.Takes e) (now : Instant)
    (o o' : MergeOutcome) : ∃ x y r' s', (Replica.mergeFrom now o batch).run.run r = (x, r') ∧
      (Replica.mergeFrom now o' (batch.map Entry.unzeroed)).run.run s = (y, s') ∧
      y.map (fun _ => ()) = x.map (fun _ => ()) ∧ Coincide r' s' := by
  induction batch generalizing r s o o' with
  | nil => exact ⟨.ok o, .ok o', r, s, rfl, rfl, rfl, h⟩
  | cons e es ih =>
    have hte := ht e (by simp)
    rw [List.map_cons, Replica.mergeFrom, Replica.mergeFrom]
    rcases h.mergeEntry hr hte now with ⟨f, r₁, s₁, hrun, hrun', h₁⟩ | ⟨v, v', r₁, s₁, hrun, hrun', hw, h₁⟩
    · exact ⟨.error f, .error f, r₁, s₁, run_bind_error hrun, run_bind_error hrun', rfl, h₁⟩
    · rw [run_bind hrun, run_bind hrun']
      have hes : ∀ x ∈ es, r₁.Takes x := fun x hx =>
        (hw.frame.takes x).mpr (ht x (List.mem_cons_of_mem e hx))
      exact ih h₁ (hw.filed hte hr) hes (o.count v) (o'.count v')

end Coincide

end Replica

/-- How many entries were well-formed, and how many were not. -/
def MergeOutcome.tally (o : MergeOutcome) : Nat × Nat := (o.applied + o.ignored, o.rejected)

namespace Replica

variable {r s : Replica} {now : Instant} {batch : List Entry}

theorem Folded.tally {r' : Replica} {o : MergeOutcome} (h : Folded now batch r o r') :
    o.tally = (batch.length - batch.countP (·.flaw?.isSome), batch.countP (·.flaw?.isSome)) := by
  have hr := h.rejected
  have ht := h.total
  unfold MergeOutcome.total at ht
  apply Prod.ext
  · change o.applied + o.ignored = _
    omega
  · exact hr

theorem takes_map_unzeroed (ht : ∀ e ∈ batch, r.Takes e) :
    ∀ e ∈ batch.map Entry.unzeroed, r.Takes e :=
  List.forall_mem_map.mpr fun e he => Medium.takes_unzeroed.mpr (ht e he)

theorem Coincide.merge (h : Coincide r s) (hr : r.Filed) (ht : ∀ e ∈ batch, r.Takes e)
    (now : Instant) : ∃ x y r' s', (merge now batch).run.run r = (x, r') ∧
      (merge now (batch.map Entry.unzeroed)).run.run s = (y, s') ∧
      y.map MergeOutcome.tally = x.map MergeOutcome.tally ∧ Coincide r' s' := by
  obtain ⟨x, y, r', s', hrun, hrun', hxy, h'⟩ := h.mergeFrom hr ht now {} {}
  refine ⟨x, y, r', s', hrun, hrun', ?_, h'⟩
  have hts : ∀ e ∈ batch.map Entry.unzeroed, s.Takes e :=
    takes_map_unzeroed fun e he => (h.takes e).mpr (ht e he)
  cases x with
  | error f =>
    cases y with
    | error f' =>
      cases hxy
      rfl
    | ok o' => contradiction
  | ok o =>
    cases y with
    | error f' => contradiction
    | ok o' =>
      have hflaws : (batch.map Entry.unzeroed).countP (·.flaw?.isSome) =
          batch.countP (·.flaw?.isSome) := List.countP_map
      have ho := (folded_of_run ht hrun).tally
      have ho' := (folded_of_run hts hrun').tally
      rw [hflaws, List.length_map, ← ho] at ho'
      exact congrArg Except.ok ho'

end Replica

/-- What the sender of a batch is told. -/
def MergeOutcome.answer (o : MergeOutcome) : PushAnswer := ⟨.ofNat o.tally.1, .ofNat o.tally.2⟩

theorem MergeOutcome.toNat_answer {o : MergeOutcome} (h : o.total < 2 ^ 32) :
    o.answer.accepted.toNat + o.answer.rejected.toNat = o.total := by
  unfold MergeOutcome.total at *
  change (UInt32.ofNat (o.applied + o.ignored)).toNat + (UInt32.ofNat o.rejected).toNat = _
  rw [UInt32.toNat_ofNat', UInt32.toNat_ofNat']
  omega

namespace Node

variable {n : Node} {name : String} {side : Side} {now : Instant} {batch : List Entry}

theorem receivePush_of_merge {ws : List WireEntry} {x : Except Failure MergeOutcome} {r : Replica}
    (hn : n.sideNamed? name = some side)
    (h : (Replica.merge now (ws.map WireEntry.toEntry)).run.run (n.replica side) = (x, r)) :
    n.receivePush now name ws =
      ((x.map MergeOutcome.answer).mapError Failure.toStatus, n.setReplica side r) := by
  simp only [receivePush, hn, onSide, h]
  cases x <;> rfl

/-- The way over the wire changes an entry in nothing but a lifetime of zero, which is left out, and
neither its flaws nor its end nor its weight against other copies change with that. A push of a batch
therefore comes to what a merge of the batch itself comes to: both fail with the same, or as many
entries are rejected; the rows coincide up to such lifetimes, and all else is equal. -/
theorem receivePush_matches_merge (hn : n.sideNamed? name = some side)
    (hr : (n.replica side).Filed) (ht : ∀ e ∈ batch, (n.replica side).Takes e) (now : Instant) :
    (∀ e : Entry, e.toWire.toEntry = e.unzeroed) ∧
    (∀ held (e : Entry), (∀ x ∈ held, x.key = e.key) →
      (Entry.resolve held e).unzeroed = Entry.resolve (held.map Entry.unzeroed) e.unzeroed) ∧
    (∀ (e : Entry) t age, e.unzeroed.flaw? = e.flaw? ∧ e.unzeroed.isExpired t = e.isExpired t ∧
      e.unzeroed.isCollectable t age = e.isCollectable t age) ∧
    ∃ x y r s, (Replica.merge now batch).run.run (n.replica side) = (x, r) ∧
      (Replica.merge now (batch.map (·.toWire.toEntry))).run.run (n.replica side) = (y, s) ∧
      n.receivePush now name (batch.map Entry.toWire) =
        ((y.map MergeOutcome.answer).mapError Failure.toStatus, n.setReplica side s) ∧
      r.Coincide s ∧ y.map MergeOutcome.tally = x.map MergeOutcome.tally ∧
      ((∀ e ∈ batch, (n.replica side).Readable e.key) → ∃ o, x = .ok o) ∧
      ∀ o, y = .ok o → o.total = batch.length ∧
        (batch.length < 2 ^ 32 → o.answer.accepted.toNat + o.answer.rejected.toNat = batch.length) := by
  have hwire : batch.map (·.toWire.toEntry) = batch.map Entry.unzeroed :=
    List.map_congr_left fun e _ => Entry.toEntry_toWire e
  have hmap : (batch.map Entry.toWire).map WireEntry.toEntry = batch.map (·.toWire.toEntry) :=
    List.map_map
  obtain ⟨x, y, r, s, hrun, hrun', hxy, hrs⟩ := (Replica.Coincide.refl _).merge hr ht now
  have hts := Replica.takes_map_unzeroed ht
  rw [← hwire] at hrun' hts
  refine ⟨Entry.toEntry_toWire, fun held e hk => Entry.resolve_unzeroed hk, fun e t age => ?_,
    x, y, r, s, hrun, hrun', ?_, hrs, hxy, fun hread => ?_, fun o ho => ?_⟩
  · exact ⟨e.flaw?_unzeroed, e.isExpired_unzeroed t, e.isCollectable_unzeroed t age⟩
  · exact receivePush_of_merge hn (hmap ▸ hrun')
  · obtain ⟨o, r', hok⟩ := Replica.exists_run_mergeFrom_of_readable hr.faults ht
      (fun e he (_ : e.isAdmitted now) => hread e he) {}
    exact ⟨o, congrArg Prod.fst (hrun.symm.trans hok)⟩
  · have htotal := (Replica.folded_of_run hts (ho ▸ hrun')).total
    rw [List.length_map] at htotal
    exact ⟨htotal, fun hlt => (MergeOutcome.toNat_answer (htotal ▸ hlt)).trans htotal⟩

/-- An entry that lasts for ever, as a durable store has it. -/
def lasting : Entry where
  key := [107]
  value := some [49]
  version := 1
  origin := "b"
  timestamp := 100
  maxAge := none

/-- A node whose static store holds it. -/
def settled : Node where
  environment := "test"
  dynamicMaxAge := ⟨30000000000⟩
  dynamic := Replica.infant "a"
  static := (Replica.start "static" "a" Config.standard.staticStore (.fresh true)).store lasting

theorem filed_settled : settled.static.Filed := by
  have hs := (Replica.stocked_start "static" "a" Config.standard.staticStore true).store (e := lasting)
    (by decide)
  exact ⟨hs.faults, hs.key_of_held⟩

/-- The same entry with a lifetime of zero, a malformed one, and one of another key. -/
def zeros : List Entry := [{ lasting with maxAge := some 0 }, { lasting with origin := "" },
  { lasting with key := [108], maxAge := some 0 }]

/-- Merged as it is the first replaces what is held; pushed it is what is held. -/
theorem receivePush_matches_merge_zeros : settled.sideNamed? "static" = some .static ∧
    settled.static.Filed ∧ (∀ e ∈ zeros, settled.static.Takes e) ∧
    ∃ x y r s, (Replica.merge 1000 zeros).run.run settled.static = (x, r) ∧ x = .ok ⟨2, 0, 1⟩ ∧
      (Replica.merge 1000 (zeros.map (·.toWire.toEntry))).run.run settled.static = (y, s) ∧
      y = .ok ⟨1, 1, 1⟩ ∧ settled.receivePush 1000 "static" (zeros.map Entry.toWire) =
        (.ok ⟨2, 1⟩, settled.setReplica .static s) ∧
      r.Coincide s ∧ r.held [107] ≠ s.held [107] := by
  have hn : settled.sideNamed? "static" = some .static := by decide
  have ht : ∀ e ∈ zeros, settled.static.Takes e := fun e he =>
    settled.static.takes_of_fits ((by decide : ∀ e ∈ zeros, e.Fits) e he)
  obtain ⟨-, -, -, x, y, r, s, hrun, hrun', hpush, hrs, -⟩ :=
    receivePush_matches_merge hn filed_settled ht 1000
  have hx : ((Replica.merge 1000 zeros).run.run settled.static).1 = .ok ⟨2, 0, 1⟩ := by decide +kernel
  have hy : ((Replica.merge 1000 (zeros.map (·.toWire.toEntry))).run.run settled.static).1 =
      .ok ⟨1, 1, 1⟩ := by decide +kernel
  have hne : ((Replica.merge 1000 zeros).run.run settled.static).2.held [107] ≠
      ((Replica.merge 1000 (zeros.map (·.toWire.toEntry))).run.run settled.static).2.held [107] := by
    decide +kernel
  change (Replica.merge 1000 zeros).run.run settled.static = (x, r) at hrun
  change (Replica.merge 1000 (zeros.map (·.toWire.toEntry))).run.run settled.static = (y, s) at hrun'
  rw [hrun] at hx
  rw [hrun'] at hy
  rw [hrun, hrun'] at hne
  have hy' : y = .ok ⟨1, 1, 1⟩ := hy
  rw [hy'] at hpush
  exact ⟨hn, filed_settled, ht, x, y, r, s, hrun, hx, hrun', hy, hpush, hrs, hne⟩

end Node

end ServiceDirectory
