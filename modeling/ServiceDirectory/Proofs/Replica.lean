import ServiceDirectory.Proofs.Entry
import ServiceDirectory.Proofs.Medium
import ServiceDirectory.Proofs.Settle

namespace ServiceDirectory

theorem run_bind {ε σ α β : Type} {op : ExceptT ε (StateM σ) α} {f : α → ExceptT ε (StateM σ) β}
    {s s' : σ} {a : α} (h : op.run.run s = (.ok a, s')) : (op >>= f).run.run s = (f a).run.run s' := by
  simp only [ExceptT.run_bind, StateT.run_bind, h]
  rfl

theorem run_get {ε σ : Type} (s : σ) : (get : ExceptT ε (StateM σ) σ).run.run s = (.ok s, s) := rfl

theorem run_guarded {α : Type} {call : EngineCall} {work : Medium → Except Failure α × Medium}
    {n : Engine} (h : n.faults = []) : (Engine.guarded call work).run.run n =
      ((work n.medium).1, { n with medium := (work n.medium).2 }) := by
  obtain ⟨medium, faults⟩ := n
  cases h
  rfl

namespace MergeOutcome

variable (o : MergeOutcome) (v : Verdict)

/-- The number of entries that have met a verdict. -/
def total : Nat := o.applied + o.ignored + o.rejected

theorem applied_count : (o.count v).applied = o.applied + if v = .applied then 1 else 0 := by
  cases v <;> rfl

theorem rejected_count : (o.count v).rejected = o.rejected + if v = .rejected then 1 else 0 := by
  cases v <;> rfl

theorem total_count : (o.count v).total = o.total + 1 := by
  cases v <;> simp only [total, count] <;> omega

end MergeOutcome

/-- What a merge weighs at all: a tombstone, or a value that has not expired. -/
def Entry.isAdmitted (e : Entry) (now : Instant) : Bool :=
  e.flaw?.isNone && (e.isTombstone || !e.isExpired now)

theorem Entry.isAdmitted_of_isTombstone {e : Entry} {now : Instant} (hf : e.flaw? = none)
    (ht : e.isTombstone) : e.isAdmitted now := by
  simp [isAdmitted, hf, ht]

/-- One entry more settles a key if it is for that key and admitted. -/
theorem Entry.settle_filter_singleton (held : Option Entry) (e : Entry) (now : Instant) (k : Bytes) :
    settle held ([e].filter fun e => e.key = k ∧ e.isAdmitted now) =
      if e.key = k ∧ e.isAdmitted now then some (resolve held e) else held := by
  rw [List.filter_singleton]
  by_cases hk : e.key = k ∧ e.isAdmitted now
  · rw [if_pos hk, decide_eq_true hk]
    rfl
  · rw [if_neg hk, decide_eq_false hk]
    rfl

/-- A well-formed entry is refused as an expired value only. -/
theorem Entry.isAdmitted_eq_false_iff {e : Entry} {now : Instant} (hf : e.flaw? = none) :
    e.isAdmitted now = false ↔ e.isTombstone = false ∧ e.isExpired now := by
  simp [isAdmitted, hf]

namespace Replica

variable {r r' r'' : Replica} {now : Instant} {key : Bytes} {e : Entry} {batch : List Entry}

def held (r : Replica) (k : Bytes) : Option Entry := r.engine.medium.held k

def Takes (r : Replica) (e : Entry) : Prop := r.engine.medium.Takes e

theorem takes_of_fits (r : Replica) (h : e.Fits) : r.Takes e := by
  unfold Takes
  cases r.engine.medium with
  | volatile entries => trivial
  | durable rows => exact h

/-- No fault is due, and every row can be read. -/
structure Sound (r : Replica) : Prop where
  faults : r.engine.faults = []
  medium : r.engine.medium.Sound

/-- What neither a merge nor a sweep touches. -/
structure Frame (r r' : Replica) : Prop where
  nodeId : r'.nodeId = r.nodeId
  settings : r'.settings = r.settings
  outbox : r'.outbox = r.outbox
  takes (e : Entry) : r'.Takes e ↔ r.Takes e

theorem Frame.refl (r : Replica) : Frame r r := ⟨rfl, rfl, rfl, fun _ => Iff.rfl⟩

theorem Frame.trans (h : Frame r r') (h' : Frame r' r'') : Frame r r'' where
  nodeId := h'.nodeId.trans h.nodeId
  settings := h'.settings.trans h.settings
  outbox := h'.outbox.trans h.outbox
  takes e := (h'.takes e).trans (h.takes e)

theorem Sound.key_of_held (h : r.Sound) (hk : r.held key = some e) : e.key = key :=
  h.medium.key_of_held hk

/-! Storing and queueing. -/

def store (r : Replica) (e : Entry) : Replica :=
  { r with engine := { r.engine with medium := r.engine.medium.put e } }

theorem held_store (ht : r.Takes e) (k : Bytes) :
    (r.store e).held k = if e.key = k then some e else r.held k := Medium.held_put ht k

theorem Sound.store (h : r.Sound) (ht : r.Takes e) : (r.store e).Sound :=
  ⟨h.faults, h.medium.put ht⟩

theorem frame_store (r : Replica) (e : Entry) : Frame r (r.store e) :=
  ⟨rfl, rfl, rfl, fun x => Medium.takes_put x⟩

theorem Sound.emit (h : r.Sound) (ev : Event) : (r.emit ev).Sound := ⟨h.faults, h.medium⟩

theorem frame_emit (r : Replica) (ev : Event) : Frame r (r.emit ev) :=
  ⟨rfl, rfl, rfl, fun _ => Iff.rfl⟩

theorem engine_enqueue (r : Replica) (e : Entry) : (r.enqueue e).engine = r.engine := by
  unfold enqueue
  split_ifs <;> rfl

theorem nodeId_enqueue (r : Replica) (e : Entry) : (r.enqueue e).nodeId = r.nodeId := by
  unfold enqueue
  split_ifs <;> rfl

theorem settings_enqueue (r : Replica) (e : Entry) : (r.enqueue e).settings = r.settings := by
  unfold enqueue
  split_ifs <;> rfl

theorem held_enqueue (r : Replica) (e : Entry) : (r.enqueue e).held = r.held := by
  funext k
  rw [held, held, engine_enqueue]

theorem Sound.enqueue (h : r.Sound) (e : Entry) : (r.enqueue e).Sound := by
  constructor
  · rw [engine_enqueue]
    exact h.faults
  · rw [engine_enqueue]
    exact h.medium

theorem mem_waiting_enqueue {x : Entry} (h : x ∈ (r.enqueue e).outbox.waiting) :
    x ∈ r.outbox.waiting ∨ x = e := by
  unfold Replica.enqueue at h
  split_ifs at h
  · exact .inl h
  · exact (List.mem_append.mp h).imp_right List.mem_singleton.mp
  · exact .inl h

/-! Calls of an engine that has no fault due. -/

/-- The row of this key, if there is one, can be read. -/
def Readable (r : Replica) (k : Bytes) : Prop := r.engine.medium.get? k = .ok (r.held k)

theorem Sound.readable (h : r.Sound) (k : Bytes) : r.Readable k := h.medium.get?_eq k

theorem readable_or_error (r : Replica) (k : Bytes) :
    r.Readable k ∨ ∃ f, r.engine.medium.get? k = .error f := by
  unfold Readable held Medium.held
  cases hg : r.engine.medium.get? k with
  | ok x => exact .inl rfl
  | error f => exact .inr ⟨f, rfl⟩

theorem run_onEngine {α : Type} {call : EngineCall} {work : Medium → Except Failure α × Medium}
    (h : r.engine.faults = []) : (onEngine (Engine.guarded call work)).run.run r =
      ((work r.engine.medium).1,
        { r with engine := { r.engine with medium := (work r.engine.medium).2 } }) := by
  change (((Engine.guarded call work).run.run r.engine).1, _) = _
  rw [run_guarded h]

theorem run_engineGet (h : r.engine.faults = []) (hr : r.Readable key) :
    (onEngine (Engine.get key)).run.run r = (.ok (r.held key), r) := by
  rw [Engine.get, run_onEngine h, hr]

theorem run_enginePut (h : r.engine.faults = []) (e : Entry) :
    (onEngine (Engine.put e)).run.run r = (.ok (), r.store e) := run_onEngine h

theorem run_lookup (h : r.Sound) (now : Instant) (k : Bytes) :
    (lookup now k).run.run r = (.ok ((r.held k).filter (·.isLive now)), r) := by
  rw [lookup, run_bind (run_engineGet h.faults (h.readable k))]
  rfl

/-- A snapshot is in key order and has all that is held. -/
theorem exists_run_snapshot (h : r.Sound) : ∃ es, snapshot.run.run r = (.ok es, r) ∧
    es.Pairwise Medium.keyLt ∧ ∀ e, e ∈ es ↔ r.held e.key = some e := by
  obtain ⟨es, hes, hsorted, hmem⟩ := h.medium.exists_all
  refine ⟨es, ?_, hsorted, hmem⟩
  rw [snapshot, Engine.getAll, run_onEngine h.faults, hes]

theorem exists_run_live (h : r.Sound) (now : Instant) : ∃ es, (live now).run.run r = (.ok es, r) ∧
    es.Pairwise Medium.keyLt ∧ ∀ e, e ∈ es ↔ r.held e.key = some e ∧ e.isLive now := by
  obtain ⟨es, hes, hsorted, hmem⟩ := exists_run_snapshot h
  refine ⟨es.filter (·.isLive now), ?_, hsorted.filter _, fun e => ?_⟩
  · have hes' : (onEngine Engine.getAll).run.run r = (.ok es, r) := hes
    rw [live, run_bind hes']
    rfl
  · rw [List.mem_filter, hmem]

/-- What a listing shows of a key is what is held for it, if anything is. -/
theorem Sound.filter_key (h : r.Sound) {es : List Entry} {p : Entry → Bool}
    (hsorted : es.Pairwise Medium.keyLt) (hmem : ∀ e, e ∈ es ↔ r.held e.key = some e ∧ p e)
    (k : Bytes) : es.filter (·.key = k) = ((r.held k).filter p).toList := by
  have hone : ((r.held k).filter p).toList.Pairwise Medium.keyLt := by
    cases (r.held k).filter p with
    | none => exact .nil
    | some e => exact List.pairwise_singleton _ e
  apply (hsorted.filter _).eq_of_mem_iff hone
  intro e
  rw [List.mem_filter, hmem, Option.mem_toList, Option.filter_eq_some_iff, decide_eq_true_iff]
  constructor
  · rintro ⟨he, rfl⟩
    exact he
  · rintro ⟨he, hp⟩
    have hk := h.key_of_held he
    exact ⟨⟨hk ▸ he, hp⟩, hk⟩

/-! A write. -/

section Write

variable {value : Option Bytes} {maxAge : Option UInt64} {new : Entry}

/-- The entry that a write builds here. -/
def built (r : Replica) (now : Instant) (key : Bytes) (value : Option Bytes)
    (maxAge : Option UInt64) : Entry := Entry.over (r.held key) r.nodeId now key value maxAge

theorem run_write (h : r.Sound) (hb : r.built now key value maxAge = new) :
    (write now key value maxAge).run.run r =
      (.ok (Entry.resolve (r.held key) new, r.held key),
        if Entry.resolve (r.held key) new = new then (r.store new).enqueue new
        else r.store (Entry.resolve (r.held key) new)) := by
  rw [write, run_bind (run_engineGet h.faults (h.readable key)), run_bind (run_get r)]
  dsimp only
  rw [← Replica.built, hb, run_bind (run_enginePut h.faults _)]
  by_cases hw : Entry.resolve (r.held key) new = new
  · rw [if_pos hw, if_pos hw, hw]
    rfl
  · rw [if_neg hw, if_neg hw]
    rfl

theorem run_write_of_outranks (h : r.Sound) (hb : r.built now key value maxAge = new)
    (ho : ∀ x ∈ r.held key, new.Outranks x) : (write now key value maxAge).run.run r =
      (.ok (new, r.held key), (r.store new).enqueue new) := by
  have hw : Entry.resolve (r.held key) new = new :=
    Entry.resolve_of_outranks (.inr rfl) (fun x hx _ => ho x hx) fun hne => absurd rfl hne
  rw [run_write h hb, if_pos hw, hw]

theorem run_put {value : Bytes} {w : Entry × Option Entry}
    (h : (write now key (some value) maxAge).run.run r = (.ok w, r')) :
    (put now key value maxAge).run.run r = (.ok w.1, r') := by
  rw [put, run_bind h]
  rfl

theorem run_delete {w : Entry × Option Entry} (h : (write now key none none).run.run r = (.ok w, r')) :
    (delete now key).run.run r = (.ok (w.2.any (·.isLive now)), r') := by
  rw [delete, deleteBy, run_bind h]
  rfl

end Write

/-! A merge. -/

/-- What a merge does. -/
structure Merged (now : Instant) (batch : List Entry) (r r' : Replica) : Prop where
  sound : r'.Sound
  frame : Frame r r'
  held (k : Bytes) : r'.held k =
    Entry.settle (r.held k) (batch.filter fun e => e.key = k ∧ e.isAdmitted now)

theorem Merged.nil (h : r.Sound) : Merged now [] r r := ⟨h, .refl r, fun _ => rfl⟩

theorem Merged.trans {batch' : List Entry} (h : Merged now batch r r')
    (h' : Merged now batch' r' r'') : Merged now (batch ++ batch') r r'' where
  sound := h'.sound
  frame := h.frame.trans h'.frame
  held k := by rw [h'.held, h.held, List.filter_append, Entry.settle_append]

theorem Merged.single (hs : r'.Sound) (hf : Frame r r')
    (hh : ∀ k, r'.held k =
      if e.key = k ∧ e.isAdmitted now then some (Entry.resolve (r.held k) e) else r.held k) :
    Merged now [e] r r' :=
  ⟨hs, hf, fun k => by rw [hh, Entry.settle_filter_singleton]⟩

/-- How a node without faults weighs one entry. -/
inductive Weighed (now : Instant) (e : Entry) (r : Replica) : Verdict → Replica → Prop
  | malformed {flaw : Entry.Flaw} (hf : e.flaw? = some flaw) :
      Weighed now e r .rejected (r.emit (.malformedEntry r.name flaw))
  | late (hf : e.flaw? = none) (ha : ¬ e.isAdmitted now) : Weighed now e r .ignored r
  | beaten (ha : e.isAdmitted now) (hr : r.Readable e.key)
      (hw : r.held e.key = some (Entry.resolve (r.held e.key) e)) : Weighed now e r .ignored r
  | won (ha : e.isAdmitted now) (hr : r.Readable e.key)
      (hw : r.held e.key ≠ some (Entry.resolve (r.held e.key) e)) :
      Weighed now e r .applied (r.store e)

/-- An entry that is not admitted is weighed without a look at what is held. -/
theorem weighed_of_not_isAdmitted (ha : ¬ e.isAdmitted now) (r : Replica) :
    ∃ v r', (mergeEntry now e).run.run r = (.ok v, r') ∧ Weighed now e r v r' := by
  cases hf : e.flaw? with
  | some flaw =>
    refine ⟨_, _, ?_, .malformed hf⟩
    simp only [mergeEntry, hf]
    rfl
  | none =>
    have hx : (!e.isTombstone && e.isExpired now) = true := by
      simpa [Entry.isAdmitted, hf] using ha
    refine ⟨_, _, ?_, .late hf ha⟩
    simp only [mergeEntry, hf, if_pos hx]
    rfl

theorem mergeEntry_of_isAdmitted (ha : e.isAdmitted now) : mergeEntry now e = (do
    let held ← onEngine (Engine.get e.key)
    let winner := Entry.resolve held e
    if held = some winner then return .ignored
    onEngine (Engine.put winner)
    return .applied) := by
  simp only [Entry.isAdmitted, Bool.and_eq_true, Option.isNone_iff_eq_none] at ha
  have hx : ¬ (!e.isTombstone && e.isExpired now) = true := by
    cases ht : e.isTombstone <;> simp_all
  simp only [mergeEntry, ha.1, if_neg hx]

theorem weighed_of_readable (ha : e.isAdmitted now) (h : r.engine.faults = [])
    (hr : r.Readable e.key) :
    ∃ v r', (mergeEntry now e).run.run r = (.ok v, r') ∧ Weighed now e r v r' := by
  rw [mergeEntry_of_isAdmitted ha, run_bind (run_engineGet h hr)]
  dsimp only
  by_cases hw : r.held e.key = some (Entry.resolve (r.held e.key) e)
  · rw [if_pos hw]
    exact ⟨_, _, rfl, .beaten ha hr hw⟩
  -- the winner is not what is held, so it is what came in
  · have hwe : e = Entry.resolve (r.held e.key) e :=
      (Entry.resolve_eq (r.held e.key) e).resolve_left hw
    rw [if_neg hw, ← hwe, run_bind (run_enginePut h e)]
    exact ⟨_, _, rfl, .won ha hr hw⟩

theorem exists_weighed (now : Instant) (h : r.engine.faults = [])
    (hr : e.isAdmitted now → r.Readable e.key) :
    ∃ v r', (mergeEntry now e).run.run r = (.ok v, r') ∧ Weighed now e r v r' := by
  by_cases ha : e.isAdmitted now
  · exact weighed_of_readable ha h (hr ha)
  · exact weighed_of_not_isAdmitted ha r

namespace Weighed

variable {v : Verdict}

theorem frame (h : Weighed now e r v r') : Frame r r' := by
  cases h with
  | malformed hf => exact frame_emit r _
  | late hf ha => exact .refl r
  | beaten ha hr hw => exact .refl r
  | won ha hr hw => exact frame_store r e

theorem sound (h : Weighed now e r v r') (hs : r.Sound) (ht : r.Takes e) : r'.Sound := by
  cases h with
  | malformed hf => exact hs.emit _
  | late hf ha => exact hs
  | beaten ha hr hw => exact hs
  | won ha hr hw => exact hs.store ht

theorem held (h : Weighed now e r v r') (ht : r.Takes e) (k : Bytes) : r'.held k =
    if e.key = k ∧ e.isAdmitted now then some (Entry.resolve (r.held k) e) else r.held k := by
  cases h with
  | malformed hf =>
    rw [if_neg fun hk => by simp [Entry.isAdmitted, hf] at hk]
    rfl
  | late hf ha => rw [if_neg fun hk => ha hk.2]
  | beaten ha hr hw =>
    split_ifs with hk
    · exact hk.1 ▸ hw
    · rfl
  | won ha hr hw =>
    have hwe := (Entry.resolve_eq (r.held e.key) e).resolve_left hw
    rw [held_store ht]
    by_cases hk : e.key = k
    · rw [if_pos hk, if_pos ⟨hk, ha⟩, ← hk, ← hwe]
    · rw [if_neg hk, if_neg fun hk' => hk hk'.1]

theorem rejected_iff (h : Weighed now e r v r') : v = .rejected ↔ e.flaw?.isSome := by
  have hf : e.isAdmitted now → e.flaw? = none := fun ha => by
    simpa [Entry.isAdmitted] using (Bool.and_eq_true_iff.mp ha).1
  cases h with
  | malformed hf => simp [hf]
  | late hf ha => simp [hf]
  | beaten ha hr hw => simp [hf ha]
  | won ha hr hw => simp [hf ha]

theorem merged (h : Weighed now e r v r') (hs : r.Sound) (ht : r.Takes e) :
    Merged now [e] r r' := .single (h.sound hs ht) h.frame (h.held ht)

end Weighed

/-- A merge of entries that fit never fails, and rejects the malformed ones. -/
theorem exists_run_mergeFrom (h : r.Sound) (ht : ∀ e ∈ batch, r.Takes e) (now : Instant)
    (o : MergeOutcome) :
    ∃ o' r', (mergeFrom now o batch).run.run r = (.ok o', r') ∧ Merged now batch r r' ∧
      o'.rejected = o.rejected + batch.countP (·.flaw?.isSome) := by
  induction batch generalizing r o with
  | nil => exact ⟨o, r, rfl, .nil h, rfl⟩
  | cons e es ih =>
    obtain ⟨v, r₁, hrun, hw⟩ := exists_weighed now h.faults fun _ => h.readable e.key
    have hm := hw.merged h (ht e (by simp))
    have hv := hw.rejected_iff
    have ht₁ : ∀ x ∈ es, r₁.Takes x := fun x hx =>
      (hm.frame.takes x).mpr (ht x (List.mem_cons_of_mem e hx))
    obtain ⟨o', r₂, hrun', hm', ho⟩ := ih hm.sound ht₁ (o.count v)
    refine ⟨o', r₂, ?_, hm.trans hm', ?_⟩
    · rw [mergeFrom, run_bind hrun, hrun']
    · rw [ho, MergeOutcome.rejected_count, List.countP_cons]
      simp only [hv]
      omega

theorem exists_run_merge (h : r.Sound) (ht : ∀ e ∈ batch, r.Takes e) (now : Instant) :
    ∃ o r', (merge now batch).run.run r = (.ok o, r') ∧ Merged now batch r r' ∧
      o.rejected = batch.countP (·.flaw?.isSome) := by
  obtain ⟨o, r', hrun, hm, ho⟩ := exists_run_mergeFrom h ht now {}
  exact ⟨o, r', hrun, hm, by rw [ho, Nat.zero_add]⟩

theorem exists_recordPeer (r : Replica) (peer : String) (ok : Bool) :
    ∃ health log, r.recordPeer peer ok = { r with health, log } := ⟨_, _, rfl⟩

/-- A merge goes through the merges of the parts that its batch begins with. -/
theorem mergeFrom_append (now : Instant) (o : MergeOutcome) (es es' : List Entry) :
    mergeFrom now o (es ++ es') = mergeFrom now o es >>= fun o' => mergeFrom now o' es' := by
  induction es generalizing o with
  | nil => rfl
  | cons e es ih => simp only [List.cons_append, mergeFrom, bind_assoc, ih]

theorem exists_run_absorb (h : r.Sound) (ht : ∀ e ∈ batch, r.Takes e) (now : Instant)
    (peer : String) :
    ∃ o r', (absorb now peer (.ok batch)).run.run r = (.ok o, r') ∧ Merged now batch r r' ∧
      o.rejected = batch.countP (·.flaw?.isSome) := by
  obtain ⟨health, log, hp⟩ := exists_recordPeer r peer true
  obtain ⟨o, r', hrun, hm, ho⟩ := exists_run_merge (r := { r with health, log })
    ⟨h.faults, h.medium⟩ ht now
  refine ⟨o, r', ?_, ⟨hm.sound, ⟨hm.frame.nodeId, hm.frame.settings, hm.frame.outbox,
    hm.frame.takes⟩, hm.held⟩, ho⟩
  rw [← hrun, ← hp]
  rfl

theorem run_absorb_error (r : Replica) (now : Instant) (peer : String) (f : Failure) :
    (absorb now peer (.error f)).run.run r = (.error f, r.recordPeer peer false) := rfl

/-! A sweep and a drain. -/

theorem held_sweepOnce (h : r.Sound) (now : Instant) (k : Bytes) : (sweepOnce now r).held k =
    (r.held k).filter fun e => !e.isCollectable now r.settings.tombstoneMaxAge.millisWord := by
  rw [held, held, ← Medium.held_sweep h.medium, sweepOnce, Engine.sweepOnce, Engine.removeExpired, run_guarded h.faults]

theorem Sound.sweepOnce (h : r.Sound) : (sweepOnce now r).Sound := by
  rw [Replica.sweepOnce, Engine.sweepOnce, Engine.removeExpired, run_guarded h.faults]
  exact ⟨h.faults, h.medium.sweep⟩

theorem frame_sweepOnce (h : r.Sound) : Frame r (sweepOnce now r) := by
  rw [Replica.sweepOnce, Engine.sweepOnce, Engine.removeExpired, run_guarded h.faults]
  exact ⟨rfl, rfl, rfl, fun e => Medium.takes_sweep e⟩

theorem engine_drain (r : Replica) : r.drain.2.engine = r.engine := by
  unfold drain
  split_ifs <;> rfl

theorem nodeId_drain (r : Replica) : r.drain.2.nodeId = r.nodeId := by
  unfold drain
  split_ifs <;> rfl

theorem settings_drain (r : Replica) : r.drain.2.settings = r.settings := by
  unfold drain
  split_ifs <;> rfl

theorem Sound.drain (h : r.Sound) : r.drain.2.Sound := by
  constructor
  · rw [engine_drain]
    exact h.faults
  · rw [engine_drain]
    exact h.medium

theorem mem_waiting_drain (h : e ∈ r.drain.2.outbox.waiting) : e ∈ r.outbox.waiting := by
  unfold drain at h
  split_ifs at h
  · exact h
  · contradiction
  · contradiction

end Replica

end ServiceDirectory
