import ServiceDirectory.Proofs.Interruption
import ServiceDirectory.Proofs.Replacement

namespace ServiceDirectory

/-- How many calls of a kind one write makes. -/
def EngineCall.perWrite : EngineCall → Nat
  | get | put => 1
  | getAll | delete | removeExpired => 0

namespace Replica

variable {r r' : Replica} {α β : Type} {now : Instant} {call : EngineCall} {m n : Nat} {d : Draft}
  {ds ds' : List Draft} {k : Bytes}

/-! A fault that is due comes up once its calls have been made. -/

/-- Where it gives an answer it has made `n` calls of a kind, and no fault that was due came up. -/
def Spends (call : EngineCall) (n : Nat) (op : Op Replica α) : Prop :=
  ∀ ⦃r a r' φ⦄, r.engine.faults = [φ] → φ.call = call → 0 < φ.count → op.run.run r = (.ok a, r') →
    n ≤ φ.skip ∧ r'.engine.faults = [{ φ with skip := φ.skip - n }]

theorem spends_pure (call : EngineCall) (a : α) : Spends call 0 (pure a) := by
  intro r b r' φ hφ _ _ h
  cases h
  exact ⟨Nat.zero_le _, hφ⟩

theorem Spends.bind {op : Op Replica α} {g : α → Op Replica β} (h : Spends call m op)
    (hg : ∀ a, Spends call n (g a)) : Spends call (m + n) (op >>= g) := by
  intro r b r' φ hφ hcall hcount hrun
  obtain ⟨a, r₁, hop, hrest⟩ := exists_run_of_bind hrun
  obtain ⟨hm, hφ₁⟩ := h hφ hcall hcount hop
  obtain ⟨hn, hφ'⟩ := hg a hφ₁ hcall hcount hrest
  dsimp only at hn hφ'
  rw [Nat.sub_sub] at hφ'
  exact ⟨by omega, hφ'⟩

theorem spends_get_bind {g : Replica → Op Replica β} (hg : ∀ s, Spends call n (g s)) :
    Spends call n (get >>= g) := by
  intro r b r' φ hφ hcall hcount hrun
  rw [run_bind (run_get r)] at hrun
  exact hg r hφ hcall hcount hrun

theorem spends_modify (call : EngineCall) {f : Replica → Replica} (hf : ∀ s, (f s).engine = s.engine) :
    Spends call 0 (modify f : Op Replica PUnit) := by
  intro r b r' φ hφ _ _ h
  cases h
  refine ⟨Nat.zero_le _, ?_⟩
  rw [hf, hφ, Nat.sub_zero]

theorem spends_onEngine (call kind : EngineCall) (work : Medium → Except Failure α × Medium) :
    Spends call (if kind = call then 1 else 0) (onEngine (Engine.guarded kind work)) := by
  intro r a r' φ hφ hcall hcount h
  subst hcall
  have hr : r' = { r with engine := ((Engine.guarded kind work).run.run r.engine).2 } :=
    (congrArg Prod.snd h).symm
  have ha : ((Engine.guarded kind work).run.run r.engine).1 = .ok a := congrArg Prod.fst h
  simp only [Engine.guarded, ExceptT.run_mk, StateT.run, hφ, Fault.strike, hcount, and_true] at hr ha
  by_cases hk : φ.call = kind
  · rw [if_pos hk] at hr ha
    rw [if_pos hk.symm]
    by_cases hskip : 0 < φ.skip
    · rw [if_pos hskip] at hr
      exact ⟨hskip, hr ▸ rfl⟩
    · rw [if_neg hskip] at ha
      contradiction
  · rw [if_neg hk] at hr
    rw [if_neg (Ne.symm hk)]
    exact ⟨Nat.zero_le _, hr ▸ rfl⟩

theorem spends_write (call : EngineCall) (now : Instant) (key : Bytes) (value : Option Bytes)
    (maxAge : Option UInt64) : Spends call call.perWrite (write now key value maxAge) := by
  have h : Spends call ((if .get = call then 1 else 0) + ((if .put = call then 1 else 0) + 0))
      (write now key value maxAge) := by
    refine (spends_onEngine ..).bind fun held => spends_get_bind fun s => ?_
    refine (spends_onEngine ..).bind fun _ => ?_
    split_ifs
    · exact (spends_modify call fun s => engine_enqueue s _).bind fun _ => spends_pure call _
    · exact spends_pure call _
  cases call <;> exact h

theorem spends_put (call : EngineCall) (now : Instant) (key value : Bytes) (maxAge : Option UInt64) :
    Spends call call.perWrite (put now key value maxAge) :=
  (spends_write ..).bind fun _ => spends_pure call _

theorem spends_delete (call : EngineCall) (now : Instant) (key : Bytes) :
    Spends call call.perWrite (delete now key) :=
  (spends_write ..).bind fun _ => spends_pure call _

/-! What has been written by the time that a fault comes up. -/

/-- However it ends, it has written a first part of `ds`, and all of `ds` where it gave an answer. -/
def WritesOut (now : Instant) (ds : List Draft) (op : Op Replica α) : Prop :=
  ∀ ⦃r x r'⦄, op.run.run r = (x, r') →
    ∃ n, Writes now (ds.take n) r.spared r'.spared ∧ (x.isOk → ds.length ≤ n)

theorem writesOut_pure (now : Instant) (a : α) : WritesOut now [] (pure a) := by
  intro r x r' h
  cases h
  exact ⟨0, .nil _, fun _ => Nat.le_refl 0⟩

theorem WritesOut.bind {op : Op Replica α} {g : α → Op Replica β} (h : WritesOut now ds op)
    (hg : ∀ a, WritesOut now ds' (g a)) : WritesOut now (ds ++ ds') (op >>= g) := by
  intro r x r' hrun
  rcases hop : op.run.run r with ⟨y, r₁⟩
  obtain ⟨n, hw, hn⟩ := h hop
  cases y with
  | error f =>
    cases (run_bind_error hop).symm.trans hrun
    refine ⟨min n ds.length, ?_, by rintro ⟨⟩⟩
    rw [List.take_append_of_le_length (Nat.min_le_right _ _), ← List.take_take, List.take_length]
    exact hw
  | ok a =>
    rw [run_bind hop] at hrun
    obtain ⟨n', hw', hn'⟩ := hg a hrun
    refine ⟨ds.length + n', ?_, fun hx => ?_⟩
    · rw [List.take_length_add_append]
      rw [List.take_of_length_le (hn rfl)] at hw
      exact hw.append hw'
    · rw [List.length_append]
      exact Nat.add_le_add_left (hn' hx) _

theorem writesOut_write (now : Instant) (d : Draft) :
    WritesOut now [d] (write now d.key d.value d.maxAge) := by
  intro r x r' h
  cases x with
  | ok w => exact ⟨1, .cons (pervasive_endures.write now _ _ _ h) (.nil _), fun _ => Nat.le_refl 1⟩
  | error f =>
    refine ⟨0, ?_, by rintro ⟨⟩⟩
    rw [spared_of_write_error h]
    exact .nil _

theorem writesOut_put (now : Instant) (maxAge : Span) (s : Service) :
    WritesOut now [s.draft maxAge] (put now s.key s.encode (some maxAge.millisWord)) :=
  (writesOut_write now (s.draft maxAge)).bind fun _ => writesOut_pure now _

theorem writesOut_delete (now : Instant) (s : Service) :
    WritesOut now [s.erasure] (delete now s.key) :=
  (writesOut_write now s.erasure).bind fun _ => writesOut_pure now _

/-- A row that is as it was, whether it can be read or not. -/
structure Unmoved (r r' : Replica) (k : Bytes) : Prop where
  read : r'.engine.medium.get? k = r.engine.medium.get? k
  row : r'.engine.medium.row? k = r.engine.medium.row? k

theorem Unmoved.held (h : Unmoved r r' k) : r'.held k = r.held k := by
  rw [Replica.held, Medium.held, h.read]
  rfl

/-- Writing moves no row but those that are written. -/
theorem Writes.unmoved (hw : Writes now ds r r') (h : r.Stocked) (hf : ∀ d ∈ ds, d.Fits r.nodeId)
    (hk : ∀ d ∈ ds, d.key ≠ k) : Unmoved r r' k := by
  induction hw with
  | nil r => exact ⟨rfl, rfl⟩
  | @cons d ds r r₁ r' w hrun _ ih =>
    have hd := h.wrote (hf d (by simp)) hrun
    have hrest := ih hd.stocked (fun d' hd' => hd.fits (hf d' (List.mem_cons_of_mem _ hd')))
      fun d' hd' => hk d' (List.mem_cons_of_mem _ hd')
    have hkey : (Entry.resolve (r.held d.key) (r.built now d.key d.value d.maxAge)).key = d.key := by
      rcases Entry.resolve_eq (r.held d.key) (r.built now d.key d.value d.maxAge) with he | he
      · exact h.key_of_held he
      · rw [← he]
        rfl
    have hm : r₁.engine.medium = r.engine.medium.put
        (Entry.resolve (r.held d.key) (r.built now d.key d.value d.maxAge)) := by
      have hr := congrArg Prod.snd ((run_write h.toSound rfl).symm.trans hrun)
      rw [← show _ = r₁ from hr]
      split
      · rename_i hw
        rw [engine_enqueue, hw]
        rfl
      · rfl
    obtain ⟨hread, hrow⟩ := Medium.get?_put_of_ne (m := r.engine.medium)
      (hkey.trans_ne (hk d (by simp)))
    rw [← hm] at hread hrow
    exact ⟨hrest.read.trans hread, hrest.row.trans hrow⟩

end Replica

namespace DynamicView

open Replica

variable {r r' : Replica} {now : Instant} {maxAge : Span} {node : Uuid} {a : NodeAnnouncement}
  {before : List Service} {call : EngineCall} {φ : Fault} {f : Failure}

theorem spends_all (call : EngineCall) (now : Instant) :
    Spends call (if .getAll = call then 1 else 0) (all now) := by
  have hlive : Spends call ((if .getAll = call then 1 else 0) + 0) (live now) :=
    (spends_onEngine ..).bind fun _ => spends_pure call _
  have h : Spends call ((if .getAll = call then 1 else 0) + 0 + (0 + 0)) (all now) :=
    hlive.bind fun _ => Spends.bind (spends_modify call fun _ => rfl) fun _ => spends_pure call _
  exact h

theorem spends_deleteAll (call : EngineCall) (now : Instant) (ss : List Service) :
    Spends call (ss.length * call.perWrite) (deleteAll now ss) := by
  induction ss with
  | nil =>
    rw [List.length_nil, Nat.zero_mul]
    exact spends_pure call false
  | cons s ss ih =>
    rw [List.length_cons, Nat.succ_mul, Nat.add_comm]
    exact (spends_delete call now s.key).bind fun _ => ih.bind fun _ => spends_pure call _

theorem spends_putAll (call : EngineCall) (now : Instant) (maxAge : Span) (ss : List Service) :
    Spends call (ss.length * call.perWrite) (putAll now maxAge ss) := by
  induction ss with
  | nil =>
    rw [List.length_nil, Nat.zero_mul]
    exact spends_pure call ()
  | cons s ss ih =>
    rw [List.length_cons, Nat.succ_mul, Nat.add_comm]
    exact ((spends_put call now s.key s.encode _).bind fun _ => spends_pure call _).bind fun _ => ih

/-- How many calls of a kind an announcement makes, over a listing. -/
def callsMade (node : Uuid) (a : NodeAnnouncement) (listed : List Service) : EngineCall → Nat
  | .getAll => 1
  | .get | .put => (stale node a listed).length + a.services.length
  | .delete | .removeExpired => 0

theorem callsMade_eq (node : Uuid) (a : NodeAnnouncement) (listed : List Service)
    (call : EngineCall) : callsMade node a listed call = (if .getAll = call then 1 else 0) +
      ((stale node a listed).length * call.perWrite +
        (a.toServices node).length * call.perWrite) := by
  cases call <;> simp [callsMade, EngineCall.perWrite, NodeAnnouncement.toServices]

/-- A fault that is due within the calls of an announcement makes it fail. -/
theorem exists_put_error (hv : a.flaw? = none) (hl : r.Lists now before)
    (hφ : r.engine.faults = [φ]) (hcount : 0 < φ.count)
    (hskip : φ.skip < callsMade node a before φ.call) :
    ∃ f r', (put now maxAge node a).run.run r = (.error f, r') := by
  rcases hrun : (put now maxAge node a).run.run r with ⟨x, r'⟩
  cases x with
  | error f => exact ⟨f, r', rfl⟩
  -- a good end would have taken more calls than the fault lets pass
  | ok ss =>
    rw [put_of_valid hv] at hrun
    obtain ⟨before', r₁, hall, hrest⟩ := exists_run_of_bind hrun
    cases (lists_of_run hall).unique hl
    obtain ⟨hread, hφ₁⟩ := spends_all φ.call now hφ rfl hcount hall
    have hwrites := ((spends_deleteAll φ.call now (stale node a before)).bind fun _ =>
      spends_pure φ.call ()).bind fun _ =>
      (spends_putAll φ.call now maxAge (a.toServices node)).bind fun _ =>
      Spends.bind (spends_modify φ.call (f := (·.emit (.announced node a.services.length)))
        fun _ => rfl) fun _ => spends_pure φ.call (a.toServices node)
    obtain ⟨hwritten, -⟩ := hwrites hφ₁ rfl hcount hrest
    rw [callsMade_eq] at hskip
    dsimp only at hwritten
    omega

theorem writesOut_deleteAll (now : Instant) (ss : List Service) :
    WritesOut now (ss.map Service.erasure) (deleteAll now ss) := by
  induction ss with
  | nil => exact writesOut_pure now false
  | cons s ss ih =>
    have h := (writesOut_delete now s).bind fun one => ih.bind fun others =>
      writesOut_pure now (one || others)
    rw [List.append_nil] at h
    exact h

theorem writesOut_putAll (now : Instant) (maxAge : Span) (ss : List Service) :
    WritesOut now (ss.map (Service.draft maxAge)) (putAll now maxAge ss) := by
  induction ss with
  | nil => exact writesOut_pure now ()
  | cons s ss ih =>
    have h := ((writesOut_put now maxAge s).bind fun _ => writesOut_pure now ()).bind fun _ => ih
    rw [List.append_nil] at h
    exact h

theorem writesOut_changes (now : Instant) (maxAge : Span) (node : Uuid) (a : NodeAnnouncement)
    (listed : List Service) : WritesOut now (changes maxAge node a listed) (do
      discard <| deleteAll now (stale node a listed)
      putAll now maxAge (a.toServices node)) := by
  have h := ((writesOut_deleteAll now (stale node a listed)).bind fun _ =>
    writesOut_pure now ()).bind fun _ => writesOut_putAll now maxAge (a.toServices node)
  rw [List.append_nil] at h
  exact h

theorem spared_of_all_error (h : (all now).run.run r = (.error f, r')) : r'.spared = r.spared := by
  rcases error_of_bind h with hlive | ⟨_, r₁, -, h⟩
  · rcases error_of_bind hlive with hget | ⟨_, r₁, -, h⟩
    · exact spared_of_getAll hget
    · injection congrArg Prod.fst h
  · injection congrArg Prod.fst h

/-- An announcement that fails has made a first part of its writes. -/
theorem exists_writes_of_put_error (hs : r.spared.Sound) (hv : a.flaw? = none)
    (hl : r.Lists now before) (h : (put now maxAge node a).run.run r = (.error f, r')) :
    ∃ r₁ n, r₁.engine = r.spared.engine ∧ r₁.nodeId = r.nodeId ∧
      Writes now ((changes maxAge node a before).take n) r₁ r'.spared := by
  rw [put_of_valid hv] at h
  rcases error_of_bind h with hall | ⟨before', r₁, hall, h⟩
  · refine ⟨r.spared, 0, rfl, rfl, ?_⟩
    rw [spared_of_all_error hall]
    exact .nil _
  cases (lists_of_run hall).unique hl
  have hl' : r.spared.Lists now before := hl
  obtain ⟨evs, hread⟩ := hs.run_all hl'
  have hr₁ : r₁.spared = r.spared.emitAll evs :=
    congrArg Prod.snd ((inherits_all pervasive_endures.toHereditary now hall).symm.trans hread)
  have h' : ((do
      discard <| deleteAll now (stale node a before)
      putAll now maxAge (a.toServices node)) >>= fun _ => do
        Replica.report (.announced node a.services.length)
        return a.toServices node).run.run r₁ = (.error f, r') := by
    rw [bind_assoc]
    exact h
  -- nothing that comes after the writes can fail
  rcases error_of_bind h' with h | ⟨_, r₂, -, h⟩
  · obtain ⟨n, hw, -⟩ := writesOut_changes now maxAge node a before h
    exact ⟨r₁.spared, n, by rw [hr₁]; rfl, by rw [hr₁]; rfl, hw⟩
  · injection congrArg Prod.fst h

end DynamicView

end ServiceDirectory
