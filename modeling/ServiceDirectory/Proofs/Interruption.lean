import ServiceDirectory.Proofs.Merge

namespace ServiceDirectory

/-! What a failure leaves behind. -/

theorem run_bind_error {ε σ α β : Type} {op : ExceptT ε (StateM σ) α}
    {f : α → ExceptT ε (StateM σ) β} {s s' : σ} {x : ε} (h : op.run.run s = (.error x, s')) :
    (op >>= f).run.run s = (.error x, s') := by
  simp only [ExceptT.run_bind, StateT.run_bind, h]
  rfl

/-- What fails has failed in its first part or after it. -/
theorem error_of_bind {ε σ α β : Type} {op : ExceptT ε (StateM σ) α}
    {f : α → ExceptT ε (StateM σ) β} {s s' : σ} {x : ε}
    (h : (op >>= f).run.run s = (.error x, s')) : op.run.run s = (.error x, s') ∨
      ∃ a s₁, op.run.run s = (.ok a, s₁) ∧ (f a).run.run s₁ = (.error x, s') := by
  rcases hop : op.run.run s with ⟨y, s₁⟩
  cases y with
  | ok a =>
    rw [run_bind hop] at h
    exact .inr ⟨a, s₁, rfl, h⟩
  | error y =>
    rw [run_bind_error hop] at h
    cases h
    exact .inl rfl

/-- A call of an engine either is struck and does nothing or does its work. -/
theorem Engine.run_guarded_cases {α : Type} (call : EngineCall)
    (work : Medium → Except Failure α × Medium) (n : Engine) :
    (∃ f faults, (Engine.guarded call work).run.run n = (.error f, { n with faults })) ∨
      ∃ faults, (Engine.guarded call work).run.run n =
        ((work n.medium).1, { medium := (work n.medium).2, faults }) := by
  simp only [guarded, ExceptT.run_mk, StateT.run]
  split
  · exact .inl ⟨_, _, rfl⟩
  · exact .inr ⟨_, rfl⟩

namespace Replica

variable {r r' s : Replica} {α β : Type} {now : Instant} {key : Bytes} {value : Option Bytes}
  {maxAge : Option UInt64} {e : Entry} {batch : List Entry} {f : Failure} {o o' : MergeOutcome}

/-- No row is other than it was, and what waits for the peers is what waited. -/
structure Intact (r r' : Replica) : Prop where
  medium : r'.engine.medium = r.engine.medium
  outbox : r'.outbox = r.outbox

theorem Intact.of_spared_eq (h : r'.spared = r.spared) : Intact r r' where
  medium := congrArg (·.engine.medium) h
  outbox := congrArg (·.outbox) h

theorem spared_of_reads {call : EngineCall} {work : Medium → Except Failure α × Medium}
    (hw : ∀ m, (work m).2 = m) {x : Except Failure α}
    (h : (onEngine (Engine.guarded call work)).run.run r = (x, r')) : r'.spared = r.spared := by
  have hr : r' = { r with engine := ((Engine.guarded call work).run.run r.engine).2 } :=
    (congrArg Prod.snd h).symm
  rcases Engine.run_guarded_cases call work r.engine with ⟨f, faults, hrun⟩ | ⟨faults, hrun⟩
  · rw [hr, hrun]
    rfl
  · rw [hr, hrun, hw]
    rfl

theorem spared_of_get {x : Except Failure (Option Entry)}
    (h : (onEngine (Engine.get key)).run.run r = (x, r')) : r'.spared = r.spared :=
  spared_of_reads (fun _ => rfl) h

theorem spared_of_getAll {x : Except Failure (List Entry)}
    (h : (onEngine Engine.getAll).run.run r = (x, r')) : r'.spared = r.spared :=
  spared_of_reads (fun _ => rfl) h

theorem spared_of_put_error (h : (onEngine (Engine.put e)).run.run r = (.error f, r')) :
    r'.spared = r.spared := by
  have hr : r' = { r with engine := ((Engine.put e).run.run r.engine).2 } :=
    (congrArg Prod.snd h).symm
  have hx : ((Engine.put e).run.run r.engine).1 = .error f := congrArg Prod.fst h
  rcases Engine.run_guarded_cases .put (fun m => (.ok (), m.put e)) r.engine with
    ⟨g, faults, hrun⟩ | ⟨faults, hrun⟩
  · rw [hr, Engine.put, hrun]
    rfl
  · rw [Engine.put, hrun] at hx
    contradiction

/-- A write that fails has stored and queued nothing. -/
theorem spared_of_write_error (h : (write now key value maxAge).run.run r = (.error f, r')) :
    r'.spared = r.spared := by
  rcases error_of_bind h with hget | ⟨held, r₁, hget, h⟩
  · exact spared_of_get hget
  rw [← spared_of_get hget]
  rw [run_bind (run_get r₁)] at h
  rcases error_of_bind h with hput | ⟨_, r₂, -, h⟩
  · exact spared_of_put_error hput
  -- nothing that comes after the put can fail
  dsimp only at h
  split at h <;> injection congrArg Prod.fst h

theorem write_error_of_put {value : Bytes} (h : (put now key value maxAge).run.run r = (.error f, r')) :
    (write now key (some value) maxAge).run.run r = (.error f, r') := by
  rcases error_of_bind h with h | ⟨w, r₁, -, h⟩
  · exact h
  · injection congrArg Prod.fst h

theorem write_error_of_delete (h : (delete now key).run.run r = (.error f, r')) :
    (write now key none none).run.run r = (.error f, r') := by
  rcases error_of_bind h with h | ⟨w, r₁, -, h⟩
  · exact h
  · injection congrArg Prod.fst h

/-! A merge that fails. -/

theorem spared_of_mergeEntry_error (h : (mergeEntry now e).run.run r = (.error f, r')) :
    r'.spared = r.spared := by
  by_cases ha : e.isAdmitted now
  · rw [mergeEntry_of_isAdmitted ha] at h
    rcases error_of_bind h with hget | ⟨held, r₁, hget, h⟩
    · exact spared_of_get hget
    rw [← spared_of_get hget]
    dsimp only at h
    split at h
    · injection congrArg Prod.fst h
    rcases error_of_bind h with hput | ⟨_, r₂, -, h⟩
    · exact spared_of_put_error hput
    · injection congrArg Prod.fst h
  · obtain ⟨v, r₁, hrun, -⟩ := weighed_of_not_isAdmitted ha r
    rw [hrun] at h
    injection congrArg Prod.fst h

/-- A merge fails with one entry, after those before it in the batch. -/
theorem exists_of_mergeFrom_error (h : (mergeFrom now o batch).run.run r = (.error f, r')) :
    ∃ pre e post o' s, batch = pre ++ e :: post ∧ (mergeFrom now o pre).run.run r = (.ok o', s) ∧
      (mergeEntry now e).run.run s = (.error f, r') := by
  induction batch generalizing r o with
  | nil => injection congrArg Prod.fst h
  | cons e es ih =>
    rcases error_of_bind h with h | ⟨v, r₁, hrun, h⟩
    · exact ⟨[], e, es, o, r, rfl, rfl, h⟩
    · obtain ⟨pre, x, post, o', s, rfl, hpre, hx⟩ := ih h
      refine ⟨e :: pre, x, post, o', s, rfl, ?_, hx⟩
      rw [mergeFrom, run_bind hrun, hpre]

/-- A step without faults brings none about. -/
theorem Endures.spared_eq {op : Op Replica α} {a : α} (h : Endures op)
    (hrun : op.run.run r.spared = (.ok a, r')) : r'.spared = r' := by
  have hagain := h hrun
  exact congrArg Prod.snd (hagain.symm.trans hrun)

/-- A merge that failed with `e`: the entries before it went in as they would without faults, and
nothing has happened since. -/
def FailedAt (now : Instant) (pre : List Entry) (e : Entry) (f : Failure) (r r' : Replica) : Prop :=
  ∃ o s, (merge now pre).run.run r = (.ok o, s) ∧
    (merge now pre).run.run r.spared = (.ok o, s.spared) ∧
    (mergeEntry now e).run.run s = (.error f, r') ∧ Intact s r'

theorem exists_failedAt (h : (merge now batch).run.run r = (.error f, r')) :
    ∃ pre e post, batch = pre ++ e :: post ∧ FailedAt now pre e f r r' := by
  obtain ⟨pre, e, post, o, s, hbatch, hpre, he⟩ := exists_of_mergeFrom_error h
  refine ⟨pre, e, post, hbatch, o, s, hpre, pervasive_endures.mergeFrom now {} pre hpre, he, ?_⟩
  exact .of_spared_eq (spared_of_mergeEntry_error he)

/-! What becomes of a batch depends on the engine alone. -/

def Decided (op : Op Replica α) : Prop :=
  ∀ ⦃r s⦄, r.engine = s.engine →
    (op.run.run r).1 = (op.run.run s).1 ∧ (op.run.run r).2.engine = (op.run.run s).2.engine

theorem decided_pure (a : α) : Decided (pure a) := fun _ _ he => ⟨rfl, he⟩

theorem decided_onEngine (op : Op Engine α) : Decided (onEngine op) := by
  intro r s he
  change (op.run.run r.engine).1 = (op.run.run s.engine).1 ∧
    (op.run.run r.engine).2 = (op.run.run s.engine).2
  rw [he]
  exact ⟨rfl, rfl⟩

theorem Decided.bind {op : Op Replica α} {g : α → Op Replica β} (h : Decided op)
    (hg : ∀ a, Decided (g a)) : Decided (op >>= g) := by
  intro r s he
  obtain ⟨hx, hn⟩ := h he
  rcases hr : op.run.run r with ⟨x, r₁⟩
  rcases hs : op.run.run s with ⟨y, s₁⟩
  rw [hr, hs] at hx hn
  cases hx
  cases x with
  | error f =>
    rw [run_bind_error hr, run_bind_error hs]
    exact ⟨rfl, hn⟩
  | ok a =>
    rw [run_bind hr, run_bind hs]
    exact hg a hn

theorem decided_mergeEntry (now : Instant) (e : Entry) : Decided (mergeEntry now e) := by
  by_cases ha : e.isAdmitted now
  · rw [mergeEntry_of_isAdmitted ha]
    refine (decided_onEngine _).bind fun held => ?_
    dsimp only
    split
    · exact decided_pure _
    · exact (decided_onEngine _).bind fun _ => decided_pure _
  -- a malformed entry is reported under the name of the store, which nothing else reads
  · intro r s he
    obtain ⟨v, r₁, hr, hw⟩ := weighed_of_not_isAdmitted ha r
    obtain ⟨v', s₁, hs, hw'⟩ := weighed_of_not_isAdmitted ha s
    have hne {n n' : Replica} {u : Verdict} (h : Weighed now e n u n') : u ≠ .applied := by
      rw [ne_eq, h.applied_iff_outranks]
      exact fun h => ha h.1
    have hv : v = v' := by
      have h := hw.rejected_iff.trans hw'.rejected_iff.symm
      have h₁ := hne hw
      have h₂ := hne hw'
      cases v <;> cases v' <;> simp_all
    rw [hr, hs, hv, hw.engine_eq (hne hw), hw'.engine_eq (hne hw')]
    exact ⟨rfl, he⟩

theorem mergeFrom_congr (he : r.engine = s.engine) (o o' : MergeOutcome) :
    ((mergeFrom now o batch).run.run r).1.isOk = ((mergeFrom now o' batch).run.run s).1.isOk ∧
      ((mergeFrom now o batch).run.run r).2.engine =
        ((mergeFrom now o' batch).run.run s).2.engine := by
  induction batch generalizing r s o o' with
  | nil => exact ⟨rfl, he⟩
  | cons e es ih =>
    obtain ⟨hx, hn⟩ := decided_mergeEntry now e he
    rcases hr : (mergeEntry now e).run.run r with ⟨x, r₁⟩
    rcases hs : (mergeEntry now e).run.run s with ⟨y, s₁⟩
    rw [hr, hs] at hx hn
    cases hx
    rw [mergeFrom, mergeFrom]
    cases x with
    | error f =>
      rw [run_bind_error hr, run_bind_error hs]
      exact ⟨rfl, hn⟩
    | ok v =>
      rw [run_bind hr, run_bind hs]
      exact ih hn (o.count v) (o'.count v)

/-! A batch with one entry for each key, merged again. -/

/-- Once it has gone in it changes nothing any more. -/
theorem exists_run_merge_again (hn : (batch.map (·.key)).Nodup) (ht : ∀ e ∈ batch, r.Takes e)
    (h : (merge now batch).run.run r = (.ok o, r')) :
    ∃ o' r'', (merge now batch).run.run r'.spared = (.ok o', r'') ∧
      r''.engine = r'.spared.engine := by
  have hf := folded_of_run ht h
  have ht' : ∀ e ∈ batch, r'.spared.Takes e := fun e he => (hf.frame.takes e).mpr (ht e he)
  obtain ⟨o', r'', hrun⟩ := exists_run_mergeFrom_of_readable (r := r'.spared) rfl ht' hf.readable {}
  refine ⟨o', r'', hrun, ?_⟩
  have hzero : o'.applied = 0 := by
    rw [(applied_eq_zero_iff hrun).1]
    intro e he ha
    obtain ⟨w, hw⟩ := Entry.exists_settle_of_mem (r.held e.key) (mem_filter_self he ha)
    refine ⟨w, (hf.held e.key).trans hw, ?_⟩
    exact unsurpassed_of_nodup hn now r e he ha w hw
  have hm : r''.engine.medium = r'.engine.medium := (applied_eq_zero_iff hrun).2 hzero
  have hspared := (pervasive_endures.mergeFrom now {} batch).spared_eq hrun
  rw [← hspared]
  exact congrArg (fun m => ({ medium := m } : Engine)) hm

/-- However far it got, merging it again without faults comes to what merging it once without faults
would have come to. -/
theorem merge_resumed (hn : (batch.map (·.key)).Nodup) (ht : ∀ e ∈ batch, r.Takes e)
    {x : Except Failure MergeOutcome} (h : (merge now batch).run.run r = (x, r')) :
    ((merge now batch).run.run r'.spared).1.isOk = ((merge now batch).run.run r.spared).1.isOk ∧
      ((merge now batch).run.run r'.spared).2.engine =
        ((merge now batch).run.run r.spared).2.engine := by
  cases x with
  | ok o =>
    obtain ⟨o', r'', hagain, hengine⟩ := exists_run_merge_again hn ht h
    have honce : (merge now batch).run.run r.spared = (.ok o, r'.spared) :=
      pervasive_endures.mergeFrom now {} batch h
    rw [hagain, honce]
    exact ⟨rfl, hengine⟩
  | error f =>
    obtain ⟨pre, e, post, rfl, o, s, hpre, honce, he, -⟩ := exists_failedAt h
    have hn' : (pre.map (·.key)).Nodup := by
      rw [List.map_append] at hn
      exact hn.of_append_left
    obtain ⟨o', s', hagain, hengine⟩ :=
      exists_run_merge_again hn' (fun x hx => ht x (List.mem_append_left _ hx)) hpre
    rw [merge] at honce hagain ⊢
    rw [spared_of_mergeEntry_error he, mergeFrom_append, run_bind honce, run_bind hagain]
    exact mergeFrom_congr hengine o' o

theorem intact_snapshot {x : Except Failure (List Entry)} (h : snapshot.run.run r = (x, r')) :
    Intact r r' := .of_spared_eq (spared_of_getAll h)

/-- A snapshot has one entry at most for each key. -/
theorem nodup_keys_snapshot {es : List Entry} (hs : r.spared.Sound)
    (h : snapshot.run.run r = (.ok es, r')) : (es.map (·.key)).Nodup := by
  have hspared : snapshot.run.run r.spared = (.ok es, r'.spared) := endures_onEngine _ _ h
  obtain ⟨es', hrun, hsorted, -⟩ := exists_run_snapshot hs
  have hes : es = es' := Except.ok.inj (congrArg Prod.fst (hspared.symm.trans hrun))
  rw [hes]
  exact List.Pairwise.map _ (fun x y hlt heq => by simp [Medium.keyLt, heq] at hlt) hsorted

/-- Faults leave no half-done work in a store. A write that fails has done nothing, nor has a pull that
failed at the peer or on the way; a merge that fails has merged just what came before the entry it
failed with, and a batch with one entry for each key, such as a snapshot, can be merged again in full:
without faults that comes to the rows that one merge without faults leaves. -/
theorem faults_leave_no_half (r : Replica) (now : Instant) :
    (∀ key value maxAge f r', (put now key value maxAge).run.run r = (.error f, r') →
      Intact r r') ∧
    (∀ key f r', (delete now key).run.run r = (.error f, r') → Intact r r') ∧
    (∀ x r', snapshot.run.run r = (x, r') → Intact r r' ∧
      ∀ es, x = .ok es → r.spared.Sound → (es.map (·.key)).Nodup) ∧
    (∀ peer f, ∃ r', (absorb now peer (.error f)).run.run r = (.error f, r') ∧ Intact r r') ∧
    (∀ batch f r', (merge now batch).run.run r = (.error f, r') →
      ∃ pre e post, batch = pre ++ e :: post ∧ FailedAt now pre e f r r') ∧
    ∀ batch x r', (batch.map (·.key)).Nodup → (∀ e ∈ batch, r.Takes e) →
      (merge now batch).run.run r = (x, r') →
      ((merge now batch).run.run r'.spared).1.isOk =
          ((merge now batch).run.run r.spared).1.isOk ∧
        ((merge now batch).run.run r'.spared).2.engine.medium =
          ((merge now batch).run.run r.spared).2.engine.medium := by
  refine ⟨?_, ?_, ?_, ?_, ?_, ?_⟩
  · intro key value maxAge f r' h
    exact .of_spared_eq (spared_of_write_error (write_error_of_put h))
  · intro key f r' h
    exact .of_spared_eq (spared_of_write_error (write_error_of_delete h))
  · intro x r' h
    exact ⟨intact_snapshot h, fun es hx hs => nodup_keys_snapshot hs (hx ▸ h)⟩
  · intro peer f
    obtain ⟨health, log, hp⟩ := exists_recordPeer r peer false
    exact ⟨_, run_absorb_error r now peer f, hp ▸ ⟨rfl, rfl⟩⟩
  · intro batch f r' h
    exact exists_failedAt h
  · intro batch x r' hn ht h
    obtain ⟨hok, hengine⟩ := merge_resumed hn ht h
    exact ⟨hok, congrArg Engine.medium hengine⟩

/-- A node of which the next call of a kind fails after `skip` good ones. -/
def frail (call : EngineCall) (skip : Nat) : Replica :=
  { infant "a" with engine := { medium := .fresh false, faults := [⟨call, .storage "injected", skip, 1⟩] } }

def trio : List Entry := [107, 108, 109].map fun k =>
  { key := [k], value := some [49], version := 1, origin := "b", timestamp := 200, maxAge := none }

/-- A put and a delete come to nothing, and of three entries the second fails: the first is there, and
merging all three again brings in the others. -/
theorem frail_leaves_no_half : ∃ r₁ r₂ r₃,
    (put 5 [107] [49] none).run.run (frail .put 0) = (.error (.storage "injected"), r₁) ∧
    Intact (frail .put 0) r₁ ∧
    (delete 5 [107]).run.run (frail .get 0) = (.error (.storage "injected"), r₂) ∧
    Intact (frail .get 0) r₂ ∧
    (merge 1000 trio).run.run (frail .put 1) = (.error (.storage "injected"), r₃) ∧
    (∃ pre e post, trio = pre ++ e :: post ∧
      FailedAt 1000 pre e (.storage "injected") (frail .put 1) r₃) ∧
    r₃.held [107] = trio[0]? ∧ r₃.held [108] = none ∧
    ((merge 1000 trio).run.run r₃.spared).2.engine.medium =
      ((merge 1000 trio).run.run (frail .put 1).spared).2.engine.medium := by
  have hput : (put 5 [107] [49] none).run.run (frail .put 0) = (.error (.storage "injected"), _) :=
    Prod.ext (by decide +kernel) rfl
  have hdelete : (delete 5 [107]).run.run (frail .get 0) = (.error (.storage "injected"), _) :=
    Prod.ext (by decide +kernel) rfl
  have hmerge : (merge 1000 trio).run.run (frail .put 1) = (.error (.storage "injected"), _) :=
    Prod.ext (by decide +kernel) rfl
  have h₁ := (faults_leave_no_half (frail .put 0) 5).1 _ _ _ _ _ hput
  have h₂ := (faults_leave_no_half (frail .get 0) 5).2.1 _ _ _ hdelete
  obtain ⟨-, -, -, -, hfailed, hagain⟩ := faults_leave_no_half (frail .put 1) 1000
  have h₃ := hagain trio _ _ (by decide) (fun _ _ => trivial) hmerge
  exact ⟨_, _, _, hput, h₁, hdelete, h₂, hmerge, hfailed _ _ _ hmerge, by decide +kernel,
    by decide +kernel, h₃.2⟩

end Replica

end ServiceDirectory
