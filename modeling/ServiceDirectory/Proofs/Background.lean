import ServiceDirectory.Proofs.Beats

namespace ServiceDirectory

/-! The tasks beside a store, from its start to its stop. -/

namespace Cluster

variable {s : Settings} {a b : Address} {c c' : Cluster}

theorem UpToDate.pull (h : c.UpToDate s a) (b : Address) (peer : String) :
    ((pull b peer).run c).2.UpToDate s a := by
  rw [Cluster.pull]
  simp only [StateT.run_bind, StateT.run_get, pure_bind]
  cases c.memberAt? b.serial with
  | none => exact h
  | some m =>
    simp only [StateT.run_bind, StateT.run_get, pure_bind]
    cases c.contact m b.side peer with
    | through => exact h.of_spares ((quiet_fetch h.orderly.nodup _ peer).spares a)
    | failed f => exact h
    | later ms getsThrough =>
      have hp := h.pass ms
      simp only [StateT.run_bind]
      split_ifs
      · exact hp.of_spares ((quiet_fetch hp.orderly.nodup _ peer).spares a)
      · exact hp

theorem UpToDate.sync (h : c.UpToDate s a) (b : Address) (peer : String) :
    ((sync b peer).run c).2.UpToDate s a := by
  have hp := h.pull b peer
  have habsorb := (Replica.silent_absorb ((Cluster.pull b peer).run c).2.clock peer
    ((Cluster.pull b peer).run c).1).steady
  exact hp.of_spares (spares_onReplica habsorb b a _)

theorem UpToDate.antiEntropy (h : c.UpToDate s a) (b : Address) :
    ((antiEntropy b).run c).2.UpToDate s a := by
  rw [Cluster.antiEntropy]
  simp only [StateT.run_bind, StateT.run_get, pure_bind]
  cases (c.memberAt? b.serial).bind (·.peers.head?) with
  | none => exact h
  | some peer => exact (h.pull b peer).of_spares ((quiet_finishPatrol b peer _ _).spares a)

theorem Attended.mono {lo lo' : Nat} (h : c.Attended s a lo') (hle : lo ≤ lo') : c.Attended s a lo := by
  obtain ⟨u, hu, hsound, hprompt⟩ := h.upkeep
  refine ⟨h.orderly, u, hu, { hsound with patrolling := fun hp => ?_ }, ?_, ?_⟩
  · obtain ⟨call, hin, hcall⟩ := hsound.patrolling hp
    exact ⟨call, hin.imp_right fun hin => ⟨hin.1, hle.trans hin.2⟩, hcall⟩
  · exact fun t ht => hle.trans (hprompt.sweep t ht)
  · exact hprompt.patrol.imp_right fun hpatrol t ht => hle.trans (hpatrol t ht)

theorem UpToDate.runDue (h : c.UpToDate s a) : ((runDue).run c).2.UpToDate s a := by
  obtain ⟨h', he⟩ := (Attended.tended h).runDue
  exact (h'.mono (Nat.le_succ _)).upToDate he

/-- Another store is stopped. -/
theorem UpToDate.stop (h : c.UpToDate s a) (hb : b ≠ a) : ((stop b).run c).2.UpToDate s a := by
  have h₁ := h.of_spares (spares_mapTimers hb ({ · with running := false }) c)
  rw [Cluster.stop]
  simp only [StateT.run_bind, StateT.run_modify, StateT.run_get, pure_bind]
  generalize c.mapTimers b ({ · with running := false }) = c₁ at h₁ ⊢
  cases c₁.calls.find? fun call => call.caller = b ∧ call.errand.isPatrol with
  | none => exact h₁.of_spares (spares_mapReplica hb _ _)
  | some call => exact ((h₁.pass _).runDue).of_spares (spares_mapReplica hb _ _)

/-- Runs of nodes may begin and end while that of the store goes on. -/
theorem UpToDate.carry (h : c.UpToDate s a) (ho : c'.Orderly) (he : c'.elapsed = c.elapsed)
    (hcalls : c.calls ⊆ c'.calls) (hu : c'.upkeep? a = c.upkeep? a) : c'.UpToDate s a := by
  obtain ⟨u, hu', hsound, hprompt⟩ := h.upkeep
  exact Attended.upToDate ⟨ho, u, hu.trans hu', hsound.carry he hcalls, hprompt⟩ he

theorem serial_ne_nextSerial (h : c.UpToDate s a) : c.nextSerial ≠ a.serial := by
  obtain ⟨u, hu, -⟩ := h.upkeep
  obtain ⟨m, hm, -⟩ := Option.map_eq_some_iff.mp hu
  have hs := serial_of_find? hm
  have hlt := h.orderly.serial_lt m.serial (List.mem_map_of_mem (List.mem_of_find?_eq_some hm))
  omega

theorem Orderly.find?_nextSerial (h : c.Orderly) :
    c.members.find? (·.serial = c.nextSerial) = none := by
  refine List.find?_eq_none.mpr fun m hm => ?_
  have := h.serial_lt m.serial (List.mem_map_of_mem hm)
  simp only [decide_eq_true_eq]
  omega

theorem Orderly.join (h : c.Orderly) (spec : NodeSpec) : ((join spec).run c).2.Orderly := by
  have hserials : ((Cluster.join spec).run c).2.members.map (·.serial) =
      c.members.map (·.serial) ++ [c.nextSerial] := List.map_append
  constructor
  · rw [hserials]
    refine h.nodup.append (List.nodup_singleton _) fun x hx hx' => ?_
    have := h.serial_lt x hx
    have := List.mem_singleton.mp hx'
    omega
  · rw [hserials]
    intro x hx
    rcases List.mem_append.mp hx with hx | hx
    · exact Nat.lt_succ_of_lt (h.serial_lt x hx)
    · rw [List.mem_singleton.mp hx]
      exact Nat.lt_succ_self _

theorem UpToDate.join (h : c.UpToDate s a) (spec : NodeSpec) :
    ((join spec).run c).2.UpToDate s a := by
  let m := Member.start spec c.nextSerial c.elapsed (.fresh spec.dynamicDurable)
    (.fresh spec.staticDurable)
  have hrun : ((Cluster.join spec).run c).2 =
    { c with members := c.members ++ [m], nextSerial := c.nextSerial + 1 } := rfl
  have hm : [m].find? (·.serial = a.serial) = none := by
    simp [m, Member.start, serial_ne_nextSerial h]
  have ho := h.orderly.join spec
  rw [hrun] at ho ⊢
  refine h.carry ho rfl (fun _ => id) ?_
  rw [upkeep?, List.find?_append, hm, Option.or_none]
  rfl

theorem find?_map_replace {n t : Nat} {new : Member} (hn : n ≠ t) (hnew : new.serial ≠ t)
    (ms : List Member) : (ms.map fun m => if m.serial = n then new else m).find? (·.serial = t) =
      ms.find? (·.serial = t) := by
  induction ms with
  | nil => rfl
  | cons m ms ih =>
    by_cases hm : m.serial = n
    · simp [hm, hn, hnew, ih]
    · simp [hm, List.find?_cons, ih]

theorem find?_map_replace_self {n : Nat} {new : Member} (hnew : new.serial ≠ n) (ms : List Member) :
    (ms.map fun m => if m.serial = n then new else m).find? (·.serial = n) = none := by
  refine List.find?_eq_none.mpr fun m hm => ?_
  obtain ⟨m', -, rfl⟩ := List.mem_map.mp hm
  rw [decide_eq_true_eq]
  split_ifs with h
  · exact hnew
  · exact h

theorem map_serial_replace (n : Nat) (new : Member) (ms : List Member) :
    (ms.map fun m => if m.serial = n then new else m).map (·.serial) =
      (ms.map (·.serial)).map fun x => if x = n then new.serial else x := by
  rw [List.map_map, List.map_map]
  exact List.map_congr_left fun m _ => apply_ite Member.serial ..

/-- Begins the run of a stopped node again. -/
def relaunch (n : Nat) (c : Cluster) : Cluster :=
  match c.memberAt? n with
  | none => c
  | some old =>
    { c with
      members := c.members.map fun m => if m.serial = n then
        .start old.spec c.nextSerial c.elapsed old.node.dynamic.engine.medium.reopened
          old.node.static.engine.medium.reopened else m
      retired := c.retired ++ [old]
      nextSerial := c.nextSerial + 1 }

theorem run_restart (n : Nat) (c : Cluster) : ((restart n).run c).2 = relaunch n
    ((Cluster.stop ⟨n, .static⟩).run ((Cluster.stop ⟨n, .dynamic⟩).run c).2).2 := by
  rw [Cluster.restart]
  simp only [StateT.run_bind, StateT.run_modify]
  rw [relaunch]
  rfl

theorem Orderly.relaunch (h : c.Orderly) (n : Nat) : (relaunch n c).Orderly := by
  have hlt := h.serial_lt
  rw [Cluster.relaunch]
  cases c.memberAt? n with
  | none => exact h
  | some old =>
    constructor
    · rw [map_serial_replace]
      refine h.nodup.map_on fun x hx y hy hxy => ?_
      have := hlt x hx
      have := hlt y hy
      change (if x = n then c.nextSerial else x) = if y = n then c.nextSerial else y at hxy
      split_ifs at hxy <;> omega
    · rw [map_serial_replace]
      intro x hx
      obtain ⟨y, hy, rfl⟩ := List.mem_map.mp hx
      have := hlt y hy
      change (if y = n then c.nextSerial else y) < c.nextSerial + 1
      split_ifs <;> omega

/-- Another node begins again. -/
theorem UpToDate.restart {n : Nat} (h : c.UpToDate s a) (hn : n ≠ a.serial) :
    ((restart n).run c).2.UpToDate s a := by
  have hside (side : Side) : (⟨n, side⟩ : Address) ≠ a := fun h => hn (congrArg Address.serial h)
  have h₂ := (h.stop (hside .dynamic)).stop (hside .static)
  rw [run_restart]
  generalize ((Cluster.stop ⟨n, .static⟩).run ((Cluster.stop ⟨n, .dynamic⟩).run c).2).2 = c₂ at h₂
  have ho := h₂.orderly.relaunch n
  rw [relaunch] at ho ⊢
  cases hm : c₂.memberAt? n with
  | none => exact h₂
  | some old =>
    rw [hm] at ho
    refine h₂.carry ho rfl (fun _ => id) ?_
    rw [upkeep?, find?_map_replace hn (serial_ne_nextSerial h₂)]
    rfl

end Cluster

open Cluster

/-- What may happen in a cluster. -/
inductive Move
  | turn (b : Address) (t : Turn)
  | request (n : Nat) (now : Instant) (q : Node.Request)
  | receivePush (n : Nat) (now : Instant) (name : String) (entries : List WireEntry)
  | servePull (n : Nat) (name : String)
  /-- Something befalls an engine: it loses rows, or is to fail. -/
  | upset (b : Address) (f : Engine → Engine)
  | pass (ms : Nat)
  | sync (b : Address) (peer : String)
  | antiEntropy (b : Address)
  | stop (b : Address)
  | join (spec : NodeSpec)
  | restart (n : Nat)
  | setPeers (n : Nat) (peers : List String)
  | setRoute (r : Route)
  | setClock (now : Instant)
  | takeLog
  | takeSent

namespace Move

/-- What the caller of a node that is not there sees. -/
def absent : Status := ⟨.unknown, ""⟩

def run : Move → Sim Unit
  | turn b t => t.run b
  | request n now q => discard (onNode n absent ((q.serve now).run.run ·))
  | receivePush n now name entries => discard (onNode n absent (Node.receivePush now name entries))
  | servePull n name => discard (onNode n absent (Node.servePull name))
  | upset b f => modify (·.mapReplica b fun r => { r with engine := f r.engine })
  | pass ms => Cluster.pass ms
  | sync b peer => discard (Cluster.sync b peer)
  | antiEntropy b => discard (Cluster.antiEntropy b)
  | stop b => Cluster.stop b
  | join spec => Cluster.join spec
  | restart n => Cluster.restart n
  | setPeers n peers => Cluster.setPeers n peers
  | setRoute r => modify (·.setRoute r)
  | setClock now => modify ({ · with clock := now })
  | takeLog => discard Cluster.takeLog
  | takeSent => discard Cluster.takeSent

/-- The moves that stop a store. -/
def Stops (a : Address) : Move → Prop
  | stop b => b = a
  | restart n => n = a.serial
  | _ => False

end Move

namespace Cluster

variable {s : Settings} {a : Address} {c : Cluster}

theorem UpToDate.turn (h : c.UpToDate s a) (b : Address) (t : Turn) :
    ((t.run b).run c).2.UpToDate s a := by
  have hop {α : Type} {op : Op Replica α} (hs : Replica.Steady op) :
      ((onReplica b op).run c).2.UpToDate s a := h.of_spares (spares_onReplica hs b a c)
  have hsteady := Replica.aloof_standing.pervasive
  cases t with
  | hears peer batch result => exact h.of_spares ((quiet_finishPush b peer batch result c).spares a)
  | does o =>
    cases o with
    | put now key value maxAge => exact hop (hsteady.put now key value maxAge)
    | delete now key => exact hop (hsteady.delete now key)
    | lookup now key => exact hop (hsteady.lookup now key)
    | live now => exact hop (hsteady.live now)
    | snapshot => exact hop hsteady.engineGetAll
    | merge now batch => exact hop (hsteady.mergeFrom now {} batch)
    | absorb now peer pulled => exact hop (Replica.silent_absorb now peer pulled).steady
    | sweep now =>
      exact h.of_spares
        ((quiet_mapReplica (f := Replica.sweepOnce now) (fun _ => rfl) b c).spares a)
    | drain => exact (Attended.drain h b).upToDate (frame_drain h.orderly b a).1.elapsed

theorem spares_takeLog (a : Address) (c : Cluster) : Spares a c (takeLog.run c).2 := by
  refine ⟨⟨rfl, ?_, fun _ => id⟩, ?_⟩
  · exact congrArg (·, c.nextSerial) List.map_map
  · have hrun : (takeLog.run c).2.upkeep? a = ((c.members.map fun m : Member =>
      { m with node := m.node.clearReports }).find? (·.serial = a.serial)).map (·.upkeep a.side) := rfl
    rw [hrun, List.find?_map, Option.map_map]
    refine Option.map_congr fun m _ => ?_
    cases a.side <;> rfl

theorem UpToDate.move (h : c.UpToDate s a) {m : Move} (hm : ¬ m.Stops a) :
    (m.run.run c).2.UpToDate s a := by
  cases m with
  | turn b t => exact h.turn b t
  | request n now q =>
    exact h.of_spares (spares_onNode (fun m side => Node.steady_serve now q side m) n _ a c)
  | receivePush n now name entries =>
    exact h.of_spares ((quiet_onNode (Replica.blind_outlet.receivePush now name entries) n _ c).spares a)
  | servePull n name => exact h.of_spares ((quiet_onNode (Replica.blind_outlet.servePull name) n _ c).spares a)
  | upset b f =>
    exact h.of_spares ((quiet_mapReplica (f := fun r => { r with engine := f r.engine })
      (fun _ => rfl) b c).spares a)
  | pass ms => exact h.pass ms
  | sync b peer => exact h.sync b peer
  | antiEntropy b => exact h.antiEntropy b
  | stop b => exact h.stop hm
  | join spec => exact h.join spec
  | restart n => exact h.restart hm
  | setPeers n peers =>
    exact h.of_spares (spares_mapMember (g := fun m => { m with peers }) (fun _ => rfl) fun _ _ _ => rfl)
  | setRoute r => exact h.of_spares ⟨⟨rfl, rfl, fun _ => id⟩, rfl⟩
  | setClock now => exact h.of_spares ⟨⟨rfl, rfl, fun _ => id⟩, rfl⟩
  | takeLog => exact h.of_spares (spares_takeLog a c)
  | takeSent => exact h.of_spares ⟨⟨rfl, rfl, fun _ => id⟩, rfl⟩

/-! A store from its start to its stop. -/

structure Started (s : Settings) (a : Address) (c : Cluster) : Prop where
  orderly : c.Orderly
  upkeep : c.upkeep? a = some ⟨⟨s, true⟩, .start c.elapsed s⟩

/-- Both stores of a node that joins start. -/
theorem started_join (hc : c.Orderly) (spec : NodeSpec) (side : Side) :
    ((join spec).run c).2.Started spec.settings ⟨c.nextSerial, side⟩ := by
  refine ⟨hc.join spec, ?_⟩
  have hnone := hc.find?_nextSerial
  let m := Member.start spec c.nextSerial c.elapsed (.fresh spec.dynamicDurable)
    (.fresh spec.staticDurable)
  have hfound : [m].find? (·.serial = c.nextSerial) = some m := by simp [m, Member.start]
  change Option.map (·.upkeep side) ((c.members ++ [m]).find? (·.serial = c.nextSerial)) = _
  rw [List.find?_append, hnone, Option.none_or, hfound]
  cases side <;> rfl

/-- What a cluster comes to while a store goes on. -/
inductive Onward (a : Address) (c₀ : Cluster) : Cluster → Prop
  | refl : Onward a c₀ c₀
  | move {c : Cluster} (h : Onward a c₀ c) (m : Move) (hm : ¬ m.Stops a) : Onward a c₀ (m.run.run c).2

theorem Started.upToDate (h : c.Started s a) : c.UpToDate s a := by
  have hlate {d : Span} {t : Ticker} (ht : t ∈ Ticker.start? c.elapsed d) : c.elapsed ≤ t.due := by
    unfold Ticker.start? at ht
    split_ifs at ht
    · contradiction
    · cases ht
      exact Nat.le_add_right _ _
  refine ⟨h.orderly, _, h.upkeep, ?_, fun t ht => hlate ht, .inr fun t ht => hlate ht⟩
  exact ⟨rfl, fun _ => rfl, rfl, OnBeat.start _ _, OnBeat.start _ _, fun h => absurd h Bool.false_ne_true⟩

theorem Onward.upToDate {c₀ : Cluster} (h : Onward a c₀ c) (h₀ : c₀.Started s a) : c.UpToDate s a := by
  induction h with
  | refl => exact h₀.upToDate
  | move _ m hm ih => exact ih.move hm

end Cluster

/-- A replicator takes what is queued. A task with a beat has its next one due within a period from
now, and not before now unless a pull is under way, which ends within its timeout. -/
def Upkeep.AtWork (u : Upkeep) (a : Address) (c : Cluster) : Task → Prop
  | .replicator => u.standing.isOpen
  | .antiEntropy => ∃ t, u.timers.patrol = some t ∧
      OnBeat u.standing.settings.antiEntropyInterval c.elapsed (some t) ∧ (c.elapsed ≤ t.due ∨
        ∃ call ∈ c.calls, call.IsPatrolOf a ∧ c.elapsed ≤ call.wake ∧
          call.wake ≤ c.elapsed + u.standing.settings.peerTimeout.ceilMillis)
  | .sweep => ∃ t, u.timers.sweep = some t ∧
      OnBeat u.standing.settings.gcInterval c.elapsed (some t) ∧ c.elapsed ≤ t.due

/-- A task of a store that has not been stopped is at work. -/
def Cluster.AtWork (a : Address) (c : Cluster) (task : Task) : Prop :=
  ∃ u, c.upkeep? a = some u ∧ u.timers.running ∧ u.AtWork a c task

theorem Cluster.UpToDate.atWork {s : Settings} {a : Address} {c : Cluster} {task : Task}
    (h : c.UpToDate s a) (hk : s.keepsRunning task) : c.AtWork a task := by
  obtain ⟨u, hu, hsound, hprompt⟩ := h.upkeep
  refine ⟨u, hu, hsound.running, ?_⟩
  have hset := hsound.settings
  subst hset
  cases task with
  | replicator => exact hsound.isOpen hk
  | antiEntropy =>
    obtain ⟨t, ht⟩ := hsound.patrol.exists_ticker (of_decide_eq_true hk)
    refine ⟨t, ht, ht ▸ hsound.patrol, ?_⟩
    rcases hprompt.patrol with hpatrolling | hdue
    · obtain ⟨call, hin, hcall, hle⟩ := hsound.patrolling hpatrolling
      obtain ⟨hin, hlo⟩ := hin.resolve_left List.not_mem_nil
      exact .inr ⟨call, hin, hcall, hlo, hle⟩
    · exact .inl (hdue t ht)
  | sweep =>
    obtain ⟨t, ht⟩ := hsound.sweep.exists_ticker (of_decide_eq_true hk)
    exact ⟨t, ht, ht ▸ hsound.sweep, hprompt.sweep t ht⟩

namespace Settings

variable {s : Settings} {task : Task}

/-- A task of a store with these settings is at work from the start of the store to its stop, whatever
happens there and to the other nodes. -/
def Sustains (s : Settings) (task : Task) : Prop :=
  ∀ a c₀ c, Cluster.Started s a c₀ → Cluster.Onward a c₀ c → c.AtWork a task

def nobody : Cluster where
  clock := 5
  wire := false

/-- A node that is alone. -/
def hermit (s : Settings) : Cluster := ((join (loneSpec s)).run nobody).2

theorem started_hermit (s : Settings) : Cluster.Started s ⟨0, .dynamic⟩ (hermit s) :=
  Cluster.started_join (c := nobody) ⟨List.nodup_nil, nofun⟩ (loneSpec s) .dynamic

theorem start?_eq_some {now : Nat} {d : Span} {t : Ticker} (h : Ticker.start? now d = some t) :
    d.nanos ≠ 0 := by
  intro hd
  rw [Ticker.start?, dif_pos hd] at h
  contradiction

theorem sustains_iff : s.Sustains task ↔ s.keepsRunning task := by
  constructor
  · intro h
    have hc := started_hermit s
    cases task with
    | replicator =>
      let drain : Move := .turn ⟨0, .dynamic⟩ (.does .drain)
      obtain ⟨u, hu, -, hwork⟩ := h _ _ _ hc (.move .refl drain id)
      have hu' := (Cluster.frame_drain hc.orderly ⟨0, .dynamic⟩ ⟨0, .dynamic⟩).2
      rw [if_pos rfl, hc.upkeep] at hu'
      cases hu.symm.trans hu'
      exact hwork
    | antiEntropy =>
      obtain ⟨u, hu, -, t, ht, -⟩ := h _ _ _ hc .refl
      cases hu.symm.trans hc.upkeep
      exact decide_eq_true (start?_eq_some ht)
    | sweep =>
      obtain ⟨u, hu, -, t, ht, -⟩ := h _ _ _ hc .refl
      cases hu.symm.trans hc.upkeep
      exact decide_eq_true (start?_eq_some ht)
  · intro hk a c₀ c h₀ h
    exact (h.upToDate h₀).atWork hk

end Settings

/-- A node set up in this way can start both its stores, and all their tasks go on until they are
stopped. -/
def Config.Runs (c : Config) : Prop :=
  ∀ s ∈ [c.dynamicStore, c.staticStore], s.canStart ∧ ∀ task, s.Sustains task

namespace Config

theorem nanos_ofMillis (n : UInt64) : (Span.ofMillis n.toNat).nanos ≠ 0 ↔ n ≠ 0 := by
  rw [Span.ofMillis, Nat.mul_ne_zero_iff, ne_eq, ne_eq, ne_eq, ← UInt64.toNat_inj]
  simp

theorem runs_iff (c : Config) : c.Runs ↔
    c.antiEntropyInterval ≠ 0 ∧ c.sweepInterval ≠ 0 ∧ c.gcInterval ≠ 0 ∧
      c.queueSize.toNat ≤ Settings.maxQueueCapacity ∧
      max 1 c.maxBatchSize.toNat * Settings.entrySize ≤ Settings.maxAllocation := by
  have hstore (interval : UInt64) :
      ((c.storeSettings interval).canStart ∧ ∀ task, (c.storeSettings interval).Sustains task) ↔
        c.queueSize.toNat ≤ Settings.maxQueueCapacity ∧
          max 1 c.maxBatchSize.toNat * Settings.entrySize ≤ Settings.maxAllocation ∧
          c.antiEntropyInterval ≠ 0 ∧ interval ≠ 0 := by
    have hstart : (c.storeSettings interval).canStart ↔
        c.queueSize.toNat ≤ Settings.maxQueueCapacity := by
      change decide (max 1 c.queueSize.toNat ≤ 0x1FFFFFFFFFFFFFFF) = true ↔ _ ≤ 0x1FFFFFFFFFFFFFFF
      rw [decide_eq_true_iff]
      omega
    have hbatch : (c.storeSettings interval).keepsRunning .replicator ↔
        max 1 c.maxBatchSize.toNat * Settings.entrySize ≤ Settings.maxAllocation := decide_eq_true_iff
    have hpull : (c.storeSettings interval).keepsRunning .antiEntropy ↔ c.antiEntropyInterval ≠ 0 :=
      decide_eq_true_iff.trans (nanos_ofMillis _)
    have hsweep : (c.storeSettings interval).keepsRunning .sweep ↔ interval ≠ 0 :=
      decide_eq_true_iff.trans (nanos_ofMillis _)
    rw [hstart, ← hbatch, ← hpull, ← hsweep]
    simp only [Settings.sustains_iff]
    refine and_congr_right fun _ => ⟨fun h => ⟨h _, h _, h _⟩, fun h task => ?_⟩
    cases task with
    | replicator => exact h.1
    | antiEntropy => exact h.2.1
    | sweep => exact h.2.2
  rw [Runs, List.forall_mem_cons, List.forall_mem_singleton, dynamicStore, staticStore, hstore, hstore]
  tauto

/-- The least interval between sweeps that can be set. -/
def restless : Config := { standard with sweepInterval := 0 }

theorem not_runs_restless :
    load .notAsked [("DISCOVERY_DYNAMIC__SWEEP_INTERVAL_MS", "0")] = .ok restless ∧ ¬ restless.Runs := by
  refine ⟨by decide +kernel, fun h => ?_⟩
  have hsweep := (h restless.dynamicStore (List.mem_cons_self ..)).2 .sweep
  exact absurd (Settings.sustains_iff.mp hsweep) (by decide)

end Config

end ServiceDirectory
