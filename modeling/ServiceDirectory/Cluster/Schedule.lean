import ServiceDirectory.Cluster

namespace ServiceDirectory

def Errand.isPatrol : Errand → Bool
  | push _ => false
  | patrol => true

/-- When a store's timers next want to be looked at. -/
def Timers.dueTimes (t : Timers) : List Nat :=
  if t.running then t.sweep.toList.map (·.due) ++ t.patrol.toList.map (·.due) else []

namespace Cluster

def addresses (c : Cluster) : List Address :=
  c.members.flatMap fun m => [⟨m.serial, .dynamic⟩, ⟨m.serial, .static⟩]

def timers? (c : Cluster) (a : Address) : Option Timers := (c.memberAt? a.serial).map (·.timers a.side)

/-- How a call from a member's store to a peer would go on if it began now. -/
def contact (c : Cluster) (m : Member) (side : Side) (peer : String) : Contact :=
  (c.mode m.spec.endpoint peer).contact peer (m.node.replica side).settings.peerTimeout

/-- Leaves a call under way for `ms` milliseconds. -/
def await (ms : Nat) (getsThrough : Bool) (a : Address) (store peer : String) (errand : Errand) :
    Sim Unit :=
  modify fun c =>
    let call := { wake := c.elapsed + ms, getsThrough, caller := a, store, peer, errand }
    { c with calls := c.calls ++ [call] }

/-- Sends a batch to one peer. -/
def push (a : Address) (m : Member) (batch : List Entry) (peer : String) : Sim Unit := do
  let store := (m.node.replica a.side).name
  modify fun c => { c with sent := c.sent ++ [⟨m.spec.endpoint, peer, store, batch⟩] }
  match (← get).contact m a.side peer with
  | .through => finishPush a peer batch (← deliver store peer batch)
  | .failed f => finishPush a peer batch (.error f)
  | .later ms getsThrough => await ms getsThrough a store peer (.push batch)

/-- Sends what waits in a store's outbox, each batch to every peer of the moment. -/
def drain (a : Address) : Sim Unit := do
  match (← get).memberAt? a.serial with
  | none => return ()
  | some m =>
    let (batches, r) := (m.node.replica a.side).drain
    modify (·.mapReplica a fun _ => r)
    batches.forM fun batch => m.peers.forM (push a m batch)

/-- Begins a scheduled pull from a peer, and ends it unless it has to wait. Whether it ended. -/
def patrol (a : Address) : Sim Bool := do
  match (← get).memberAt? a.serial with
  | none => return true
  | some m =>
    match m.peers.head? with
    | none => return true
    | some peer =>
      let store := (m.node.replica a.side).name
      match (← get).contact m a.side peer with
      | .through =>
        discard <| finishPatrol a peer (← fetch store peer)
        return true
      | .failed f =>
        discard <| finishPatrol a peer (.error f)
        return true
      | .later ms getsThrough =>
        await ms getsThrough a store peer .patrol
        modify (·.mapTimers a ({ · with patrolling := true }))
        return false

/-- Pulls at every beat that is due, until one pull has to wait. -/
def patrols (a : Address) (now : Nat) (t : Ticker) : Sim Unit := do
  if t.due ≤ now then
    modify (·.mapTimers a ({ · with patrol := some (t.beat now) }))
    if ← patrol a then patrols a now (t.beat now)
termination_by now + 1 - t.due
decreasing_by
  have := t.due_lt_beat now
  omega

/-- Sweeps at every beat that is due. -/
def sweeps (a : Address) (now : Nat) (t : Ticker) : Sim Unit := do
  if t.due ≤ now then
    modify fun c =>
      (c.mapTimers a ({ · with sweep := some (t.beat now) })).mapReplica a (Replica.sweepOnce c.clock)
    sweeps a now (t.beat now)
termination_by now + 1 - t.due
decreasing_by
  have := t.due_lt_beat now
  omega

/-- Does the background work of a store that is due. -/
def tick (a : Address) : Sim Unit := do
  match (← get).timers? a with
  | none => return ()
  | some t =>
    if t.running then
      let now := (← get).elapsed
      t.sweep.forM (sweeps a now)
      unless t.patrolling do t.patrol.forM (patrols a now)

/-- Ends a call whose time has come. -/
def complete (call : Call) : Sim Unit := do
  match call.errand with
  | .push batch =>
    let result ←
      if call.getsThrough then deliver call.store call.peer batch else pure (.error .timeout)
    finishPush call.caller call.peer batch result
  | .patrol =>
    let pulled ←
      if call.getsThrough then fetch call.store call.peer else pure (.error .timeout)
    discard <| finishPatrol call.caller call.peer pulled
    modify (·.mapTimers call.caller ({ · with patrolling := false }))

/-- Does all that is due by now. -/
def runDue : Sim Unit := do
  let now := (← get).elapsed
  let (due, calls) := (← get).calls.partition (·.wake ≤ now)
  modify ({ · with calls })
  due.forM complete
  (← get).addresses.forM tick

/-- When something is next to be done, after now and before `goal`. -/
def nextDue? (c : Cluster) (goal : Nat) : Option Nat :=
  ((c.calls.map (·.wake) ++ (c.addresses.filterMap c.timers?).flatMap Timers.dueTimes).filter
    fun t => c.elapsed < t ∧ t < goal).min?

theorem lt_of_nextDue? {c : Cluster} {goal t : Nat} (h : c.nextDue? goal = some t) :
    c.elapsed < t ∧ t < goal := by
  simpa using (List.mem_filter.1 (List.min?_mem h)).2

/-- Goes from one time at which something is due to the next, up to `goal`. What is due at `goal`
itself is left until more time passes. -/
def passUntil (goal : Nat) (c : Cluster) : Cluster :=
  match _h : c.nextDue? goal with
  | none => { c with elapsed := goal }
  | some t => passUntil goal { (runDue.run { c with elapsed := t }).2 with elapsed := t }
termination_by goal - c.elapsed
decreasing_by
  have := lt_of_nextDue? _h
  omega

/-- Lets time pass. What is due already is done and what waits in the outboxes is sent before any
passes. -/
def pass (ms : Nat) : Sim Unit := do
  unless ms = 0 do
    runDue
    (← get).addresses.forM drain
    modify fun c => passUntil (c.elapsed + ms) c

/-- Pulls from a peer, and waits as long as that takes. -/
def pull (a : Address) (peer : String) : Sim (Except Failure (List Entry)) := do
  match (← get).memberAt? a.serial with
  | none => return .error .notFound
  | some m =>
    let store := (m.node.replica a.side).name
    match (← get).contact m a.side peer with
    | .through => fetch store peer
    | .failed f => return .error f
    | .later ms getsThrough =>
      pass ms
      if getsThrough then fetch store peer else return .error .timeout

/-- Pulls and merges all that a peer holds. -/
def sync (a : Address) (peer : String) : Sim (Except Failure MergeOutcome) := do
  let pulled ← pull a peer
  onReplica a (Replica.absorb (← get).clock peer pulled)

/-- One round of anti-entropy with a peer, outside the schedule. Nothing comes of it without a peer
or after a failure. -/
def antiEntropy (a : Address) : Sim (Option MergeOutcome) := do
  match ((← get).memberAt? a.serial).bind (·.peers.head?) with
  | none => return none
  | some peer => finishPatrol a peer (← pull a peer)

/-- Stops a store; a scheduled pull that is under way is waited for. -/
def stop (a : Address) : Sim Unit := do
  modify (·.mapTimers a ({ · with running := false }))
  match (← get).calls.find? fun call => call.caller = a ∧ call.errand.isPatrol with
  | none => pure ()
  | some call =>
    pass (call.wake - (← get).elapsed)
    runDue
  modify (·.mapReplica a Replica.stop)

/-- Starts a node on the given media. -/
def launch (spec : NodeSpec) (dynamic static : Medium) (c : Cluster) : Member × Cluster :=
  (Member.start spec c.nextSerial c.elapsed dynamic static, { c with nextSerial := c.nextSerial + 1 })

def join (spec : NodeSpec) : Sim Unit := modify fun c =>
  let (m, c) := c.launch spec (.fresh spec.dynamicDurable) (.fresh spec.staticDurable)
  { c with members := c.members ++ [m] }

/-- Stops a node and starts it again with what its media kept. -/
def restart (serial : Nat) : Sim Unit := do
  stop ⟨serial, .dynamic⟩
  stop ⟨serial, .static⟩
  modify fun c =>
    match c.memberAt? serial with
    | none => c
    | some old =>
      let (new, c) := c.launch old.spec old.node.dynamic.engine.medium.reopened
        old.node.static.engine.medium.reopened
      { c with
        members := c.members.map fun m => if m.serial = serial then new else m
        retired := c.retired ++ [old] }

def setPeers (serial : Nat) (peers : List String) : Sim Unit :=
  modify (·.mapMember serial ({ · with peers }))

/-- What was reported since the last time. -/
def takeLog : Sim (List Event) := fun c =>
  let clear := fun m : Member => { m with node := m.node.clearReports }
  ((c.members ++ c.retired).flatMap (·.node.reports),
    { c with members := c.members.map clear, retired := c.retired.map clear })

/-- What was sent since the last time. -/
def takeSent : Sim (List Push) := fun c => (c.sent, { c with sent := [] })

end Cluster

end ServiceDirectory
