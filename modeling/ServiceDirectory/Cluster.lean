import ServiceDirectory.Node.Exchange
import ServiceDirectory.Request

namespace ServiceDirectory

/-- What a node is started from, and started from again. -/
structure NodeSpec where
  id : String
  endpoint : String
  peers : List String
  dynamicDurable : Bool
  staticDurable : Bool
  dynamicName : String
  staticName : String
  dynamicMaxAge : Span
  settings : Settings
  environment : String

/-- The beats of one store's background work. -/
structure Timers where
  sweep : Option Ticker
  patrol : Option Ticker
  /-- A pull is under way; no other begins before it ends. -/
  patrolling : Bool := false
  /-- Until the store is stopped. -/
  running : Bool := true

def Timers.start (now : Nat) (s : Settings) : Timers where
  sweep := Ticker.start? now s.gcInterval
  patrol := Ticker.start? now s.antiEntropyInterval

/-- One run of a node, from its start to its stop. -/
structure Member where
  spec : NodeSpec
  /-- Tells the runs of a node apart. -/
  serial : Nat
  peers : List String
  node : Node
  dynamicTimers : Timers
  staticTimers : Timers

namespace Member

def timers (m : Member) : Side → Timers
  | .dynamic => m.dynamicTimers
  | .static => m.staticTimers

def setTimers (m : Member) (side : Side) (t : Timers) : Member :=
  match side with
  | .dynamic => { m with dynamicTimers := t }
  | .static => { m with staticTimers := t }

def start (spec : NodeSpec) (serial now : Nat) (dynamic static : Medium) : Member where
  spec := spec
  serial := serial
  peers := spec.peers
  node :=
    { environment := spec.environment, dynamicMaxAge := spec.dynamicMaxAge
      dynamic := Replica.start spec.dynamicName spec.id spec.settings dynamic
      static := Replica.start spec.staticName spec.id spec.settings static }
  dynamicTimers := .start now spec.settings
  staticTimers := .start now spec.settings

end Member

def Medium.fresh (isDurable : Bool) : Medium := if isDurable then .durable .empty else .volatile .empty

/-- How calls to a peer fare. -/
inductive Mode
  | up
  | down
  /-- Never answers. -/
  | hang
  /-- Takes its time, then is up. -/
  | delay (d : Span)
  | fail (f : Failure)

/-- How a call that begins now goes on. -/
inductive Contact
  | through
  | failed (f : Failure)
  /-- After so many milliseconds it gets through, or times out. -/
  | later (ms : Nat) (getsThrough : Bool)

/-- A call that gets through in no time does so whatever the timeout. -/
def Mode.contact (peer : String) (timeout : Span) : Mode → Contact
  | up => .through
  | down => .failed (.transport (peer ++ " is down"))
  | fail f => .failed f
  | hang => if timeout.ceilMillis = 0 then .failed .timeout else .later timeout.ceilMillis false
  | delay d =>
    if d.ceilMillis = 0 then .through
    else if d.ceilMillis ≤ timeout.ceilMillis then .later d.ceilMillis true
    else if timeout.ceilMillis = 0 then .failed .timeout
    else .later timeout.ceilMillis false

/-- Rules for the calls to a peer, from one endpoint or from any. -/
structure Route where
  from? : Option String
  peer : String
  mode : Mode

/-- One store of one run of a node. -/
structure Address where
  serial : Nat
  side : Side
deriving DecidableEq

inductive Errand
  | push (batch : List Entry)
  | patrol

/-- A background call that is under way. -/
structure Call where
  /-- When it gets through, or times out. -/
  wake : Nat
  getsThrough : Bool
  caller : Address
  store : String
  peer : String
  errand : Errand

/-- A push that was sent. -/
structure Push where
  sender : String
  receiver : String
  store : String
  entries : List Entry

/-- Nodes that share a wall clock, the network between them and the time that has passed. -/
structure Cluster where
  clock : Instant
  /-- Whether calls go through the peers' replication service or straight to their stores. -/
  wire : Bool
  elapsed : Nat := 0
  routes : List Route := []
  members : List Member := []
  /-- Runs that are over, whose last calls may still be under way. -/
  retired : List Member := []
  calls : List Call := []
  sent : List Push := []
  nextSerial : Nat := 0

abbrev Sim := StateM Cluster

namespace Cluster

def member? (c : Cluster) (endpoint : String) : Option Member :=
  c.members.find? (·.spec.endpoint = endpoint)

def memberAt? (c : Cluster) (serial : Nat) : Option Member :=
  (c.members ++ c.retired).find? (·.serial = serial)

def mapMember (c : Cluster) (serial : Nat) (f : Member → Member) : Cluster :=
  let g := fun m : Member => if m.serial = serial then f m else m
  { c with members := c.members.map g, retired := c.retired.map g }

def mapNode (c : Cluster) (serial : Nat) (f : Node → Node) : Cluster :=
  c.mapMember serial fun m => { m with node := f m.node }

def mapReplica (c : Cluster) (a : Address) (f : Replica → Replica) : Cluster :=
  c.mapNode a.serial fun n => n.setReplica a.side (f (n.replica a.side))

def mapTimers (c : Cluster) (a : Address) (f : Timers → Timers) : Cluster :=
  c.mapMember a.serial fun m => m.setTimers a.side (f (m.timers a.side))

def mode (c : Cluster) (sender peer : String) : Mode :=
  match c.routes.find? fun r => r.from? = some sender ∧ r.peer = peer with
  | some r => r.mode
  | none =>
    match c.routes.find? fun r => r.from? = none ∧ r.peer = peer with
    | some r => r.mode
    | none => .up

/-- The newest rule for a pair of endpoints counts. -/
def setRoute (c : Cluster) (r : Route) : Cluster := { c with routes := r :: c.routes }

/-- Runs a step of a node; without a node, nothing happens and `absent` is the answer. -/
def onNode {ε α : Type} (serial : Nat) (absent : ε) (step : Node → Except ε α × Node) :
    Sim (Except ε α) := fun c =>
  match c.memberAt? serial with
  | none => (.error absent, c)
  | some m => ((step m.node).1, c.mapNode serial fun _ => (step m.node).2)

def onReplica {α : Type} (a : Address) (op : Op Replica α) : Sim (Except Failure α) :=
  onNode a.serial .notFound fun n => n.onSide a.side op

/-- A store that is absent at its peer fails the call; so does a refusal by the peer's service. -/
def serve {α β : Type} (store peer : String) (direct : Replica → Except Failure α × Replica)
    (wired : Node → Except Status β × Node) (ofWire : β → α) : Sim (Except Failure α) := fun c =>
  match c.member? peer with
  | none => (.error (.transport ("unknown peer " ++ peer)), c)
  | some m =>
    if c.wire then
      let r := wired m.node
      (match r.1 with
        | .ok b => .ok (ofWire b)
        | .error s => .error (.transport (peer ++ ": " ++ s.message)),
        c.mapNode m.serial fun _ => r.2)
    else
      match m.node.sideNamed? store with
      | none => (.error (.transport ("unknown store '" ++ store ++ "'")), c)
      | some side =>
        let r := direct (m.node.replica side)
        (r.1, c.mapNode m.serial fun n => n.setReplica side r.2)

/-- Hands a batch to a peer. -/
def deliver (store peer : String) (batch : List Entry) : Sim (Except Failure Unit) := fun c =>
  (serve store peer (fun r => ((Replica.merge c.clock batch).run.run r).map (·.map fun _ => ()) id)
    (Node.receivePush c.clock store (batch.map Entry.toWire)) fun _ => ()) c

/-- Fetches all that a peer holds. -/
def fetch (store peer : String) : Sim (Except Failure (List Entry)) :=
  serve store peer (Replica.snapshot.run.run ·) (Node.servePull store) (·.map WireEntry.toEntry)

/-- Ends a push. -/
def finishPush (a : Address) (peer : String) (batch : List Entry) (result : Except Failure Unit) :
    Sim Unit :=
  modify (·.mapReplica a (Replica.settlePush peer batch.length result))

/-- Ends a scheduled pull; what it pulled is merged. -/
def finishPatrol (a : Address) (peer : String) (pulled : Except Failure (List Entry)) :
    Sim (Option MergeOutcome) := do
  let now := (← get).clock
  let r ← onNode a.serial () fun n =>
    let (o, r) := Replica.absorbRound now peer pulled (n.replica a.side)
    (.ok o, n.setReplica a.side r)
  return r.toOption.join

end Cluster

end ServiceDirectory
