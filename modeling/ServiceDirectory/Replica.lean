import ServiceDirectory.Engine.Sweep
import ServiceDirectory.Entry.Order
import ServiceDirectory.Replica.Settings

namespace ServiceDirectory

/-- Local writes on their way to the peers, oldest first. -/
structure Outbox where
  waiting : List Entry := []
  /-- A closed outbox takes nothing any more. -/
  isOpen : Bool := true

inductive Reach
  | reachable
  | unreachable
deriving DecidableEq

/-- One node's copy of a named store. -/
structure Replica where
  name : String
  nodeId : String
  settings : Settings
  engine : Engine
  outbox : Outbox := {}
  /-- How the last call to each peer went. -/
  health : Table String Reach := .empty
  log : List Event := []

/-- The version after `v`; the last one is followed by itself. -/
def nextVersion (v : UInt64) : UInt64 := if v + 1 = 0 then v else v + 1

/-- The entry that `origin` writes at `now` over what it holds. Version and timestamp both pass
those of `held` and reach the clock, so that a node which forgot its past still outranks it. -/
def Entry.over (held : Option Entry) (origin : String) (now : Instant) (key : Bytes)
    (value : Option Bytes) (maxAge : Option UInt64) : Entry where
  key := key
  value := value
  version := max (held.elim 1 fun h => nextVersion h.version) now.toVersion
  origin := origin
  timestamp := held.elim now fun h => now.latest h.timestamp.succ
  maxAge := maxAge

namespace Replica

def emit (r : Replica) (e : Event) : Replica := { r with log := r.log ++ [e] }

def emitAll (r : Replica) (es : List Event) : Replica := { r with log := r.log ++ es }

def start (name nodeId : String) (settings : Settings) (medium : Medium) : Replica :=
  emit { name, nodeId, settings, engine := { medium } } (.storeStarted name nodeId)

/-- Closes the outbox; what still waits in it is left to anti-entropy. -/
def stop (r : Replica) : Replica :=
  emit { r with outbox := { waiting := [], isOpen := false } } (.storeStopped r.name)

/-- Runs a step of the engine. -/
def onEngine {α : Type} (op : Op Engine α) : Op Replica α :=
  ExceptT.mk fun r => ((op.run.run r.engine).1, { r with engine := (op.run.run r.engine).2 })

def report (e : Event) : Op Replica Unit := modify (·.emit e)

def enqueue (r : Replica) (e : Entry) : Replica :=
  if !r.outbox.isOpen then r.emit (.notQueued r.name)
  else if r.outbox.waiting.length < r.settings.queueCapacity then
    { r with outbox := { r.outbox with waiting := r.outbox.waiting ++ [e] } }
  else r.emit (.queueFull r.name e.key)

/-- Writes over what is held. Gives what is now held and what was held before. -/
def write (now : Instant) (key : Bytes) (value : Option Bytes) (maxAge : Option UInt64) :
    Op Replica (Entry × Option Entry) := do
  let held ← onEngine (Engine.get key)
  let entry := Entry.over held (← get).nodeId now key value maxAge
  let winner := Entry.resolve held entry
  onEngine (Engine.put winner)
  if winner = entry then modify (·.enqueue entry)
  return (winner, held)

def put (now : Instant) (key value : Bytes) (maxAge : Option UInt64) : Op Replica Entry := do
  return (← write now key (some value) maxAge).1

/-- Leaves a tombstone. Whether what was there is live still by the clock's second reading, when the
tombstone is stored. -/
def deleteBy (clock : Readings) (key : Bytes) : Op Replica Bool := do
  return (← write (clock 0) key none none).2.any (·.isLive (clock 1))

/-- Leaves a tombstone. Whether a live entry was there. -/
def delete (now : Instant) (key : Bytes) : Op Replica Bool := deleteBy (.still now) key

def lookup (now : Instant) (key : Bytes) : Op Replica (Option Entry) := do
  return (← onEngine (Engine.get key)).filter (·.isLive now)

/-- All live entries, in key order. -/
def live (now : Instant) : Op Replica (List Entry) := do
  return (← onEngine Engine.getAll).filter (·.isLive now)

/-- All that is held, tombstones and expired entries too. -/
def snapshot : Op Replica (List Entry) := onEngine Engine.getAll

/-- Weighs one entry of a peer against what is held. -/
def mergeEntry (now : Instant) (e : Entry) : Op Replica Verdict := do
  match e.flaw? with
  | some flaw =>
    report (.malformedEntry (← get).name flaw)
    return .rejected
  | none =>
    if !e.isTombstone && e.isExpired now then return .ignored
    let held ← onEngine (Engine.get e.key)
    let winner := Entry.resolve held e
    if held = some winner then return .ignored
    onEngine (Engine.put winner)
    return .applied

def mergeFrom (now : Instant) (o : MergeOutcome) : List Entry → Op Replica MergeOutcome
  | [] => return o
  | e :: es => do mergeFrom now (o.count (← mergeEntry now e)) es

/-- Merges a batch in order; it ends at the first failure of the engine. -/
def merge (now : Instant) (batch : List Entry) : Op Replica MergeOutcome := mergeFrom now {} batch

/-- Notes how a call to a peer went. -/
def note (r : Replica) (peer : String) (ok : Bool) : Replica :=
  { r with health := r.health.insert peer (if ok then .reachable else .unreachable) }

/-- What is to be reported of a call to a peer: only a change, a first failure too. -/
def tiding? (r : Replica) (peer : String) (ok : Bool) : Option Event :=
  match r.health.get? peer, ok with
  | some .unreachable, true => some (.peerReachable r.name peer)
  | some .reachable, false | none, false => some (.peerUnreachable r.name peer)
  | _, _ => none

/-- Notes how a call to a peer went and reports it, where nothing comes between. The lock is held for
the note alone, so that of tasks that run side by side another may note something before the report. -/
def recordPeer (r : Replica) (peer : String) (ok : Bool) : Replica :=
  (r.note peer ok).emitAll (r.tiding? peer ok).toList

/-- What comes of a pull: the peer is noted, and what it sent is merged. -/
def absorb (now : Instant) (peer : String) (pulled : Except Failure (List Entry)) :
    Op Replica MergeOutcome := do
  modify (·.recordPeer peer pulled.isOk)
  merge now (← MonadExcept.ofExcept pulled)

/-- The same for a scheduled pull, where a failure is only reported. -/
def absorbRound (now : Instant) (peer : String) (pulled : Except Failure (List Entry)) (r : Replica) :
    Option MergeOutcome × Replica :=
  match (absorb now peer pulled).run.run r with
  | (.ok o, r) => (some o, r.emit (.pullMerged r.name peer o))
  | (.error f, r) => (none, r.emit (.pullFailed r.name peer f))

/-- What comes of a push. -/
def settlePush (peer : String) (entries : Nat) (result : Except Failure Unit) (r : Replica) : Replica :=
  match result with
  | .ok () => r.recordPeer peer true
  | .error f => (r.emit (.pushFailed r.name peer entries f)).recordPeer peer false

def sweepOnce (now : Instant) (r : Replica) : Replica :=
  let (_, events, engine) := r.engine.sweepOnce now r.settings.tombstoneMaxAge
  { r with engine, log := r.log ++ events }

/-- Parts of at most `n` elements each. -/
def batches {α : Type} (n : Nat) (l : List α) : List (List α) :=
  if _h : l = [] ∨ n = 0 then [] else l.take n :: batches n (l.drop n)
termination_by l.length
decreasing_by
  have : 0 < l.length := List.length_pos_iff.2 (fun h => _h (.inl h))
  simp only [List.length_drop]
  omega

/-- Empties the queue into batches, oldest write first. -/
def drain (r : Replica) : List (List Entry) × Replica :=
  if !r.outbox.isOpen then ([], r)
  else if r.settings.keepsRunning .replicator then
    (batches r.settings.batchLimit r.outbox.waiting,
      { r with outbox := { r.outbox with waiting := [] } })
  else ([], { r with outbox := { waiting := [], isOpen := false } })

end Replica

end ServiceDirectory
