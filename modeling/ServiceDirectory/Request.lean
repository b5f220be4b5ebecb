import ServiceDirectory.Node

namespace ServiceDirectory

/-- A step of a node that answers a caller, with a value or with a status that tells why not. -/
abbrev Handler (α : Type) := ExceptT Status (StateM Node) α

structure OfferRequest where
  id : String
  kind : String
  properties : Properties

structure AnnounceRequest where
  nodeId : String
  environment : String
  pool : String
  location : Option String
  services : List OfferRequest

structure QueryRequest where
  kind : Option String
  pool : Option String

def Status.invalid (message : String) : Status := ⟨.invalidArgument, message⟩

/-- Reads an id that a caller gave as its `what`. -/
def Uuid.ofRequest (what raw : String) : Except Status Uuid :=
  match Uuid.parse? raw with
  | some id => .ok id
  | none => .error (.invalid ("invalid " ++ what ++ ": '" ++ raw ++ "'"))

def OfferRequest.toOffer (o : OfferRequest) : Except Status Offer := do
  return { id := ← Uuid.ofRequest "service id" o.id, kind := o.kind, properties := o.properties }

namespace Node

def checkEnvironment (n : Node) (provided : String) : Except Status Unit :=
  if provided = n.environment then .ok ()
  else .error (.invalid
    ("environment mismatch: expected '" ++ n.environment ++ "', provided '" ++ provided ++ "'"))

/-- Runs a step of one store for a caller. -/
def atSide {α : Type} (side : Side) (op : Op Replica α) : Handler α :=
  ExceptT.mk fun n => (((n.onSide side op).1.mapError Failure.toStatus), (n.onSide side op).2)

/-- Counts a request by its answer; none takes time of its own. -/
def monitored {α : Type} (kind : RequestKind) (h : Handler α) : Handler α :=
  ExceptT.mk fun n =>
    let (result, n) := h.run.run n
    let (stats, event) := InFlight.close ⟨kind, ⟨0⟩⟩ ⟨0⟩ (.ofResult result) n.stats
    (result, { n with stats, log := n.log ++ [event] })

def announceBy (clock : Readings) (req : AnnounceRequest) : Handler (List Service) :=
  monitored .announce do
    let node ← Uuid.ofRequest "node_id" req.nodeId
    checkEnvironment (← get) req.environment
    let services ← (req.services.mapM OfferRequest.toOffer : Except Status _)
    atSide .dynamic <| DynamicView.putBy clock (← get).dynamicMaxAge node
      { environment := req.environment, pool := req.pool, location := req.location, services }

def withdrawBy (clock : Readings) (nodeId : String) : Handler Unit :=
  monitored .withdraw do
    let node ← Uuid.ofRequest "node_id" nodeId
    unless ← atSide .dynamic (DynamicView.deleteBy clock node) do
      throw ⟨.notFound, "no announcement for node " ++ node.text⟩

/-- Registers a service under the id `fresh`, which no other has. -/
def register (now : Instant) (fresh : Uuid) (req : Registration) : Handler Service :=
  monitored .register do
    checkEnvironment (← get) req.environment
    if let some flaw := req.flaw? then throw flaw.toFailure.toStatus
    let service := req.toService fresh
    atSide .static (StaticView.put now service)
    return service

def listRegistered (now : Instant) : Handler (List Service) :=
  monitored .listRegistered (atSide .static (StaticView.all now))

def unregisterBy (clock : Readings) (id : String) : Handler Bool :=
  monitored .unregister do
    let id ← Uuid.ofRequest "id" id
    atSide .static (StaticView.deleteBy clock id)

/-- An answer of one store that is not looked at until the other store has answered too. -/
def outcome {α : Type} (h : Handler α) : Handler (Except Status α) :=
  ExceptT.mk fun n => (.ok (h.run.run n).1, (h.run.run n).2)

/-- The services of both stores, the dynamic ones first. Both are read even if one fails. -/
def both (dynamic static : Op Replica (List Service)) : Handler (List Service) := do
  let d ← outcome (atSide .dynamic dynamic)
  let s ← outcome (atSide .static static)
  return (← MonadExcept.ofExcept d) ++ (← MonadExcept.ofExcept s)

/-- An empty text asks for nothing in particular. Each store is read at a time of its own. -/
def queryBy (clock : Readings) (req : QueryRequest) : Handler (List Service) :=
  monitored .query do
    let pool := req.pool.filter (· ≠ "")
    match req.kind.filter (· ≠ "") with
    | some kind =>
      both (DynamicView.ofKind (clock 0) kind pool) (StaticView.ofKind (clock 1) kind pool)
    | none =>
      let services ← both (DynamicView.all (clock 0)) (StaticView.all (clock 1))
      return services.filter fun s => pool.all (s.pool == ·)

/-! Requests that are served while the clock stands still. -/

def announce (now : Instant) : AnnounceRequest → Handler (List Service) := announceBy (.still now)

def withdraw (now : Instant) : String → Handler Unit := withdrawBy (.still now)

def unregister (now : Instant) : String → Handler Bool := unregisterBy (.still now)

def query (now : Instant) : QueryRequest → Handler (List Service) := queryBy (.still now)

end Node

end ServiceDirectory
