import ServiceDirectory.View.Records

namespace ServiceDirectory.DynamicView

/-- The live services; what cannot be read is passed over and reported. -/
def all (now : Instant) : Op Replica (List Service) := do
  let entries ← Replica.live now
  modify (·.emitAll ((undecodableIn entries).map .undecodableDynamic))
  return servicesIn entries

def ofNode (now : Instant) (node : Uuid) : Op Replica (List Service) := do
  return (← all now).filter (·.nodeId = some node)

/-- With no pool given, in every pool. -/
def ofKind (now : Instant) (kind : String) (pool : Option String) : Op Replica (List Service) := do
  return (← all now).filter (·.isOf kind pool)

/-- Whether any of them was live. The clock is read twice for each. -/
def deleteAllBy (clock : Readings) : List Service → Op Replica Bool
  | [] => return false
  | s :: ss => do
    let one ← Replica.deleteBy clock s.key
    let others ← deleteAllBy (clock.skip 2) ss
    return one || others

def putAllBy (clock : Readings) (maxAge : Span) : List Service → Op Replica Unit
  | [] => return ()
  | s :: ss => do
    discard <| Replica.put (clock 0) s.key s.encode (some maxAge.millisWord)
    putAllBy (clock.skip 1) maxAge ss

/-- Makes the announcement all that the node offers: what it offered before and does not offer now
is deleted first. -/
def putBy (clock : Readings) (maxAge : Span) (node : Uuid) (a : NodeAnnouncement) :
    Op Replica (List Service) := do
  if let some flaw := a.flaw? then throw flaw.toFailure
  let services := a.toServices node
  let stale := (← ofNode (clock 0) node).filter fun s => !services.any (·.id = s.id)
  discard <| deleteAllBy (clock.skip 1) stale
  putAllBy (clock.skip (1 + 2 * stale.length)) maxAge services
  Replica.report (.announced node services.length)
  return services

/-- Whether any service of the node was live when it was deleted. -/
def deleteBy (clock : Readings) (node : Uuid) : Op Replica Bool := do
  deleteAllBy (clock.skip 1) (← ofNode (clock 0) node)

/-! The same while the clock stands still. -/

def deleteAll (now : Instant) : List Service → Op Replica Bool := deleteAllBy (.still now)

def putAll (now : Instant) : Span → List Service → Op Replica Unit := putAllBy (.still now)

def put (now : Instant) : Span → Uuid → NodeAnnouncement → Op Replica (List Service) :=
  putBy (.still now)

/-- Whether the node had any live service. -/
def delete (now : Instant) : Uuid → Op Replica Bool := deleteBy (.still now)

theorem deleteAll_cons (now : Instant) (s : Service) (ss : List Service) :
    deleteAll now (s :: ss) = (do
      let one ← Replica.delete now s.key
      let others ← deleteAll now ss
      return one || others) := rfl

theorem putAll_cons (now : Instant) (maxAge : Span) (s : Service) (ss : List Service) :
    putAll now maxAge (s :: ss) = (do
      discard <| Replica.put now s.key s.encode (some maxAge.millisWord)
      putAll now maxAge ss) := rfl

theorem delete_eq (now : Instant) (node : Uuid) :
    delete now node = (do deleteAll now (← ofNode now node)) := rfl

end ServiceDirectory.DynamicView
