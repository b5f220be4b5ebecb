import ServiceDirectory.View.Records

namespace ServiceDirectory.StaticView

/-- Registered services never expire. -/
def put (now : Instant) (s : Service) : Op Replica Unit := do
  discard <| Replica.put now s.key s.encode none
  Replica.report (.registered s.id s.kind)

def deleteBy (clock : Readings) (id : Uuid) : Op Replica Bool :=
  Replica.deleteBy clock (Utf8.encode id.text)

def delete (now : Instant) : Uuid → Op Replica Bool := deleteBy (.still now)

def all (now : Instant) : Op Replica (List Service) := do
  let entries ← Replica.live now
  modify (·.emitAll ((undecodableIn entries).map .undecodableStatic))
  return servicesIn entries

/-- With no pool given, in every pool. -/
def ofKind (now : Instant) (kind : String) (pool : Option String) : Op Replica (List Service) := do
  return (← all now).filter (·.isOf kind pool)

end ServiceDirectory.StaticView
