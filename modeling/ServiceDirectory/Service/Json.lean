import ServiceDirectory.Json.Value
import ServiceDirectory.Service

namespace ServiceDirectory

open Json (Value)

namespace Uuid

def toJson (id : Uuid) : Value := .ofText id.text

def ofJson? (v : Value) : Option Uuid := v.text?.bind parse?

end Uuid

namespace Properties

def toJson (p : Properties) : Value := .record (p.rows.map fun r => (r.1, .ofText r.2))

/-- Of a repeated name the last value counts. -/
def ofJson? : Value → Option Properties
  | .object members => do
    let rows ← members.mapM fun m => do return (← m.1, ← m.2.text?)
    return Table.ofList rows
  | _ => none

/-- Missing properties are none; null ones are a mistake. -/
def ofField? : Option Value → Option Properties
  | none => some .empty
  | some v => ofJson? v

end Properties

namespace Service

def toJson (s : Service) : Value :=
  .record <|
    [("id", s.id.toJson)] ++ s.nodeId.toList.map (fun n => ("node_id", n.toJson)) ++
    [("type", .ofText s.kind), ("pool", .ofText s.pool), ("location", .ofText s.location),
      ("properties", s.properties.toJson)]

def ofJson? (v : Value) : Option Service := do
  match ← v.fields? ["id", "node_id", "type", "pool", "location", "properties"] with
  | [id, nodeId, kind, pool, location, properties] =>
    return {
      id := ← id.bind Uuid.ofJson?
      nodeId := ← Value.optional Uuid.ofJson? nodeId
      kind := ← kind.bind Value.text?
      pool := ← pool.bind Value.text?
      location := ← location.bind Value.text?
      properties := ← Properties.ofField? properties }
  | _ => none

def encode (s : Service) : Bytes := s.toJson.write

def decode? (bs : Bytes) : Option Service := (Json.parse bs).bind ofJson?

end Service

namespace Offer

def toJson (o : Offer) : Value :=
  .record [("id", o.id.toJson), ("type", .ofText o.kind), ("properties", o.properties.toJson)]

def ofJson? (v : Value) : Option Offer := do
  match ← v.fields? ["id", "type", "properties"] with
  | [id, kind, properties] =>
    return {
      id := ← id.bind Uuid.ofJson?
      kind := ← kind.bind Value.text?
      properties := ← Properties.ofField? properties }
  | _ => none

def listOfJson? : Value → Option (List Offer)
  | .array items => items.mapM ofJson?
  | _ => none

end Offer

def locationToJson : Option String → Value
  | none => .null
  | some l => .ofText l

namespace NodeAnnouncement

def toJson (a : NodeAnnouncement) : Value :=
  .record [("environment", .ofText a.environment), ("pool", .ofText a.pool),
    ("location", locationToJson a.location), ("services", .array (a.services.map Offer.toJson))]

def ofJson? (v : Value) : Option NodeAnnouncement := do
  match ← v.fields? ["environment", "pool", "location", "services"] with
  | [environment, pool, location, services] =>
    return {
      environment := ← environment.bind Value.text?
      pool := ← pool.bind Value.text?
      location := ← Value.optional Value.text? location
      services := ← services.bind Offer.listOfJson? }
  | _ => none

def encode (a : NodeAnnouncement) : Bytes := a.toJson.write

def decode? (bs : Bytes) : Option NodeAnnouncement := (Json.parse bs).bind ofJson?

end NodeAnnouncement

namespace Registration

def toJson (r : Registration) : Value :=
  .record [("environment", .ofText r.environment), ("type", .ofText r.kind), ("pool", .ofText r.pool),
    ("location", locationToJson r.location), ("properties", r.properties.toJson)]

def ofJson? (v : Value) : Option Registration := do
  match ← v.fields? ["environment", "type", "pool", "location", "properties"] with
  | [environment, kind, pool, location, properties] =>
    return {
      environment := ← environment.bind Value.text?
      kind := ← kind.bind Value.text?
      pool := ← pool.bind Value.text?
      location := ← Value.optional Value.text? location
      properties := ← Properties.ofField? properties }
  | _ => none

def encode (r : Registration) : Bytes := r.toJson.write

def decode? (bs : Bytes) : Option Registration := (Json.parse bs).bind ofJson?

end Registration

end ServiceDirectory
