import ServiceDirectory.Failure
import ServiceDirectory.Table
import ServiceDirectory.Uuid

namespace ServiceDirectory

abbrev Properties := Table String String

/-- A service as it is stored and returned by queries. -/
structure Service where
  id : Uuid
  /-- The node that announced it; none for services registered by hand. -/
  nodeId : Option Uuid
  kind : String
  pool : String
  location : String
  properties : Properties
deriving DecidableEq

/-- With no pool given, every pool will do. -/
def Service.isOf (s : Service) (kind : String) (pool : Option String) : Bool :=
  s.kind == kind && pool.all (s.pool == ·)

/-- Stands for the location of what was announced without one. -/
def placeholderLocation (id : Uuid) : String := "/somewhere/" ++ id.text

def locationOr (location : Option String) (id : Uuid) : String :=
  (location.filter (· ≠ "")).getD (placeholderLocation id)

/-- What an announcement lacks. -/
inductive Announcement.Flaw
  | noEnvironment
  | noPool
  | noKind
  | noServices
  | serviceWithoutKind (id : Uuid)

def Announcement.Flaw.message : Announcement.Flaw → String
  | noEnvironment => "environment is required"
  | noPool => "pool is required"
  | noKind => "type is required"
  | noServices => "at least one service is required"
  | serviceWithoutKind id => "service " ++ id.text ++ " has no type"

def Announcement.Flaw.toFailure (f : Announcement.Flaw) : Failure := .invalidArgument f.message

/-- One service within a node's announcement. -/
structure Offer where
  id : Uuid
  kind : String
  properties : Properties
deriving DecidableEq

/-- All that a node offers. -/
structure NodeAnnouncement where
  environment : String
  pool : String
  location : Option String
  services : List Offer
deriving DecidableEq

namespace NodeAnnouncement

def flaw? (a : NodeAnnouncement) : Option Announcement.Flaw :=
  if a.environment = "" then some .noEnvironment
  else if a.pool = "" then some .noPool
  else if a.services = [] then some .noServices
  else (a.services.find? (·.kind = "")).map fun s => .serviceWithoutKind s.id

def toServices (a : NodeAnnouncement) (node : Uuid) : List Service :=
  a.services.map fun s =>
    { id := s.id, nodeId := some node, kind := s.kind, pool := a.pool
      location := locationOr a.location node, properties := s.properties }

end NodeAnnouncement

/-- A service registered by hand, which stays until it is deleted. -/
structure Registration where
  environment : String
  kind : String
  pool : String
  location : Option String
  properties : Properties
deriving DecidableEq

namespace Registration

def flaw? (r : Registration) : Option Announcement.Flaw :=
  if r.environment = "" then some .noEnvironment
  else if r.kind = "" then some .noKind
  else if r.pool = "" then some .noPool
  else none

def toService (r : Registration) (id : Uuid) : Service :=
  { id, nodeId := none, kind := r.kind, pool := r.pool, location := locationOr r.location id
    properties := r.properties }

end Registration

end ServiceDirectory
