import ServiceDirectory.Node

namespace ServiceDirectory

/-- An entry as it travels between nodes: no lifetime and a lifetime of zero look the same. -/
structure WireEntry where
  key : Bytes
  value : Option Bytes
  version : UInt64
  origin : String
  timestamp : Instant
  maxAge : UInt64
deriving DecidableEq

def Entry.toWire (e : Entry) : WireEntry :=
  { key := e.key, value := e.value, version := e.version, origin := e.origin, timestamp := e.timestamp
    maxAge := e.maxAge.getD 0 }

def WireEntry.toEntry (w : WireEntry) : Entry :=
  { key := w.key, value := w.value, version := w.version, origin := w.origin, timestamp := w.timestamp
    maxAge := if w.maxAge = 0 then none else some w.maxAge }

/-- What a peer answers to a push. -/
structure PushAnswer where
  accepted : UInt32
  rejected : UInt32
deriving DecidableEq

namespace Node

def unknownStore (name : String) : Status := ⟨.notFound, "unknown store '" ++ name ++ "'"⟩

/-- Merges what a peer sent for the store it named. -/
def receivePush (now : Instant) (name : String) (entries : List WireEntry) (n : Node) :
    Except Status PushAnswer × Node :=
  match n.sideNamed? name with
  | none => (.error (unknownStore name), n)
  | some side =>
    match n.onSide side (Replica.merge now (entries.map WireEntry.toEntry)) with
    | (.ok o, n) =>
      (.ok { accepted := .ofNat (o.applied + o.ignored), rejected := .ofNat o.rejected }, n)
    | (.error f, n) => (.error f.toStatus, n)

/-- All that the named store holds. -/
def servePull (name : String) (n : Node) : Except Status (List WireEntry) × Node :=
  match n.sideNamed? name with
  | none => (.error (unknownStore name), n)
  | some side =>
    match n.onSide side Replica.snapshot with
    | (.ok es, n) => (.ok (es.map Entry.toWire), n)
    | (.error f, n) => (.error f.toStatus, n)

end Node

end ServiceDirectory
