import ServiceDirectory.Entry
import ServiceDirectory.Replica.MergeOutcome
import ServiceDirectory.Request.Kind
import ServiceDirectory.Uuid

namespace ServiceDirectory

inductive Level
  | debug
  | info
  | warn
deriving DecidableEq

namespace Level

def name : Level → String
  | debug => "debug"
  | info => "info"
  | warn => "warn"

def rank : Level → Nat
  | debug => 0
  | info => 1
  | warn => 2

end Level

/-- What a node reports about its work. -/
inductive Event
  | storeStarted (store node : String)
  | storeStopped (store : String)
  | malformedEntry (store : String) (flaw : Entry.Flaw)
  | queueFull (store : String) (key : Bytes)
  | notQueued (store : String)
  | peerReachable (store peer : String)
  | peerUnreachable (store peer : String)
  | pushFailed (store peer : String) (entries : Nat) (failure : Failure)
  | pullMerged (store peer : String) (outcome : MergeOutcome)
  | pullFailed (store peer : String) (failure : Failure)
  | undecodableRow
  | swept (removed : Nat)
  | sweepFailed (failure : Failure)
  | announced (node : Uuid) (services : Nat)
  | registered (id : Uuid) (kind : String)
  | undecodableDynamic (key : Bytes)
  | undecodableStatic (key : Bytes)
  | requestServed (kind : RequestKind) (micros : Nat)
  | requestFailed (kind : RequestKind) (micros : Nat) (error : String)
  | requestCancelled (kind : RequestKind) (micros : Nat)
deriving DecidableEq

namespace Event

def level : Event → Level
  | storeStarted .. | storeStopped .. | peerReachable .. => .info
  | malformedEntry .. | queueFull .. | peerUnreachable .. | undecodableRow | sweepFailed ..
  | undecodableDynamic .. | undecodableStatic .. | requestFailed .. | requestCancelled .. => .warn
  | notQueued .. | pushFailed .. | pullMerged .. | pullFailed .. | swept .. | announced ..
  | registered .. | requestServed .. => .debug

def message : Event → String
  | storeStarted .. => "distributed store started"
  | storeStopped .. => "distributed store stopped"
  | malformedEntry .. => "rejecting malformed entry"
  | queueFull .. => "replication queue full, leaving entry to anti-entropy"
  | notQueued .. => "replicator stopped, not queueing"
  | peerReachable .. => "peer reachable again"
  | peerUnreachable .. => "peer unreachable"
  | pushFailed .. => "push failed"
  | pullMerged .. => "anti-entropy round complete"
  | pullFailed .. => "anti-entropy pull failed"
  | undecodableRow => "dropping undecodable entry"
  | swept .. => "expiry sweep evicted entries"
  | sweepFailed .. => "expiry sweep failed"
  | announced .. => "dynamic announcement stored"
  | registered .. => "static service stored"
  | undecodableDynamic .. => "skipping undecodable dynamic service"
  | undecodableStatic .. => "skipping undecodable static service"
  | requestServed .. => "request served"
  | requestFailed .. => "request failed"
  | requestCancelled .. => "request cancelled"

/-- Names and texts of what an event is about. -/
def fields : Event → List (String × String)
  | storeStarted store node => [("store", store), ("node_id", node)]
  | storeStopped store | notQueued store => [("store", store)]
  | malformedEntry store flaw => [("store", store), ("error", flaw.toFailure.message)]
  | queueFull store key => [("store", store), ("key", Utf8.decodeLossy key)]
  | peerReachable store peer | peerUnreachable store peer => [("store", store), ("peer", peer)]
  | pushFailed store peer entries failure =>
    [("store", store), ("peer", peer), ("entries", toString entries), ("error", failure.message)]
  | pullMerged store peer o =>
    [("store", store), ("peer", peer), ("applied", toString o.applied), ("ignored", toString o.ignored),
      ("rejected", toString o.rejected)]
  | pullFailed store peer failure => [("store", store), ("peer", peer), ("error", failure.message)]
  | undecodableRow => []
  | swept removed => [("removed", toString removed)]
  | sweepFailed failure => [("error", failure.message)]
  | announced node services => [("node_id", node.text), ("services", toString services)]
  | registered id kind => [("id", id.text), ("service_type", kind)]
  | undecodableDynamic key | undecodableStatic key => [("key", Utf8.decodeLossy key)]
  | requestServed kind micros | requestCancelled kind micros =>
    [("kind", kind.name), ("elapsed_us", toString micros)]
  | requestFailed kind micros error =>
    [("kind", kind.name), ("elapsed_us", toString micros), ("error", error)]

end Event

end ServiceDirectory
