import ServiceDirectory.Request.Stats
import ServiceDirectory.View.Dynamic
import ServiceDirectory.View.Static

namespace ServiceDirectory

/-- The two stores of a node. -/
inductive Side
  | dynamic
  | static
deriving DecidableEq

/-- A directory node: what running nodes announce, what was registered by hand, and an account of
the requests it answered. -/
structure Node where
  environment : String
  /-- How long an announcement lasts unless it is made again. -/
  dynamicMaxAge : Span
  dynamic : Replica
  static : Replica
  stats : Stats := {}
  log : List Event := []

namespace Node

def replica (n : Node) : Side → Replica
  | .dynamic => n.dynamic
  | .static => n.static

def setReplica (n : Node) (side : Side) (r : Replica) : Node :=
  match side with
  | .dynamic => { n with dynamic := r }
  | .static => { n with static := r }

/-- The store of that name; where both have it, the dynamic one. -/
def sideNamed? (n : Node) (name : String) : Option Side :=
  if n.dynamic.name = name then some .dynamic else if n.static.name = name then some .static else none

/-- All that the node and its stores have reported. -/
def reports (n : Node) : List Event := n.log ++ n.dynamic.log ++ n.static.log

def clearReports (n : Node) : Node :=
  { n with
    log := []
    dynamic := { n.dynamic with log := [] }
    static := { n.static with log := [] } }

/-- Runs a step of one store. -/
def onSide {α : Type} (n : Node) (side : Side) (op : Op Replica α) : Except Failure α × Node :=
  ((op.run.run (n.replica side)).1, n.setReplica side (op.run.run (n.replica side)).2)

end Node

end ServiceDirectory
