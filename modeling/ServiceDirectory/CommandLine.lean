namespace ServiceDirectory

/-- What a node is told when it is started. -/
structure CommandLine where
  nodeId : Option String
  clientAddress : String
  clusterAddress : String
  /-- The nodes that it exchanges entries with. -/
  peers : List String
  /-- The path of a configuration file. -/
  config : Option String
  /-- Goes before the one that the configuration names. -/
  dataDir : Option String
deriving DecidableEq

namespace CommandLine

def standardClientAddress : String := "0.0.0.0:17000"

def standardClusterAddress : String := "0.0.0.0:17001"

inductive Error
  | unknownArgument
  /-- A value is missing, or empty where a path is wanted. -/
  | invalidValue
  /-- A second value where one is the most. -/
  | argumentConflict
  /-- A value for an option that takes none. -/
  | tooManyValues
  | helpAsked
deriving DecidableEq

def Error.message : Error → String
  | unknownArgument => "unexpected argument"
  | invalidValue => "an option lacks its value"
  | argumentConflict => "an option is given more than once"
  | tooManyValues => "an option that takes no value has one"
  | helpAsked =>
    "Options: --node-id, --client-addr, --cluster-addr, --peer (repeatable), --config, --data-dir"

/-- The options; each takes a value. -/
inductive Opt
  | nodeId
  | clientAddress
  | clusterAddress
  | peer
  | config
  | dataDir
deriving DecidableEq

namespace Opt

def named? : String → Option Opt
  | "node-id" => some nodeId
  | "client-addr" => some clientAddress
  | "cluster-addr" => some clusterAddress
  | "peer" => some peer
  | "config" => some config
  | "data-dir" => some dataDir
  | _ => none

def isRepeatable (o : Opt) : Bool := o = peer

def isPath (o : Opt) : Bool := o = config || o = dataDir

end Opt

/-- Arguments as far as they are read. -/
structure Draft where
  given : List (Opt × String) := []
  /-- The last option, with its value once that has come. -/
  pending : Option (Opt × Option String) := none
  /-- Two hyphens have ended the options. -/
  isClosed : Bool := false

namespace Draft

def give (d : Draft) (o : Opt) (v : String) : Except Error Draft :=
  if !o.isRepeatable && d.given.any (·.1 = o) then .error .argumentConflict
  else if o.isPath && v = "" then .error .invalidValue
  else .ok { d with given := d.given ++ [(o, v)] }

/-- Takes in the pending option. -/
def settle (d : Draft) : Except Error Draft :=
  match d.pending with
  | none => .ok d
  | some (_, none) => .error .invalidValue
  | some (o, some v) => { d with pending := none }.give o v

/-- A name and maybe a value behind an equals sign. An option that is known settles the one before
it; one that is not ends everything at once. -/
def long (d : Draft) (cs : List Char) : Except Error Draft :=
  let name := String.ofList (cs.takeWhile (· ≠ '='))
  let value := (cs.dropWhile (· ≠ '=')).tail
  let isAttached := cs.contains '='
  match Opt.named? name with
  | some o => do
    let d ← d.settle
    if isAttached then d.give o (String.ofList value) else return { d with pending := some (o, none) }
  | none =>
    if name = "help" then
      if isAttached then .error .tooManyValues else do discard d.settle; throw .helpAsked
    else .error .unknownArgument

/-- Anything that is not an option is the value of the pending one, if that still waits for it. -/
def bare (d : Draft) (v : String) : Except Error Draft :=
  match d.pending with
  | some (o, none) => .ok { d with pending := some (o, some v) }
  | _ => .error .unknownArgument

def add (d : Draft) (argument : String) : Except Error Draft :=
  if d.isClosed then .error .unknownArgument
  else match argument.toList with
    | ['-', '-'] => .ok { d with isClosed := true }
    | '-' :: '-' :: cs => d.long cs
    | '-' :: 'h' :: _ => do discard d.settle; throw .helpAsked
    | '-' :: _ :: _ => .error .unknownArgument
    | _ => d.bare argument

def value? (d : Draft) (o : Opt) : Option String := (d.given.find? (·.1 = o)).map (·.2)

def finish (d : Draft) : CommandLine where
  nodeId := d.value? .nodeId
  clientAddress := (d.value? .clientAddress).getD standardClientAddress
  clusterAddress := (d.value? .clusterAddress).getD standardClusterAddress
  peers := (d.given.filter (·.1 = .peer)).map (·.2)
  config := d.value? .config
  dataDir := d.value? .dataDir

end Draft

def parse (arguments : List String) : Except Error CommandLine := do
  let d ← arguments.foldlM Draft.add {}
  return (← d.settle).finish

end CommandLine

end ServiceDirectory
