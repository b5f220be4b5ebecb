import ServiceDirectory.CommandLine
import ServiceDirectory.Config
import ServiceDirectory.Uuid

open ServiceDirectory

def readConfigFile (path : Option String) : IO Config.File :=
  match path with
  | none => pure .notAsked
  | some path => try .text <$> IO.FS.readFile path catch _ => pure .unreadable

def readVariables : IO (List (String × String)) :=
  Config.variableNames.filterMapM fun n => do return (← IO.getEnv n).map (n, ·)

/-- An identity for a node that was given none. -/
def randomId : IO String := do
  return ((Uuid.ofRandom? (← IO.getRandomBytes 16).toList).map Uuid.text).getD ""

/-- Shows what a node that is started in this way would run with. -/
def main (arguments : List String) : IO UInt32 := do
  match CommandLine.parse arguments with
  | .error e =>
    IO.eprintln e.message
    return if e = .helpAsked then 0 else 2
  | .ok line =>
    match Config.load (← readConfigFile line.config) (← readVariables) with
    | .error e =>
      IO.eprintln e.message
      return 1
    | .ok config =>
      let nodeId ← line.nodeId.elim randomId pure
      IO.println ("node: " ++ nodeId)
      IO.println ("environment: " ++ config.environment)
      IO.println ("clients: " ++ line.clientAddress)
      IO.println ("cluster: " ++ line.clusterAddress)
      IO.println ("peers: " ++ ", ".intercalate line.peers)
      IO.println ("data: " ++ line.dataDir.getD config.dataDir)
      return 0
