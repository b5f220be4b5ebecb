import ServiceDirectory.Config.Environment
import ServiceDirectory.Replica.Settings
import ServiceDirectory.Toml

namespace ServiceDirectory

/-- How a node is set up. Times are in milliseconds. -/
structure Config where
  environment : String
  maxAge : UInt64
  sweepInterval : UInt64
  dataDir : String
  antiEntropyInterval : UInt64
  peerTimeout : UInt64
  maxBatchSize : UInt64
  queueSize : UInt64
  tombstoneMaxAge : UInt64
  gcInterval : UInt64
  logLevel : String
  logFormat : String
deriving DecidableEq

namespace Config

def standard : Config where
  environment := "development"
  maxAge := 30000
  sweepInterval := 60000
  dataDir := "/var/lib/discovery"
  antiEntropyInterval := 60000
  peerTimeout := 5000
  maxBatchSize := 1000
  queueSize := 1000
  tombstoneMaxAge := 86400000
  gcInterval := 3600000
  logLevel := "info"
  logFormat := "pretty"

def ofWord (n : UInt64) : Value := .whole n.toNat

def toValue (c : Config) : Value :=
  .table [
    ("node", .table [("environment", .text c.environment)]),
    ("dynamic", .table [("max_age_ms", ofWord c.maxAge), ("sweep_interval_ms", ofWord c.sweepInterval)]),
    ("static_store", .table [("data_dir", .text c.dataDir)]),
    ("replication", .table [
      ("anti_entropy_interval_ms", ofWord c.antiEntropyInterval),
      ("peer_timeout_ms", ofWord c.peerTimeout),
      ("max_batch_size", ofWord c.maxBatchSize), ("queue_size", ofWord c.queueSize),
      ("tombstone_max_age_ms", ofWord c.tombstoneMaxAge), ("gc_interval_ms", ofWord c.gcInterval)]),
    ("observability", .table [("log_level", .text c.logLevel), ("log_format", .text c.logFormat)])]

def ofValue? (v : Value) : Option Config := do
  let [node, dynamic, static, replication, observability] ←
    v.fields? ["node", "dynamic", "static_store", "replication", "observability"] | none
  let [environment] ← node.fields? ["environment"] | none
  let [maxAge, sweepInterval] ← dynamic.fields? ["max_age_ms", "sweep_interval_ms"] | none
  let [dataDir] ← static.fields? ["data_dir"] | none
  let [antiEntropyInterval, peerTimeout, maxBatchSize, queueSize, tombstoneMaxAge, gcInterval] ←
    replication.fields? ["anti_entropy_interval_ms", "peer_timeout_ms", "max_batch_size", "queue_size",
      "tombstone_max_age_ms", "gc_interval_ms"] | none
  let [logLevel, logFormat] ← observability.fields? ["log_level", "log_format"] | none
  return {
    environment := ← environment.text?
    maxAge := ← maxAge.word?
    sweepInterval := ← sweepInterval.word?
    dataDir := ← dataDir.text?
    antiEntropyInterval := ← antiEntropyInterval.word?
    peerTimeout := ← peerTimeout.word?
    maxBatchSize := ← maxBatchSize.word?
    queueSize := ← queueSize.word?
    tombstoneMaxAge := ← tombstoneMaxAge.word?
    gcInterval := ← gcInterval.word?
    logLevel := ← logLevel.text?
    logFormat := ← logFormat.text? }

/-- The variables that hold one setting or one group of settings each. -/
def variableNames : List String :=
  match standard.toValue with
  | .table groups => groups.flatMap fun g =>
    let group := "DISCOVERY_" ++ g.1.toUpper
    match g.2 with
    | .table settings => group :: settings.map fun s => group ++ "__" ++ s.1.toUpper
    | _ => [group]
  | _ => []

/-- The configuration file that was asked for. -/
inductive File
  | notAsked
  | unreadable
  | text (s : String)

inductive LoadError
  | unreadableFile
  | malformedFile
  | malformedVariable
  | badSettings
deriving DecidableEq

/-- All causes read the same. -/
def LoadError.message (_ : LoadError) : String := "failed to load configuration"

def File.layer : File → Except LoadError Value
  | notAsked => .ok (.table [])
  | unreadable => .error .unreadableFile
  | text s => (Toml.parse s).elim (.error .malformedFile) .ok

/-- The standard settings, under those of the file, under those of the environment. -/
def load (file : File) (env : List (String × String)) : Except LoadError Config := do
  let given ← file.layer
  let set ← (Environment.layer env).elim (.error .malformedVariable) .ok
  (ofValue? ((standard.toValue.merge given).merge set)).elim (.error .badSettings) .ok

/-- The settings of a store whose sweeps are `gcInterval` milliseconds apart. -/
def storeSettings (c : Config) (gcInterval : UInt64) : Settings where
  antiEntropyInterval := .ofMillis c.antiEntropyInterval.toNat
  peerTimeout := .ofMillis c.peerTimeout.toNat
  maxBatchSize := c.maxBatchSize.toNat
  queueSize := c.queueSize.toNat
  tombstoneMaxAge := .ofMillis c.tombstoneMaxAge.toNat
  gcInterval := .ofMillis gcInterval.toNat

def dynamicStore (c : Config) : Settings := c.storeSettings c.sweepInterval

def staticStore (c : Config) : Settings := c.storeSettings c.gcInterval

end Config

end ServiceDirectory
