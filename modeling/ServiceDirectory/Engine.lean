import ServiceDirectory.Entry.Row
import ServiceDirectory.Table

namespace ServiceDirectory

/-- Where a node keeps its copy of a store: entries in memory, or encoded rows that outlive it. -/
inductive Medium
  | volatile (entries : Table Bytes Entry)
  | durable (rows : Table Bytes Bytes)
deriving DecidableEq

/-- What a sweep took away; some of it may have been rows that could not be read. -/
structure Swept where
  removed : Nat
  undecodable : Nat
deriving DecidableEq

/-- A row that cannot be read counts as collectable: it would fail every later reading of the whole
store. -/
def Row.isCollectable (row : Bytes) (now : Instant) (tombstoneMaxAge : UInt64) : Bool :=
  (Row.decode row).all (·.isCollectable now tombstoneMaxAge)

/-- The first half of a durable sweep: which keys to look at again. -/
def sweepCandidates (rows : Table Bytes Bytes) (now : Instant) (tombstoneMaxAge : UInt64) : List Bytes :=
  (rows.filter fun _ row => Row.isCollectable row now tombstoneMaxAge).keys

/-- The second half: those candidates go that are collectable still. -/
def removeCandidates (candidates : List Bytes) (now : Instant) (tombstoneMaxAge : UInt64)
    (rows : Table Bytes Bytes) : Swept × Table Bytes Bytes :=
  let doomed := candidates.filterMap fun k =>
    (rows.get? k).bind fun row =>
      if Row.isCollectable row now tombstoneMaxAge then some (k, row) else none
  ({ removed := doomed.length, undecodable := doomed.countP fun d => (Row.decode d.2).isNone },
    doomed.foldl (fun rows d => rows.erase d.1) rows)

namespace Medium

def put (e : Entry) : Medium → Medium
  | volatile entries => volatile (entries.insert e.key e)
  | durable rows => durable (rows.insert e.key (Row.encode e))

def get? (k : Bytes) : Medium → Except Failure (Option Entry)
  | volatile entries => .ok (entries.get? k)
  | durable rows =>
    match rows.get? k with
    | none => .ok none
    | some row =>
      match Row.decode row with
      | none => .error .undecodableRow
      | some e => .ok (some e)

/-- In key order. -/
def all : Medium → Except Failure (List Entry)
  | volatile entries => .ok entries.values
  | durable rows =>
    match rows.values.mapM Row.decode with
    | none => .error .undecodableRow
    | some es => .ok es

def contains (k : Bytes) : Medium → Bool
  | volatile entries => entries.contains k
  | durable rows => rows.contains k

def erase (k : Bytes) : Medium → Medium
  | volatile entries => volatile (entries.erase k)
  | durable rows => durable (rows.erase k)

def sweep (now : Instant) (tombstoneMaxAge : UInt64) : Medium → Swept × Medium
  | volatile entries =>
    let kept := entries.filter fun _ e => !e.isCollectable now tombstoneMaxAge
    (⟨entries.size - kept.size, 0⟩, volatile kept)
  | durable rows =>
    let r := removeCandidates (sweepCandidates rows now tombstoneMaxAge) now tombstoneMaxAge rows
    (r.1, durable r.2)

def size : Medium → Nat
  | volatile entries => entries.size
  | durable rows => rows.size

/-- What is found after a stop and a new start. -/
def reopened : Medium → Medium
  | volatile _ => volatile .empty
  | durable rows => durable rows

/-- Writes row bytes as they are; entries in memory have none. -/
def putRow (k row : Bytes) : Medium → Medium
  | volatile entries => volatile entries
  | durable rows => durable (rows.insert k row)

def row? (k : Bytes) : Medium → Option Bytes
  | volatile _ => none
  | durable rows => rows.get? k

end Medium

inductive EngineCall
  | put
  | get
  | getAll
  | delete
  | removeExpired
deriving DecidableEq

/-- After `skip` good calls of one kind, the next `count` fail and do nothing. -/
structure Fault where
  call : EngineCall
  failure : Failure
  skip : Nat
  count : Nat
deriving DecidableEq

/-- Whether the next call fails: the first fault for it that is not used up decides. -/
def Fault.strike (call : EngineCall) : List Fault → Option Failure × List Fault
  | [] => (none, [])
  | f :: fs =>
    if f.call = call ∧ 0 < f.count then
      if 0 < f.skip then (none, { f with skip := f.skip - 1 } :: fs)
      else (some f.failure, { f with count := f.count - 1 } :: fs)
    else ((strike call fs).1, f :: (strike call fs).2)

structure Engine where
  medium : Medium
  faults : List Fault := []
deriving DecidableEq

namespace Engine

/-- Does a call's work unless a fault strikes it. -/
def guarded {α : Type} (call : EngineCall) (work : Medium → Except Failure α × Medium) :
    Op Engine α :=
  ExceptT.mk fun e =>
    match Fault.strike call e.faults with
    | (some f, faults) => (.error f, { e with faults })
    | (none, faults) => ((work e.medium).1, { medium := (work e.medium).2, faults })

def put (e : Entry) : Op Engine Unit := guarded .put fun m => (.ok (), m.put e)

def get (k : Bytes) : Op Engine (Option Entry) := guarded .get fun m => (m.get? k, m)

def getAll : Op Engine (List Entry) := guarded .getAll fun m => (m.all, m)

/-- Whether anything was there to delete. -/
def delete (k : Bytes) : Op Engine Bool := guarded .delete fun m => (.ok (m.contains k), m.erase k)

def removeExpired (now : Instant) (tombstoneMaxAge : UInt64) : Op Engine Swept :=
  guarded .removeExpired fun m => (.ok (m.sweep now tombstoneMaxAge).1, (m.sweep now tombstoneMaxAge).2)

end Engine

end ServiceDirectory
