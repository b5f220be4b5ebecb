import ServiceDirectory.Event
import ServiceDirectory.Request.Status

namespace ServiceDirectory

/-- Counts of ended requests and the time they took, each modulo the word size. -/
structure Counters where
  success : UInt64 := 0
  failure : UInt64 := 0
  totalMicros : UInt64 := 0
deriving DecidableEq

def Counters.record (c : Counters) (success : Bool) (elapsed : Span) : Counters where
  success := if success then c.success + 1 else c.success
  failure := if success then c.failure else c.failure + 1
  totalMicros := c.totalMicros + .ofNat elapsed.micros

/-- One set of counters for each kind of request. -/
structure Stats where
  query : Counters := {}
  register : Counters := {}
  listRegistered : Counters := {}
  unregister : Counters := {}
  announce : Counters := {}
  withdraw : Counters := {}
deriving DecidableEq

namespace Stats

def get (s : Stats) : RequestKind → Counters
  | .query => s.query
  | .register => s.register
  | .listRegistered => s.listRegistered
  | .unregister => s.unregister
  | .announce => s.announce
  | .withdraw => s.withdraw

def modify (s : Stats) (k : RequestKind) (f : Counters → Counters) : Stats :=
  match k with
  | .query => { s with query := f s.query }
  | .register => { s with register := f s.register }
  | .listRegistered => { s with listRegistered := f s.listRegistered }
  | .unregister => { s with unregister := f s.unregister }
  | .announce => { s with announce := f s.announce }
  | .withdraw => { s with withdraw := f s.withdraw }

theorem get_modify (s : Stats) (k j : RequestKind) (f : Counters → Counters) :
    (s.modify k f).get j = if k = j then f (s.get j) else s.get j := by
  cases k <;> cases j <;> rfl

def record (s : Stats) (k : RequestKind) (success : Bool) (elapsed : Span) : Stats :=
  s.modify k (·.record success elapsed)

end Stats

/-- How a request came to its end. -/
inductive Ending
  | served
  | failed (message : String)
  /-- Given up before it had an answer. -/
  | cancelled
deriving DecidableEq

def Ending.ofResult {α : Type} : Except Status α → Ending
  | .ok _ => .served
  | .error s => if s.isFailure then .failed s.message else .served

/-- A request under way. -/
structure InFlight where
  kind : RequestKind
  start : Span
deriving DecidableEq

/-- Every request is counted where it ends, and only there. -/
def InFlight.close (r : InFlight) (now : Span) (ending : Ending) (s : Stats) : Stats × Event :=
  let elapsed : Span := ⟨now.nanos - r.start.nanos⟩
  let micros := (UInt64.ofNat elapsed.micros).toNat
  match ending with
  | .served => (s.record r.kind true elapsed, .requestServed r.kind micros)
  | .failed error => (s.record r.kind false elapsed, .requestFailed r.kind micros error)
  | .cancelled => (s.record r.kind false elapsed, .requestCancelled r.kind micros)

/-- Requests that take time, on a clock of their own. -/
structure Desk where
  stats : Stats := {}
  now : Span := ⟨0⟩
  log : List Event := []

/-- Runs a request whose work waits for a while and then gives `result`; with a `limit` it is given
up once that has passed. Waits end at whole milliseconds. -/
def Desk.run {α : Type} (d : Desk) (kind : RequestKind) (wait : Span) (limit : Option Span)
    (result : Except Status α) : Option (Except Status α) × Desk :=
  let close (waited : Nat) (ending : Ending) : Desk :=
    let now : Span := ⟨d.now.nanos + (Span.ofMillis waited).nanos⟩
    let (stats, event) := InFlight.close ⟨kind, d.now⟩ now ending d.stats
    { stats, now, log := d.log ++ [event] }
  match limit with
  | some l =>
    if wait.ceilMillis ≤ l.ceilMillis then (some result, close wait.ceilMillis (.ofResult result))
    else (none, close l.ceilMillis .cancelled)
  | none => (some result, close wait.ceilMillis (.ofResult result))

end ServiceDirectory
