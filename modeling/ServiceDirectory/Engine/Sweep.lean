import ServiceDirectory.Engine
import ServiceDirectory.Event
import ServiceDirectory.Time.Ticker

namespace ServiceDirectory

/-- Each row that could not be read is reported. -/
def Swept.events (s : Swept) : List Event := List.replicate s.undecodable .undecodableRow

/-- One pass over an engine: how many entries went, what there is to report, and the engine after. A
fault is reported and counts as nothing removed. -/
def Engine.sweepOnce (e : Engine) (now : Instant) (tombstoneMaxAge : Span) :
    Nat × List Event × Engine :=
  match (Engine.removeExpired now tombstoneMaxAge.millisWord).run.run e with
  | (.ok s, e) =>
    (s.removed, s.events ++ if 0 < s.removed then [.swept s.removed] else [], e)
  | (.error f, e) => (0, [.sweepFailed f], e)

/-- A request to stop that others can watch: a value that may change, and a sender that may go. -/
structure StopSignal where
  value : Bool
  senderGone : Bool := false
deriving DecidableEq

/-- Told to stop, or nobody left who could tell. -/
def StopSignal.isStop (s : StopSignal) : Bool := s.value || s.senderGone

/-- Whether one who waits for the signal is done, at first and after each change. -/
def StopSignal.watch (s : StopSignal) : List (StopSignal → StopSignal) → Bool → List Bool
  | [], done => [done || s.isStop]
  | f :: fs, done => (done || s.isStop) :: watch (f s) fs (done || s.isStop)

/-- A sweep that comes round again and again. -/
structure Sweeper where
  ticker : Option Ticker
  tombstoneMaxAge : Span
  signal : StopSignal := { value := false }
  running : Bool := true

/-- One engine, a wall clock, a sweeper and the time that has passed. -/
structure Bench where
  clock : Instant
  engine : Engine
  elapsed : Nat := 0
  sweeper : Option Sweeper := none
  log : List Event := []

namespace Bench

/-- One sweep whose outcome goes to the caller. -/
def removeExpired (b : Bench) (now : Instant) (tombstoneMaxAge : UInt64) : Except Failure Nat × Bench :=
  match (Engine.removeExpired now tombstoneMaxAge).run.run b.engine with
  | (.ok s, engine) => (.ok s.removed, { b with engine, log := b.log ++ s.events })
  | (.error f, engine) => (.error f, { b with engine })

def sweepOnce (b : Bench) (tombstoneMaxAge : Span) : Nat × Bench :=
  let (n, events, engine) := b.engine.sweepOnce b.clock tombstoneMaxAge
  (n, { b with engine, log := b.log ++ events })

def startSweeper (b : Bench) (interval tombstoneMaxAge : Span) : Bench :=
  { b with sweeper := some { ticker := Ticker.start? b.elapsed interval, tombstoneMaxAge } }

def signal (b : Bench) (f : StopSignal → StopSignal) : Bench :=
  { b with sweeper := b.sweeper.map fun s => { s with signal := f s.signal } }

def isSweeping (b : Bench) : Bool := b.sweeper.any (·.running)

/-- Sweeps at every beat before `goal`. -/
def beats (goal : Nat) (tombstoneMaxAge : Span) (t : Ticker) (b : Bench) : Ticker × Bench :=
  if t.due < goal then
    beats goal tombstoneMaxAge (t.beat t.due) (b.sweepOnce tombstoneMaxAge).2
  else (t, b)
termination_by goal - t.due
decreasing_by
  have := t.due_lt_beat t.due
  omega

/-- Lets time pass. A sweeper stops when its signal says so, or if it has no beat to follow. -/
def pass (b : Bench) (ms : Nat) : Bench :=
  let goal := b.elapsed + ms
  if ms = 0 then b
  else match b.sweeper with
    | some s =>
      if s.running then
        match s.ticker with
        | some t =>
          if s.signal.isStop then { b with elapsed := goal, sweeper := some { s with running := false } }
          else
            let (t, b) := b.beats goal s.tombstoneMaxAge t
            { b with elapsed := goal, sweeper := some { s with ticker := some t } }
        | none => { b with elapsed := goal, sweeper := some { s with running := false } }
      else { b with elapsed := goal }
    | none => { b with elapsed := goal }

end Bench

end ServiceDirectory
