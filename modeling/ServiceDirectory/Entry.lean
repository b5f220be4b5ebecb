import ServiceDirectory.Failure
import ServiceDirectory.Text.Utf8
import ServiceDirectory.Time

namespace ServiceDirectory

/-- One version of a key. Without a value it is a tombstone, which outranks stale copies as any
other version does. -/
structure Entry where
  key : Bytes
  value : Option Bytes
  /-- Counts the origin's writes to the key. -/
  version : UInt64
  /-- The node that wrote this version. -/
  origin : String
  timestamp : Instant
  /-- Milliseconds to live; none or zero is forever. -/
  maxAge : Option UInt64
deriving DecidableEq

namespace Entry

def isTombstone (e : Entry) : Bool := e.value.isNone

def expiresAt (e : Entry) : Option Instant :=
  (e.maxAge.filter (0 < ·)).map e.timestamp.after

def isExpired (e : Entry) (now : Instant) : Bool := e.expiresAt.any (· ≤ now)

def isLive (e : Entry) (now : Instant) : Bool := !e.isTombstone && !e.isExpired now

/-- What keeps an entry from being accepted from a peer. -/
inductive Flaw
  | emptyKey
  | emptyOrigin
  | versionZero
  | timestampBeforeEpoch (t : Instant)
deriving DecidableEq

def Flaw.message : Flaw → String
  | emptyKey => "entry key must not be empty"
  | emptyOrigin => "entry origin must not be empty"
  | versionZero => "entry version must be positive"
  | timestampBeforeEpoch t => "entry timestamp out of range: " ++ toString t.toInt

def Flaw.toFailure (f : Flaw) : Failure := .invalidArgument f.message

/-- The first flaw, if any. -/
def flaw? (e : Entry) : Option Flaw :=
  if e.key = [] then some .emptyKey
  else if e.origin = "" then some .emptyOrigin
  else if e.version = 0 then some .versionZero
  else if e.timestamp < 0 then some (.timestampBeforeEpoch e.timestamp)
  else none

/-- Whether a sweep at `now` may remove the entry: a tombstone by age, a value once expired. -/
def isCollectable (e : Entry) (now : Instant) (tombstoneMaxAge : UInt64) : Bool :=
  if e.isTombstone then
    let age := now.since e.timestamp
    0 ≤ age && tombstoneMaxAge.toNat ≤ age.toInt.toNat
  else e.isExpired now

end Entry

end ServiceDirectory
