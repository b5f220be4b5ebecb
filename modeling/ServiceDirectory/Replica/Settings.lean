import ServiceDirectory.Time

namespace ServiceDirectory

/-- How one replicated store works. -/
structure Settings where
  /-- How often a peer's state is pulled. -/
  antiEntropyInterval : Span
  /-- The most time a push or a pull may take. -/
  peerTimeout : Span
  /-- The most entries of one push. -/
  maxBatchSize : Nat
  /-- How many writes may wait for their push. -/
  queueSize : Nat
  /-- Older tombstones are swept. -/
  tombstoneMaxAge : Span
  gcInterval : Span
deriving DecidableEq

/-- What runs beside a store. -/
inductive Task
  | replicator
  | antiEntropy
  | sweep
deriving DecidableEq

namespace Settings

/-- The store never waits with less than one place. -/
def queueCapacity (s : Settings) : Nat := max 1 s.queueSize

def batchLimit (s : Settings) : Nat := max 1 s.maxBatchSize

/-- A queue of more places than this cannot be made. -/
def maxQueueCapacity : Nat := 0x1FFFFFFFFFFFFFFF

def entrySize : Nat := 104

/-- Memory is asked for in one piece of at most this many bytes. -/
def maxAllocation : Nat := 0x7FFFFFFFFFFFFFFF

def canStart (s : Settings) : Bool := s.queueCapacity ≤ maxQueueCapacity

/-- A task with a period of no length, or with no room for a batch, ends as soon as it begins. -/
def keepsRunning (s : Settings) : Task → Bool
  | .replicator => s.batchLimit * entrySize ≤ maxAllocation
  | .antiEntropy => s.antiEntropyInterval.nanos ≠ 0
  | .sweep => s.gcInterval.nanos ≠ 0

end Settings

end ServiceDirectory
