namespace ServiceDirectory

/-- A length of time, in nanoseconds. -/
structure Span where
  nanos : Nat
deriving DecidableEq

namespace Span

def ofMillis (ms : Nat) : Span := ⟨ms * 1000000⟩

def ofSeconds (secs nanos : Nat) : Span := ⟨secs * 1000000000 + nanos⟩

/-- Whole milliseconds. -/
def millis (d : Span) : Nat := d.nanos / 1000000

/-- Whole microseconds. -/
def micros (d : Span) : Nat := d.nanos / 1000

/-- Whole milliseconds in a machine word, where long spans wrap around. -/
def millisWord (d : Span) : UInt64 := .ofNat d.millis

/-- The first whole millisecond at which the span is over. -/
def ceilMillis (d : Span) : Nat := (d.nanos + 999999) / 1000000

end Span

/-- Milliseconds since the epoch, as a wall clock reads them. -/
abbrev Instant := Int64

namespace Instant

def first : Int := -0x8000000000000000

def last : Int := 0x7FFFFFFFFFFFFFFF

/-- The nearest instant to an exact time. -/
def clamp (i : Int) : Instant :=
  if i < first then Int64.minValue else if last < i then Int64.maxValue else Int64.ofInt i

theorem toInt_clamp (i : Int) : (clamp i).toInt = max first (min i last) := by
  unfold clamp first last
  split
  · rw [show Int64.minValue.toInt = -0x8000000000000000 from rfl]
    omega
  split
  · rw [show Int64.maxValue.toInt = 0x7FFFFFFFFFFFFFFF from rfl]
    omega
  · rw [Int64.toInt_ofInt_of_le (by omega) (by omega)]
    omega

theorem toInt_clamp_of_mem {i : Int} (hl : first ≤ i) (hu : i ≤ last) : (clamp i).toInt = i := by
  rw [toInt_clamp]
  omega

/-- The next millisecond; time stops at the last one. -/
def succ (t : Instant) : Instant := clamp (t.toInt + 1)

/-- `ms` later, where neither the age nor the sum passes the last instant. -/
def after (t : Instant) (ms : UInt64) : Instant := clamp (t.toInt + min (ms.toNat : Int) last)

/-- How much later `t` is than `s`, kept within a word. -/
def since (t s : Instant) : Instant := clamp (t.toInt - s.toInt)

def latest (s t : Instant) : Instant := if s ≤ t then t else s

/-- The instant as a version number; times before the epoch count as zero. -/
def toVersion (t : Instant) : UInt64 := .ofNat t.toInt.toNat

/-- A clock set forward by whole milliseconds, around the end of the range. -/
def advance (t : Instant) (d : Span) : Instant := t + Int64.ofInt d.millis

end Instant

/-- What a clock shows each time it is read. -/
abbrev Readings := Nat → Instant

namespace Readings

/-- Those of a clock that stands still. -/
abbrev still (now : Instant) : Readings := fun _ => now

/-- Those after the first `n`. -/
def skip (clock : Readings) (n : Nat) : Readings := fun i => clock (i + n)

@[simp]
theorem skip_still (now : Instant) (n : Nat) : (still now).skip n = still now := rfl

end Readings

end ServiceDirectory
