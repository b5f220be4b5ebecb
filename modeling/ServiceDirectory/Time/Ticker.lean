import ServiceDirectory.Time

namespace ServiceDirectory

/-- A regular beat, in whole milliseconds. -/
structure Ticker where
  period : Nat
  due : Nat
  period_pos : 0 < period

namespace Ticker

theorem ceilMillis_pos {d : Span} (h : d.nanos ≠ 0) : 0 < d.ceilMillis := by
  unfold Span.ceilMillis
  omega

/-- First due one period after the start. A period of no length has no beat. -/
def start? (now : Nat) (period : Span) : Option Ticker :=
  if h : period.nanos = 0 then none
  else some ⟨period.ceilMillis, now + period.ceilMillis, ceilMillis_pos h⟩

/-- Beats at `now`. A beat that comes more than five milliseconds late starts the rhythm afresh. -/
def beat (t : Ticker) (now : Nat) : Ticker :=
  { t with due := (if t.due + 5 < now then now else t.due) + t.period }

theorem due_lt_beat (t : Ticker) (now : Nat) : t.due < (t.beat now).due := by
  have := t.period_pos
  simp only [beat]
  split <;> omega

end Ticker

end ServiceDirectory
