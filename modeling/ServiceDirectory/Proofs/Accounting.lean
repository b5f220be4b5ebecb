import Mathlib.Logic.Function.Basic
import ServiceDirectory.Proofs.Request

namespace ServiceDirectory

/-! Requests that overlap are counted once each, where they end. -/

variable {α : Type}

/-- What the end of a request adds to the counters of its kind. -/
structure Tally where
  kind : RequestKind
  failed : Bool
  micros : Nat
deriving DecidableEq

namespace Stats

variable {b s s' : Stats} {ts ts' : List Tally}

theorem ext_get (h : ∀ k, s.get k = s'.get k) : s = s' := by
  cases s
  cases s'
  rw [mk.injEq]
  exact ⟨h .query, h .register, h .listRegistered, h .unregister, h .announce, h .withdraw⟩

/-- The counters of each kind have moved by the tallies of that kind, all modulo the word size. -/
structure Accounts (before after : Stats) (ts : List Tally) : Prop where
  success (k : RequestKind) : (after.get k).success =
    (before.get k).success + .ofNat (ts.countP fun t => t.kind = k ∧ ¬ t.failed)
  failure (k : RequestKind) : (after.get k).failure =
    (before.get k).failure + .ofNat (ts.countP fun t => t.kind = k ∧ t.failed)
  micros (k : RequestKind) : (after.get k).totalMicros =
    (before.get k).totalMicros + .ofNat ((ts.filter (·.kind = k)).map (·.micros)).sum

namespace Accounts

theorem nil (s : Stats) : s.Accounts s [] where
  success _ := (UInt64.add_zero _).symm
  failure _ := (UInt64.add_zero _).symm
  micros _ := (UInt64.add_zero _).symm

theorem perm (h : b.Accounts s ts) (hp : ts.Perm ts') : b.Accounts s ts' where
  success k := hp.countP_eq _ ▸ h.success k
  failure k := hp.countP_eq _ ▸ h.failure k
  micros k := ((hp.filter _).map _).sum_nat ▸ h.micros k

/-- Tallies tell all that the counters show. -/
theorem unique (h : b.Accounts s ts) (h' : b.Accounts s' ts) : s = s' := by
  refine ext_get fun k => ?_
  rw [Counters.mk.injEq]
  exact ⟨(h.success k).trans (h'.success k).symm, (h.failure k).trans (h'.failure k).symm,
    (h.micros k).trans (h'.micros k).symm⟩

theorem record (h : b.Accounts s ts) (k : RequestKind) (success : Bool) (elapsed : Span) :
    b.Accounts (s.record k success elapsed) (ts ++ [⟨k, !success, elapsed.micros⟩]) := by
  have hget (j : RequestKind) : (s.record k success elapsed).get j =
      if k = j then (s.get j).record success elapsed else s.get j := get_modify s k j _
  refine ⟨fun j => ?_, fun j => ?_, fun j => ?_⟩
  · rw [hget, List.countP_append, UInt64.ofNat_add, ← UInt64.add_assoc, ← h.success]
    by_cases hk : k = j <;> cases success <;> simp [hk, Counters.record]
  · rw [hget, List.countP_append, UInt64.ofNat_add, ← UInt64.add_assoc, ← h.failure]
    by_cases hk : k = j <;> cases success <;> simp [hk, Counters.record]
  · rw [hget, List.filter_append, List.map_append, List.sum_append, UInt64.ofNat_add,
      ← UInt64.add_assoc, ← h.micros]
    by_cases hk : k = j <;> simp [hk, Counters.record]

theorem countP_kind (ts : List Tally) (k : RequestKind) : ts.countP (·.kind = k) =
    (ts.countP fun t => t.kind = k ∧ ¬ t.failed) + ts.countP fun t => t.kind = k ∧ t.failed := by
  induction ts with
  | nil => rfl
  | cons t ts ih =>
    rw [List.countP_cons, List.countP_cons, List.countP_cons, ih]
    by_cases hk : t.kind = k <;> cases t.failed <;> simp [hk] <;> omega

/-- All that have ended are counted as a success or as a failure. -/
theorem ended (h : b.Accounts s ts) (k : RequestKind) :
    (s.get k).success + (s.get k).failure =
      (b.get k).success + (b.get k).failure + .ofNat (ts.countP (·.kind = k)) := by
  rw [h.success, h.failure, countP_kind, UInt64.ofNat_add]
  ac_rfl

end Accounts

end Stats

/-- What a call comes to: an answer, or none if it is given up. -/
abbrev Exit (α : Type) := Option (Except Status α)

namespace Exit

def ending : Exit α → Ending
  | some x => .ofResult x
  | none => .cancelled

/-- Statuses that are not the caller's own doing are failures, and so is having no answer. -/
def failed : Exit α → Bool
  | some (.ok _) => false
  | some (.error s) =>
    s.code ∉ [Code.invalidArgument, Code.notFound, Code.alreadyExists, Code.failedPrecondition]
  | none => true

theorem failed_error (s : Status) : failed (some (.error s : Except Status α)) = s.isFailure := by
  rw [failed, Status.isFailure]
  cases s.code <;> rfl

end Exit

theorem InFlight.stats_close (r : InFlight) (now : Span) (exit : Exit α) (s : Stats) :
    (r.close now exit.ending s).1 =
      s.record r.kind (!exit.failed) ⟨now.nanos - r.start.nanos⟩ := by
  match exit with
  | none => rfl
  | some (.ok _) => rfl
  | some (.error status) =>
    rw [Exit.failed_error, Exit.ending, Ending.ofResult]
    cases status.isFailure <;> rfl

/-- However a request ends, it adds one tally, of its own kind. -/
theorem InFlight.accounts_close {b s : Stats} {ts : List Tally} (h : b.Accounts s ts) (r : InFlight)
    (now : Span) (exit : Exit α) : b.Accounts (r.close now exit.ending s).1
      (ts ++ [⟨r.kind, exit.failed, (⟨now.nanos - r.start.nanos⟩ : Span).micros⟩]) := by
  have hadd := h.record r.kind (!exit.failed) ⟨now.nanos - r.start.nanos⟩
  rwa [Bool.not_not, ← r.stats_close] at hadd

/-- What can happen next where calls are under way. -/
inductive Moment (α : Type)
  | passes (d : Span)
  /-- A call is asked how far it is; it has an answer once it is done. -/
  | asks (call : Nat) (answer : Exit α)
  | drops (call : Nat)
  /-- Something is counted that is no call. -/
  | records (kind : RequestKind) (success : Bool) (elapsed : Span)

inductive Stage
  | unbegun
  /-- Dropped before it was asked for the first time, so that none of it was ever run. -/
  | discarded
  | underway (r : InFlight)
  | finished

/-- A call that has been closed. -/
structure Closing (α : Type) extends InFlight where
  call : Nat
  stop : Span
  exit : Exit α

def Closing.tally (c : Closing α) : Tally :=
  ⟨c.kind, c.exit.failed, (⟨c.stop.nanos - c.start.nanos⟩ : Span).micros⟩

def Moment.tally? : Moment α → Option Tally
  | records kind success elapsed => some ⟨kind, !success, elapsed.micros⟩
  | _ => none

/-- A desk with any number of calls under way. -/
structure Lobby (α : Type) where
  desk : Desk
  stage : Nat → Stage := fun _ => .unbegun
  closed : List (Closing α) := []

namespace Lobby

def move (l : Lobby α) (call : Nat) (st : Stage) : Lobby α :=
  { l with stage := Function.update l.stage call st }

theorem stage_move (l : Lobby α) (call : Nat) (st : Stage) (i : Nat) :
    (l.move call st).stage i = if i = call then st else l.stage i := Function.update_apply ..

/-- What is kept of a call while it is under way goes out of scope, with an answer or without. -/
def close (l : Lobby α) (call : Nat) (r : InFlight) (exit : Exit α) : Lobby α :=
  let (stats, event) := r.close l.desk.now exit.ending l.desk.stats
  { l.move call .finished with
    desk := { l.desk with stats, log := l.desk.log ++ [event] }
    closed := l.closed ++ [{ r with call, stop := l.desk.now, exit }] }

theorem stage_close (l : Lobby α) (call : Nat) (r : InFlight) (exit : Exit α) (i : Nat) :
    (l.close call r exit).stage i = if i = call then .finished else l.stage i := stage_move ..

theorem closed_close (l : Lobby α) (call : Nat) (r : InFlight) (exit : Exit α) :
    (l.close call r exit).closed = l.closed ++ [{ r with call, stop := l.desk.now, exit }] := rfl

/-- A call begins when it is first asked. -/
def turn (kinds : Nat → RequestKind) (l : Lobby α) : Moment α → Lobby α
  | .passes d => { l with desk := { l.desk with now := ⟨l.desk.now.nanos + d.nanos⟩ } }
  | .asks call none =>
    match l.stage call with
    | .unbegun => l.move call (.underway ⟨kinds call, l.desk.now⟩)
    | _ => l
  | .asks call (some x) =>
    match l.stage call with
    | .unbegun => l.close call ⟨kinds call, l.desk.now⟩ (some x)
    | .underway r => l.close call r (some x)
    | _ => l
  | .drops call =>
    match l.stage call with
    | .unbegun => l.move call .discarded
    | .underway r => l.close call r none
    | _ => l
  | .records kind success elapsed =>
    { l with desk := { l.desk with stats := l.desk.stats.record kind success elapsed } }

def run (kinds : Nat → RequestKind) (d : Desk) (ms : List (Moment α)) : Lobby α :=
  ms.foldl (turn kinds) { desk := d }

/-- All that has been counted since. -/
def tallies (l : Lobby α) (ms : List (Moment α)) : List Tally :=
  l.closed.map (·.tally) ++ ms.filterMap (·.tally?)

end Lobby

/-! What has become of a call, read off what has happened. -/

def Moment.nanos : Moment α → Nat
  | passes d => d.nanos
  | _ => 0

def Desk.nowAfter (d : Desk) (ms : List (Moment α)) : Span :=
  ⟨d.now.nanos + (ms.map (·.nanos)).sum⟩

inductive Moment.Concerns : Moment α → Nat → Prop
  | asks (call : Nat) (answer : Exit α) : Concerns (.asks call answer) call
  | drops (call : Nat) : Concerns (.drops call) call

/-- The moment is the last one of a call that is under way. -/
inductive Moment.Ends : Moment α → Nat → Exit α → Prop
  | answered (call : Nat) (x : Except Status α) : Ends (.asks call (some x)) call (some x)
  | dropped (call : Nat) : Ends (.drops call) call none

def Untouched (ms : List (Moment α)) (call : Nat) : Prop := ∀ m ∈ ms, ¬ m.Concerns call

/-- The call was first asked at `start`, with no answer then, and nothing has ended it since. -/
def Underway (d : Desk) (ms : List (Moment α)) (call : Nat) (start : Span) : Prop :=
  ∃ early late, ms = early ++ .asks call none :: late ∧ Untouched early call ∧
    (∀ m ∈ late, ∀ exit, ¬ m.Ends call exit) ∧ start = d.nowAfter early

/-- The call was ended while it was under way, or answered at once when it was first asked. -/
structure EndedBy (kinds : Nat → RequestKind) (d : Desk) (before : List (Moment α))
    (last : Moment α) (c : Closing α) : Prop where
  kind : c.kind = kinds c.call
  ends : last.Ends c.call c.exit
  stop : c.stop = d.nowAfter before
  start : Underway d before c.call c.start ∨
    Untouched before c.call ∧ c.exit ≠ none ∧ c.start = c.stop

def Ended (kinds : Nat → RequestKind) (d : Desk) (ms : List (Moment α)) (c : Closing α) : Prop :=
  ∃ before last rest, ms = before ++ last :: rest ∧ EndedBy kinds d before last c

section History

variable {kinds : Nat → RequestKind} {d : Desk} {ms : List (Moment α)} {m : Moment α} {i j : Nat}
  {e e' : Exit α} {t : Span} {c : Closing α}

theorem Moment.Ends.concerns (h : m.Ends i e) : m.Concerns i := by
  cases h with
  | answered call x => exact .asks _ _
  | dropped call => exact .drops _

theorem Moment.Concerns.unique (h : m.Concerns i) (h' : m.Concerns j) : i = j := by
  cases h <;> cases h' <;> rfl

theorem Moment.Concerns.nanos_eq (h : m.Concerns i) : m.nanos = 0 := by
  cases h <;> rfl

theorem Moment.Concerns.tally?_eq (h : m.Concerns i) : m.tally? = none := by
  cases h <;> rfl

theorem Moment.Ends.unique (h : m.Ends i e) (h' : m.Ends j e') : i = j ∧ e = e' := by
  cases h <;> cases h' <;> exact ⟨rfl, rfl⟩

theorem nowAfter_append (d : Desk) (ms ms' : List (Moment α)) :
    d.nowAfter (ms ++ ms') = ⟨(d.nowAfter ms).nanos + (ms'.map (·.nanos)).sum⟩ := by
  rw [Desk.nowAfter, Desk.nowAfter, List.map_append, List.sum_append, Nat.add_assoc]

theorem nowAfter_concat (d : Desk) (ms : List (Moment α)) (m : Moment α) :
    d.nowAfter (ms ++ [m]) = ⟨(d.nowAfter ms).nanos + m.nanos⟩ := by
  rw [nowAfter_append, List.map_singleton, List.sum_singleton]

theorem Underway.start_le (h : Underway d ms i t) : t.nanos ≤ (d.nowAfter ms).nanos := by
  obtain ⟨early, late, rfl, -, -, rfl⟩ := h
  rw [nowAfter_append]
  exact Nat.le_add_right ..

theorem Ended.start_le_stop (h : Ended kinds d ms c) : c.start.nanos ≤ c.stop.nanos := by
  obtain ⟨before, last, rest, -, hc⟩ := h
  rcases hc.start with hu | ⟨-, -, hstart⟩
  · exact hc.stop ▸ hu.start_le
  · rw [hstart]

theorem untouched_concat : Untouched (ms ++ [m]) i ↔ Untouched ms i ∧ ¬ m.Concerns i := by
  simp [Untouched, or_imp, forall_and]

/-- A list that ends in `m` is cut in two at `m`, or before it. -/
theorem concat_eq_append_cons_iff {β : Type} {l xs ys : List β} {x y : β} :
    l ++ [x] = xs ++ y :: ys ↔
      (ys = [] ∧ l = xs ∧ x = y) ∨ ∃ zs, ys = zs ++ [x] ∧ l = xs ++ y :: zs := by
  constructor
  · intro h
    rcases ys.eq_nil_or_concat with rfl | ⟨zs, z, rfl⟩
    · obtain ⟨rfl, hx⟩ := List.append_inj' h rfl
      exact .inl ⟨rfl, rfl, List.singleton_inj.mp hx⟩
    · rw [List.concat_eq_append, ← List.cons_append, ← List.append_assoc] at h
      obtain ⟨rfl, hx⟩ := List.append_inj' h rfl
      rw [List.singleton_inj.mp hx]
      exact .inr ⟨zs, List.concat_eq_append, rfl⟩
  · rintro (⟨rfl, rfl, rfl⟩ | ⟨zs, rfl, rfl⟩)
    · rfl
    · rw [List.append_assoc, List.cons_append]

theorem underway_concat : Underway d (ms ++ [m]) i t ↔
    (Underway d ms i t ∧ ∀ exit, ¬ m.Ends i exit) ∨
      (Untouched ms i ∧ m = .asks i none ∧ t = d.nowAfter ms) := by
  constructor
  · rintro ⟨early, late, hms, hearly, hlate, ht⟩
    rcases concat_eq_append_cons_iff.mp hms with ⟨rfl, rfl, rfl⟩ | ⟨late, rfl, rfl⟩
    · exact .inr ⟨hearly, rfl, ht⟩
    · rw [List.forall_mem_append, List.forall_mem_singleton] at hlate
      exact .inl ⟨⟨early, late, rfl, hearly, hlate.1, ht⟩, hlate.2⟩
  · rintro (⟨⟨early, late, rfl, hearly, hlate, ht⟩, hm⟩ | ⟨hms, rfl, ht⟩)
    · refine ⟨early, late ++ [m], ?_, hearly, ?_, ht⟩
      · rw [List.append_assoc, List.cons_append]
      · rw [List.forall_mem_append, List.forall_mem_singleton]
        exact ⟨hlate, hm⟩
    · exact ⟨ms, [], rfl, hms, by simp, ht⟩

theorem untouched_concat_of_not (h : ¬ m.Concerns i) :
    Untouched (ms ++ [m]) i ↔ Untouched ms i := by
  rw [untouched_concat, and_iff_left h]

theorem underway_concat_of_not (h : ¬ m.Concerns i) :
    Underway d (ms ++ [m]) i t ↔ Underway d ms i t := by
  rw [underway_concat, and_iff_left fun _ he => h he.concerns, or_iff_left]
  rintro ⟨-, rfl, -⟩
  exact h (.asks i none)

theorem ended_concat :
    Ended kinds d (ms ++ [m]) c ↔ Ended kinds d ms c ∨ EndedBy kinds d ms m c := by
  constructor
  · rintro ⟨before, last, rest, hms, hc⟩
    rcases concat_eq_append_cons_iff.mp hms with ⟨rfl, rfl, rfl⟩ | ⟨rest, rfl, rfl⟩
    · exact .inr hc
    · exact .inl ⟨before, last, rest, rfl, hc⟩
  · rintro (⟨before, last, rest, rfl, hc⟩ | hc)
    · exact ⟨before, last, rest ++ [m], by rw [List.append_assoc, List.cons_append], hc⟩
    · exact ⟨ms, m, [], rfl, hc⟩

end History

namespace Lobby

variable {kinds : Nat → RequestKind} {d : Desk} {ms : List (Moment α)} {m : Moment α}
  {l l' : Lobby α} {call : Nat} {r : InFlight} {exit : Exit α}

/-- The lobby is in the state that the moments tell of. -/
structure Follows (kinds : Nat → RequestKind) (d : Desk) (ms : List (Moment α)) (l : Lobby α) :
    Prop where
  now : l.desk.now = d.nowAfter ms
  unbegun (i : Nat) : l.stage i = .unbegun ↔ Untouched ms i
  underway (i : Nat) (r : InFlight) :
    l.stage i = .underway r ↔ r.kind = kinds i ∧ Underway d ms i r.start
  finished (i : Nat) : l.stage i = .finished ↔ i ∈ l.closed.map (·.call)
  nodup : (l.closed.map (·.call)).Nodup
  closed (c : Closing α) : c ∈ l.closed ↔ Ended kinds d ms c
  accounts : d.stats.Accounts l.desk.stats (l.tallies ms)

namespace Follows

theorem accounts_concat (h : l.Follows kinds d ms) (hm : m.tally? = none) :
    d.stats.Accounts l.desk.stats (l.tallies (ms ++ [m])) := by
  rw [tallies, List.filterMap_append, List.filterMap_cons_none hm, List.filterMap_nil,
    List.append_nil]
  exact h.accounts

/-- A moment that is no call's first or last changes no call. -/
theorem of_idle (h : l.Follows kinds d ms) (hbegin : ∀ i, m.Concerns i → l.stage i ≠ .unbegun)
    (hend : ∀ i e, m.Ends i e → ∀ r, l.stage i ≠ .underway r)
    (hstage : l'.stage = l.stage) (hclosed : l'.closed = l.closed)
    (hnow : l'.desk.now = ⟨l.desk.now.nanos + m.nanos⟩)
    (haccounts : d.stats.Accounts l'.desk.stats (l'.tallies (ms ++ [m]))) :
    l'.Follows kinds d (ms ++ [m]) where
  now := by rw [hnow, h.now, nowAfter_concat]
  unbegun i := by
    rw [hstage, h.unbegun, untouched_concat, iff_self_and]
    exact fun hi hm => hbegin i hm ((h.unbegun i).mpr hi)
  underway i r := by
    rw [hstage, h.underway, underway_concat]
    refine and_congr_right fun hkind => ⟨fun hi => .inl ⟨hi, fun e hm => ?_⟩, ?_⟩
    · exact hend i e hm r ((h.underway i r).mpr ⟨hkind, hi⟩)
    · rintro (⟨hi, -⟩ | ⟨hi, rfl, -⟩)
      · exact hi
      · exact absurd ((h.unbegun i).mpr hi) (hbegin i (.asks i none))
  finished i := by rw [hstage, hclosed, h.finished]
  nodup := hclosed ▸ h.nodup
  closed c := by
    rw [hclosed, h.closed, ended_concat, iff_self_or]
    intro hc
    rcases hc.start with hi | ⟨hi, -⟩
    · exact absurd ((h.underway c.call c.toInFlight).mpr ⟨hc.kind, hi⟩) (hend _ _ hc.ends _)
    · exact absurd ((h.unbegun _).mpr hi) (hbegin _ hc.ends.concerns)
  accounts := haccounts

/-- Nor does a moment that comes too late for its call, or too early to end it. -/
theorem of_ignored (h : l.Follows kinds d ms) (hm : m.Concerns call)
    (hbegin : l.stage call ≠ .unbegun)
    (hend : ∀ e, m.Ends call e → ∀ r, l.stage call ≠ .underway r) :
    l.Follows kinds d (ms ++ [m]) := by
  refine h.of_idle (fun i hi => ?_) (fun i e hi => ?_) rfl rfl ?_ (h.accounts_concat hm.tally?_eq)
  · rwa [hi.unique hm]
  · obtain rfl := hi.concerns.unique hm
    exact hend e hi
  · rw [hm.nanos_eq, Nat.add_zero]

theorem untouched (h : l.Follows kinds d ms) (hcall : l.stage call = .unbegun) (t : Span) :
    Untouched ms call ∧ ¬ Underway d ms call t := by
  refine ⟨(h.unbegun call).mp hcall, fun ht => ?_⟩
  have := hcall.symm.trans ((h.underway call ⟨kinds call, t⟩).mpr ⟨rfl, ht⟩)
  contradiction

theorem eq_of_underway (h : l.Follows kinds d ms) (hcall : l.stage call = .underway r) {t : Span}
    (ht : Underway d ms call t) : r = ⟨kinds call, t⟩ := by
  have := hcall.symm.trans ((h.underway call ⟨kinds call, t⟩).mpr ⟨rfl, ht⟩)
  exact Stage.underway.inj this

/-- What is kept of a call that is closed is how it began. -/
theorem request_eq (h : l.Follows kinds d ms) {c : Closing α}
    (hr : l.stage c.call = .underway r ∨
      l.stage c.call = .unbegun ∧ c.exit ≠ none ∧ r = ⟨kinds c.call, l.desk.now⟩)
    (hc : EndedBy kinds d ms m c) : r = c.toInFlight := by
  have hreq : c.toInFlight = ⟨kinds c.call, c.start⟩ := by rw [← hc.kind]
  rw [hreq]
  rcases hr with hcall | ⟨hcall, -, rfl⟩ <;> rcases hc.start with hu | ⟨hu, -, hstart⟩
  · exact h.eq_of_underway hcall hu
  · rw [(h.unbegun _).mpr hu] at hcall
    contradiction
  · exact absurd hu (h.untouched hcall _).2
  · rw [hstart, hc.stop, h.now]

/-- A first moment that does not close its call puts it into the stage `st`. -/
theorem of_first (h : l.Follows kinds d ms) (hm : m.Concerns call)
    (hcall : l.stage call = .unbegun) (hend : ∀ e, m.Ends call e → e = none) {st : Stage}
    (hst : ∀ r, st = .underway r ↔ r = ⟨kinds call, l.desk.now⟩ ∧ m = .asks call none)
    (hunbegun : st ≠ .unbegun) (hfinished : st ≠ .finished) :
    (l.move call st).Follows kinds d (ms ++ [m]) := by
  have hother (i : Nat) (hi : i ≠ call) : ¬ m.Concerns i := fun hc => hi (hc.unique hm)
  refine ⟨?_, fun i => ?_, fun i r => ?_, fun i => ?_, h.nodup, fun c => ?_, ?_⟩
  · rw [nowAfter_concat, hm.nanos_eq, ← h.now]
    rfl
  · rw [stage_move]
    split_ifs with hi
    · rw [hi, untouched_concat]
      exact iff_of_false hunbegun fun hc => hc.2 hm
    · rw [h.unbegun, untouched_concat_of_not (hother i hi)]
  · rw [stage_move]
    split_ifs with hi
    · obtain ⟨huntouched, hnot⟩ := h.untouched hcall r.start
      rw [hi, hst, underway_concat, or_iff_right fun hu => hnot hu.1, ← h.now]
      cases r
      simp [huntouched, and_assoc, and_comm]
    · rw [h.underway, underway_concat_of_not (hother i hi)]
  · rw [stage_move]
    split_ifs with hi
    · refine iff_of_false hfinished fun hc => ?_
      rw [hi, move, ← h.finished, hcall] at hc
      contradiction
    · exact h.finished i
  · rw [move, h.closed, ended_concat, iff_self_or]
    intro hc
    obtain rfl := hm.unique hc.ends.concerns
    rcases hc.start with hi | ⟨-, hi, -⟩
    · exact absurd hi (h.untouched hcall _).2
    · exact absurd (hend _ hc.ends) hi
  · exact h.accounts_concat hm.tally?_eq

/-- The last moment of a call closes it. -/
theorem of_last (h : l.Follows kinds d ms) (hm : m.Ends call exit)
    (hr : l.stage call = .underway r ∨
      l.stage call = .unbegun ∧ exit ≠ none ∧ r = ⟨kinds call, l.desk.now⟩) :
    (l.close call r exit).Follows kinds d (ms ++ [m]) := by
  have hother (i : Nat) (hi : i ≠ call) : ¬ m.Concerns i := fun hc => hi (hc.unique hm.concerns)
  refine ⟨?_, fun i => ?_, fun i r' => ?_, fun i => ?_, ?_, fun c => ?_, ?_⟩
  · rw [nowAfter_concat, hm.concerns.nanos_eq, ← h.now]
    rfl
  · rw [stage_close]
    split_ifs with hi
    · rw [hi, untouched_concat]
      exact iff_of_false not_false fun hc => hc.2 hm.concerns
    · rw [h.unbegun, untouched_concat_of_not (hother i hi)]
  · rw [stage_close]
    split_ifs with hi
    · rw [hi, underway_concat]
      refine iff_of_false not_false ?_
      rintro ⟨-, ⟨-, hno⟩ | ⟨-, rfl, -⟩⟩
      · exact hno _ hm
      · cases hm
    · rw [h.underway, underway_concat_of_not (hother i hi)]
  · rw [stage_close, closed_close, List.map_append, List.mem_append, List.map_singleton,
      List.mem_singleton]
    split_ifs with hi
    · exact iff_of_true rfl (.inr hi)
    · rw [h.finished, or_iff_left hi]
  · have hnew : call ∉ l.closed.map (·.call) := by
      rw [← h.finished]
      rcases hr with hcall | ⟨hcall, -⟩ <;> rw [hcall] <;> exact Stage.noConfusion
    rw [closed_close, List.map_append, List.map_singleton, List.nodup_append_comm]
    exact List.nodup_cons.mpr ⟨hnew, h.nodup⟩
  · rw [closed_close, List.mem_append, List.mem_singleton, h.closed, ended_concat]
    refine or_congr_right ⟨?_, ?_⟩
    · rintro rfl
      rcases hr with hcall | ⟨hcall, hexit, rfl⟩
      · obtain ⟨hkind, hu⟩ := (h.underway call r).mp hcall
        exact ⟨hkind, hm, h.now, .inl hu⟩
      · exact ⟨rfl, hm, h.now, .inr ⟨(h.unbegun call).mp hcall, hexit, rfl⟩⟩
    · -- The moments leave one way only in which this call can have begun.
      intro hc
      obtain ⟨rfl, rfl⟩ := hc.ends.unique hm
      obtain rfl := h.request_eq hr hc
      rw [h.now, ← hc.stop]
  · -- Records have been made since earlier calls were closed, so tallies come in another order.
    refine (r.accounts_close h.accounts l.desk.now exit).perm ?_
    rw [tallies, tallies, closed_close, List.filterMap_append, List.map_append,
      List.filterMap_cons_none hm.concerns.tally?_eq, List.filterMap_nil, List.append_nil,
      List.append_assoc, List.append_assoc]
    exact List.perm_append_comm.append_left _

theorem turn (h : l.Follows kinds d ms) (m : Moment α) :
    (l.turn kinds m).Follows kinds d (ms ++ [m]) := by
  match m with
  | .passes t => exact h.of_idle nofun nofun rfl rfl rfl (h.accounts_concat rfl)
  | .records kind success elapsed =>
    refine h.of_idle nofun nofun rfl rfl rfl ?_
    rw [tallies, List.filterMap_append, ← List.append_assoc]
    exact h.accounts.record kind success elapsed
  | .asks call none =>
    rw [Lobby.turn]
    split
    next hcall =>
      exact h.of_first (.asks call none) hcall nofun (fun r => by simp [eq_comm]) nofun nofun
    next hcall => exact h.of_ignored (.asks call none) hcall nofun
  | .asks call (some x) =>
    rw [Lobby.turn]
    split
    next hcall => exact h.of_last (.answered call x) (.inr ⟨hcall, nofun, rfl⟩)
    next r hcall => exact h.of_last (.answered call x) (.inl hcall)
    next hunbegun hunderway =>
      exact h.of_ignored (.asks call (some x)) hunbegun fun _ _ => hunderway
  | .drops call =>
    rw [Lobby.turn]
    split
    next hcall =>
      refine h.of_first (.drops call) hcall ?_ (fun r => by simp) nofun nofun
      rintro e ⟨⟩
      rfl
    next r hcall => exact h.of_last (.dropped call) (.inl hcall)
    next hunbegun hunderway => exact h.of_ignored (.drops call) hunbegun fun _ _ => hunderway

end Follows

theorem follows_nil (kinds : Nat → RequestKind) (d : Desk) :
    ({ desk := d } : Lobby α).Follows kinds d [] where
  now := rfl
  unbegun i := iff_of_true rfl nofun
  underway i r := iff_of_false nofun fun ⟨_, _, _, hms, _⟩ => by simp at hms
  finished i := iff_of_false nofun nofun
  nodup := .nil
  closed c := iff_of_false nofun fun ⟨_, _, _, hms, _⟩ => by simp at hms
  accounts := .nil _

theorem Follows.foldl (h : l.Follows kinds d ms) (ms' : List (Moment α)) :
    (ms'.foldl (Lobby.turn kinds) l).Follows kinds d (ms ++ ms') := by
  induction ms' generalizing l ms with
  | nil => rwa [List.append_nil]
  | cons m ms' ih =>
    rw [List.append_cons]
    exact ih (h.turn m)

theorem follows_run (kinds : Nat → RequestKind) (d : Desk) (ms : List (Moment α)) :
    (run kinds d ms).Follows kinds d ms := (follows_nil kinds d).foldl ms

end Lobby

/-! The requests that a desk and a node run one by one. -/

section Alone

variable {d : Desk} {kind : RequestKind} {wait l : Span} {limit : Option Span} {x : Except Status α}

theorem Lobby.desk_run_alone (d : Desk) (kind : RequestKind) (w : Span) {last : Moment α}
    {exit : Exit α} (h : last.Ends 0 exit) :
    (run (fun _ => kind) d [.asks 0 none, .passes w, last]).desk =
      { stats := (InFlight.close ⟨kind, d.now⟩ ⟨d.now.nanos + w.nanos⟩ exit.ending d.stats).1
        now := ⟨d.now.nanos + w.nanos⟩
        log := d.log ++
          [(InFlight.close ⟨kind, d.now⟩ ⟨d.now.nanos + w.nanos⟩ exit.ending d.stats).2] } := by
  cases h <;> rfl

/-- A request that is not given up is a call that has its answer after the wait. -/
theorem Desk.run_of_le (h : ∀ l ∈ limit, wait.ceilMillis ≤ l.ceilMillis) :
    d.run kind wait limit x = (some x, (Lobby.run (fun _ => kind) d
      [.asks 0 none, .passes (.ofMillis wait.ceilMillis), .asks 0 (some x)]).desk) := by
  rw [Lobby.desk_run_alone d kind _ (.answered 0 x)]
  cases limit with
  | none => rfl
  | some l =>
    rw [Desk.run]
    simp only [if_pos (h l rfl)]
    rfl

/-- A request that is given up is a call that is dropped at the limit. -/
theorem Desk.run_of_lt (h : l.ceilMillis < wait.ceilMillis) :
    d.run kind wait (some l) x = (none, (Lobby.run (α := α) (fun _ => kind) d
      [.asks 0 none, .passes (.ofMillis l.ceilMillis), .drops 0]).desk) := by
  rw [Lobby.desk_run_alone d kind _ (.dropped 0), Desk.run]
  simp only [if_neg (Nat.not_le.mpr h)]
  rfl

/-- A node counts a request by its answer, and answers no less. -/
theorem Node.accounts_monitored (kind : RequestKind) (h : Handler α) (n : Node) :
    ((monitored kind h).run.run n).1 = (h.run.run n).1 ∧
      (h.run.run n).2.stats.Accounts ((monitored kind h).run.run n).2.stats
        [⟨kind, Exit.failed (some (h.run.run n).1), 0⟩] := by
  have hadd := InFlight.accounts_close (.nil (h.run.run n).2.stats) ⟨kind, ⟨0⟩⟩ ⟨0⟩
    (some (h.run.run n).1)
  rw [Nat.sub_self] at hadd
  exact ⟨rfl, hadd⟩

end Alone

/-- Calls may overlap in any way, and each may be answered or dropped at any moment after it is first
asked; one that is dropped before is counted nowhere. Those that have come to an end are closed once
each, under their own kind, and the counters have moved by what these calls and the records between
them add up to, each time cut to whole microseconds, whatever the order. An answer is handed on as it
is. -/
theorem Lobby.counts_ended_calls (kinds : Nat → RequestKind) (d : Desk) (ms : List (Moment α)) :
    ((run kinds d ms).closed.map (·.call)).Nodup ∧
    (∀ c, c ∈ (run kinds d ms).closed ↔ Ended kinds d ms c) ∧
    (∀ c ∈ (run kinds d ms).closed, c.start.nanos ≤ c.stop.nanos) ∧
    d.stats.Accounts (run kinds d ms).desk.stats ((run kinds d ms).tallies ms) ∧
    (∀ k, ((run kinds d ms).desk.stats.get k).success +
        ((run kinds d ms).desk.stats.get k).failure =
      (d.stats.get k).success + (d.stats.get k).failure +
        .ofNat (((run kinds d ms).tallies ms).countP (·.kind = k))) ∧
    (∀ ms' : List (Moment α), ((run kinds d ms').tallies ms').Perm ((run kinds d ms).tallies ms) →
      (run kinds d ms').desk.stats = (run kinds d ms).desk.stats) ∧
    (∀ kind wait limit (x : Except Status α), (∀ l ∈ limit, wait.ceilMillis ≤ l.ceilMillis) →
      d.run kind wait limit x = (some x, (run (fun _ => kind) d
        [.asks 0 none, .passes (.ofMillis wait.ceilMillis), .asks 0 (some x)]).desk)) ∧
    (∀ kind wait l (x : Except Status α), l.ceilMillis < wait.ceilMillis →
      d.run kind wait (some l) x = (none, (run (α := α) (fun _ => kind) d
        [.asks 0 none, .passes (.ofMillis l.ceilMillis), .drops 0]).desk)) ∧
    (∀ kind (h : Handler α) (n : Node), ((Node.monitored kind h).run.run n).1 = (h.run.run n).1 ∧
      (h.run.run n).2.stats.Accounts ((Node.monitored kind h).run.run n).2.stats
        [⟨kind, Exit.failed (some (h.run.run n).1), 0⟩]) := by
  have hms := follows_run kinds d ms
  refine ⟨hms.nodup, hms.closed, fun c hc => ((hms.closed c).mp hc).start_le_stop, hms.accounts,
    hms.accounts.ended, fun ms' hp => ?_, fun _ _ _ _ => Desk.run_of_le,
    fun _ _ _ _ => Desk.run_of_lt, Node.accounts_monitored⟩
  exact ((follows_run kinds d ms').accounts.perm hp).unique hms.accounts

namespace Lobby

/-- Two queries that overlap, an announcement that fails, and the given way to end it all. -/
def rush (ending : List (Moment Unit)) : List (Moment Unit) :=
  [.asks 0 none, .passes ⟨1500⟩, .asks 1 none, .asks 2 none, .passes ⟨2500⟩] ++ ending

def rushKind (call : Nat) : RequestKind := if call = 2 then .announce else .query

def answers : List (Moment Unit) :=
  [.asks 0 (some (.ok ())), .drops 1, .asks 2 (some (.error ⟨.internal, "no room"⟩)),
    .records .query true ⟨999⟩]

/-- The same ends in the opposite order. -/
theorem counts_ended_calls_reverse :
    (((run rushKind {} (rush answers.reverse)).tallies (rush answers.reverse)).Perm
      ((run rushKind {} (rush answers)).tallies (rush answers))) ∧
    (run rushKind {} (rush answers.reverse)).desk.stats =
      (run rushKind {} (rush answers)).desk.stats ∧
    (∀ l ∈ some (Span.ofMillis 5), (Span.ofMillis 5).ceilMillis ≤ l.ceilMillis) ∧
    (Desk.run {} .query (.ofMillis 5) (some (.ofMillis 5)) (.ok ())).1 = some (.ok ()) ∧
    (Desk.run {} .query (.ofMillis 6) (some (.ofMillis 5)) (.ok ())).1 = none := by
  have hp : ((run rushKind {} (rush answers.reverse)).tallies (rush answers.reverse)).Perm
      ((run rushKind {} (rush answers)).tallies (rush answers)) := by decide
  have hl : ∀ l ∈ some (Span.ofMillis 5), (Span.ofMillis 5).ceilMillis ≤ l.ceilMillis := by simp
  obtain ⟨-, -, -, -, -, hperm, hwait, hdrop, -⟩ := counts_ended_calls rushKind {} (rush answers)
  exact ⟨hp, hperm _ hp, hl, congrArg Prod.fst (hwait .query _ _ _ hl),
    congrArg Prod.fst (hdrop .query _ _ _ (by decide))⟩

/-- The calls that have been answered or dropped, were they ever asked or not. -/
def finished (ms : List (Moment α)) : List Nat :=
  (ms.filterMap fun
    | .asks call (some _) | .drops call => some call
    | _ => none).dedup

/-- Every call that is over is counted, and nothing else is. -/
def CountsAll (kinds : Nat → RequestKind) (d : Desk) (ms : List (Moment α)) : Prop :=
  ∀ k, ((run kinds d ms).desk.stats.get k).success + ((run kinds d ms).desk.stats.get k).failure =
    (d.stats.get k).success + (d.stats.get k).failure + .ofNat ((finished ms).countP (kinds · = k))

/-- A call that is dropped before it is first asked is counted nowhere; and a record is counted
although it is no call. -/
theorem not_countsAll_unasked :
    ¬ CountsAll (fun _ => .query) {} [(.drops 0 : Moment Unit)] ∧
    ¬ CountsAll (fun _ => .query) {} [(.records .query true ⟨0⟩ : Moment Unit)] :=
  ⟨fun h => absurd (h .query) (by decide), fun h => absurd (h .query) (by decide)⟩

end Lobby

end ServiceDirectory
