import ServiceDirectory.Proofs.Authored
import ServiceDirectory.Proofs.LocalWrites

namespace ServiceDirectory

namespace Entry

variable {h : Entry} {t now : Instant} {age : UInt64}

theorem timestamp_le_of_isCollectable (hc : h.isCollectable now age) : h.timestamp ≤ now := by
  by_cases ht : h.isTombstone
  · have hle := add_le_of_isCollectable ht hc
    rw [Int64.le_iff_toInt_le]
    omega
  · rw [isCollectable, if_neg ht, isExpired_iff] at hc
    obtain ⟨ms, -, -, hle⟩ := hc
    exact Int64.le_trans (Instant.le_after _ ms) hle

/-- What a sweep removes before the end of time lies in the past. -/
theorem timestamp_lt_of_isCollectable_of_lt (hage : age ≠ 0) (hnow : now < Int64.maxValue)
    (hc : h.isCollectable now age) : h.timestamp < now :=
  timestamp_lt_of_isCollectable hage (Int64.lt_of_le_of_lt (timestamp_le_of_isCollectable hc) hnow) hc

/-- Whatever comes now or later does the same over such an entry as over nothing. -/
structure Gone (t : Instant) (h : Entry) : Prop where
  stamped : h.Stamped
  timestamp : h.timestamp < t
  isLive : h.isLive t = false

theorem isLive_eq_false_mono (ht : t ≤ now) (hl : h.isLive t = false) : h.isLive now = false := by
  cases hv : h.isTombstone with
  | true => simp [isLive, hv]
  | false =>
    have hx : h.isExpired t := by simpa [isLive, hv] using hl
    simp [isLive, isExpired_mono ht hx]

theorem Gone.mono (hg : h.Gone t) (ht : t ≤ now) : h.Gone now where
  stamped := hg.stamped
  timestamp := Int64.lt_of_lt_of_le hg.timestamp ht
  isLive := isLive_eq_false_mono ht hg.isLive

theorem Gone.over_eq {origin : String} {key : Bytes} {value : Option Bytes} {maxAge : Option UInt64}
    (hg : h.Gone now) (hnow : 1 ≤ now) :
    Entry.over (some h) origin now key value maxAge = Entry.over none origin now key value maxAge := by
  have hs := hg.stamped
  have ht := hg.timestamp
  rw [Int64.lt_iff_toInt_lt] at ht
  rw [Int64.le_iff_toInt_le, Int64.toInt_one] at hnow
  unfold Stamped at hs
  have hb := now.bounds
  have hv := Instant.toNat_toVersion (t := now) (by omega)
  have hversion : max (nextVersion h.version) now.toVersion = max 1 now.toVersion := by
    have hnext : (nextVersion h.version).toNat = h.version.toNat + 1 := by
      apply toNat_nextVersion
      unfold Instant.last at hb
      omega
    apply UInt64.toNat_inj.mp
    rw [toNat_max, toNat_max, UInt64.toNat_one]
    omega
  have htime : now.latest h.timestamp.succ = now := by
    have hsucc : h.timestamp.succ.toInt = h.timestamp.toInt + 1 := Instant.toInt_succ (by omega)
    apply Int64.toInt_inj.mp
    rw [Instant.toInt_latest]
    omega
  simp only [Entry.over, Option.elim, hversion, htime]

theorem Gone.outranks {origin : String} {key : Bytes} {value : Option Bytes} {maxAge : Option UInt64}
    (hg : h.Gone t) : (Entry.over (some h) origin now key value maxAge).Outranks h := by
  exact over_outranks_of_timestamp_ne (Instant.ne_maxValue_of_lt hg.timestamp)

end Entry

namespace Operation

inductive Answer
  | stored (result : Except Failure Entry)
  | deleted (result : Except Failure Bool)
  | found (result : Except Failure (Option Entry))
  | listed (result : Except Failure (List Entry))

/-- What a client is told. -/
def answer? (r : Replica) : Operation → Option Answer
  | put now key value maxAge => some (.stored ((Replica.put now key value maxAge).run.run r).1)
  | delete now key => some (.deleted ((Replica.delete now key).run.run r).1)
  | lookup now key => some (.found ((Replica.lookup now key).run.run r).1)
  | live now => some (.listed ((Replica.live now).run.run r).1)
  | snapshot | merge .. | absorb .. | sweep _ | drain => none

def isSweep : Operation → Bool
  | sweep _ => true
  | _ => false

/-- Nothing comes in of a peer, and what is held is not laid open to one. -/
def IsLocal : Operation → Prop
  | snapshot | merge .. | absorb .. => False
  | _ => True

instance (o : Operation) : Decidable o.IsLocal :=
  match o with
  | snapshot | merge .. | absorb .. => .isFalse id
  | put .. | delete .. | lookup .. | live .. | sweep .. | drain => .isTrue trivial

/-- By a clock that does not go back behind `t` and has not come to its end. -/
def Paced (t : Instant) : List Operation → Prop
  | [] => True
  | o :: os =>
    (∀ now ∈ o.reading?, t ≤ now ∧ now < Int64.maxValue) ∧ Paced (o.reading?.getD t) os

end Operation

namespace Replica

open Operation

variable {r s : Replica} {t now : Instant} {key k : Bytes} {value : Option Bytes}
  {maxAge : Option UInt64} {age : Span} {o : Operation} {os : List Operation}

def answers (r : Replica) : List Operation → List Answer
  | [] => []
  | o :: os => (o.answer? r).toList ++ answers (o.run r) os

theorem fits_built_congr (h : s.nodeId = r.nodeId) :
    (s.built now key value maxAge).Fits ↔ (r.built now key value maxAge).Fits := by
  have ho : (s.built now key value maxAge).origin = (r.built now key value maxAge).origin := h
  exact ⟨fun hf => ⟨hf.key, hf.value, ho ▸ hf.origin⟩, fun hf => ⟨hf.key, hf.value, ho ▸ hf.origin⟩⟩

theorem fits_congr (h : s.nodeId = r.nodeId) : o.Fits s ↔ o.Fits r := by
  cases o with
  | put now key value maxAge => exact fits_built_congr h
  | delete now key => exact fits_built_congr h
  | _ => exact Iff.rfl

/-- `s` holds what `r` does, but for what has gone by `t`. -/
structure Alike (age : Span) (t : Instant) (r s : Replica) : Prop where
  stocked : r.Stocked
  stocked' : s.Stocked
  nodeId : s.nodeId = r.nodeId
  age : s.settings.tombstoneMaxAge = age
  clock : 1 ≤ t
  dated : ∀ k, ∀ e ∈ r.held k, e.Dated
  held (k : Bytes) : s.held k = r.held k ∨ s.held k = none ∧ ∀ e ∈ r.held k, e.Gone t

theorem Alike.mono (h : Alike age t r s) (ht : t ≤ now) : Alike age now r s where
  stocked := h.stocked
  stocked' := h.stocked'
  nodeId := h.nodeId
  age := h.age
  clock := Int64.le_trans h.clock ht
  dated := h.dated
  held k := (h.held k).imp_right fun hg => ⟨hg.1, fun e he => (hg.2 e he).mono ht⟩

/-- Both write the same. -/
theorem Alike.built_eq (h : Alike age t r s) (key : Bytes) (value : Option Bytes)
    (maxAge : Option UInt64) :
    s.built t key value maxAge = r.built t key value maxAge := by
  rw [built, built, h.nodeId]
  rcases h.held key with he | ⟨hs, hg⟩
  · rw [he]
  · rw [hs]
    cases hr : r.held key with
    | none => rfl
    | some e => exact ((hg e hr).over_eq h.clock).symm

theorem Alike.resolve_eq (h : Alike age t r s) (key : Bytes) (value : Option Bytes)
    (maxAge : Option UInt64) :
    Entry.resolve (s.held key) (r.built t key value maxAge) =
      Entry.resolve (r.held key) (r.built t key value maxAge) := by
  rcases h.held key with he | ⟨hs, hg⟩
  · rw [he]
  · rw [hs]
    cases hr : r.held key with
    | none => rfl
    | some e =>
      have ho : (r.built t key value maxAge).Outranks e := by
        rw [built, hr]
        exact (hg e hr).outranks
      exact (Entry.winner_of_outranks ho).symm

theorem Alike.filter_isLive (h : Alike age t r s) (k : Bytes) :
    (s.held k).filter (·.isLive t) = (r.held k).filter (·.isLive t) := by
  rcases h.held k with he | ⟨hs, hg⟩
  · rw [he]
  · rw [hs]
    cases hr : r.held k with
    | none => rfl
    | some e => simp [Option.filter_some, (hg e hr).isLive]

theorem Alike.sweepOnce (h : Alike age t r s) (hage : age.millisWord ≠ 0)
    (ht : t < Int64.maxValue) : Alike age t r (s.sweepOnce t) where
  stocked := h.stocked
  stocked' := h.stocked'.sweepOnce
  nodeId := (frame_sweepOnce h.stocked'.toSound).nodeId.trans h.nodeId
  age := by rw [(frame_sweepOnce h.stocked'.toSound).settings, h.age]
  clock := h.clock
  dated := h.dated
  held k := by
    rw [held_sweepOnce h.stocked'.toSound, h.age]
    rcases h.held k with he | ⟨hs, hg⟩
    · rw [he]
      cases hr : r.held k with
      | none => exact .inl rfl
      | some e =>
        cases hc : e.isCollectable t age.millisWord with
        | false => exact .inl (by simp [hc])
        | true =>
          refine .inr ⟨by simp [hc], fun x hx => ?_⟩
          cases hx
          have hlt := Entry.timestamp_lt_of_isCollectable_of_lt hage ht hc
          exact ⟨(h.dated k e hr).stamped_of_timestamp_ne (Instant.ne_maxValue_of_lt hlt), hlt,
            Entry.isLive_eq_false_of_isCollectable hc⟩
    · exact .inr ⟨by rw [hs]; rfl, hg⟩

theorem Alike.writes (h : Alike age t r s) (k key : Bytes) :
    Operation.writes s k key (s.built t key value maxAge) =
        Operation.writes r k key (r.built t key value maxAge) ∨
      Operation.writes s k key (s.built t key value maxAge) = none ∧
        ∀ e ∈ Operation.writes r k key (r.built t key value maxAge), e.Gone t := by
  unfold Operation.writes
  split
  · rename_i hk
    rw [h.built_eq, ← hk, h.resolve_eq]
    exact .inl rfl
  · exact h.held k

/-- What a client does leaves the two alike. -/
theorem Alike.step (h : Alike age t r s) (ho : o.IsLocal) (hsweep : o.isSweep = false)
    (ht : ∀ now ∈ o.reading?, now = t) (hf : o.Fits r) : Alike age t (o.run r) (o.run s) := by
  have hr := h.stocked.step hf
  have hs := h.stocked'.step ((fits_congr h.nodeId).mpr hf)
  have hd : o.Dated := by
    refine ⟨fun now hnow => (ht now hnow).symm ▸ h.clock, ?_⟩
    cases o with
    | merge now batch => exact ho.elim
    | absorb now peer pulled => exact ho.elim
    | _ => exact fun e he => absurd he List.not_mem_nil
  refine ⟨hr.stocked, hs.stocked, hs.nodeId.trans (h.nodeId.trans hr.nodeId.symm),
    by rw [hs.settings, h.age], h.clock, fun k e he => ?_, fun k => ?_⟩
  · rw [hr.held] at he
    exact Operation.dated_leaves hd h.dated k e he
  · rw [hr.held, hs.held]
    cases o with
    | put now key value maxAge =>
      cases ht now rfl
      exact h.writes k key
    | delete now key =>
      cases ht now rfl
      exact h.writes k key
    | lookup now key => exact h.held k
    | live now => exact h.held k
    | drain => exact h.held k
    | sweep now => contradiction
    | snapshot => exact ho.elim
    | merge now batch => exact ho.elim
    | absorb now peer pulled => exact ho.elim

theorem Alike.run_write (h : Alike age t r s) (key : Bytes) (value : Option Bytes)
    (maxAge : Option UInt64) : ∃ w r' s',
    (write t key value maxAge).run.run r = (.ok (w, r.held key), r') ∧
    (write t key value maxAge).run.run s = (.ok (w, s.held key), s') := by
  have hr := Replica.run_write h.stocked.toSound (rfl : r.built t key value maxAge = _)
  have hs := Replica.run_write h.stocked'.toSound (h.built_eq key value maxAge)
  rw [h.resolve_eq] at hs
  exact ⟨_, _, _, hr, hs⟩

theorem Alike.any_isLive (h : Alike age t r s) (k : Bytes) :
    (s.held k).any (·.isLive t) = (r.held k).any (·.isLive t) := by
  have hf := congrArg Option.isSome (h.filter_isLive k)
  rwa [Option.isSome_filter, Option.isSome_filter] at hf

theorem Alike.run_live (h : Alike age t r s) :
    ((live t).run.run s).1 = ((live t).run.run r).1 := by
  obtain ⟨es, hr, hsorted, hmem⟩ := exists_run_live h.stocked.toSound t
  obtain ⟨es', hs, hsorted', hmem'⟩ := exists_run_live h.stocked'.toSound t
  have heq : es' = es := by
    apply hsorted'.eq_of_mem_iff hsorted
    intro e
    have hiff : (s.held e.key).filter (·.isLive t) = some e ↔
        (r.held e.key).filter (·.isLive t) = some e := by rw [h.filter_isLive]
    rw [Option.filter_eq_some_iff, Option.filter_eq_some_iff] at hiff
    rw [hmem, hmem']
    exact hiff
  rw [hr, hs, heq]

/-- What a client is told does not differ. -/
theorem Alike.answer?_eq (h : Alike age t r s) (ht : ∀ now ∈ o.reading?, now = t) :
    o.answer? s = o.answer? r := by
  cases o with
  | put now key value maxAge =>
    cases ht now rfl
    obtain ⟨w, r', s', hr, hs⟩ := h.run_write key (some value) maxAge
    rw [answer?, answer?, run_put hr, run_put hs]
  | delete now key =>
    cases ht now rfl
    obtain ⟨w, r', s', hr, hs⟩ := h.run_write key none none
    rw [answer?, answer?, run_delete hr, run_delete hs, h.any_isLive]
  | lookup now key =>
    cases ht now rfl
    rw [answer?, answer?, run_lookup h.stocked.toSound, run_lookup h.stocked'.toSound,
      h.filter_isLive]
  | live now =>
    cases ht now rfl
    rw [answer?, answer?, h.run_live]
  | _ => rfl

theorem Alike.answers_eq (h : Alike age t r s) (hage : age.millisWord ≠ 0)
    (hos : ∀ o ∈ os, o.IsLocal ∧ o.Fits r) (hp : Paced t os) :
    s.answers os = r.answers (os.filter (!·.isSweep)) := by
  induction os generalizing t r s with
  | nil => rfl
  | cons o os ih =>
    obtain ⟨hlocal, hf⟩ := hos o (by simp)
    obtain ⟨hclock, hp'⟩ := hp
    have hos' : ∀ o' ∈ os, o'.IsLocal ∧ o'.Fits r := fun o' ho' =>
      hos o' (List.mem_cons_of_mem o ho')
    cases hsweep : o.isSweep with
    -- only the one that is swept goes on
    | true =>
      cases o with
      | sweep now =>
        obtain ⟨ht, hlast⟩ := hclock now rfl
        exact ih ((h.mono ht).sweepOnce hage hlast) hos' hp'
      | _ => contradiction
    | false =>
      have h' : Alike age (o.reading?.getD t) r s := by
        cases hr : o.reading? with
        | none => exact h
        | some now => exact h.mono (hclock now hr).1
      have ht : ∀ now ∈ o.reading?, now = o.reading?.getD t := by
        intro now hr
        rw [Option.mem_def.mp hr]
        rfl
      have hid := (h.stocked.step hf).nodeId
      rw [List.filter_cons_of_pos (by simp [hsweep]), answers, answers, h'.answer?_eq ht,
        ih (h'.step hlocal hsweep ht hf) (fun o' ho' => ?_) hp']
      exact ⟨(hos' o' ho').1, (fits_congr hid).mpr (hos' o' ho').2⟩

theorem alike_start (name nodeId : String) (settings : Settings) (isDurable : Bool) :
    Alike settings.tombstoneMaxAge 1 (start name nodeId settings (Medium.fresh isDurable))
      (start name nodeId settings (Medium.fresh isDurable)) where
  stocked := stocked_start ..
  stocked' := stocked_start ..
  nodeId := rfl
  age := rfl
  clock := Int64.le_refl 1
  dated k e he := by
    have hn := Medium.held_fresh isDurable k
    exact absurd (hn.symm.trans he) (by simp)
  held k := .inl rfl

/-- Whatever the clients of a node that forgets tombstones of this age do, by a clock that never goes
back, sweeps in between change nothing of what they are told. -/
def SweepsUnseen (age : Span) : Prop :=
  ∀ name nodeId settings isDurable os, settings.tombstoneMaxAge = age →
    (∀ o ∈ os, o.IsLocal ∧ o.Fits (start name nodeId settings (Medium.fresh isDurable))) →
    Paced 1 os →
    (start name nodeId settings (Medium.fresh isDurable)).answers os =
      (start name nodeId settings (Medium.fresh isDurable)).answers (os.filter (!·.isSweep))

/-- A delete, a sweep and a put within a millisecond. -/
def remake : List Operation := [.delete 5 [107], .sweep 5, .put 5 [107] [49] none]

theorem sound_bereft (age : Span) : (bereft age).Sound := by
  have hs : (newborn age).Sound := traced_start.sound
  exact (hs.store trivial).enqueue tombAtFive

theorem run_delete_newborn (age : Span) :
    (delete 5 [107]).run.run (newborn age) = (.ok false, bereft age) := rfl

theorem answers_remake_kept (age : Span) :
    (newborn age).answers (remake.filter (!·.isSweep)) = [.deleted (.ok false),
      .stored (.ok { tombAtFive with value := some [49], version := 6, timestamp := 6 })] := by
  change (newborn age).answers [.delete 5 [107], .put 5 [107] [49] none] = _
  simp only [answers, answer?, Operation.run, run_delete_newborn]
  rfl

theorem answers_remake (hage : age.millisWord = 0) : (newborn age).answers remake =
    [.deleted (.ok false), .stored (.ok { tombAtFive with value := some [49] })] := by
  have hheld := held_sweepOnce_bereft hage
  have hb : ((bereft age).sweepOnce 5).built 5 [107] (some [49]) none =
      { tombAtFive with value := some [49] } := by
    rw [built, hheld]
    rfl
  have hput := run_put (run_write (sound_bereft age).sweepOnce hb)
  rw [hheld] at hput
  simp only [remake, answers, answer?, Operation.run, run_delete_newborn, hput]
  rfl

theorem nodeId_newborn (age : Span) : (newborn age).nodeId = (newborn ⟨0⟩).nodeId := rfl

theorem fits_remake : ∀ o ∈ remake, o.IsLocal ∧ o.Fits (newborn age) := by
  intro o ho
  rw [fits_congr (nodeId_newborn age)]
  revert o
  decide

theorem paced_remake : Paced 1 remake := by
  refine ⟨?_, ?_, ?_, trivial⟩
  all_goals
    rintro now ⟨⟩
    decide

/-- A tombstone that may be swept at once leaves its millisecond to the next write. -/
theorem not_sweepsUnseen (hage : age.millisWord = 0) : ¬ SweepsUnseen age := by
  intro hall
  have heq : (newborn age).answers remake = (newborn age).answers (remake.filter (!·.isSweep)) :=
    hall _ _ _ _ remake rfl fits_remake paced_remake
  rw [answers_remake hage, answers_remake_kept] at heq
  have hversion : (5 : UInt64) = 6 := by
    injection heq with _ heq
    injection heq with heq
    injection heq with heq
    injection heq with heq
    exact congrArg Entry.version heq
  exact absurd hversion (by decide)

/-- Sweeps are unseen by the clients exactly if the age of tombstones is not zero as a machine word. -/
theorem sweepsUnseen_iff (age : Span) : SweepsUnseen age ↔ age.millisWord ≠ 0 := by
  constructor
  · exact fun h hage => not_sweepsUnseen hage h
  · intro hage name nodeId settings isDurable os hset hos hp
    exact (hset ▸ alike_start name nodeId settings isDurable).answers_eq hage hos hp

/-- Tombstones that are to be kept for a whole word of milliseconds show that they were swept. -/
theorem not_sweepsUnseen_wordMillis : 1 ≤ (Span.ofMillis (2 ^ 64)).millis ∧
    ¬ SweepsUnseen (Span.ofMillis (2 ^ 64)) := ⟨by decide, not_sweepsUnseen (by decide)⟩

end Replica

end ServiceDirectory
