import ServiceDirectory.Proofs.MutualSync
import ServiceDirectory.Proofs.Registry
import ServiceDirectory.Proofs.Sweep

namespace ServiceDirectory

namespace Entry

variable {ttl : Option UInt64} {now t : Instant} {a b : Option Entry} {x y : Entry}

/-- The greater of two nodes' copies of a key. -/
def met (a b : Option Entry) : Option Entry := settle a b.toList

theorem met_some_some (x y : Entry) : met (some x) (some y) = some (winner x y) := rfl

theorem met_none_left (b : Option Entry) : met none b = b := by
  cases b <;> rfl

theorem met_eq_or (a b : Option Entry) : met a b = a ∨ met a b = b := by
  cases b with
  | none => exact .inl rfl
  | some y => exact (resolve_eq a y).imp Eq.symm fun h => congrArg some h.symm

theorem met_of_timestamp_lt (ha : ∀ x ∈ a, x.Timed) (hy : y.Timed)
    (h : ∀ x ∈ a, x.timestamp < y.timestamp) : met a (some y) = some y := by
  cases a with
  | none => rfl
  | some x =>
    have ho := hy.outranks_of_timestamp_lt (ha x rfl) (h x rfl)
    rw [met_some_some, winner_of_outranks ho]

theorem met_comm (hk : ∀ x ∈ a, ∀ y ∈ b, x.key = y.key) : met a b = met b a := by
  cases a with
  | none => exact met_none_left b
  | some x =>
    cases b with
    | none => rfl
    | some y => rw [met_some_some, met_some_some, winner_comm (hk x rfl y rfl)]

theorem met_met (hk : ∀ x ∈ a, ∀ y ∈ b, x.key = y.key) : met b (met a b) = met a b := by
  cases a with
  | none =>
    rw [met_none_left]
    cases b with
    | none => rfl
    | some y => rw [met_some_some, winner_of_not_outranks (not_outranks_self y)]
  | some x =>
    cases b with
    | none => rfl
    | some y => rw [met_some_some, met_some_some, winner_winner, winner_comm (hk x rfl y rfl)]

theorem pulled_eq_or (now : Instant) (a b : Option Entry) :
    pulled now a b = a ∨ pulled now a b = met a b := by
  cases b with
  | none => exact .inl rfl
  | some y =>
    cases hy : y.isAdmitted now with
    | true => exact .inr (pulled_of_isAdmitted hy a)
    | false => exact .inl (pulled_of_not_isAdmitted hy a)

theorem met_pulled (hk : ∀ x ∈ a, ∀ y ∈ b, x.key = y.key) (now : Instant) :
    met b (pulled now a b) = met a b := by
  rcases pulled_eq_or now a b with h | h
  · rw [h, met_comm hk]
  · rw [h, met_met hk]

/-- What a pull does not take is an expired value, and what it outranks has expired with it. -/
theorem filter_isLive_pulled (ha : ∀ x ∈ a, x.Registered ttl) (hb : ∀ y ∈ b, y.Registered ttl)
    (hnow : now ≤ t) :
    (pulled now a b).filter (·.isLive t) = (met a b).filter (·.isLive t) := by
  cases b with
  | none => rfl
  | some y =>
    have hy := hb y rfl
    cases hadm : y.isAdmitted now with
    | true => rw [pulled_of_isAdmitted hadm]; rfl
    | false =>
      obtain ⟨ht, hx⟩ := (isAdmitted_eq_false_iff hy.flaw?).mp hadm
      have hxt := isExpired_mono hnow hx
      have hdead : y.isLive t = false := by simp [isLive, hxt]
      rw [pulled_of_not_isAdmitted hadm]
      cases a with
      | none => simp [met_none_left, Option.filter_some, hdead]
      -- what expired first was written first, as all values last equally long
      | some x =>
        rw [met_some_some, winner_eq]
        split
        · rename_i ho
          have hle := hy.timed.timestamp_le (ha x rfl).timed ho
          have hdead' := isLive_eq_false_of_timestamp_le hy.lives (ha x rfl).lives hle ht hxt
          simp [Option.filter_some, hdead, hdead']
        · rfl

end Entry

namespace Replica

open Entry

variable {maxAge : Span} {now t₀ t : Instant} {a b a' b' r r' s : Replica} {k : Bytes}

theorem Regular.pull {peer : String} {x : Except Failure MergeOutcome} (hr : r.Regular maxAge)
    (hs : s.Regular maxAge) (h : pull now peer s r = (x, r')) :
    r'.Regular maxAge ∧ ∀ k, r'.held k = pulled now (r.held k) (s.held k) := by
  obtain ⟨o, r₁, hpull, -, hheld⟩ := hr.stocked.exists_pull hs.stocked now peer
  cases hpull.symm.trans h
  refine ⟨?_, hheld⟩
  obtain ⟨es, hrun, -, hmem⟩ := exists_run_snapshot hs.stocked.toSound
  have hr' : (Operation.absorb now peer (.ok es)).run r = r' := by
    rw [Replica.pull, hrun] at hpull
    exact congrArg Prod.snd hpull
  rw [← hr']
  exact hr.run rfl fun e he => hs.held ((hmem e).mp he)

/-- Each of two nodes pulls from the other, one after the other or abreast, by readings of the clock
from `t₀` to `t`. -/
inductive Exchanged (t₀ t : Instant) (a b : Replica) : Replica → Replica → Prop
  | first {a' b' : Replica} {now now' : Instant} {p q : String} {o o' : MergeOutcome} :
    t₀ ≤ now → now ≤ now' → now' ≤ t → pull now p b a = (.ok o, a') →
    pull now' q a' b = (.ok o', b') → Exchanged t₀ t a b a' b'
  | second {a' b' : Replica} {now now' : Instant} {p q : String} {o o' : MergeOutcome} :
    t₀ ≤ now → now ≤ now' → now' ≤ t → pull now q a b = (.ok o', b') →
    pull now' p b' a = (.ok o, a') → Exchanged t₀ t a b a' b'
  | abreast {a' b' : Replica} {now now' : Instant} {p q : String} {o o' : MergeOutcome} :
    t₀ ≤ now → now ≤ t → t₀ ≤ now' → now' ≤ t → pull now p b a = (.ok o, a') →
    pull now' q a b = (.ok o', b') → Exchanged t₀ t a b a' b'

theorem Exchanged.le (h : Exchanged t₀ t a b a' b') : t₀ ≤ t := by
  cases h with
  | first h₁ h₂ h₃ => exact Int64.le_trans h₁ (Int64.le_trans h₂ h₃)
  | second h₁ h₂ h₃ => exact Int64.le_trans h₁ (Int64.le_trans h₂ h₃)
  | abreast h₁ h₂ => exact Int64.le_trans h₁ h₂

/-- A node shows the greater of two copies. -/
structure ShowsMet (maxAge : Span) (t : Instant) (a b r : Replica) : Prop where
  regular : r.Regular maxAge
  filter_isLive (k : Bytes) :
    (r.held k).filter (·.isLive t) = (met (a.held k) (b.held k)).filter (·.isLive t)

theorem ShowsMet.serviceAt_eq_some_iff {s : Service} (h : ShowsMet maxAge t a b r) :
    r.serviceAt t k = some s ↔
      ∃ e, met (a.held k) (b.held k) = some e ∧ e.isLive t ∧ e.service? = some s := by
  rw [serviceAt, h.filter_isLive]
  simp [Option.bind_eq_some_iff, Option.filter_eq_some_iff, and_assoc]

theorem key_eq_key (ha : a.Regular maxAge) (hb : b.Regular maxAge) (k : Bytes) :
    ∀ x ∈ a.held k, ∀ y ∈ b.held k, x.key = y.key := fun _ hx _ hy =>
  (ha.stocked.key_of_held hx).trans (hb.stocked.key_of_held hy).symm

theorem ShowsMet.symm (h : ShowsMet maxAge t a b r) (ha : a.Regular maxAge) (hb : b.Regular maxAge) :
    ShowsMet maxAge t b a r :=
  ⟨h.regular, fun k => by rw [h.filter_isLive, met_comm (key_eq_key ha hb k)]⟩

theorem showsMet_pull {peer : String} {x : Except Failure MergeOutcome} (ha : a.Regular maxAge)
    (hb : b.Regular maxAge) (hnow : now ≤ t) (h : pull now peer b a = (x, r)) :
    ShowsMet maxAge t a b r := by
  obtain ⟨hr, hheld⟩ := ha.pull hb h
  refine ⟨hr, fun k => ?_⟩
  rw [hheld]
  exact filter_isLive_pulled (fun _ hx => ha.held hx) (fun _ hy => hb.held hy) hnow

theorem showsMet_pull_back {now' : Instant} {p q : String} {x x' : Except Failure MergeOutcome}
    (ha : a.Regular maxAge) (hb : b.Regular maxAge) (hnow : now' ≤ t)
    (h : pull now p b a = (x, a')) (h' : pull now' q a' b = (x', b')) :
    ShowsMet maxAge t a b b' := by
  obtain ⟨ha', hheld⟩ := ha.pull hb h
  have hb' := showsMet_pull hb ha' hnow h'
  refine ⟨hb'.regular, fun k => ?_⟩
  rw [hb'.filter_isLive, hheld, met_pulled (key_eq_key ha hb k)]

theorem Exchanged.showsMet (h : Exchanged t₀ t a b a' b') (ha : a.Regular maxAge)
    (hb : b.Regular maxAge) : ∀ r, r = a' ∨ r = b' → ShowsMet maxAge t a b r := by
  cases h with
  | first _ h₁ h₂ hp hq =>
    rintro r (rfl | rfl)
    · exact showsMet_pull ha hb (Int64.le_trans h₁ h₂) hp
    · exact showsMet_pull_back ha hb h₂ hp hq
  | second _ h₁ h₂ hq hp =>
    rintro r (rfl | rfl)
    · exact (showsMet_pull_back hb ha h₂ hq hp).symm hb ha
    · exact (showsMet_pull hb ha (Int64.le_trans h₁ h₂) hq).symm hb ha
  | abreast _ h₁ _ h₂ hp hq =>
    rintro r (rfl | rfl)
    · exact showsMet_pull ha hb h₁ hp
    · exact (showsMet_pull hb ha h₂ hq).symm hb ha

end Replica

end ServiceDirectory
