import ServiceDirectory.Proofs.Authored
import ServiceDirectory.Proofs.Network

namespace ServiceDirectory

namespace Entry

/-- How entries compare that share origin, version and timestamp. -/
def byContent : Entry → Entry → Ordering :=
  compareLex (compareOn isTombstone) <| compareLex (compareOn value) (compareOn maxAge)

theorem byTime_eq_byContent {a b : Entry} (ht : a.timestamp = b.timestamp)
    (ho : a.origin = b.origin) (hv : a.version = b.version) : byTime a b = byContent a b := by
  have h₁ : Ord.compare b.timestamp b.timestamp = .eq := Std.ReflCmp.compare_self
  have h₂ : Ord.compare b.origin b.origin = .eq := Std.ReflCmp.compare_self
  have h₃ : Ord.compare b.version b.version = .eq := Std.ReflCmp.compare_self
  simp only [byTime, byContent, compareLex, compareOn, ht, ho, hv, h₁, h₂, h₃, Ordering.then]

/-- Within one origin versions decide, and between equal versions what was written. -/
theorem compare_eq_byContent {a b : Entry} (ho : a.origin = b.origin) (ha : a.Stamped)
    (hb : b.Dated) :
    a.compare b = (Ord.compare a.version b.version).then (byContent a b) := by
  rw [compare_eq]
  by_cases hv : a.version = b.version
  · have hs : b.Stamped := by
      apply hb.stamped
      rw [← hv, ha]
      exact a.timestamp.bounds.2
    have hc : Ord.compare b.version b.version = .eq := Std.ReflCmp.compare_self
    rw [if_neg (by simp [hv]), byTime_eq_byContent ((ha.version_eq_iff hs).mp hv) ho hv, hv, hc]
    rfl
  · rw [if_pos ⟨ho, hv⟩]
    cases hc : Ord.compare a.version b.version with
    | eq => exact absurd (Std.LawfulEqOrd.compare_eq_iff_eq.mp hc) hv
    | _ => rfl

theorem version_over_le {held : Option Entry} {origin : String} {now : Instant} {key : Bytes}
    {value : Option Bytes} {maxAge : Option UInt64} {m : Nat} (hnow : now.toInt ≤ m)
    (hheld : ∀ h ∈ held, h.version.toNat ≤ m) :
    (Entry.over held origin now key value maxAge).version.toNat ≤ m + 1 := by
  have hclock := now.toNat_toVersion_le
  cases held with
  | none =>
    change (max 1 now.toVersion).toNat ≤ _
    rw [toNat_max, UInt64.toNat_one]
    omega
  | some h =>
    have hnext := toNat_nextVersion_le h.version
    have hh := hheld h rfl
    change (max (nextVersion h.version) now.toVersion).toNat ≤ _
    rw [toNat_max]
    omega

end Entry

/-- No reading and no version of `k` that comes in is past `m`. -/
def Operation.Within (k : Bytes) (m : Nat) (o : Operation) : Prop :=
  (∀ t ∈ o.reading?, t.toInt ≤ m) ∧ ∀ e ∈ o.batch, e.key = k → e.version.toNat ≤ m

instance (k : Bytes) (m : Nat) (o : Operation) : Decidable (o.Within k m) :=
  @instDecidableAnd _ _ (Option.decidableForallMem ..) inferInstance

theorem Operation.version_le_of_mem_authored {r : Replica} {o : Operation} {e : Entry} {m : Nat}
    (ho : ∀ t ∈ o.reading?, t.toInt ≤ m) (hr : ∀ x ∈ r.held e.key, x.version.toNat ≤ m)
    (he : e ∈ o.authored r) : e.version.toNat ≤ m + 1 := by
  cases o with
  | put now key value maxAge =>
    rw [List.mem_singleton.mp he] at hr ⊢
    exact Entry.version_over_le (ho now rfl) hr
  | delete now key =>
    rw [List.mem_singleton.mp he] at hr ⊢
    exact Entry.version_over_le (ho now rfl) hr
  | _ => exact absurd he List.not_mem_nil

namespace Replica

variable {r r₀ : Replica} {os : List Operation} {k key : Bytes} {now : Instant}
  {value : Option Bytes} {maxAge : Option UInt64} {new : Entry}

theorem Trace.dated (h : Trace r₀ os r) (h₀ : r₀.Stocked) (hd₀ : ∀ k, ∀ e ∈ r₀.held k, e.Dated)
    (hos : ∀ o ∈ os, o.Dated) : (∀ k, ∀ e ∈ r.held k, e.Dated) ∧
      ∀ e ∈ r₀.authored os, e.Dated ∧ e.origin = r₀.nodeId := by
  induction h with
  | nil => exact ⟨hd₀, by simp [authored]⟩
  | @snoc os r o hr hf ih =>
    obtain ⟨hheld, hauth⟩ := ih fun o' ho' => hos o' (List.mem_append_left _ ho')
    obtain ⟨hs, hid, -⟩ := hr.stocked h₀
    have ho := hos o (by simp)
    refine ⟨fun k e he => ?_, fun e he => ?_⟩
    · rw [(hs.step hf).held] at he
      exact Operation.dated_leaves ho hheld k e he
    · rw [hr.authored_snoc] at he
      rcases List.mem_append.mp he with he | he
      · exact hauth e he
      · exact ⟨Operation.dated_authored ho hheld e he,
          (Operation.origin_of_mem_authored he).trans hid⟩

/-- The versions of a key run ahead of what comes in by one for each write. -/
theorem Trace.version_le {m : Nat} (h : Trace r₀ os r) (h₀ : r₀.Stocked)
    (hm₀ : ∀ e ∈ r₀.held k, e.version.toNat ≤ m) (hos : ∀ o ∈ os, o.Within k m) :
    (∀ e ∈ r.held k, e.version.toNat ≤ m + (r₀.authored os).countP (·.key = k)) ∧
    ∀ e ∈ r₀.authored os, e.key = k →
      e.version.toNat ≤ m + (r₀.authored os).countP (·.key = k) := by
  induction h with
  | nil => exact ⟨hm₀, by simp [authored]⟩
  | @snoc os r o hr hf ih =>
    obtain ⟨hheld, hauth⟩ := ih fun o' ho' => hos o' (List.mem_append_left _ ho')
    obtain ⟨hclock, hbatch⟩ := hos o (by simp)
    have hstep := (hr.stocked h₀).1.step hf
    rw [hr.authored_snoc, List.countP_append]
    have hnew : ∀ e ∈ o.authored r, e.key = k → e.version.toNat ≤
        m + ((r₀.authored os).countP (·.key = k) + (o.authored r).countP (·.key = k)) := by
      intro e he hk
      have hbound : ∀ x ∈ r.held e.key,
          x.version.toNat ≤ m + (r₀.authored os).countP (·.key = k) := by rwa [hk]
      have hle := Operation.version_le_of_mem_authored
        (fun t ht => Int.le_trans (hclock t ht) (by omega)) hbound he
      have hone : 0 < (o.authored r).countP (·.key = k) :=
        List.countP_pos_iff.mpr ⟨e, he, decide_eq_true hk⟩
      omega
    refine ⟨fun e he => ?_, fun e he hk => ?_⟩
    · have hk := hstep.stocked.key_of_held he
      rw [hstep.held] at he
      rcases Operation.mem_of_leaves he with he | he | he
      · have := hheld e he
        omega
      · exact hnew e he hk
      · have := hbatch e he hk
        omega
    · rcases List.mem_append.mp he with he | he
      · have := hauth e he hk
        omega
      · exact hnew e he hk

/-- What becomes of a copy that is held when a later one comes in alone. -/
theorem Stocked.exists_merge_singleton (h : r.Stocked) (hf : new.Fits) (hk : new.key = key)
    {e : Entry} (he : r.held key = some e) (now : Instant) :
    ∃ o r', (merge now [new]).run.run r = (.ok o, r') ∧
      r'.held key = if new.isAdmitted now ∧ new.compare e = .gt then some new else some e := by
  have ht : ∀ x ∈ [new], r.Takes x := fun x hx =>
    takes_of_fits r (List.mem_singleton.mp hx ▸ hf)
  obtain ⟨o, r', hrun, hm, -⟩ := exists_run_merge h.toSound ht now
  refine ⟨o, r', hrun, ?_⟩
  rw [hm.held, he, List.filter_singleton]
  by_cases ha : new.isAdmitted now
  · rw [decide_eq_true ⟨hk, ha⟩]
    by_cases ho : new.compare e = .gt
    · rw [if_pos ⟨ha, ho⟩]
      exact congrArg some (Entry.winner_of_outranks ho)
    · rw [if_neg fun hc => ho hc.2]
      exact congrArg some (Entry.winner_of_not_outranks ho)
  · rw [decide_eq_false fun hc => ha hc.2, if_neg fun hc => ha hc.1]
    rfl

/-- What a node that had its entries in memory writes after a restart outranks what it wrote to the
key before exactly as far as its clock has passed those versions, or stands at one and the tie goes
its way; so it does once the clock is ahead of all that came in by more than the number of those
writes. Any node that holds one of the old entries gives it up in just these cases, if it takes the
new one at all. -/
theorem Trace.restart_outranks_iff {name nodeId : String} {settings : Settings} {isDurable : Bool}
    (hstart : r₀ = start name nodeId settings (Medium.fresh isDurable)) (h : Trace r₀ os r)
    (hforgets : r.engine.medium.reopened = Medium.fresh false) (hos : ∀ o ∈ os, o.Dated)
    (hnow : 1 ≤ now) (hb : r.restarted.built now key value maxAge = new) (hf : new.Fits) :
    (write now key value maxAge).run.run r.restarted =
      (.ok (new, none), (r.restarted.store new).enqueue new) ∧
    ((∀ e ∈ r₀.authored os, e.key = key → new.compare e = .gt) ↔
      ∀ e ∈ r₀.authored os, e.key = key → (e.version.toNat : Int) < now.toInt ∨
        (e.version.toNat : Int) = now.toInt ∧ new.byContent e = .gt) ∧
    (∀ m : Nat, (∀ o ∈ os, o.Within key m) →
      (m + (r₀.authored os).countP (·.key = key) : Nat) < now.toInt →
      ∀ e ∈ r₀.authored os, e.key = key → new.compare e = .gt) ∧
    ∀ p : Replica, p.Stocked → ∀ e ∈ r₀.authored os, p.held key = some e → ∀ later,
      ∃ o p', (merge later [new]).run.run p = (.ok o, p') ∧ p'.held key =
        if new.isAdmitted later ∧ new.compare e = .gt then some new else some e := by
  have hs : r₀.Stocked := hstart ▸ stocked_start name nodeId settings isDurable
  have hnone (k : Bytes) : r₀.held k = none := by
    rw [hstart]
    exact Medium.held_fresh isDurable k
  have hrestarted : r.restarted = start r.name r₀.nodeId r.settings (Medium.fresh false) := by
    rw [restarted, hforgets, (h.stocked hs).2.1]
  have hs' : r.restarted.Sound := by
    rw [hrestarted]
    exact (stocked_start ..).toSound
  have hnone' : r.restarted.held key = none := by
    rw [hrestarted]
    exact Medium.held_fresh false key
  have hnew : new = Entry.over none r₀.nodeId now key value maxAge := by
    rw [← hb, built, hnone', hrestarted]
    rfl
  have hstamped : new.Stamped := hnew ▸ Entry.stamped_over_none hnow
  have hversion : (new.version.toNat : Int) = now.toInt := hstamped.trans (by rw [hnew]; rfl)
  obtain ⟨-, hauth⟩ := h.dated hs (fun k e he => by simp [hnone] at he) hos
  have hcompare : ∀ e ∈ r₀.authored os, new.compare e = .gt ↔ (e.version.toNat : Int) < now.toInt ∨
      (e.version.toNat : Int) = now.toInt ∧ new.byContent e = .gt := by
    intro e he
    obtain ⟨hd, ho⟩ := hauth e he
    have horigin : new.origin = e.origin := by rw [ho, hnew]; rfl
    have hlt : e.version.toNat < new.version.toNat ↔ (e.version.toNat : Int) < now.toInt := by omega
    have heq : new.version.toNat = e.version.toNat ↔ (e.version.toNat : Int) = now.toInt := by omega
    rw [Entry.compare_eq_byContent horigin hstamped hd, Ordering.then_eq_gt, Std.compare_eq_gt,
      Std.LawfulEqOrd.compare_eq_iff_eq, UInt64.lt_iff_toNat_lt, ← UInt64.toNat_inj, hlt, heq]
  refine ⟨?_, ?_, ?_, ?_⟩
  · have hrun := run_write_of_outranks hs' hb fun x hx => by simp [hnone'] at hx
    rwa [hnone'] at hrun
  · exact forall₂_congr fun e he => imp_congr_right fun _ => hcompare e he
  · intro m hm hlt e he hk
    have hle := (h.version_le hs (fun x hx => by simp [hnone] at hx) hm).2 e he hk
    exact (hcompare e he).mpr (.inl (by omega))
  · intro p hp e he hheld later
    exact hp.exists_merge_singleton hf (hnew ▸ rfl) hheld later

/-- Three writes to one key within a millisecond. -/
def burst : List Operation :=
  [.put 1000 [107] [49] none, .put 1000 [107] [50] none, .put 1000 [107] [51] none]

def afterBurst : Replica := burst.foldl Operation.run (infant "a")

theorem trace_burst : Trace (infant "a") burst afterBurst := by
  have h₀ : Trace (infant "a") [] (infant "a") := .nil
  have h₁ := h₀.snoc (o := .put 1000 [107] [49] none) (by decide)
  have h₂ := h₁.snoc (o := .put 1000 [107] [50] none) (by decide +kernel)
  exact h₂.snoc (o := .put 1000 [107] [51] none) (by decide +kernel)

/-- From the fourth millisecond after that on a node that has restarted outranks them all. -/
theorem restart_outranks_burst : Trace (infant "a") burst afterBurst ∧
    afterBurst.engine.medium.reopened = Medium.fresh false ∧ (∀ o ∈ burst, o.Dated) ∧
    ∀ e ∈ (infant "a").authored burst, e.key = [107] →
      (afterBurst.restarted.built 1004 [107] (some [52]) none).compare e = .gt := by
  have hforgets : afterBurst.engine.medium.reopened = Medium.fresh false := by decide +kernel
  have hdated : ∀ o ∈ burst, o.Dated := by decide
  have hb : afterBurst.restarted.built 1004 [107] (some [52]) none = _ := rfl
  have h := trace_burst.restart_outranks_iff rfl hforgets hdated (by decide) hb (by decide +kernel)
  exact ⟨trace_burst, hforgets, hdated, h.2.2.1 1000 (by decide) (by decide +kernel)⟩

def burstEntry : Entry :=
  { key := [107], value := some [51], version := 1002, origin := "a", timestamp := 1002, maxAge := none }

/-- In the next millisecond it does not, and a node that holds the last of them keeps it. -/
theorem not_restart_outranks_burst : (∀ o ∈ burst, o.Dated ∧ o.reading? = some 1000) ∧
    Trace (infant "a") burst afterBurst ∧ burstEntry ∈ (infant "a").authored burst ∧
    (afterBurst.restarted.built 1001 [107] (some [52]) none).compare burstEntry = .lt ∧
    ((Operation.merge 1001 [afterBurst.restarted.built 1001 [107] (some [52]) none]).run
      ((Operation.merge 1000 [burstEntry]).run (infant "b"))).held [107] = some burstEntry :=
  ⟨by decide, trace_burst, by decide +kernel, by decide +kernel, by decide +kernel⟩

end Replica

end ServiceDirectory
