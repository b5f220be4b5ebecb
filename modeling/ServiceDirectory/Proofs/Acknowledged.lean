import ServiceDirectory.Proofs.Operation

namespace ServiceDirectory.Replica

variable {r : Replica} {now : Instant} {key value : Bytes} {maxAge : Option UInt64} {x new : Entry}
  {os : List Operation}

theorem enqueue_ne_self (r : Replica) (e : Entry) : r.enqueue e ≠ r := by
  unfold enqueue
  intro h
  split_ifs at h
  · exact List.cons_ne_nil _ _ (List.append_right_eq_self.mp (congrArg Replica.log h))
  · exact List.cons_ne_nil _ _ (List.append_right_eq_self.mp (congrArg (·.outbox.waiting) h))
  · exact List.cons_ne_nil _ _ (List.append_right_eq_self.mp (congrArg Replica.log h))

/-- A put gives back an entry with its value, which is stored and queued, and by the same clock the
key reads as that entry. -/
def KeepsPut (r : Replica) (now : Instant) (key value : Bytes) (maxAge : Option UInt64) : Prop :=
  ∃ e r', (put now key value maxAge).run.run r = (.ok e, r') ∧ e.value = some value ∧
    r' = (r.store e).enqueue e ∧ r'.held key = some e ∧
    (lookup now key).run.run r' = (.ok (some e), r')

/-- A write that nothing held outranks is what is held then. -/
theorem Sound.resolve_built (h : r.Sound) (hk : new.key = key)
    (ho : ∀ x ∈ r.held key, ¬ x.Outranks new) : Entry.resolve (r.held key) new = new := by
  cases hx : r.held key with
  | none => rfl
  | some x =>
    rw [Entry.resolve, Entry.winner_eq]
    split
    · rfl
    · rename_i hn
      -- neither outranks the other, so they are one
      apply Classical.byContradiction
      intro hne
      have hkey : x.key = new.key := (h.key_of_held hx).trans hk.symm
      exact (Entry.outranks_or_outranks hkey hne).elim (ho x hx) hn

theorem Stocked.keepsPut (h : r.Stocked) (hnow : now < Int64.maxValue)
    (hb : r.built now key (some value) maxAge = new) (hf : new.Fits)
    (ho : ∀ x ∈ r.held key, ¬ x.Outranks new) : r.KeepsPut now key value maxAge := by
  have hk : new.key = key := hb ▸ rfl
  have hv : new.value = some value := hb ▸ rfl
  have hw := run_write h.toSound hb
  rw [h.resolve_built hk ho, if_pos rfl] at hw
  have hheld : ((r.store new).enqueue new).held key = some new := by
    rw [held_enqueue, held_store (takes_of_fits r hf), if_pos hk]
  have hlive : new.isLive now = true := by
    have hx : new.isExpired now = false := hb ▸ Entry.isExpired_over hnow
    simp [Entry.isLive, Entry.isTombstone, hv, hx]
  refine ⟨new, _, run_put hw, hv, rfl, hheld, ?_⟩
  rw [run_lookup ((h.store hf).enqueue new).toSound, hheld, Option.filter_some, if_pos hlive]

/-- A put that what is held outranks gives that back and is forgotten. -/
theorem Sound.run_put_of_outranked (h : r.Sound) (hx : r.held key = some x)
    (ho : x.Outranks (r.built now key (some value) maxAge)) :
    (put now key value maxAge).run.run r = (.ok x, r.store x) := by
  have hw := run_write h (rfl : r.built now key (some value) maxAge = _)
  have hr : Entry.resolve (r.held key) (r.built now key (some value) maxAge) = x := by
    rw [hx, Entry.resolve, Entry.winner_of_not_outranks ho.asymm]
  have hne : x ≠ r.built now key (some value) maxAge := fun he =>
    Entry.not_outranks_self x (he ▸ ho)
  rw [hr, if_neg hne] at hw
  exact run_put hw

theorem Sound.not_keepsPut (h : r.Sound) (hx : r.held key = some x)
    (ho : x.Outranks (r.built now key (some value) maxAge)) : ¬ r.KeepsPut now key value maxAge := by
  rintro ⟨e, r', hput, -, hr', -⟩
  rw [h.run_put_of_outranked hx ho] at hput
  cases hput
  exact enqueue_ne_self (r.store x) x hr'.symm

/-- A put is kept unless the end of time has been reached at its key and what is held there wins the
tie; then it is given back instead, and nothing is queued. -/
theorem Trace.keepsPut_iff {name nodeId : String} {settings : Settings} {isDurable : Bool}
    (h : Trace (start name nodeId settings (Medium.fresh isDurable)) os r)
    (hnow : now < Int64.maxValue) (hf : (r.built now key (some value) maxAge).Fits) :
    (r.KeepsPut now key value maxAge ↔ ∀ x ∈ r.held key, x.timestamp = Int64.maxValue →
      ¬ x.Outranks (r.built now key (some value) maxAge)) ∧
    ∀ x ∈ r.held key, x.Outranks (r.built now key (some value) maxAge) →
      (put now key value maxAge).run.run r = (.ok x, r.store x) := by
  have hs := (h.stocked (stocked_start name nodeId settings isDurable)).1
  refine ⟨⟨fun hk x hx _ ho => hs.not_keepsPut hx ho hk, fun ho => ?_⟩, fun x hx ho =>
    hs.run_put_of_outranked hx ho⟩
  refine hs.keepsPut hnow rfl hf fun x hx hxo => ?_
  by_cases ht : x.timestamp = Int64.maxValue
  · exact ho x hx ht hxo
  · apply hxo.asymm
    rw [built, Option.mem_def.mp hx]
    exact Entry.over_outranks_of_timestamp_ne ht

def lateEntry : Entry :=
  { key := [107], value := some [49], version := 3, origin := "b", timestamp := Int64.maxValue - 1,
    maxAge := none }

/-- What a delete at its sixth millisecond leaves over that. -/
def lateTomb : Entry :=
  { key := [107], value := none, version := 6, origin := "a", timestamp := Int64.maxValue, maxAge := none }

/-- A delete that reaches the end of time is put over by the same node still: its version decides. -/
theorem keepsPut_after_delete : ∃ r, Trace (infant "a") [.merge 5 [lateEntry], .delete 6 [107]] r ∧
    (r.held [107]).map (·.timestamp) = some Int64.maxValue ∧ r.KeepsPut 7 [107] [50] (some 1) := by
  have h₀ : Trace (infant "a") [] (infant "a") := .nil
  have h₁ := h₀.snoc (o := .merge 5 [lateEntry]) (by decide)
  have h₂ := h₁.snoc (o := .delete 6 [107]) (by decide +kernel)
  have hheld : ((Operation.delete 6 [107]).run ((Operation.merge 5 [lateEntry]).run (infant "a"))).held
      [107] = some lateTomb := by decide +kernel
  refine ⟨_, h₂, by rw [hheld]; rfl, (h₂.keepsPut_iff (by decide) (by decide +kernel)).1.mpr ?_⟩
  intro x hx _
  rw [hheld] at hx
  cases hx
  decide +kernel

/-- A tombstone at the end of time. -/
def lastTomb : Entry :=
  { key := [107], value := none, version := 1, origin := "b", timestamp := Int64.maxValue, maxAge := none }

/-- A peer may send an entry that no put can replace, though it is well-formed. -/
theorem not_keepsPut_lastTomb : lastTomb.flaw? = none ∧ ∃ r, Trace (infant "a") [.merge 5 [lastTomb]] r ∧
    ∀ now value maxAge, ((put now [107] value maxAge).run.run r).1 = .ok lastTomb ∧
      ¬ r.KeepsPut now [107] value maxAge := by
  have h₀ : Trace (infant "a") [] (infant "a") := .nil
  have h := h₀.snoc (o := .merge 5 [lastTomb]) (by decide)
  have hs := (h.stocked (stocked_infant "a")).1
  have hheld : ((Operation.merge 5 [lastTomb]).run (infant "a")).held [107] = some lastTomb := by
    decide +kernel
  refine ⟨by decide, _, h, fun now value maxAge => ?_⟩
  have ho : lastTomb.Outranks (((Operation.merge 5 [lastTomb]).run (infant "a")).built now [107]
      (some value) maxAge) := by
    rw [built, hheld]
    exact Entry.outranks_over_of_timestamp_eq rfl (by decide +kernel) rfl
  have hput := hs.run_put_of_outranked hheld ho
  rw [hput]
  exact ⟨rfl, hs.not_keepsPut hheld ho⟩

end ServiceDirectory.Replica
