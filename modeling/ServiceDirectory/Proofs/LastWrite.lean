import ServiceDirectory.Proofs.Restart
import ServiceDirectory.Proofs.Sweep

namespace ServiceDirectory

namespace Entry

variable {a b h : Entry} {origin : String} {now : Instant} {key : Bytes} {value : Option Bytes}
  {maxAge : Option UInt64}

theorem outranks_of_version_lt (ho : a.origin = b.origin) (hv : b.version < a.version) :
    a.Outranks b := by
  have hne : a.version ≠ b.version := fun he => UInt64.lt_irrefl _ (he ▸ hv)
  rw [Outranks, compare_eq, if_pos ⟨ho, hne⟩]
  exact Std.compare_eq_gt.mpr hv

theorem version_lt_over (hv : h.version.toNat + 1 < 2 ^ 64) :
    h.version < (Entry.over (some h) origin now key value maxAge).version := by
  change h.version < max (nextVersion h.version) now.toVersion
  rw [UInt64.lt_iff_toNat_lt, toNat_max, toNat_nextVersion hv]
  omega

end Entry

namespace Operation

def isWrite : Operation → Bool
  | put .. | delete .. => true
  | _ => false

/-- What a key shows after an operation and its answer: a put shows what it gave back, and a delete
shows nothing. -/
def shows (k : Bytes) (before : Option Entry) : Operation × Option Answer → Option Entry
  | (put _ key _ _, some (.stored (.ok e))) => if key = k then some e else before
  | (delete _ key, _) => if key = k then none else before
  | _ => before

/-- What the last put of a key gave back, if no delete of the key came after it. -/
def lastPut (k : Bytes) (past : List (Operation × Option Answer)) : Option Entry :=
  past.foldl (shows k) none

def writeCount (past : List (Operation × Option Answer)) : Nat := past.countP (·.1.isWrite)

theorem writeCount_snoc (past : List (Operation × Option Answer)) (p : Operation × Option Answer) :
    writeCount (past ++ [p]) = writeCount past + if p.1.isWrite then 1 else 0 := by
  rw [writeCount, List.countP_append, List.countP_singleton]
  rfl

theorem lastPut_snoc (k : Bytes) (past : List (Operation × Option Answer))
    (p : Operation × Option Answer) : lastPut k (past ++ [p]) = shows k (lastPut k past) p := by
  rw [lastPut, List.foldl_append]
  rfl

end Operation

namespace Replica

open Operation

/-- All that the clients of one node asked of it and were told, by any readings of the clock, while
nothing came in from a peer and nothing was swept. The node may stop and start again where its medium
loses nothing by that. -/
inductive Course (r₀ : Replica) : List (Operation × Option Answer) → Replica → Prop
  | start : Course r₀ [] r₀
  | act {past r o} : Course r₀ past r → o.IsLocal → o.isSweep = false → o.Fits r →
      Course r₀ (past ++ [(o, o.answer? r)]) (o.run r)
  | reopen {past r} : Course r₀ past r → r.engine.medium.reopened = r.engine.medium →
      Course r₀ past r.restarted

variable {r r₀ : Replica} {past : List (Operation × Option Answer)} {now : Instant}
  {key : Bytes} {value : Option Bytes} {maxAge : Option UInt64} {new : Entry} {n : Nat}

/-- Only this node has written here, `n` times at most. -/
structure Sole (r : Replica) (n : Nat) : Prop where
  stocked : r.Stocked
  origin : ∀ k, ∀ e ∈ r.held k, e.origin = r.nodeId
  version : ∀ k, ∀ e ∈ r.held k, e.version.toNat < 2 ^ 63 + n

theorem sole_start (name nodeId : String) (settings : Settings) (isDurable : Bool) :
    (start name nodeId settings (Medium.fresh isDurable)).Sole 0 where
  stocked := stocked_start ..
  origin k e he := by
    have hn := Medium.held_fresh isDurable k
    exact absurd (hn.symm.trans he) (by simp)
  version k e he := by
    have hn := Medium.held_fresh isDurable k
    exact absurd (hn.symm.trans he) (by simp)

/-- Nothing that a node alone has written keeps it from writing again, whatever the clock says: its
versions have not yet come to their end. -/
theorem Sole.outranks (h : r.Sole n) (hn : n < 2 ^ 63)
    (hb : r.built now key value maxAge = new) : ∀ x ∈ r.held key, new.Outranks x := by
  intro x hx
  have hv := h.version key x hx
  have hlt : x.version < new.version := by
    rw [← hb, built, Option.mem_def.mp hx]
    exact Entry.version_lt_over (by omega)
  have ho : new.origin = x.origin := by
    rw [h.origin key x hx, ← hb]
    rfl
  exact Entry.outranks_of_version_lt ho hlt

theorem Sole.run_write (h : r.Sole n) (hn : n < 2 ^ 63)
    (hb : r.built now key value maxAge = new) :
    (write now key value maxAge).run.run r =
      (.ok (new, r.held key), (r.store new).enqueue new) :=
  run_write_of_outranks h.stocked.toSound hb (h.outranks hn hb)

theorem version_built_lt (h : r.Sole n) :
    (r.built now key value maxAge).version.toNat < 2 ^ 63 + (n + 1) := by
  have hnow : now.toInt ≤ (2 ^ 63 - 1 + n : Nat) := by
    have := now.toInt_lt
    omega
  have hheld : ∀ x ∈ r.held key, x.version.toNat ≤ 2 ^ 63 - 1 + n := by
    intro x hx
    have := h.version key x hx
    omega
  have hle : (r.built now key value maxAge).version.toNat ≤ 2 ^ 63 - 1 + n + 1 :=
    Entry.version_over_le hnow hheld
  omega

theorem Sole.write (h : r.Sole n) (hb : r.built now key value maxAge = new) (hf : new.Fits) :
    ((r.store new).enqueue new).Sole (n + 1) where
  stocked := (h.stocked.store hf).enqueue new
  origin k e he := by
    rw [held_store_enqueue hb hf] at he
    rw [nodeId_enqueue]
    split at he
    · cases he
      rw [← hb]
      rfl
    · exact h.origin k e he
  version k e he := by
    rw [held_store_enqueue hb hf] at he
    split at he
    · cases he
      exact hb ▸ version_built_lt h
    · exact Nat.lt_succ_of_lt (h.version k e he)

theorem Sole.of_engine_eq {r' : Replica} (h : r.Sole n) (he : r'.engine = r.engine)
    (hid : r'.nodeId = r.nodeId) : r'.Sole n where
  stocked := h.stocked.of_engine_eq he
  origin k e hk := by
    rw [held, he] at hk
    rw [hid]
    exact h.origin k e hk
  version k e hk := by
    rw [held, he] at hk
    exact h.version k e hk

theorem Sole.engine_restarted (h : r.Sole n)
    (hm : r.engine.medium.reopened = r.engine.medium) : r.restarted.engine = r.engine := by
  change ({ medium := r.engine.medium.reopened } : Engine) = r.engine
  rw [hm, ← h.stocked.faults]

/-- Every key holds what the last write to it made. -/
structure Shown (r : Replica) (past : List (Operation × Option Answer)) : Prop where
  sole : r.Sole (writeCount past)
  held (k : Bytes) : (r.held k).filter (!·.isTombstone) = lastPut k past

theorem Shown.write {p : Operation × Option Answer} (h : r.Shown past) (hp : p.1.isWrite)
    (hb : r.built now key value maxAge = new) (hf : new.Fits)
    (hshows : ∀ k before, shows k before p =
      if key = k then (some new).filter (!·.isTombstone) else before) :
    ((r.store new).enqueue new).Shown (past ++ [p]) where
  sole := by
    rw [writeCount_snoc, if_pos hp]
    exact h.sole.write hb hf
  held k := by
    rw [held_store_enqueue hb hf, lastPut_snoc, hshows, ← h.held]
    split <;> rfl

theorem Shown.skip {p : Operation × Option Answer} {r' : Replica} (h : r.Shown past)
    (hp : p.1.isWrite = false) (hshows : ∀ k before, shows k before p = before)
    (he : r'.engine = r.engine) (hid : r'.nodeId = r.nodeId) : r'.Shown (past ++ [p]) where
  sole := by
    rw [writeCount_snoc, hp]
    exact h.sole.of_engine_eq he hid
  held k := by
    rw [Replica.held, he, lastPut_snoc, hshows]
    exact h.held k

theorem Shown.act {o : Operation} (h : r.Shown past) (hn : writeCount past < 2 ^ 63) (hl : o.IsLocal)
    (hsweep : o.isSweep = false) (hf : o.Fits r) : (o.run r).Shown (past ++ [(o, o.answer? r)]) := by
  have hs := h.sole.stocked.toSound
  cases o with
  | put now key value maxAge =>
    have hrun := run_put (h.sole.run_write hn (rfl : r.built now key (some value) maxAge = _))
    rw [Operation.run, answer?, hrun]
    exact h.write rfl rfl hf fun k before => rfl
  | delete now key =>
    have hrun := run_delete (h.sole.run_write hn (rfl : r.built now key none none = _))
    rw [Operation.run, answer?, hrun]
    exact h.write rfl rfl hf fun k before => rfl
  | lookup now key =>
    refine h.skip rfl (fun _ _ => rfl) ?_ ?_ <;> rw [Operation.run, run_lookup hs]
  | live now =>
    obtain ⟨es, hrun, -⟩ := exists_run_live hs now
    refine h.skip rfl (fun _ _ => rfl) ?_ ?_ <;> rw [Operation.run, hrun]
  | drain => exact h.skip rfl (fun _ _ => rfl) (engine_drain r) (nodeId_drain r)
  | sweep now => contradiction
  | snapshot | merge now batch | absorb now peer pulled => exact hl.elim

theorem Course.shown (h₀ : r₀.Shown []) (h : Course r₀ past r) (hn : writeCount past < 2 ^ 63) :
    r.Shown past := by
  induction h with
  | start => exact h₀
  | act _ hl hsweep hf ih =>
    rw [writeCount_snoc] at hn
    have hn' := Nat.lt_of_le_of_lt (Nat.le_add_right ..) hn
    exact (ih hn').act hn' hl hsweep hf
  -- what has been stored durably is found again as it was
  | @reopen past r _ hm ih =>
    have hs := ih hn
    have he := hs.sole.engine_restarted hm
    refine ⟨hs.sole.of_engine_eq he rfl, fun k => ?_⟩
    rw [Replica.held, he]
    exact hs.held k

theorem shown_start (name nodeId : String) (settings : Settings) (isDurable : Bool) :
    (start name nodeId settings (Medium.fresh isDurable)).Shown [] where
  sole := sole_start ..
  held k := by
    have hn : (start name nodeId settings (Medium.fresh isDurable)).held k = none :=
      Medium.held_fresh isDurable k
    rw [hn]
    rfl

theorem Shown.filter_isLive (h : r.Shown past) (k : Bytes) (now : Instant) :
    (r.held k).filter (·.isLive now) = (lastPut k past).filter (!·.isExpired now) := by
  rw [← h.held, Option.filter_filter]
  rfl

/-- On one node the last write to a key wins in the order of the program, whatever the clock does: a
lookup gives what the last put gave back, unless that was deleted since or has expired, a listing gives
just what the lookups give, and a delete tells whether there was anything to look up. -/
theorem Course.last_write_wins {name nodeId : String} {settings : Settings} {isDurable : Bool}
    (h : Course (Replica.start name nodeId settings (Medium.fresh isDurable)) past r)
    (hn : writeCount past < 2 ^ 63) (now : Instant) :
    (∀ k, (lookup now k).run.run r = (.ok ((lastPut k past).filter (!·.isExpired now)), r)) ∧
    (∃ es, (live now).run.run r = (.ok es, r) ∧ es.Nodup ∧
      ∀ e k, e ∈ es ∧ e.key = k ↔ (lastPut k past).filter (!·.isExpired now) = some e) ∧
    (∀ key, (r.built now key none none).Fits → ∃ wasLive r',
      (delete now key).run.run r = (.ok wasLive, r') ∧
      (wasLive = true ↔ ∃ e, (lookup now key).run.run r = (.ok (some e), r))) ∧
    ∀ key value maxAge, (r.built now key (some value) maxAge).Fits → ∃ e r',
      (put now key value maxAge).run.run r = (.ok e, r') ∧
      e.key = key ∧ e.value = some value ∧ e.maxAge = maxAge := by
  have hs := h.shown (shown_start ..) hn
  have hsound := hs.sole.stocked.toSound
  have hlookup (k : Bytes) :
      (lookup now k).run.run r = (.ok ((lastPut k past).filter (!·.isExpired now)), r) := by
    rw [run_lookup hsound, hs.filter_isLive]
  refine ⟨hlookup, ?_, fun key hf => ?_, fun key value maxAge hf => ?_⟩
  · obtain ⟨es, hrun, hsorted, hmem⟩ := exists_run_live hsound now
    refine ⟨es, hrun, hsorted.nodup, fun e k => ?_⟩
    rw [hmem, ← hs.filter_isLive, Option.filter_eq_some_iff]
    constructor
    · rintro ⟨hheld, rfl⟩
      exact hheld
    · rintro ⟨hheld, hl⟩
      have hk := hsound.key_of_held hheld
      exact ⟨⟨hk ▸ hheld, hl⟩, hk⟩
  · have hrun := run_delete (hs.sole.run_write hn (rfl : r.built now key none none = _))
    refine ⟨_, _, hrun, ?_⟩
    rw [Option.any_eq_true]
    constructor
    · rintro ⟨e, hheld⟩
      refine ⟨e, (run_lookup hsound now key).trans ?_⟩
      rw [Option.filter_eq_some_iff.mpr hheld]
    · rintro ⟨e, hfound⟩
      injection (run_lookup hsound now key).symm.trans hfound with hfound
      injection hfound with hfound
      exact ⟨e, Option.filter_eq_some_iff.mp hfound⟩
  · have hrun := run_put (hs.sole.run_write hn (rfl : r.built now key (some value) maxAge = _))
    exact ⟨_, _, hrun, rfl, rfl, rfl⟩

/-- A node that keeps its entries in rows and has just started. -/
def archive : Replica := start "static" "a" Config.standard.staticStore (.fresh true)

/-- The clock goes back before the epoch between two puts, and the node stops and starts again. -/
theorem lookup_after_clock_back : ∃ past r e, Course archive past r ∧ writeCount past < 2 ^ 63 ∧
    past.map (·.1) = [.put 5 [107] [49] none, .put (-3) [107] [50] none, .delete (-7) [108]] ∧
    e.value = some [50] ∧ (lookup (-10) [107]).run.run r = (.ok (some e), r) := by
  have h₀ : Course archive [] archive := .start
  have h₁ := h₀.act (o := .put 5 [107] [49] none) trivial rfl (by decide)
  have h₂ := h₁.reopen rfl
  have h₃ := h₂.act (o := .put (-3) [107] [50] none) trivial rfl (by decide +kernel)
  have h₄ := h₃.act (o := .delete (-7) [108]) trivial rfl (by decide +kernel)
  obtain ⟨e, r', hput, -, hv, hm⟩ :=
    (h₂.last_write_wins (by decide) (-3)).2.2.2 [107] [50] none (by decide +kernel)
  have hanswer : answer? ((Operation.put 5 [107] [49] none).run archive).restarted
      (.put (-3) [107] [50] none) = some (.stored (.ok e)) := by rw [answer?, hput]
  have hx : e.isExpired (-10) = false := by simp [Entry.isExpired, Entry.expiresAt, hm]
  have hread := (h₄.last_write_wins (by decide) (-10)).1 [107]
  rw [lastPut_snoc, lastPut_snoc, hanswer] at hread
  change _ = (Except.ok ((some e).filter _), _) at hread
  rw [Option.filter_some, hx] at hread
  exact ⟨_, _, e, h₄, by decide, rfl, hv, hread⟩

end Replica

end ServiceDirectory
