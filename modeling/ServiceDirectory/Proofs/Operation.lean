import ServiceDirectory.Config
import ServiceDirectory.Proofs.Replica

namespace ServiceDirectory

/-- One thing that a node does with its copy of a store, by its own reading of the clock. -/
inductive Operation
  | put (now : Instant) (key value : Bytes) (maxAge : Option UInt64)
  | delete (now : Instant) (key : Bytes)
  | lookup (now : Instant) (key : Bytes)
  | live (now : Instant)
  | snapshot
  | merge (now : Instant) (batch : List Entry)
  /-- Takes in what came of a pull. -/
  | absorb (now : Instant) (peer : String) (pulled : Except Failure (List Entry))
  | sweep (now : Instant)
  | drain

namespace Replica

/-- Sound, and any medium could take up what is held. -/
structure Stocked (r : Replica) : Prop extends r.Sound where
  fits {k : Bytes} {e : Entry} : r.held k = some e → e.Fits

variable {r r' : Replica} {now : Instant} {key k : Bytes} {e new : Entry} {batch : List Entry}

theorem stocked_start (name nodeId : String) (settings : Settings) (isDurable : Bool) :
    (start name nodeId settings (Medium.fresh isDurable)).Stocked where
  faults := rfl
  medium := Medium.sound_fresh isDurable
  fits {k e} he := by
    have hn := Medium.held_fresh isDurable k
    exact absurd (hn.symm.trans he) (by simp)

theorem Stocked.takes (h : r.Stocked) (he : r.held k = some e) : r.Takes e :=
  takes_of_fits r (h.fits he)

theorem Stocked.store (h : r.Stocked) (hf : e.Fits) : (r.store e).Stocked where
  toSound := h.toSound.store (takes_of_fits r hf)
  fits {k x} hx := by
    rw [held_store (takes_of_fits r hf)] at hx
    split_ifs at hx
    · exact Option.some.inj hx ▸ hf
    · exact h.fits hx

theorem Stocked.enqueue (h : r.Stocked) (e : Entry) : (r.enqueue e).Stocked where
  toSound := h.toSound.enqueue e
  fits {k x} hx := by
    rw [held_enqueue] at hx
    exact h.fits hx

theorem Stocked.of_merged (h : r.Stocked) (hm : Merged now batch r r')
    (hb : ∀ e ∈ batch, e.Fits) : r'.Stocked where
  toSound := hm.sound
  fits {k x} hx := by
    rw [hm.held] at hx
    rcases Entry.mem_of_settle hx with hx | hx
    · exact h.fits hx
    · exact hb x (List.mem_of_mem_filter hx)

/-- The same store, whatever became of the outbox, the log and the health of the peers. -/
theorem Stocked.of_engine_eq (h : r.Stocked) (he : r'.engine = r.engine) : r'.Stocked where
  faults := by
    rw [he]
    exact h.faults
  medium := by
    rw [he]
    exact h.medium
  fits {k x} hx := by
    rw [held, he] at hx
    exact h.fits hx

theorem Stocked.sweepOnce (h : r.Stocked) : (sweepOnce now r).Stocked where
  toSound := h.toSound.sweepOnce
  fits {k x} hx := by
    rw [held_sweepOnce h.toSound] at hx
    exact h.fits (Option.filter_eq_some_iff.mp hx).1

end Replica

namespace Operation

open Replica

/-- The node afterwards. -/
def run (r : Replica) : Operation → Replica
  | put now key value maxAge => ((Replica.put now key value maxAge).run.run r).2
  | delete now key => ((Replica.delete now key).run.run r).2
  | lookup now key => ((Replica.lookup now key).run.run r).2
  | live now => ((Replica.live now).run.run r).2
  | snapshot => (Replica.snapshot.run.run r).2
  | merge now batch => ((Replica.merge now batch).run.run r).2
  | absorb now peer pulled => ((Replica.absorb now peer pulled).run.run r).2
  | sweep now => r.sweepOnce now
  | drain => r.drain.2

/-- What it takes in of a peer. -/
def batch : Operation → List Entry
  | merge _ batch | absorb _ _ (.ok batch) => batch
  | _ => []

/-- All that it writes or takes in can be noted in a row. -/
def Fits (r : Replica) : Operation → Prop
  | put now key value maxAge => (r.built now key (some value) maxAge).Fits
  | delete now key => (r.built now key none none).Fits
  | o => ∀ e ∈ o.batch, e.Fits

instance (r : Replica) (o : Operation) : Decidable (o.Fits r) :=
  match o with
  | put .. | delete .. => inferInstanceAs (Decidable (Entry.Fits _))
  | lookup .. | live .. | snapshot | merge .. | absorb .. | sweep .. | drain =>
    inferInstanceAs (Decidable (∀ e ∈ _, Entry.Fits e))

/-- What is held for `k` once `new` has been written to `key`. -/
def writes (r : Replica) (k key : Bytes) (new : Entry) : Option Entry :=
  if key = k then some (Entry.resolve (r.held k) new) else r.held k

/-- What it leaves under `k`. -/
def leaves (r : Replica) (k : Bytes) (o : Operation) : Option Entry :=
  match o with
  | put now key value maxAge => writes r k key (r.built now key (some value) maxAge)
  | delete now key => writes r k key (r.built now key none none)
  | merge now _ | absorb now _ _ =>
    Entry.settle (r.held k) (o.batch.filter fun e => e.key = k ∧ e.isAdmitted now)
  | sweep now =>
    (r.held k).filter fun e => !e.isCollectable now r.settings.tombstoneMaxAge.millisWord
  | lookup .. | live .. | snapshot | drain => r.held k

end Operation

namespace Replica

/-- What a node did since it was `r₀`, and what it is now. -/
inductive Trace (r₀ : Replica) : List Operation → Replica → Prop
  | nil : Trace r₀ [] r₀
  | snoc {os r o} : Trace r₀ os r → o.Fits r → Trace r₀ (os ++ [o]) (o.run r)

variable {r r' : Replica} {now : Instant} {key k : Bytes} {new : Entry} {batch : List Entry}
  {value : Option Bytes} {maxAge : Option UInt64} {o : Operation} {os : List Operation}

/-- All that an operation does to a store. -/
structure Stepped (o : Operation) (r r' : Replica) : Prop where
  stocked : r'.Stocked
  nodeId : r'.nodeId = r.nodeId
  settings : r'.settings = r.settings
  held (k : Bytes) : r'.held k = o.leaves r k

theorem Stocked.write (h : r.Stocked) (hf : (r.built now key value maxAge).Fits) :
    ∃ w r', (write now key value maxAge).run.run r = (.ok w, r') ∧ r'.Stocked ∧
      r'.nodeId = r.nodeId ∧ r'.settings = r.settings ∧
      ∀ k, r'.held k = Operation.writes r k key (r.built now key value maxAge) := by
  generalize hb : r.built now key value maxAge = new at hf
  have hrun := run_write h.toSound hb
  generalize hw : Entry.resolve (r.held key) new = w at hrun
  have hwf : w.Fits := by
    rcases Entry.resolve_eq (r.held key) new with he | he
    · exact h.fits (he.trans (congrArg some hw))
    · exact (he.trans hw) ▸ hf
  have hwk : w.key = key := by
    rcases Entry.resolve_eq (r.held key) new with he | he
    · exact h.key_of_held (he.trans (congrArg some hw))
    · rw [← hw, ← he, ← hb]
      rfl
  have hheld (k : Bytes) : (r.store w).held k = Operation.writes r k key new := by
    rw [held_store (takes_of_fits r hwf), hwk, Operation.writes]
    split_ifs with hk
    · rw [← hk, hw]
    · rfl
  refine ⟨_, _, hrun, ?_⟩
  split_ifs with hn
  · subst hn
    refine ⟨(h.store hf).enqueue w, nodeId_enqueue _ _, settings_enqueue _ _, fun k => ?_⟩
    rw [held_enqueue, hheld]
  · exact ⟨h.store hwf, rfl, rfl, hheld⟩

theorem Stepped.of_merged (h : r.Stocked) (hm : Merged now batch r r')
    (hb : ∀ e ∈ batch, e.Fits) : Stepped (.merge now batch) r r' :=
  ⟨h.of_merged hm hb, hm.frame.nodeId, hm.frame.settings, hm.held⟩

theorem Stocked.step (h : r.Stocked) (hf : o.Fits r) : Stepped o r (o.run r) := by
  cases o with
  | put now key value maxAge =>
    obtain ⟨w, r', hrun, hs, hid, hset, hheld⟩ := h.write hf
    rw [Operation.run, run_put hrun]
    exact ⟨hs, hid, hset, hheld⟩
  | delete now key =>
    obtain ⟨w, r', hrun, hs, hid, hset, hheld⟩ := h.write hf
    rw [Operation.run, run_delete hrun]
    exact ⟨hs, hid, hset, hheld⟩
  | lookup now key =>
    rw [Operation.run, run_lookup h.toSound]
    exact ⟨h, rfl, rfl, fun _ => rfl⟩
  | live now =>
    obtain ⟨es, hrun, -⟩ := exists_run_live h.toSound now
    rw [Operation.run, hrun]
    exact ⟨h, rfl, rfl, fun _ => rfl⟩
  | snapshot =>
    obtain ⟨es, hrun, -⟩ := exists_run_snapshot h.toSound
    rw [Operation.run, hrun]
    exact ⟨h, rfl, rfl, fun _ => rfl⟩
  | merge now batch =>
    have ht : ∀ e ∈ batch, r.Takes e := fun e he => takes_of_fits r (hf e he)
    obtain ⟨o, r', hrun, hm, -⟩ := exists_run_merge h.toSound ht now
    rw [Operation.run, hrun]
    exact .of_merged h hm hf
  | absorb now peer pulled =>
    cases pulled with
    | ok batch =>
      have ht : ∀ e ∈ batch, r.Takes e := fun e he => takes_of_fits r (hf e he)
      obtain ⟨o, r', hrun, hm, -⟩ := exists_run_absorb h.toSound ht now peer
      rw [Operation.run, hrun]
      have hm' := Stepped.of_merged h hm hf
      exact ⟨hm'.stocked, hm'.nodeId, hm'.settings, hm'.held⟩
    | error f =>
      obtain ⟨health, log, hp⟩ := exists_recordPeer r peer false
      rw [Operation.run, run_absorb_error, hp]
      exact ⟨h.of_engine_eq rfl, rfl, rfl, fun _ => rfl⟩
  | sweep now =>
    have hfr : Frame r (r.sweepOnce now) := frame_sweepOnce h.toSound
    exact ⟨h.sweepOnce, hfr.nodeId, hfr.settings, held_sweepOnce h.toSound now⟩
  | drain =>
    refine ⟨h.of_engine_eq (engine_drain r), nodeId_drain r, settings_drain r, fun k => ?_⟩
    rw [Operation.run, held, engine_drain]
    rfl

theorem Trace.stocked {r₀ : Replica} (h : Trace r₀ os r) (h₀ : r₀.Stocked) :
    r.Stocked ∧ r.nodeId = r₀.nodeId ∧ r.settings = r₀.settings := by
  induction h with
  | nil => exact ⟨h₀, rfl, rfl⟩
  | snoc _ hf ih =>
    have hs := ih.1.step hf
    exact ⟨hs.stocked, hs.nodeId.trans ih.2.1, hs.settings.trans ih.2.2⟩

/-- A node that keeps its entries in memory and has just started. -/
def infant (nodeId : String) : Replica :=
  start "dynamic" nodeId Config.standard.dynamicStore (.fresh false)

theorem stocked_infant (nodeId : String) : (infant nodeId).Stocked := stocked_start ..

theorem held_put_infant {nodeId : String} {value : Bytes}
    (hf : ((infant nodeId).built now key (some value) maxAge).Fits) (k : Bytes) :
    ((Operation.put now key value maxAge).run (infant nodeId)).held k =
      if key = k then some ((infant nodeId).built now key (some value) maxAge) else none := by
  have hnone (k : Bytes) : (infant nodeId).held k = none := Medium.held_fresh false k
  have hstep := (stocked_infant nodeId).step (o := .put now key value maxAge) hf
  rw [hstep.held, Operation.leaves, Operation.writes, hnone]
  rfl

theorem flaw?_put_infant {nodeId : String} {value : Bytes}
    (hf : ((infant nodeId).built now key (some value) maxAge).Fits)
    (hv : ((infant nodeId).built now key (some value) maxAge).flaw? = none) (k : Bytes) :
    ∀ x ∈ ((Operation.put now key value maxAge).run (infant nodeId)).held k, x.flaw? = none := by
  intro x hx
  rw [held_put_infant hf] at hx
  split_ifs at hx
  · exact Option.some.inj hx ▸ hv
  · contradiction

end Replica

end ServiceDirectory
