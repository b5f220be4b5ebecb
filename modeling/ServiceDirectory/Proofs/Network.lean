import Mathlib.Logic.Function.Basic
import ServiceDirectory.Config
import ServiceDirectory.Proofs.Replica

namespace ServiceDirectory

/-- What holds of every entry that a node has written. -/
structure Entry.Genuine (e : Entry) : Prop where
  stamped : e.Stamped
  flaw? : e.flaw? = none
  fits : e.Fits

/-- Whether an entry is one that a write may build at `now`: the clock has begun, the key is not
empty and time does not end. -/
structure Entry.Writable (e : Entry) (now : Instant) : Prop where
  clock : 1 ≤ now
  key : e.key ≠ []
  timestamp : e.timestamp < Int64.maxValue
  fits : e.Fits

namespace Replica

variable {r r' : Replica} {now : Instant} {key : Bytes} {es : List Entry} {e : Entry}

/-- All that is held or queued here is among `es`. -/
structure Within (r : Replica) (es : List Entry) : Prop where
  sound : r.Sound
  nodeId : r.nodeId ≠ ""
  held {k : Bytes} {e : Entry} : r.held k = some e → e ∈ es
  queued {e : Entry} : e ∈ r.outbox.waiting → e ∈ es

theorem Within.mono {es' : List Entry} (h : r.Within es) (hes : ∀ e ∈ es, e ∈ es') : r.Within es' where
  sound := h.sound
  nodeId := h.nodeId
  held he := hes _ (h.held he)
  queued he := hes _ (h.queued he)

section Write

variable {value : Option Bytes} {maxAge : Option UInt64} {new : Entry}

theorem Within.genuine_built (h : r.Within es) (hes : ∀ e ∈ es, e.Genuine)
    (hb : r.built now key value maxAge = new) (hw : new.Writable now) : new.Genuine := by
  subst hb
  have hheld : ∀ x ∈ r.held key, x.Stamped := fun x hx => (hes x (h.held hx)).stamped
  exact ⟨Entry.stamped_over hw.clock hheld hw.timestamp,
    Entry.flaw?_over hw.clock hw.key h.nodeId hheld hw.timestamp, hw.fits⟩

theorem Within.run_write (h : r.Within es) (hes : ∀ e ∈ es, e.Genuine)
    (hb : r.built now key value maxAge = new) (hw : new.Writable now) :
    (write now key value maxAge).run.run r =
      (.ok (new, r.held key), (r.store new).enqueue new) := by
  apply run_write_of_outranks h.sound hb
  intro x hx
  have hb' : Entry.over (some x) r.nodeId now key value maxAge = new := by
    rw [← hb, built, Option.mem_def.mp hx]
  have ht := hw.timestamp
  rw [← hb'] at ht ⊢
  exact Entry.over_outranks hw.clock (hes x (h.held hx)).stamped ht

theorem Within.store_enqueue (h : r.Within es) (hw : new.Fits) :
    ((r.store new).enqueue new).Within (es ++ [new]) where
  sound := (h.sound.store (takes_of_fits r hw)).enqueue new
  nodeId := by
    rw [nodeId_enqueue]
    exact h.nodeId
  held {k e} he := by
    rw [held_enqueue, held_store (takes_of_fits r hw)] at he
    split_ifs at he with hk
    · exact List.mem_append_right es (List.mem_singleton.mpr (Option.some.inj he).symm)
    · exact List.mem_append_left _ (h.held he)
  queued {e} he := by
    rcases mem_waiting_enqueue he with he | he
    · exact List.mem_append_left _ (h.queued he)
    · exact List.mem_append_right es (List.mem_singleton.mpr he)

end Write

theorem Within.of_merged {batch : List Entry} (h : r.Within es) (hm : Merged now batch r r')
    (hb : ∀ e ∈ batch, e ∈ es) : r'.Within es where
  sound := hm.sound
  nodeId := by
    rw [hm.frame.nodeId]
    exact h.nodeId
  held {k e} he := by
    rw [hm.held] at he
    rcases Entry.mem_of_settle he with he | he
    · exact h.held he
    · exact hb e (List.mem_of_mem_filter he)
  queued {e} he := by
    rw [hm.frame.outbox] at he
    exact h.queued he

theorem Within.recordPeer (h : r.Within es) (peer : String) (ok : Bool) :
    (r.recordPeer peer ok).Within es := by
  obtain ⟨health, log, hp⟩ := exists_recordPeer r peer ok
  rw [hp]
  exact ⟨⟨h.sound.faults, h.sound.medium⟩, h.nodeId, h.held, h.queued⟩

theorem Within.sweepOnce (h : r.Within es) : (sweepOnce now r).Within es where
  sound := h.sound.sweepOnce
  nodeId := by
    rw [(frame_sweepOnce h.sound).nodeId]
    exact h.nodeId
  held {k e} he := by
    rw [held_sweepOnce h.sound] at he
    exact h.held (Option.filter_eq_some_iff.mp he).1
  queued {e} he := by
    rw [(frame_sweepOnce h.sound).outbox] at he
    exact h.queued he

theorem Within.drain (h : r.Within es) : r.drain.2.Within es where
  sound := h.sound.drain
  nodeId := by
    rw [nodeId_drain]
    exact h.nodeId
  held {k e} he := by
    rw [Replica.held, engine_drain] at he
    exact h.held he
  queued {e} he := h.queued (mem_waiting_drain he)

/-- A node that stopped and began again, with what its medium kept. -/
def restarted (r : Replica) : Replica := start r.name r.nodeId r.settings r.engine.medium.reopened

theorem Within.restarted (h : r.Within es) : r.restarted.Within es where
  sound := ⟨rfl, h.sound.medium.reopened⟩
  nodeId := h.nodeId
  held he := h.held (Medium.held_reopened _ he)
  queued he := absurd he List.not_mem_nil

theorem within_start {nodeId : String} (hid : nodeId ≠ "") (name : String) (settings : Settings)
    (isDurable : Bool) : (start name nodeId settings (Medium.fresh isDurable)).Within [] where
  sound := ⟨rfl, Medium.sound_fresh isDurable⟩
  nodeId := hid
  held {k e} he := by
    have hn := Medium.held_fresh isDurable k
    exact absurd (hn.symm.trans he) (by simp)
  queued he := he

end Replica

/-- Nodes that replicate one store, and all that was ever written at one of them. -/
structure Network (ι : Type) where
  replicas : ι → Replica
  endpoint : ι → String
  written : List Entry

inductive Action (ι : Type)
  | put (i : ι) (now : Instant) (key value : Bytes) (maxAge : Option UInt64)
  | delete (i : ι) (now : Instant) (key : Bytes)
  /-- Entries come in from the network. -/
  | deliver (i : ι) (now : Instant) (batch : List Entry)
  /-- `i` pulls from `j`. -/
  | sync (i j : ι) (now : Instant)
  | syncFailed (i : ι) (now : Instant) (peer : String) (f : Failure)
  | sweep (i : ι) (now : Instant)
  | drain (i : ι)
  | restart (i : ι)

namespace Network

variable {ι : Type}

/-- Every node has just started with an empty store. -/
structure Fresh (N : Network ι) : Prop where
  written : N.written = []
  replicas (i : ι) : ∃ name nodeId settings isDurable, nodeId ≠ "" ∧
    N.replicas i = Replica.start name nodeId settings (Medium.fresh isDurable)

/-- Stored at a node, queued for the peers, or under way to them. -/
def Occurs (N : Network ι) (e : Entry) : Prop :=
  (∃ i k, (N.replicas i).held k = some e) ∨ (∃ i, e ∈ (N.replicas i).outbox.waiting) ∨ e ∈ N.written

structure Inv (N : Network ι) : Prop where
  genuine : ∀ e ∈ N.written, e.Genuine
  within (i : ι) : (N.replicas i).Within N.written

theorem Fresh.inv {N : Network ι} (h : N.Fresh) : N.Inv where
  genuine e he := by
    rw [h.written] at he
    contradiction
  within i := by
    obtain ⟨name, nodeId, settings, isDurable, hid, hr⟩ := h.replicas i
    rw [hr, h.written]
    exact Replica.within_start hid name settings isDurable

theorem Inv.mem_written {N : Network ι} {e : Entry} (h : N.Inv) (he : N.Occurs e) :
    e ∈ N.written := by
  rcases he with ⟨i, k, he⟩ | ⟨i, he⟩ | he
  · exact (h.within i).held he
  · exact (h.within i).queued he
  · exact he

variable [DecidableEq ι]

def set (N : Network ι) (i : ι) (r : Replica) : Network ι :=
  { N with replicas := Function.update N.replicas i r }

/-- Runs a step of one node. -/
def perform {α : Type} (N : Network ι) (i : ι) (op : Op Replica α) : Network ι :=
  N.set i (op.run.run (N.replicas i)).2

def record (N : Network ι) (e : Entry) : Network ι := { N with written := N.written ++ [e] }

def step (N : Network ι) : Action ι → Network ι
  | .put i now key value maxAge => (N.perform i (Replica.put now key value maxAge)).record
      ((N.replicas i).built now key (some value) maxAge)
  | .delete i now key => (N.perform i (Replica.delete now key)).record
      ((N.replicas i).built now key none none)
  | .deliver i now batch => N.perform i (Replica.merge now batch)
  | .sync i j now => (N.perform j Replica.snapshot).perform i
      (Replica.absorb now (N.endpoint j) (Replica.snapshot.run.run (N.replicas j)).1)
  | .syncFailed i now peer f => N.perform i (Replica.absorb now peer (.error f))
  | .sweep i now => N.set i ((N.replicas i).sweepOnce now)
  | .drain i => N.set i (N.replicas i).drain.2
  | .restart i => N.set i (N.replicas i).restarted

/-- Writes are made to non-empty keys before the end of time; what comes in has been written, though
it may come late, more than once or not at all. -/
def Permits (N : Network ι) : Action ι → Prop
  | .put i now key value maxAge => ((N.replicas i).built now key (some value) maxAge).Writable now
  | .delete i now key => ((N.replicas i).built now key none none).Writable now
  | .deliver _ _ batch => ∀ e ∈ batch, e ∈ N.written
  | _ => True

inductive Run (N₀ : Network ι) : List (Action ι) → Network ι → Prop
  | nil : Run N₀ [] N₀
  | snoc {as N a} : Run N₀ as N → N.Permits a → Run N₀ (as ++ [a]) (N.step a)

variable {N N₀ : Network ι} {i j : ι} {now : Instant} {r : Replica} {a : Action ι}
  {as : List (Action ι)} {e : Entry}

theorem replicas_set (N : Network ι) (i : ι) (r : Replica) (n : ι) :
    (N.set i r).replicas n = if n = i then r else N.replicas n := Function.update_apply ..

theorem Inv.set (h : N.Inv) (hr : r.Within N.written) : (N.set i r).Inv where
  genuine := h.genuine
  within j := by
    rw [replicas_set]
    split
    · exact hr
    · exact h.within j

theorem Inv.record (h : N.Inv) (he : e.Genuine) (hr : r.Within (N.written ++ [e])) :
    ((N.set i r).record e).Inv where
  genuine e' he' := by
    rcases List.mem_append.mp he' with he' | he'
    · exact h.genuine e' he'
    · exact List.mem_singleton.mp he' ▸ he
  within j := by
    change ((N.set i r).replicas j).Within _
    rw [replicas_set]
    split
    · exact hr
    · exact (h.within j).mono fun e' he' => List.mem_append_left _ he'

theorem perform_snapshot (h : (N.replicas j).Sound) : N.perform j Replica.snapshot = N := by
  obtain ⟨es, hrun, -⟩ := Replica.exists_run_snapshot h
  rw [perform, hrun, Network.set, Function.update_eq_self]

/-- A pull merges all that the peer holds. -/
theorem Inv.exists_sync (h : N.Inv) (i j : ι) (now : Instant) : ∃ es r',
    es.Pairwise Medium.keyLt ∧ (∀ e, e ∈ es ↔ (N.replicas j).held e.key = some e) ∧
    Replica.Merged now es (N.replicas i) r' ∧ N.step (.sync i j now) = N.set i r' := by
  obtain ⟨es, hrun, hsorted, hmem⟩ := Replica.exists_run_snapshot (h.within j).sound
  have ht : ∀ e ∈ es, (N.replicas i).Takes e := fun e he =>
    Replica.takes_of_fits _ (h.genuine e ((h.within j).held ((hmem e).mp he))).fits
  obtain ⟨o, r', hrun', hm, -⟩ :=
    Replica.exists_run_absorb (h.within i).sound ht now (N.endpoint j)
  refine ⟨es, r', hsorted, hmem, hm, ?_⟩
  rw [step, perform_snapshot (h.within j).sound, perform, hrun, hrun']

theorem Inv.step (h : N.Inv) (ha : N.Permits a) : (N.step a).Inv := by
  cases a with
  | put i now key value maxAge =>
    have hw := (h.within i).run_write h.genuine rfl ha
    rw [Network.step, perform, Replica.run_put hw]
    exact h.record ((h.within i).genuine_built h.genuine rfl ha)
      ((h.within i).store_enqueue ha.fits)
  | delete i now key =>
    have hw := (h.within i).run_write h.genuine rfl ha
    rw [Network.step, perform, Replica.run_delete hw]
    exact h.record ((h.within i).genuine_built h.genuine rfl ha)
      ((h.within i).store_enqueue ha.fits)
  | deliver i now batch =>
    have ht : ∀ e ∈ batch, (N.replicas i).Takes e := fun e he =>
      Replica.takes_of_fits _ (h.genuine e (ha e he)).fits
    obtain ⟨o, r', hrun, hm, -⟩ := Replica.exists_run_merge (h.within i).sound ht now
    rw [Network.step, perform, hrun]
    exact h.set ((h.within i).of_merged hm ha)
  | sync i j now =>
    obtain ⟨es, r', -, hmem, hm, hstep⟩ := h.exists_sync i j now
    rw [hstep]
    exact h.set ((h.within i).of_merged hm fun e he => (h.within j).held ((hmem e).mp he))
  | syncFailed i now peer f =>
    rw [Network.step, perform, Replica.run_absorb_error]
    exact h.set ((h.within i).recordPeer peer false)
  | sweep i now => exact h.set (h.within i).sweepOnce
  | drain i => exact h.set (h.within i).drain
  | restart i => exact h.set (h.within i).restarted

theorem Run.inv (h₀ : N₀.Fresh) (h : Run N₀ as N) : N.Inv := by
  induction h with
  | nil => exact h₀.inv
  | snoc _ ha ih => exact ih.step ha

/-- In every run versions count milliseconds and no entry is malformed, so that no merge rejects one
and the copies of a key are in a strict total order. -/
theorem Run.compare_total (h₀ : N₀.Fresh) (h : Run N₀ as N) :
    (∀ e, N.Occurs e → (e.version.toNat : Int) = e.timestamp.toInt ∧ e.flaw? = none) ∧
    (∀ i now batch, (∀ e ∈ batch, N.Occurs e) →
      ∃ o r', (Replica.merge now batch).run.run (N.replicas i) = (.ok o, r') ∧ o.rejected = 0) ∧
    ∀ k, IsStrictTotalOrder {e // N.Occurs e ∧ e.key = k} fun a b => a.1.compare b.1 = .lt := by
  have hinv := h.inv h₀
  have hg : ∀ e, N.Occurs e → e.Genuine := fun e he => hinv.genuine e (hinv.mem_written he)
  refine ⟨fun e he => ⟨(hg e he).stamped, (hg e he).flaw?⟩, fun i now batch hb => ?_, fun k => ?_⟩
  · have ht : ∀ e ∈ batch, (N.replicas i).Takes e := fun e he =>
      Replica.takes_of_fits _ (hg e (hb e he)).fits
    obtain ⟨o, r', hrun, -, ho⟩ := Replica.exists_run_merge (hinv.within i).sound ht now
    refine ⟨o, r', hrun, ?_⟩
    rw [ho, List.countP_eq_zero]
    intro e he
    simp [(hg e (hb e he)).flaw?]
  · exact Entry.isStrictTotalOrder_compare (fun e he => (hg e he.1).stamped)
      fun a b ha hb => ha.2.trans hb.2.symm

/-- Two nodes, one of which keeps its entries in memory. -/
def pair : Network Bool where
  replicas i :=
    .start "dynamic" (if i then "b" else "a") Config.standard.dynamicStore (.fresh i)
  endpoint i := if i then "b:1" else "a:1"
  written := []

theorem fresh_pair : pair.Fresh where
  written := rfl
  replicas i := ⟨_, _, _, _, by cases i <;> decide, rfl⟩

/-- The second node deletes by a clock that is behind what the first has written. -/
theorem run_pair_compare_total : ∃ N, Run pair
    [.put false 5 [107] [49] none, .sync true false 3, .delete true 3 [107]] N ∧
    N.written.length = 2 ∧
    IsStrictTotalOrder {e // N.Occurs e ∧ e.key = [107]} fun a b => a.1.compare b.1 = .lt := by
  have h₁ : ((pair.replicas false).built 5 [107] (some [49]) none).Writable 5 :=
    ⟨by decide, by decide, by decide, ⟨by decide, by decide, by decide⟩⟩
  have h₂ : ((((pair.step (.put false 5 [107] [49] none)).step (.sync true false 3)).replicas true).built
      3 [107] none none).Writable 3 :=
    ⟨by decide, by decide, by decide +kernel, ⟨by decide, by decide, by decide +kernel⟩⟩
  have h := ((Run.nil.snoc (a := .put false 5 [107] [49] none) h₁).snoc
    (a := .sync true false 3) trivial).snoc (a := .delete true 3 [107]) h₂
  exact ⟨_, h, rfl, (h.compare_total fresh_pair).2.2 [107]⟩

end Network

end ServiceDirectory
