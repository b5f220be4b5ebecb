import ServiceDirectory.Proofs.Outbound

namespace ServiceDirectory

/-! What the tasks beside a store depend on. Nothing that is asked of the store changes it. -/

structure Standing where
  settings : Settings
  isOpen : Bool

/-- As a drain leaves it. -/
def Standing.drained (s : Standing) : Standing :=
  { s with isOpen := s.isOpen && s.settings.keepsRunning .replicator }

namespace Replica

variable {α : Type} {r r' : Replica}

def standing (r : Replica) : Standing := ⟨r.settings, r.outbox.isOpen⟩

theorem standing_of_outlet (h : r'.outlet = r.outlet) : r'.standing = r.standing :=
  congrArg (fun o : Outlet => (⟨o.settings, o.outbox.isOpen⟩ : Standing)) h

theorem standing_drain (r : Replica) : r.drain.2.standing = r.standing.drained := by
  cases hopen : r.outbox.isOpen <;> cases hk : r.settings.keepsRunning .replicator <;>
    simp [drain, standing, Standing.drained, hopen, hk]

def Steady (op : Op Replica α) : Prop := Preserves standing op

theorem Silent.steady {op : Op Replica α} (h : Silent op) : Steady op := fun r =>
  standing_of_outlet (h r)

theorem standing_enqueue (r : Replica) (e : Entry) : (r.enqueue e).standing = r.standing := by
  unfold enqueue
  split_ifs <;> rfl

theorem aloof_standing : Aloof standing := ⟨⟨fun _ _ => rfl, fun _ _ _ => rfl⟩, standing_enqueue⟩

end Replica

namespace Node

/-- It leaves the standing of both stores. -/
def Steady {α : Type} (h : Handler α) : Prop :=
  ∀ side, Preserves (fun n => (n.replica side).standing) h

theorem steady_serve (now : Instant) (q : Request) : Steady (q.serve now) := fun side =>
  preserves_serveBy Replica.aloof_standing (.still now) side q

end Node

/-- All that the tasks beside one store depend on. -/
structure Upkeep where
  standing : Standing
  timers : Timers

namespace Member

def upkeep (m : Member) (side : Side) : Upkeep := ⟨(m.node.replica side).standing, m.timers side⟩

theorem upkeep_setTimers (m : Member) (side side' : Side) (t : Timers) :
    (m.setTimers side t).upkeep side' =
      if side = side' then { m.upkeep side' with timers := t } else m.upkeep side' := by
  cases side <;> cases side' <;> rfl

end Member

namespace Cluster

variable {c c' c'' : Cluster} {a b : Address} {m : Member} {u : Upkeep}

def upkeep? (c : Cluster) (a : Address) : Option Upkeep :=
  (c.members.find? (·.serial = a.serial)).map (·.upkeep a.side)

/-- Which runs of nodes there are, and which number is next. -/
def roll (c : Cluster) : List Nat × Nat := (c.members.map (·.serial), c.nextSerial)

/-- Runs of nodes have numbers of their own, all of them given out before. -/
structure Orderly (c : Cluster) : Prop where
  nodup : (c.members.map (·.serial)).Nodup
  serial_lt : ∀ s ∈ c.members.map (·.serial), s < c.nextSerial

theorem Orderly.of_roll (h : c.Orderly) (hr : c'.roll = c.roll) : c'.Orderly := by
  obtain ⟨hm, hn⟩ := Prod.mk.inj hr
  exact ⟨hm ▸ h.nodup, by rw [hm, hn]; exact h.serial_lt⟩

/-- No run of a node begins or ends, no time passes, and what is under way stays under way. -/
structure Frame (c c' : Cluster) : Prop where
  elapsed : c'.elapsed = c.elapsed
  roll : c'.roll = c.roll
  calls : c.calls ⊆ c'.calls

/-- And the tasks of one store have nothing to do with it. -/
structure Spares (a : Address) (c c' : Cluster) : Prop extends Frame c c' where
  upkeep : c'.upkeep? a = c.upkeep? a

theorem Frame.refl (c : Cluster) : Frame c c := ⟨rfl, rfl, fun _ => id⟩

theorem Frame.trans (h : Frame c c') (h' : Frame c' c'') : Frame c c'' where
  elapsed := h'.elapsed.trans h.elapsed
  roll := h'.roll.trans h.roll
  calls := fun _ hx => h'.calls (h.calls hx)

namespace Spares

theorem refl (a : Address) (c : Cluster) : Spares a c c := ⟨.refl c, rfl⟩

theorem trans (h : Spares a c c') (h' : Spares a c' c'') : Spares a c c'' :=
  ⟨h.toFrame.trans h'.toFrame, h'.upkeep.trans h.upkeep⟩

theorem forM {α : Type} {f : α → Sim Unit} (h : ∀ x c, c.Orderly → Spares a c ((f x).run c).2)
    (l : List α) (hc : c.Orderly) : Spares a c ((l.forM f).run c).2 := by
  induction l generalizing c with
  | nil => exact .refl a c
  | cons x l ih =>
    have hx := h x c hc
    exact hx.trans (ih (hc.of_roll hx.roll))

end Spares

theorem frame_mapMember {g : Member → Member} (hg : ∀ m, (g m).serial = m.serial) (s : Nat)
    (c : Cluster) : Frame c (c.mapMember s g) where
  elapsed := rfl
  roll := by simp only [roll, mapMember, map_serial_ite hg]
  calls _ := id

theorem frame_mapNode (s : Nat) (f : Node → Node) (c : Cluster) : Frame c (c.mapNode s f) :=
  frame_mapMember (g := fun m => { m with node := f m.node }) (fun _ => rfl) s c

theorem upkeep?_mapMember {g : Member → Member} (hg : ∀ m, (g m).serial = m.serial) (s : Nat)
    (c : Cluster) (a : Address) : (c.mapMember s g).upkeep? a =
      (c.members.find? (·.serial = a.serial)).map fun m =>
        (if m.serial = s then g m else m).upkeep a.side := by
  rw [upkeep?, mapMember, find?_map_ite hg, Option.map_map]
  rfl

theorem memberAt?_of_find? {s : Nat} (h : c.members.find? (·.serial = s) = some m) :
    c.memberAt? s = some m := by
  rw [memberAt?, List.find?_append, h]
  rfl

theorem exists_member_of_upkeep? (h : c.upkeep? a = some u) :
    ∃ m, c.memberAt? a.serial = some m ∧ m.serial = a.serial ∧ m.upkeep a.side = u := by
  obtain ⟨m, hm, hu⟩ := Option.map_eq_some_iff.mp h
  exact ⟨m, memberAt?_of_find? hm, serial_of_find? hm, hu⟩

theorem spares_mapMember {g : Member → Member} (hg : ∀ m, (g m).serial = m.serial) {s : Nat}
    (hu : ∀ m, c.memberAt? s = some m → s = a.serial → (g m).upkeep a.side = m.upkeep a.side) :
    Spares a c (c.mapMember s g) := by
  refine ⟨frame_mapMember hg s c, ?_⟩
  rw [upkeep?_mapMember hg, upkeep?]
  cases hm : c.members.find? (·.serial = a.serial) with
  | none => rfl
  | some m =>
    have hs := serial_of_find? hm
    rw [Option.map_some, Option.map_some]
    split_ifs with h
    · rw [hu m (h ▸ hs ▸ memberAt?_of_find? hm) (h ▸ hs)]
    · rfl

theorem spares_mapNode {f : Node → Node} {s : Nat} (hf : ∀ m, c.memberAt? s = some m →
    s = a.serial → ((f m.node).replica a.side).standing = (m.node.replica a.side).standing) :
    Spares a c (c.mapNode s f) := by
  refine spares_mapMember (g := fun m => { m with node := f m.node }) (fun _ => rfl) fun m hm hs => ?_
  rw [Member.upkeep, hf m hm hs]
  rfl

theorem Quiet.spares (h : c.Quiet c') (a : Address) : Spares a c c' := by
  cases h with
  | refl => exact .refl a c
  | mapNode hf => exact spares_mapNode fun m hm _ => Replica.standing_of_outlet (hf m hm a.side)

theorem spares_onNode {ε α : Type} {step : Node → Except ε α × Node}
    (hstep : ∀ n side, ((step n).2.replica side).standing = (n.replica side).standing) (s : Nat)
    (absent : ε) (a : Address) (c : Cluster) : Spares a c ((onNode s absent step).run c).2 := by
  simp only [onNode, StateT.run]
  cases hm : c.memberAt? s with
  | none => exact .refl a c
  | some m =>
    refine spares_mapNode (f := fun _ => (step m.node).2) fun m' hm' _ => ?_
    cases hm.symm.trans hm'
    exact hstep m.node a.side

theorem spares_onReplica {α : Type} {op : Op Replica α} (h : Replica.Steady op) (b a : Address)
    (c : Cluster) : Spares a c ((onReplica b op).run c).2 :=
  spares_onNode (fun n => Node.apply_setReplica (h (n.replica b.side))) b.serial _ a c

/-- What is done to one store has nothing to do with the other stores. -/
theorem spares_mapReplica (hb : b ≠ a) (f : Replica → Replica) (c : Cluster) :
    Spares a c (c.mapReplica b f) := by
  refine spares_mapNode fun m _ hs => ?_
  have hside : b.side ≠ a.side := fun h => hb (by cases b; cases a; simp_all)
  rw [Node.replica_setReplica, if_neg hside]

theorem spares_mapTimers (hb : b ≠ a) (f : Timers → Timers) (c : Cluster) :
    Spares a c (c.mapTimers b f) := by
  refine spares_mapMember (fun m => by cases b.side <;> rfl) fun m _ hs => ?_
  have hside : b.side ≠ a.side := fun h => hb (by cases b; cases a; simp_all)
  rw [Member.upkeep_setTimers, if_neg hside]

/-! What is done to the store itself. -/

theorem frame_mapTimers (a : Address) (f : Timers → Timers) (c : Cluster) :
    Frame c (c.mapTimers a f) :=
  frame_mapMember (fun m => by cases a.side <;> rfl) a.serial c

theorem upkeep?_mapTimers (a : Address) (f : Timers → Timers) (c : Cluster) :
    (c.mapTimers a f).upkeep? a = (c.upkeep? a).map fun u => { u with timers := f u.timers } := by
  rw [mapTimers, upkeep?_mapMember (fun m => by cases a.side <;> rfl), upkeep?, Option.map_map]
  refine Option.map_congr fun m hm => ?_
  have hs := serial_of_find? hm
  rw [if_pos hs, Member.upkeep_setTimers, if_pos rfl]
  rfl

theorem upkeep?_mapReplica {f : Replica → Replica} {g : Standing → Standing} (a : Address)
    (c : Cluster) (hf : ∀ m, c.memberAt? a.serial = some m →
      (f (m.node.replica a.side)).standing = g (m.node.replica a.side).standing) :
    (c.mapReplica a f).upkeep? a =
      (c.upkeep? a).map fun u => { u with standing := g u.standing } := by
  let set (m : Member) : Member :=
    { m with node := m.node.setReplica a.side (f (m.node.replica a.side)) }
  have hmap : (c.mapReplica a f).upkeep? a = _ := upkeep?_mapMember (g := set) (fun _ => rfl) _ c a
  rw [hmap, upkeep?, Option.map_map]
  refine Option.map_congr fun m hm => ?_
  have hs := serial_of_find? hm
  rw [if_pos hs, Member.upkeep, Node.replica_setReplica, if_pos rfl, hf m (memberAt?_of_find? hm)]
  rfl

/-! Calls between nodes. -/

theorem spares_await (ms : Nat) (getsThrough : Bool) (b : Address) (store peer : String)
    (errand : Errand) (a : Address) (c : Cluster) :
    Spares a c ((await ms getsThrough b store peer errand).run c).2 :=
  ⟨⟨rfl, rfl, List.subset_append_left ..⟩, rfl⟩

theorem quiet_fetch (hc : (c.members.map (·.serial)).Nodup) (store peer : String) :
    c.Quiet ((fetch store peer).run c).2 :=
  quiet_serve (fun _ => rfl) (Replica.blind_outlet.servePull store) hc store peer _

theorem quiet_finishPatrol (b : Address) (peer : String) (pulled : Except Failure (List Entry))
    (c : Cluster) : c.Quiet ((finishPatrol b peer pulled).run c).2 := by
  have hround (r : Replica) : (Replica.absorbRound c.clock peer pulled r).2.outlet = r.outlet := by
    have hq := Replica.silent_absorb c.clock peer pulled r
    rw [Replica.absorbRound]
    rcases hrun : (Replica.absorb c.clock peer pulled).run.run r with ⟨_ | o, r'⟩ <;>
      exact (congrArg (·.2.outlet) hrun).symm.trans hq
  let step (n : Node) : Except Unit (Option MergeOutcome) × Node :=
    (.ok (Replica.absorbRound c.clock peer pulled (n.replica b.side)).1,
      n.setReplica b.side (Replica.absorbRound c.clock peer pulled (n.replica b.side)).2)
  have hstep (n : Node) : ∀ side, ((step n).2.replica side).outlet = (n.replica side).outlet :=
    Node.apply_setReplica (hround (n.replica b.side))
  exact quiet_onNode hstep b.serial () c

theorem spares_push (hc : c.Orderly) (b : Address) (m : Member) (batch : List Entry) (peer : String)
    (a : Address) : Spares a c ((push b m batch peer).run c).2 := by
  have hsent : Spares a c { c with sent := c.sent ++
      [⟨m.spec.endpoint, peer, (m.node.replica b.side).name, batch⟩] } := ⟨⟨rfl, rfl, fun _ => id⟩, rfl⟩
  have hn := (hc.of_roll hsent.roll).nodup
  rw [push]
  simp only [StateT.run_bind, StateT.run_modify, StateT.run_get, pure_bind]
  generalize ({ c with sent := c.sent ++
    [⟨m.spec.endpoint, peer, (m.node.replica b.side).name, batch⟩] } : Cluster) = next at hsent hn ⊢
  cases next.contact m b.side peer with
  | through =>
    have hd := (quiet_deliver hn (m.node.replica b.side).name peer batch).spares a
    exact hsent.trans (hd.trans ((quiet_finishPush b peer batch _ _).spares a))
  | failed f => exact hsent.trans ((quiet_finishPush b peer batch (.error f) next).spares a)
  | later ms getsThrough => exact hsent.trans (spares_await ms getsThrough b _ peer _ a next)

/-- The pushes of a drain leave every store alone. -/
theorem spares_drain (hc : c.Orderly) (hm : c.memberAt? b.serial = some m) (a : Address) :
    Spares a (c.mapReplica b fun _ => (m.node.replica b.side).drain.2) ((drain b).run c).2 := by
  rw [run_drain hm]
  refine Spares.forM (fun batch c' hc' => ?_) _ (hc.of_roll (frame_mapNode _ _ c).roll)
  exact Spares.forM (fun peer c'' hc'' => spares_push hc'' b m batch peer a) m.peers hc'

/-- A drain leaves the other stores alone, and its own as a drain leaves it. -/
theorem frame_drain (hc : c.Orderly) (b a : Address) : Frame c ((drain b).run c).2 ∧
    ((drain b).run c).2.upkeep? a = if b = a then
      (c.upkeep? a).map fun u => { u with standing := u.standing.drained } else c.upkeep? a := by
  cases hm : c.memberAt? b.serial with
  | none =>
    have hrun : ((drain b).run c).2 = c := by
      rw [drain]
      simp only [StateT.run_bind, StateT.run_get, pure_bind, hm]
      rfl
    rw [hrun]
    refine ⟨.refl c, ?_⟩
    split_ifs with hb
    · subst hb
      have hnone : c.upkeep? b = none := by
        rw [memberAt?, List.find?_append, Option.or_eq_none_iff] at hm
        rw [upkeep?, hm.1]
        rfl
      rw [hnone]
      rfl
    · rfl
  | some m =>
    have hs := spares_drain hc hm a
    refine ⟨(frame_mapNode _ _ c).trans hs.toFrame, ?_⟩
    rw [hs.upkeep]
    split_ifs with hb
    · subst hb
      refine upkeep?_mapReplica (g := Standing.drained) b c fun m' hm' => ?_
      cases hm.symm.trans hm'
      exact Replica.standing_drain _
    · exact (spares_mapReplica hb _ c).upkeep

end Cluster

end ServiceDirectory
