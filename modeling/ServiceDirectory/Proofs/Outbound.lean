import ServiceDirectory.Cluster.Schedule
import ServiceDirectory.Proofs.Outbox

namespace ServiceDirectory

/-! What leaves a store for the peers of its node. -/

/-- Where a store's pushes come from and go to. -/
structure Sender where
  endpoint : String
  peers : List String
  outlet : Outlet

namespace Sender

def holding (u : Sender) (waiting : List Entry) : Sender :=
  { u with outlet := u.outlet.holding waiting }

/-- Each batch goes to every peer. -/
def pushes (u : Sender) (batches : List (List Entry)) : List Push :=
  batches.flatMap fun b => u.peers.map fun p => ⟨u.endpoint, p, u.outlet.name, b⟩

end Sender

def Member.sender (m : Member) (side : Side) : Sender :=
  ⟨m.spec.endpoint, m.peers, (m.node.replica side).outlet⟩

namespace Cluster

variable {c c' c'' : Cluster} {a : Address} {m : Member} {u : Sender} {w : List Entry}

/-- The runs of nodes have numbers of their own. -/
def Numbered (c : Cluster) : Prop := ((c.members ++ c.retired).map (·.serial)).Nodup

def sender? (c : Cluster) (a : Address) : Option Sender :=
  (c.memberAt? a.serial).map (·.sender a.side)

theorem serial_of_find? {s : Nat} {ms : List Member} (h : ms.find? (·.serial = s) = some m) :
    m.serial = s := by
  simpa using List.find?_some h

theorem serial_of_memberAt? {s : Nat} (h : c.memberAt? s = some m) : m.serial = s :=
  serial_of_find? h

theorem serial_ite {g : Member → Member} (hg : ∀ m, (g m).serial = m.serial) (s : Nat) (m : Member) :
    (if m.serial = s then g m else m).serial = m.serial := by
  split_ifs
  · exact hg m
  · rfl

theorem map_serial_ite {g : Member → Member} (hg : ∀ m, (g m).serial = m.serial) (s : Nat)
    (ms : List Member) :
    (ms.map fun m => if m.serial = s then g m else m).map (·.serial) = ms.map (·.serial) := by
  rw [List.map_map]
  exact List.map_congr_left fun m _ => serial_ite hg s m

theorem find?_map_ite {g : Member → Member} (hg : ∀ m, (g m).serial = m.serial) (s t : Nat)
    (ms : List Member) : (ms.map fun m => if m.serial = s then g m else m).find? (·.serial = t) =
      (ms.find? (·.serial = t)).map fun m => if m.serial = s then g m else m := by
  rw [List.find?_map]
  have hp : (fun m : Member => decide (m.serial = t)) ∘ (fun m => if m.serial = s then g m else m) =
      fun m => decide (m.serial = t) := by
    funext m
    simp only [Function.comp_apply, serial_ite hg]
  rw [hp]

theorem Numbered.mapMember {g : Member → Member} (hg : ∀ m, (g m).serial = m.serial)
    (h : c.Numbered) (s : Nat) : (c.mapMember s g).Numbered := by
  have hs : ((c.mapMember s g).members ++ (c.mapMember s g).retired).map (·.serial) =
      (c.members ++ c.retired).map (·.serial) := by
    rw [Cluster.mapMember, ← List.map_append, map_serial_ite hg]
  rw [Numbered, hs]
  exact h

theorem Numbered.mapNode (h : c.Numbered) (s : Nat) (f : Node → Node) :
    (c.mapNode s f).Numbered :=
  h.mapMember (g := fun m => { m with node := f m.node }) (fun _ => rfl) s

theorem memberAt?_mapMember {g : Member → Member} (hg : ∀ m, (g m).serial = m.serial) (c : Cluster)
    (s t : Nat) : (c.mapMember s g).memberAt? t =
      (c.memberAt? t).map fun m => if m.serial = s then g m else m := by
  rw [memberAt?, memberAt?, ← find?_map_ite hg, List.map_append]
  rfl

theorem memberAt?_mapNode (c : Cluster) (s t : Nat) (f : Node → Node) :
    (c.mapNode s f).memberAt? t =
      (c.memberAt? t).map fun m => if m.serial = s then { m with node := f m.node } else m :=
  memberAt?_mapMember (g := fun m => { m with node := f m.node }) (fun _ => rfl) c s t

theorem Numbered.members (h : c.Numbered) : (c.members.map (·.serial)).Nodup := by
  rw [Numbered, List.map_append] at h
  exact (List.nodup_append.mp h).1

theorem memberAt?_of_mem (hc : (c.members.map (·.serial)).Nodup) (hm : m ∈ c.members) :
    c.memberAt? m.serial = some m := by
  rw [memberAt?, List.find?_append]
  cases hf : c.members.find? (·.serial = m.serial) with
  | none => exact absurd (decide_eq_true rfl) (List.find?_eq_none.mp hf m hm)
  | some m' =>
    have hs := serial_of_find? hf
    rw [List.inj_on_of_nodup_map hc (List.mem_of_find?_eq_some hf) hm hs]
    rfl

/-! Steps that change one node and neither of its outlets. -/

inductive Quiet (c : Cluster) : Cluster → Prop
  | refl : Quiet c c
  | mapNode {s : Nat} {f : Node → Node} (hf : ∀ m, c.memberAt? s = some m → ∀ side,
      ((f m.node).replica side).outlet = (m.node.replica side).outlet) : Quiet c (c.mapNode s f)

theorem quiet_mapReplica {f : Replica → Replica} (hf : ∀ r, (f r).outlet = r.outlet) (b : Address)
    (c : Cluster) : c.Quiet (c.mapReplica b f) :=
  .mapNode fun m _ => Node.apply_setReplica (hf (m.node.replica b.side))

theorem quiet_onNode {ε α : Type} {step : Node → Except ε α × Node}
    (hstep : ∀ n side, ((step n).2.replica side).outlet = (n.replica side).outlet) (s : Nat)
    (absent : ε) (c : Cluster) : c.Quiet ((onNode s absent step).run c).2 := by
  simp only [onNode, StateT.run]
  cases hm : c.memberAt? s with
  | none => exact .refl
  | some m =>
    change c.Quiet (c.mapNode s fun _ => (step m.node).2)
    refine .mapNode fun m' hm' => ?_
    cases hm.symm.trans hm'
    exact hstep m.node

theorem quiet_onReplica {α : Type} {op : Op Replica α} (h : Replica.Silent op) (b : Address)
    (c : Cluster) : c.Quiet ((onReplica b op).run c).2 :=
  quiet_onNode (fun n => Node.apply_setReplica (h (n.replica b.side))) b.serial _ c

/-- A call changes nothing or one node, and that as its store or its service does. -/
theorem exists_run_serve {α β : Type} {direct : Replica → Except Failure α × Replica}
    {wired : Node → Except Status β × Node} {S : Node → Node → Prop}
    (hdirect : ∀ n side, S n (n.setReplica side (direct (n.replica side)).2))
    (hwired : ∀ n, S n (wired n).2) (hc : (c.members.map (·.serial)).Nodup) (store peer : String)
    (ofWire : β → α) : ((serve store peer direct wired ofWire).run c).2 = c ∨
      ∃ m f, c.memberAt? m.serial = some m ∧ S m.node (f m.node) ∧
        ((serve store peer direct wired ofWire).run c).2 = c.mapNode m.serial f := by
  simp only [serve, StateT.run]
  cases hm : c.member? peer with
  | none => exact .inl rfl
  | some m =>
    have hat := memberAt?_of_mem hc (List.mem_of_find?_eq_some hm)
    dsimp only
    split_ifs
    · exact .inr ⟨m, fun _ => (wired m.node).2, hat, hwired m.node, rfl⟩
    · cases m.node.sideNamed? store with
      | none => exact .inl rfl
      | some side =>
        exact .inr ⟨m, fun n => n.setReplica side (direct (m.node.replica side)).2, hat,
          hdirect m.node side, rfl⟩

theorem quiet_serve {α β : Type} {direct : Replica → Except Failure α × Replica}
    {wired : Node → Except Status β × Node} (hdirect : ∀ r, (direct r).2.outlet = r.outlet)
    (hwired : ∀ n side, ((wired n).2.replica side).outlet = (n.replica side).outlet)
    (hc : (c.members.map (·.serial)).Nodup) (store peer : String) (ofWire : β → α) :
    c.Quiet ((serve store peer direct wired ofWire).run c).2 := by
  let S (n n' : Node) : Prop := ∀ side, (n'.replica side).outlet = (n.replica side).outlet
  have hset (n : Node) (side : Side) : S n (n.setReplica side (direct (n.replica side)).2) :=
    Node.apply_setReplica (hdirect (n.replica side))
  rcases exists_run_serve hset hwired hc store peer ofWire with hrun | ⟨m, f, hm, hf, hrun⟩
  · rw [hrun]
    exact .refl
  · rw [hrun]
    refine .mapNode fun m' hm' => ?_
    cases hm.symm.trans hm'
    exact hf

theorem run_deliver (store peer : String) (batch : List Entry) (c : Cluster) :
    (deliver store peer batch).run c = (serve store peer
      (fun r => ((Replica.merge c.clock batch).run.run r).map (·.map fun _ => ()) id)
      (Node.receivePush c.clock store (batch.map Entry.toWire)) fun _ => ()).run c := by
  simp only [deliver, StateT.run]

/-- What a peer does with a batch has to do with its own pushes in nothing. -/
theorem quiet_deliver (hc : (c.members.map (·.serial)).Nodup) (store peer : String)
    (batch : List Entry) : c.Quiet ((deliver store peer batch).run c).2 := by
  have hmerge (r : Replica) : (((Replica.merge c.clock batch).run.run r).map
      (·.map fun _ => ()) id).2.outlet = r.outlet :=
    Replica.blind_outlet.hereditary.mergeFrom c.clock {} batch r
  have hwired := Replica.blind_outlet.receivePush c.clock store (batch.map Entry.toWire)
  rw [run_deliver]
  exact quiet_serve hmerge hwired hc store peer fun _ => ()

theorem quiet_finishPush (b : Address) (peer : String) (batch : List Entry)
    (result : Except Failure Unit) (c : Cluster) :
    c.Quiet ((finishPush b peer batch result).run c).2 :=
  quiet_mapReplica (Replica.outlet_settlePush peer batch.length result) b c

/-- What a step sends for a store, when it has no other part in the pushes of that store. -/
structure Sends (a : Address) (ps : List Push) (c c' : Cluster) : Prop where
  sent : c'.sent = c.sent ++ ps
  numbered : c.Numbered → c'.Numbered
  sender : c'.sender? a = c.sender? a

namespace Sends

theorem refl (a : Address) (c : Cluster) : Sends a [] c c := ⟨(List.append_nil _).symm, id, rfl⟩

theorem trans {ps qs : List Push} (h : Sends a ps c c') (h' : Sends a qs c' c'') :
    Sends a (ps ++ qs) c c'' where
  sent := by rw [h'.sent, h.sent, List.append_assoc]
  numbered hc := h'.numbered (h.numbered hc)
  sender := h'.sender.trans h.sender

/-- A change of one node that leaves the outlets of both its stores. -/
theorem mapNode {f : Node → Node} {s : Nat}
    (hf : ∀ m, c.memberAt? s = some m → ∀ side, ((f m.node).replica side).outlet =
      (m.node.replica side).outlet) (a : Address) : Sends a [] c (c.mapNode s f) where
  sent := (List.append_nil _).symm
  numbered hc := hc.mapNode s f
  sender := by
    rw [sender?, memberAt?_mapNode, Option.map_map, sender?]
    cases hm : c.memberAt? a.serial with
    | none => rfl
    | some m =>
      have hs := serial_of_memberAt? hm
      by_cases h : m.serial = s
      · simp only [Option.map_some, Function.comp_apply, if_pos h, Member.sender,
          hf m (by rw [← h, hs, hm]) a.side]
      · simp only [Option.map_some, Function.comp_apply, if_neg h]

theorem of_quiet (h : c.Quiet c') (a : Address) : Sends a [] c c' := by
  cases h with
  | refl => exact .refl a c
  | mapNode hf => exact mapNode hf a

theorem forM {α : Type} {f : α → Sim Unit} {g : α → List Push}
    (h : ∀ x c, c.Numbered → Sends a (g x) c ((f x).run c).2) (l : List α) (hc : c.Numbered) :
    Sends a (l.flatMap g) c ((l.forM f).run c).2 := by
  induction l generalizing c with
  | nil => exact .refl a c
  | cons x l ih =>
    have hx := h x c hc
    exact hx.trans (ih (hx.numbered hc))

end Sends

theorem sends_push (hc : c.Numbered) (a : Address) (m : Member) (batch : List Entry)
    (peer : String) :
    Sends a [⟨m.spec.endpoint, peer, (m.node.replica a.side).name, batch⟩] c
      ((push a m batch peer).run c).2 := by
  have hsent : Sends a [⟨m.spec.endpoint, peer, (m.node.replica a.side).name, batch⟩] c
      { c with sent := c.sent ++ [⟨m.spec.endpoint, peer, (m.node.replica a.side).name, batch⟩] } :=
    ⟨rfl, id, rfl⟩
  have hn := hsent.numbered hc
  rw [push]
  simp only [StateT.run_bind, StateT.run_modify, StateT.run_get, pure_bind]
  generalize ({ c with sent := c.sent ++
    [⟨m.spec.endpoint, peer, (m.node.replica a.side).name, batch⟩] } : Cluster) = next at hsent hn ⊢
  cases next.contact m a.side peer with
  | through =>
    have hd := Sends.of_quiet (quiet_deliver hn.members (m.node.replica a.side).name peer batch) a
    exact hsent.trans (hd.trans (.of_quiet (quiet_finishPush a peer batch _ _) a))
  | failed f => exact hsent.trans (.of_quiet (quiet_finishPush a peer batch (.error f) next) a)
  | later ms getsThrough => exact hsent.trans ⟨(List.append_nil _).symm, id, rfl⟩

theorem run_drain (hm : c.memberAt? a.serial = some m) : (drain a).run c =
    (((m.node.replica a.side).drain.1.forM fun batch => m.peers.forM (push a m batch)) : Sim Unit).run
      (c.mapReplica a fun _ => (m.node.replica a.side).drain.2) := by
  rw [drain]
  simp only [StateT.run_bind, StateT.run_get, pure_bind, hm]
  rfl

/-- Whatever becomes of the pushes, each batch is sent to each peer in turn. -/
theorem sends_drain (hc : c.Numbered) (hm : c.memberAt? a.serial = some m) :
    Sends a ((m.sender a.side).pushes (m.node.replica a.side).drain.1)
      (c.mapReplica a fun _ => (m.node.replica a.side).drain.2) ((drain a).run c).2 := by
  rw [run_drain hm]
  refine Sends.forM (fun batch c' hc' => ?_) _ (hc.mapNode _ _)
  rw [List.map_eq_flatMap]
  exact Sends.forM (fun peer c'' hc'' => sends_push hc'' a m batch peer) m.peers hc'

end Cluster

/-- One step in the life of a store. -/
inductive Turn
  | does (o : Operation)
  /-- A push ends, well or not. -/
  | hears (peer : String) (batch : List Entry) (result : Except Failure Unit)

namespace Turn

open Cluster

def run (a : Address) : Turn → Sim Unit
  | does (.put now key value maxAge) => discard (onReplica a (Replica.put now key value maxAge))
  | does (.delete now key) => discard (onReplica a (Replica.delete now key))
  | does (.lookup now key) => discard (onReplica a (Replica.lookup now key))
  | does (.live now) => discard (onReplica a (Replica.live now))
  | does .snapshot => discard (onReplica a Replica.snapshot)
  | does (.merge now batch) => discard (onReplica a (Replica.merge now batch))
  | does (.absorb now peer pulled) => discard (onReplica a (Replica.absorb now peer pulled))
  | does (.sweep now) => modify (·.mapReplica a (Replica.sweepOnce now))
  | does .drain => drain a
  | hears peer batch result => finishPush a peer batch result

/-- What it adds to the queue of a store. -/
def queues (r : Replica) : Turn → List Entry
  | does (.put now key value maxAge) => r.queues (r.won? now key (some value) maxAge)
  | does (.delete now key) => r.queues (r.won? now key none none)
  | _ => []

end Turn

namespace Cluster

variable {c c' c'' : Cluster} {a : Address} {m : Member} {u : Sender} {w w' : List Entry}
  {t : Turn} {ts : List Turn}

def after (a : Address) (c : Cluster) (ts : List Turn) : Cluster :=
  ts.foldl (fun c t => ((t.run a).run c).2) c

/-- The writes of a store that won while there was a place in its queue, oldest first. -/
def queued (a : Address) : Cluster → List Turn → List Entry
  | _, [] => []
  | c, t :: ts =>
    ((c.memberAt? a.serial).elim [] fun m => t.queues (m.node.replica a.side)) ++
      queued a ((t.run a).run c).2 ts

theorem after_concat (c : Cluster) (ts : List Turn) (t : Turn) :
    after a c (ts ++ [t]) = ((t.run a).run (after a c ts)).2 := List.foldl_concat ..

theorem queued_concat (c : Cluster) (ts : List Turn) (t : Turn) :
    queued a c (ts ++ [t]) = queued a c ts ++
      ((after a c ts).memberAt? a.serial).elim [] fun m => t.queues (m.node.replica a.side) := by
  induction ts generalizing c with
  | nil => exact List.append_nil _
  | cons t' ts ih =>
    rw [List.cons_append, queued, ih, queued, List.append_assoc]
    rfl

/-- What has come of the writes of a store: with `w` waiting at first they went out in `batches`,
but for those that wait in the end. -/
structure Relayed (a : Address) (u : Sender) (w : List Entry) (c : Cluster)
    (batches : List (List Entry)) (w' : List Entry) (c' : Cluster) (written : List Entry) :
    Prop where
  sent : c'.sent = c.sent ++ u.pushes batches
  numbered : c'.Numbered
  sender : c'.sender? a = some (u.holding w')
  ledger : w ++ written = batches.flatten ++ w'
  room : w'.length ≤ u.outlet.settings.queueCapacity
  batch : ∀ b ∈ batches, b ≠ [] ∧ b.length ≤ u.outlet.settings.batchLimit
  origin : ∀ e ∈ written, e.origin = u.outlet.nodeId

namespace Relayed

theorem refl (hc : c.Numbered) (hu : c.sender? a = some (u.holding w))
    (hw : w.length ≤ u.outlet.settings.queueCapacity) : Relayed a u w c [] w c [] where
  sent := (List.append_nil _).symm
  numbered := hc
  sender := hu
  ledger := List.append_nil _
  room := hw
  batch _ h := absurd h List.not_mem_nil
  origin _ h := absurd h List.not_mem_nil

theorem trans {bs bs' : List (List Entry)} {es es' w'' : List Entry}
    (h : Relayed a u w c bs w' c' es) (h' : Relayed a u w' c' bs' w'' c'' es') :
    Relayed a u w c (bs ++ bs') w'' c'' (es ++ es') where
  sent := by rw [h'.sent, h.sent, List.append_assoc, Sender.pushes, Sender.pushes, Sender.pushes,
    List.flatMap_append]
  numbered := h'.numbered
  sender := h'.sender
  ledger := by
    calc w ++ (es ++ es') = bs.flatten ++ (w' ++ es') := by
          rw [← List.append_assoc, h.ledger, List.append_assoc]
      _ = (bs ++ bs').flatten ++ w'' := by
          rw [h'.ledger, List.flatten_append, List.append_assoc]
  room := h'.room
  batch b hb := (List.mem_append.mp hb).elim (h.batch b) (h'.batch b)
  origin e he := (List.mem_append.mp he).elim (h.origin e) (h'.origin e)

/-- A step that neither sends nor queues. -/
theorem of_sends (hc : c.Numbered) (hu : c.sender? a = some (u.holding w))
    (hw : w.length ≤ u.outlet.settings.queueCapacity) (h : Sends a [] c c') :
    Relayed a u w c [] w c' [] where
  sent := h.sent
  numbered := h.numbered hc
  sender := h.sender.trans hu
  ledger := List.append_nil _
  room := hw
  batch _ h := absurd h List.not_mem_nil
  origin _ h := absurd h List.not_mem_nil

end Relayed

theorem exists_member (hu : c.sender? a = some (u.holding w)) :
    ∃ m, c.memberAt? a.serial = some m ∧ m.spec.endpoint = u.endpoint ∧ m.peers = u.peers ∧
      (m.node.replica a.side).outlet = u.outlet.holding w := by
  obtain ⟨m, hm, hs⟩ := Option.map_eq_some_iff.mp hu
  exact ⟨m, hm, congrArg Sender.endpoint hs, congrArg Sender.peers hs, congrArg Sender.outlet hs⟩

theorem sender?_mapNode (hm : c.memberAt? a.serial = some m) (f : Node → Node) :
    (c.mapNode a.serial f).sender? a =
      some ⟨m.spec.endpoint, m.peers, ((f m.node).replica a.side).outlet⟩ := by
  have hs := serial_of_memberAt? hm
  rw [sender?, memberAt?_mapNode, hm, Option.map_some, Option.map_some, if_pos hs]
  rfl

/-- A write goes to the end of the queue, if it goes there at all. -/
theorem relayed_of_write (hc : c.Numbered) (hu : c.sender? a = some (u.holding w))
    (hw : w.length ≤ u.outlet.settings.queueCapacity) {α : Type} {op : Op Replica α} {now : Instant}
    {key : Bytes} {value : Option Bytes} {maxAge : Option UInt64}
    (hop : ∀ r, (op.run.run r).2 = ((Replica.write now key value maxAge).run.run r).2)
    (hm : c.memberAt? a.serial = some m) :
    ∃ w', Relayed a u w c [] w' ((onReplica a op).run c).2
      ((m.node.replica a.side).queues ((m.node.replica a.side).won? now key value maxAge)) := by
  generalize hr : m.node.replica a.side = r
  obtain ⟨m', hm', hendpoint, hpeers, hout⟩ := exists_member hu
  cases hm.symm.trans hm'
  rw [hr] at hout
  have hrun : ((onReplica a op).run c).2 =
      c.mapNode a.serial fun _ => (m.node.onSide a.side op).2 := by
    simp only [onReplica, onNode, StateT.run, hm]
  refine ⟨w ++ r.queues (r.won? now key value maxAge), ?_⟩
  rw [hrun]
  constructor
  · exact (List.append_nil _).symm
  · exact hc.mapNode _ _
  · have hwrite := Replica.outlet_write hout hw now key value maxAge
    rw [sender?_mapNode hm, Node.onSide, Node.replica_setReplica, if_pos rfl, hr, hop, hwrite,
      hendpoint, hpeers]
    rfl
  · rfl
  · exact Replica.length_queues_le hout hw _
  · exact fun b hb => absurd hb List.not_mem_nil
  · intro e he
    have hid : r.nodeId = u.outlet.nodeId := congrArg Outlet.nodeId hout
    exact (Replica.origin_of_mem_queues he).trans hid

/-- A drain sends all that waits. -/
theorem relayed_of_drain (hc : c.Numbered) (hu : c.sender? a = some (u.holding w))
    (hk : u.outlet.settings.keepsRunning .replicator) :
    Relayed a u w c (Replica.batches u.outlet.settings.batchLimit w) [] ((drain a).run c).2 [] := by
  obtain ⟨m, hm, hendpoint, hpeers, hout⟩ := exists_member hu
  obtain ⟨hbatches, hout'⟩ := Replica.drain_of_holding hout hk
  have hs := sends_drain hc hm
  have hsender : m.sender a.side = u.holding w := by
    rw [Member.sender, hendpoint, hpeers, hout]
    rfl
  have hlimit : 0 < u.outlet.settings.batchLimit := by
    unfold Settings.batchLimit
    omega
  constructor
  · rw [hs.sent, hsender, hbatches]
    rfl
  · exact hs.numbered (hc.mapNode _ _)
  · rw [hs.sender, mapReplica, sender?_mapNode hm, Node.replica_setReplica, if_pos rfl, hout',
      hendpoint, hpeers]
    rfl
  · rw [Replica.flatten_batches hlimit, List.append_nil]
  · exact Nat.zero_le _
  · exact fun b hb => Replica.of_mem_batches hb
  · exact fun e he => absurd he List.not_mem_nil

/-- A replicator that does not run sends nothing. -/
theorem sent_drain_of_not_keepsRunning (hc : c.Numbered) (hu : c.sender? a = some (u.holding w))
    (hk : ¬ u.outlet.settings.keepsRunning .replicator) : ((drain a).run c).2.sent = c.sent := by
  obtain ⟨m, hm, -, -, hout⟩ := exists_member hu
  have hs := (sends_drain hc hm).sent
  have hnone : (m.node.replica a.side).drain.1 = [] := by
    have hbox : (m.node.replica a.side).outbox = { waiting := w } := congrArg Outlet.outbox hout
    have hset : (m.node.replica a.side).settings = u.outlet.settings :=
      congrArg Outlet.settings hout
    rw [Replica.drain, hset, if_neg (by simp [hbox]), if_neg hk]
  rw [hnone] at hs
  exact hs.trans (List.append_nil _)

/-- Each turn of a store whose replicator runs. -/
theorem exists_relayed_turn (hc : c.Numbered) (hu : c.sender? a = some (u.holding w))
    (hw : w.length ≤ u.outlet.settings.queueCapacity)
    (hk : u.outlet.settings.keepsRunning .replicator) (t : Turn) :
    ∃ bs w', Relayed a u w c bs w' ((t.run a).run c).2
        ((c.memberAt? a.serial).elim [] fun m => t.queues (m.node.replica a.side)) ∧
      (t = .does .drain → w' = []) := by
  obtain ⟨m, hm, -⟩ := exists_member hu
  rw [hm, Option.elim_some]
  have hquiet {c' : Cluster} (h : c.Quiet c') : Relayed a u w c [] w c' [] :=
    .of_sends hc hu hw (.of_quiet h a)
  have hsilent := Replica.blind_outlet.hereditary
  cases t with
  | hears peer batch result =>
    exact ⟨[], w, hquiet (quiet_finishPush a peer batch result c), nofun⟩
  | does o =>
    cases o with
    | put now key value maxAge =>
      obtain ⟨w', h⟩ := relayed_of_write hc hu hw (fun r => r.run_put_snd now key value maxAge) hm
      exact ⟨[], w', h, nofun⟩
    | delete now key =>
      obtain ⟨w', h⟩ := relayed_of_write hc hu hw (fun r => r.run_delete_snd now key) hm
      exact ⟨[], w', h, nofun⟩
    | lookup now key =>
      exact ⟨[], w, hquiet (quiet_onReplica (hsilent.lookup now key) a c), nofun⟩
    | live now =>
      exact ⟨[], w, hquiet (quiet_onReplica (hsilent.live now) a c), nofun⟩
    | snapshot =>
      exact ⟨[], w, hquiet (quiet_onReplica hsilent.engineGetAll a c), nofun⟩
    | merge now batch =>
      exact ⟨[], w, hquiet (quiet_onReplica (hsilent.mergeFrom now {} batch) a c), nofun⟩
    | absorb now peer pulled =>
      exact ⟨[], w, hquiet (quiet_onReplica (Replica.silent_absorb now peer pulled) a c), nofun⟩
    | sweep now =>
      exact ⟨[], w, hquiet (quiet_mapReplica (f := Replica.sweepOnce now) (fun _ => rfl) a c), nofun⟩
    | drain => exact ⟨_, [], relayed_of_drain hc hu hk, fun _ => rfl⟩

/-- A whole run of such a store. -/
theorem exists_relayed (hc : c.Numbered) (hu : c.sender? a = some (u.holding w))
    (hw : w.length ≤ u.outlet.settings.queueCapacity)
    (hk : u.outlet.settings.keepsRunning .replicator) (ts : List Turn) :
    ∃ bs w', Relayed a u w c bs w' (after a c ts) (queued a c ts) ∧
      (ts.getLast? = some (.does .drain) → w' = []) := by
  induction ts using List.reverseRecOn with
  | nil => exact ⟨[], w, .refl hc hu hw, nofun⟩
  | append_singleton ts t ih =>
    obtain ⟨bs, w₁, h, -⟩ := ih
    obtain ⟨bs', w₂, h', hlast⟩ := exists_relayed_turn h.numbered h.sender h.room hk t
    rw [after_concat, queued_concat]
    refine ⟨bs ++ bs', w₂, h.trans h', fun ht => hlast ?_⟩
    rw [List.getLast?_concat] at ht
    exact Option.some.inj ht

end Cluster

/-- What one peer is sent: each batch once for every time that the peer is listed. -/
theorem Sender.entries_pushes (u : Sender) (batches : List (List Entry)) (p : String) :
    ((u.pushes batches).filter (·.receiver = p)).map (·.entries) =
      batches.flatMap fun b => List.replicate (u.peers.count p) b := by
  have hbatch (b : List Entry) :
      ((u.peers.map fun p' => (⟨u.endpoint, p', u.outlet.name, b⟩ : Push)).filter
        (·.receiver = p)).map (·.entries) = List.replicate (u.peers.count p) b := by
    rw [List.filter_map, List.map_map, List.count_eq_length_filter]
    exact List.map_const'
  rw [Sender.pushes, List.filter_flatMap, List.map_flatMap]
  exact List.flatMap_congr fun b _ => hbatch b

/-- What leaves a store with these settings, whatever it does: its writes that won and found a place
in the queue, in their order, but for those that still wait; in batches within the limit, the same
for every peer and each entry its own. Nothing waits after a drain. A turn is taken as one step: a
write is queued with no other write between, and the batches of a drain go out in their order. Tasks
side by side queue a write only when its key is free again, and push each batch to each peer on its
own; they may change both orders, which is not looked at here. -/
def Settings.RelaysWrites (s : Settings) : Prop :=
  ∀ (c : Cluster) (a : Address) (u : Sender), c.Numbered → c.sender? a = some u →
    u.outlet.settings = s → u.outlet.outbox = {} → ∀ ts : List Turn, ∃ batches waiting,
      (c.after a ts).sent = c.sent ++ u.pushes batches ∧
      ((c.after a ts).sender? a).map (·.outlet.outbox.waiting) = some waiting ∧
      batches.flatten ++ waiting = c.queued a ts ∧ waiting.length ≤ s.queueCapacity ∧
      (ts.getLast? = some (.does .drain) → waiting = []) ∧
      (∀ b ∈ batches, b ≠ [] ∧ b.length ≤ s.batchLimit ∧ ∀ e ∈ b, e.origin = u.outlet.nodeId) ∧
      ∀ p, ((u.pushes batches).filter (·.receiver = p)).map (·.entries) =
        batches.flatMap fun b => List.replicate (u.peers.count p) b

namespace Settings

variable {s : Settings}

theorem relaysWrites_of_keepsRunning (hk : s.keepsRunning .replicator) : s.RelaysWrites := by
  intro c a u hc hu hs hbox ts
  have hempty : u.holding [] = u := by
    obtain ⟨endpoint, peers, name, nodeId, settings, outbox⟩ := u
    cases hbox
    rfl
  subst hs
  obtain ⟨batches, waiting, h, hlast⟩ :=
    Cluster.exists_relayed hc (hu.trans (congrArg some hempty.symm)) (Nat.zero_le _) hk ts
  have hledger : batches.flatten ++ waiting = c.queued a ts := h.ledger.symm
  refine ⟨batches, waiting, h.sent, by rw [h.sender]; rfl, hledger, h.room, hlast, fun b hb => ?_,
    u.entries_pushes batches⟩
  obtain ⟨hne, hle⟩ := h.batch b hb
  refine ⟨hne, hle, fun e he => h.origin e ?_⟩
  rw [← hledger]
  exact List.mem_append_left _ (List.mem_flatten.mpr ⟨b, hb, he⟩)

/-- A node with one peer. -/
def loneSpec (s : Settings) : NodeSpec where
  id := "a"
  endpoint := "a"
  peers := ["b"]
  dynamicDurable := false
  staticDurable := false
  dynamicName := "dynamic"
  staticName := "static"
  dynamicMaxAge := ⟨30000000000⟩
  settings := s
  environment := "test"

def lone (s : Settings) : Cluster where
  clock := 5
  wire := false
  members := [Member.start (loneSpec s) 0 0 (.fresh false) (.fresh false)]

/-- A write of a store that holds nothing wins, and there is a place for it. -/
theorem queues_start (s : Settings) : (Replica.start "dynamic" "a" s (.fresh false)).queues
    ((Replica.start "dynamic" "a" s (.fresh false)).won? 5 [107] (some [49]) none) ≠ [] := by
  have hs := (Replica.stocked_start "dynamic" "a" s false).toSound
  have hheld : (Replica.start "dynamic" "a" s (.fresh false)).held [107] = none :=
    Medium.held_fresh false [107]
  have hplace : (Replica.start "dynamic" "a" s (.fresh false)).outbox.waiting.length ≠
      (Replica.start "dynamic" "a" s (.fresh false)).settings.queueCapacity := by
    change 0 ≠ max 1 s.queueSize
    omega
  rw [Replica.queues, if_neg hplace, Replica.won?, Replica.run_write hs rfl, Replica.built, hheld]
  dsimp only
  rw [Entry.resolve, if_pos rfl]
  exact List.cons_ne_nil _ _

/-- A replicator that ended as it began takes what waits with it. -/
theorem not_relaysWrites (hk : ¬ s.keepsRunning .replicator) : ¬ s.RelaysWrites := by
  intro hr
  let a : Address := ⟨0, .dynamic⟩
  let u : Sender := ⟨"a", ["b"], (Replica.start "dynamic" "a" s (.fresh false)).outlet⟩
  let put : Turn := .does (.put 5 [107] [49] none)
  have hc : (lone s).Numbered := List.nodup_singleton 0
  have hu : (lone s).sender? a = some (u.holding []) := rfl
  have hm : (lone s).memberAt? a.serial =
      some (Member.start (loneSpec s) 0 0 (.fresh false) (.fresh false)) := rfl
  obtain ⟨batches, waiting, hsent, -, hledger, -, hlast, -⟩ :=
    hr (lone s) a u hc hu rfl rfl [put, .does .drain]
  obtain ⟨w, hput⟩ := Cluster.relayed_of_write hc hu (Nat.zero_le _)
    (fun r => r.run_put_snd 5 [107] [49] none) hm
  -- nothing is sent, so that there are no batches
  have hdrain := Cluster.sent_drain_of_not_keepsRunning hput.numbered hput.sender hk
  have hnone : u.pushes batches = [] := by
    have hempty : (lone s).sent ++ u.pushes batches = (lone s).sent ++ u.pushes [] :=
      hsent.symm.trans (hdrain.trans hput.sent)
    exact hempty
  have hbatches : batches = [] := by
    cases batches with
    | nil => rfl
    | cons b bs => exact absurd hnone (List.cons_ne_nil _ _)
  -- nothing waits either, though the write was queued
  rw [hbatches, hlast rfl, Cluster.queued, hm, Option.elim_some] at hledger
  exact queues_start s (List.append_eq_nil_iff.mp hledger.symm).1

/-- In turns, each taken as one step, writes are relayed where the replicator keeps running and nowhere
else. -/
theorem relaysWrites_iff : s.RelaysWrites ↔ s.keepsRunning .replicator :=
  ⟨fun h => Classical.byContradiction fun hk => not_relaysWrites hk h, relaysWrites_of_keepsRunning⟩

/-- Batches without a limit to speak of. -/
def wordBatch : Settings := { Config.standard.dynamicStore with maxBatchSize := 2 ^ 64 - 1 }

/-- The store starts, but no buffer of that size can be had. -/
theorem not_relaysWrites_wordBatch : wordBatch.canStart ∧ ¬ wordBatch.RelaysWrites := by
  have hk : ¬ wordBatch.keepsRunning .replicator := by decide
  exact ⟨by decide, not_relaysWrites hk⟩

end Settings

end ServiceDirectory
