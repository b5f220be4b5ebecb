import ServiceDirectory.Proofs.Background
import ServiceDirectory.Proofs.Reachability

namespace ServiceDirectory

/-! What the stores of a cluster say of their peers. -/

/-- Calls to peers may have ended meanwhile, and what changed with them was said. -/
def Replica.Tells (r r' : Replica) : Prop := ∃ ends, Replica.Told ends r r'

namespace Replica.Tells

variable {r r' r'' : Replica}

theorem of_outlook_eq (h : r'.outlook = r.outlook) : r.Tells r' := ⟨[], told_of_outlook_eq h⟩

theorem refl (r : Replica) : r.Tells r := of_outlook_eq rfl

theorem trans (h : r.Tells r') (h' : r'.Tells r'') : r.Tells r'' := by
  obtain ⟨ends, h⟩ := h
  obtain ⟨ends', h'⟩ := h'
  exact ⟨ends ++ ends', h.trans h'⟩

end Replica.Tells

open Replica

theorem Node.tells_setReplica {n : Node} {side : Side} {r : Replica} (h : (n.replica side).Tells r)
    (side' : Side) : (n.replica side').Tells ((n.setReplica side r).replica side') := by
  rw [replica_setReplica]
  split_ifs with hs
  · exact hs ▸ h
  · exact .refl _

namespace Cluster

variable {c c' c'' : Cluster} {a : Address} {α β : Type}

/-- Runs of nodes that are over have numbers that no other run has or will have. -/
structure Counted (c : Cluster) : Prop extends Orderly c where
  retired : ∀ s ∈ c.retired.map (·.serial), s ∉ c.members.map (·.serial) ∧ s < c.nextSerial

theorem Counted.of_serials (h : c.Counted) (hr : c'.roll = c.roll)
    (hs : c'.retired.map (·.serial) = c.retired.map (·.serial)) : c'.Counted where
  toOrderly := h.toOrderly.of_roll hr
  retired := by
    obtain ⟨hm, hn⟩ := Prod.mk.inj hr
    rw [hm, hn, hs]
    exact h.retired

theorem counted_of_empty (hm : c.members = []) (hr : c.retired = []) : c.Counted where
  nodup := by
    rw [hm]
    exact List.nodup_nil
  serial_lt := by
    rw [hm]
    exact nofun
  retired := by
    rw [hr]
    exact nofun

theorem Counted.lt_nextSerial {s : Nat} {m : Member} (h : c.Counted) (hm : c.memberAt? s = some m) :
    s < c.nextSerial := by
  rw [← serial_of_memberAt? hm]
  rcases List.mem_append.mp (List.mem_of_find?_eq_some hm) with hin | hin
  · exact h.serial_lt _ (List.mem_map_of_mem hin)
  · exact (h.retired _ (List.mem_map_of_mem hin)).2

/-- What is over does not go on. -/
theorem Counted.find?_members {s : Nat} {m : Member} (h : c.Counted)
    (hm : c.retired.find? (·.serial = s) = some m) : c.members.find? (·.serial = s) = none := by
  have hgone := (h.retired _ (List.mem_map_of_mem (List.mem_of_find?_eq_some hm))).1
  refine List.find?_eq_none.mpr fun m' hin hm' => hgone ?_
  rw [serial_of_find? hm, ← of_decide_eq_true hm']
  exact List.mem_map_of_mem hin

/-- The store at an address, whether or not its run is over. -/
def replica? (c : Cluster) (a : Address) : Option Replica :=
  (c.memberAt? a.serial).map (·.node.replica a.side)

/-- From one state to another a store has told what changed with its peers. -/
structure Informed (a : Address) (c c' : Cluster) : Prop where
  counted : c.Counted → c'.Counted
  tells : ∀ r ∈ c.replica? a, ∃ r' ∈ c'.replica? a, r.Tells r'

theorem Informed.refl (a : Address) (c : Cluster) : Informed a c c := ⟨id, fun r hr => ⟨r, hr, .refl r⟩⟩

theorem Informed.trans (h : Informed a c c') (h' : Informed a c' c'') : Informed a c c'' where
  counted hc := h'.counted (h.counted hc)
  tells r hr := by
    obtain ⟨r', hr', ht⟩ := h.tells r hr
    obtain ⟨r'', hr'', ht'⟩ := h'.tells r' hr'
    exact ⟨r'', hr'', ht.trans ht'⟩

/-- A change of one node in which its store tells what changed. -/
theorem informed_mapMember {g : Member → Member} {s : Nat} (hg : ∀ m, (g m).serial = m.serial)
    (ht : ∀ m, c.memberAt? s = some m →
      (m.node.replica a.side).Tells ((g m).node.replica a.side)) : Informed a c (c.mapMember s g) where
  counted h := h.of_serials (frame_mapMember hg s c).roll (map_serial_ite hg s c.retired)
  tells r hr := by
    obtain ⟨m, hm, rfl⟩ := Option.map_eq_some_iff.mp hr
    have hs := serial_of_memberAt? hm
    refine ⟨_, by rw [Option.mem_def, replica?, memberAt?_mapMember hg, hm]; rfl, ?_⟩
    dsimp only
    split_ifs with h
    · refine ht m ?_
      rw [← h, hs]
      exact hm
    · exact .refl _

theorem informed_mapNode {f : Node → Node} {s : Nat} (ht : ∀ m, c.memberAt? s = some m →
    (m.node.replica a.side).Tells ((f m.node).replica a.side)) : Informed a c (c.mapNode s f) :=
  informed_mapMember (g := fun m => { m with node := f m.node }) (fun _ => rfl) ht

theorem informed_mapReplica {f : Replica → Replica} (hf : ∀ r : Replica, r.Tells (f r)) (b : Address)
    (c : Cluster) : Informed a c (c.mapReplica b f) :=
  informed_mapNode fun m _ => Node.tells_setReplica (hf (m.node.replica b.side)) a.side

theorem informed_mapTimers (b : Address) (f : Timers → Timers) (c : Cluster) :
    Informed a c (c.mapTimers b f) := by
  refine informed_mapMember (fun m => by cases b.side <;> rfl) fun m _ => ?_
  cases b.side <;> exact .refl _

/-- No node is other than it was. -/
theorem informed_of_eq (hm : c'.members = c.members) (hr : c'.retired = c.retired)
    (hn : c'.nextSerial = c.nextSerial) : Informed a c c' where
  counted h := h.of_serials (by rw [roll, hm, hn]; rfl) (by rw [hr])
  tells r h := ⟨r, by rw [replica?, memberAt?, hm, hr]; exact h, .refl r⟩

/-! Steps that are built of such changes. -/

/-- Whatever comes of it, a store tells what changes with its peers. -/
def Candid (a : Address) (x : Sim α) : Prop := ∀ c, c.Counted → Informed a c (x.run c).2

theorem candid_pure (v : α) : Candid a (pure v) := fun c _ => .refl a c

theorem Candid.bind {x : Sim α} {f : α → Sim β} (hx : Candid a x) (hf : ∀ v, Candid a (f v)) :
    Candid a (x >>= f) := fun c hc => by
  have h := hx c hc
  exact h.trans (hf _ _ (h.counted hc))

theorem candid_get_bind {f : Cluster → Sim β} (hf : ∀ c, Candid a (f c)) : Candid a (get >>= f) :=
  fun c hc => hf c c hc

theorem candid_modify {f : Cluster → Cluster} (hf : ∀ c, Informed a c (f c)) :
    Candid a (modify f) := fun c _ => hf c

theorem candid_forM {f : α → Sim Unit} (hf : ∀ x, Candid a (f x)) (l : List α) :
    Candid a (l.forM f) := by
  induction l with
  | nil => exact candid_pure _
  | cons x l ih => exact (hf x).bind fun _ => ih

theorem candid_discard {x : Sim α} (hx : Candid a x) : Candid a (discard x) := hx

theorem candid_onNode {ε : Type} {step : Node → Except ε α × Node}
    (hstep : ∀ n : Node, (n.replica a.side).Tells ((step n).2.replica a.side)) (s : Nat) (absent : ε) :
    Candid a (onNode s absent step) := by
  intro c _
  simp only [onNode, StateT.run]
  cases hm : c.memberAt? s with
  | none => exact .refl a c
  | some m =>
    refine informed_mapNode (f := fun _ => (step m.node).2) fun m' hm' => ?_
    cases hm.symm.trans hm'
    exact hstep m.node

theorem candid_onReplica {op : Op Replica α} (hop : ∀ r : Replica, r.Tells (op.run.run r).2) (b : Address) :
    Candid a (onReplica b op) :=
  candid_onNode (fun n => Node.tells_setReplica (hop (n.replica b.side)) a.side) b.serial _

/-! Calls. -/

theorem candid_serve {direct : Replica → Except Failure α × Replica}
    {wired : Node → Except Status β × Node} (hdirect : ∀ r : Replica, r.Tells (direct r).2)
    (hwired : ∀ (n : Node) side, (n.replica side).Tells ((wired n).2.replica side)) (store peer : String)
    (ofWire : β → α) : Candid a (serve store peer direct wired ofWire) := by
  intro c hc
  let S (n n' : Node) : Prop := ∀ side, (n.replica side).Tells (n'.replica side)
  have hset (n : Node) (side : Side) : S n (n.setReplica side (direct (n.replica side)).2) :=
    Node.tells_setReplica (hdirect (n.replica side))
  rcases exists_run_serve hset hwired hc.nodup store peer ofWire with
    hrun | ⟨m, f, hm, hf, hrun⟩
  · rw [hrun]
    exact .refl a c
  · rw [hrun]
    refine informed_mapNode fun m' hm' => ?_
    cases hm.symm.trans hm'
    exact hf a.side

theorem candid_deliver (store peer : String) (batch : List Entry) :
    Candid a (deliver store peer batch) := by
  intro c hc
  have hmerge (r : Replica) : r.Tells (((Replica.merge c.clock batch).run.run r).map
      (·.map fun _ => ()) id).2 :=
    .of_outlook_eq (aloof_outlook.hereditary.mergeFrom c.clock {} batch r)
  rw [run_deliver]
  refine candid_serve hmerge (fun n side => .of_outlook_eq ?_) store peer (fun _ => ()) c hc
  exact aloof_outlook.receivePush c.clock store _ n side

theorem candid_fetch (store peer : String) : Candid a (fetch store peer) :=
  candid_serve (fun r => .of_outlook_eq (aloof_outlook.onEngine Engine.getAll r))
    (fun n side => .of_outlook_eq (aloof_outlook.servePull store n side)) store peer _

theorem candid_finishPush (b : Address) (peer : String) (batch : List Entry)
    (result : Except Failure Unit) : Candid a (finishPush b peer batch result) :=
  candid_modify (informed_mapReplica (fun r => ⟨_, told_settlePush peer batch.length result r⟩) b)

theorem candid_finishPatrol (b : Address) (peer : String) (pulled : Except Failure (List Entry)) :
    Candid a (finishPatrol b peer pulled) := by
  refine candid_get_bind fun c => Candid.bind ?_ fun _ => candid_pure _
  refine candid_onNode (fun n => ?_) b.serial ()
  exact Node.tells_setReplica ⟨_, told_absorbRound c.clock peer pulled (n.replica b.side)⟩ a.side

theorem candid_await (ms : Nat) (getsThrough : Bool) (b : Address) (store peer : String)
    (errand : Errand) : Candid a (await ms getsThrough b store peer errand) :=
  candid_modify fun _ => informed_of_eq rfl rfl rfl

theorem candid_push (b : Address) (m : Member) (batch : List Entry) (peer : String) :
    Candid a (push b m batch peer) := by
  refine Candid.bind (candid_modify fun _ => informed_of_eq rfl rfl rfl) fun _ => ?_
  refine candid_get_bind fun c => ?_
  cases c.contact m b.side peer with
  | through => exact (candid_deliver _ peer batch).bind fun result => candid_finishPush b peer batch result
  | failed f => exact candid_finishPush b peer batch _
  | later ms getsThrough => exact candid_await ms getsThrough b _ peer _

theorem candid_drain (b : Address) : Candid a (drain b) := by
  intro c hc
  cases hm : c.memberAt? b.serial with
  | none =>
    rw [drain]
    simp only [StateT.run_bind, StateT.run_get, pure_bind, hm]
    exact .refl a c
  | some m =>
    have hdrained : Informed a c (c.mapReplica b fun _ => (m.node.replica b.side).drain.2) := by
      refine informed_mapNode fun m' hm' => ?_
      cases hm.symm.trans hm'
      exact Node.tells_setReplica (.of_outlook_eq (outlook_drain _)) a.side
    rw [run_drain hm]
    refine hdrained.trans (candid_forM (fun batch => ?_) _ _ (hdrained.counted hc))
    exact candid_forM (candid_push b m batch) m.peers

/-! Background work. -/

theorem candid_patrol (b : Address) : Candid a (patrol b) := by
  refine candid_get_bind fun c => ?_
  cases c.memberAt? b.serial with
  | none => exact candid_pure _
  | some m =>
    dsimp only
    cases m.peers.head? with
    | none => exact candid_pure _
    | some peer =>
      refine candid_get_bind fun c => ?_
      cases c.contact m b.side peer with
      | through =>
        refine (candid_fetch _ peer).bind fun pulled => ?_
        exact (candid_discard (candid_finishPatrol b peer pulled)).bind fun _ => candid_pure _
      | failed f =>
        exact (candid_discard (candid_finishPatrol b peer _)).bind fun _ => candid_pure _
      | later ms getsThrough =>
        refine (candid_await ms getsThrough b _ peer _).bind fun _ => ?_
        exact (candid_modify (informed_mapTimers b _)).bind fun _ => candid_pure _

theorem candid_patrols (b : Address) (now : Nat) (t : Ticker) : Candid a (patrols b now t) := by
  induction t using patrols.induct now with
  | case1 t hdue ih =>
    rw [patrols, if_pos hdue]
    refine (candid_modify (informed_mapTimers b _)).bind fun _ => (candid_patrol b).bind fun more => ?_
    cases more with
    | true => exact ih
    | false => exact candid_pure _
  | case2 t hdue =>
    rw [patrols, if_neg hdue]
    exact candid_pure _

theorem candid_sweeps (b : Address) (now : Nat) (t : Ticker) : Candid a (sweeps b now t) := by
  induction t using sweeps.induct now with
  | case1 t hdue ih =>
    rw [sweeps, if_pos hdue]
    refine (candid_modify fun c => ?_).bind fun _ => ih
    refine (informed_mapTimers b _ c).trans (informed_mapReplica (fun r => ?_) b _)
    exact .of_outlook_eq (aloof_outlook.sweepOnce c.clock r)
  | case2 t hdue =>
    rw [sweeps, if_neg hdue]
    exact candid_pure _

theorem candid_optionForM {f : α → Sim Unit} (hf : ∀ x, Candid a (f x)) (o : Option α) :
    Candid a (o.forM f) := by
  cases o with
  | none => exact candid_pure _
  | some x => exact hf x

theorem candid_tick (b : Address) : Candid a (tick b) := by
  intro c hc
  cases ht : c.timers? b with
  | none =>
    rw [tick]
    simp only [StateT.run_bind, StateT.run_get, pure_bind, ht]
    exact .refl a c
  | some t =>
    have hswept : Informed a c (swept b t c) :=
      candid_optionForM (candid_sweeps b c.elapsed) t.sweep c hc
    rw [run_tick ht]
    split_ifs
    · exact .refl a c
    · exact hswept
    · have hpatrols := candid_optionForM (a := a) (candid_patrols b c.elapsed) t.patrol
      exact hswept.trans (hpatrols _ (hswept.counted hc))

theorem candid_complete (call : Call) : Candid a (complete call) := by
  obtain ⟨wake, getsThrough, caller, store, peer, errand⟩ := call
  cases errand with
  | push batch =>
    cases getsThrough with
    | true => exact (candid_deliver store peer batch).bind fun r => candid_finishPush caller peer batch r
    | false => exact candid_finishPush caller peer batch (.error .timeout)
  | patrol =>
    have hfinish (pulled : Except Failure (List Entry)) : Candid a (do
        discard (finishPatrol caller peer pulled)
        modify (·.mapTimers caller ({ · with patrolling := false }))) :=
      (candid_finishPatrol caller peer pulled).bind fun _ => candid_modify (informed_mapTimers caller _)
    cases getsThrough with
    | true => exact (candid_fetch store peer).bind hfinish
    | false => exact hfinish (.error .timeout)

theorem candid_runDue : Candid a runDue := by
  refine candid_get_bind fun c => candid_get_bind fun c => ?_
  generalize c.calls.partition _ = parts
  obtain ⟨due, calls⟩ := parts
  refine Candid.bind (candid_modify fun _ => informed_of_eq rfl rfl rfl) fun _ => ?_
  refine (candid_forM candid_complete due).bind fun _ => candid_get_bind fun c => ?_
  exact candid_forM candid_tick c.addresses

theorem informed_passUntil (hc : c.Counted) (goal : Nat) : Informed a c (passUntil goal c) := by
  induction c using passUntil.induct goal with
  | case1 c hnone =>
    rw [passUntil]
    split
    · exact informed_of_eq rfl rfl rfl
    · rename_i t ht
      rw [hnone] at ht
      contradiction
  | case2 c t ht ih =>
    rw [passUntil]
    -- `split` forgets which case of the recursion this is
    split
    · rename_i hnone
      rw [hnone] at ht
      contradiction
    · rename_i t' ht'
      cases ht.symm.trans ht'
      have hwait : Informed a c { c with elapsed := t } := informed_of_eq rfl rfl rfl
      have hdue := hwait.trans (candid_runDue _ (hwait.counted hc))
      have hnow : Informed a c { (runDue.run { c with elapsed := t }).2 with elapsed := t } :=
        hdue.trans (informed_of_eq rfl rfl rfl)
      exact hnow.trans (ih (hnow.counted hc))

theorem candid_pass (ms : Nat) : Candid a (pass ms) := by
  unfold pass
  split_ifs
  · exact candid_pure _
  · refine candid_runDue.bind fun _ => candid_get_bind fun c => ?_
    refine (candid_forM candid_drain c.addresses).bind fun _ => ?_
    exact fun c hc => informed_passUntil hc _

theorem candid_pull (b : Address) (peer : String) : Candid a (pull b peer) := by
  refine candid_get_bind fun c => ?_
  cases c.memberAt? b.serial with
  | none => exact candid_pure _
  | some m =>
    refine candid_get_bind fun c => ?_
    cases c.contact m b.side peer with
    | through => exact candid_fetch _ peer
    | failed f => exact candid_pure _
    | later ms getsThrough =>
      refine (candid_pass ms).bind fun _ => ?_
      split_ifs
      · exact candid_fetch _ peer
      · exact candid_pure _

theorem candid_sync (b : Address) (peer : String) : Candid a (sync b peer) := by
  refine (candid_pull b peer).bind fun pulled => candid_get_bind fun c => ?_
  exact candid_onReplica (fun r => ⟨_, told_absorb c.clock peer pulled r⟩) b

theorem candid_antiEntropy (b : Address) : Candid a (antiEntropy b) := by
  refine candid_get_bind fun c => ?_
  cases (c.memberAt? b.serial).bind (·.peers.head?) with
  | none => exact candid_pure _
  | some peer => exact (candid_pull b peer).bind fun pulled => candid_finishPatrol b peer pulled

theorem candid_stop (b : Address) : Candid a (stop b) := by
  have hstop : Candid a (modify (·.mapReplica b Replica.stop)) :=
    candid_modify (informed_mapReplica (fun r => .of_outlook_eq (outlook_stop r)) b)
  refine Candid.bind (candid_modify (informed_mapTimers b _)) fun _ => candid_get_bind fun c => ?_
  cases c.calls.find? fun call => call.caller = b ∧ call.errand.isPatrol with
  | none => exact hstop
  | some call =>
    refine candid_get_bind fun c => (candid_pass _).bind fun _ => ?_
    exact candid_runDue.bind fun _ => hstop

/-! Runs of nodes begin and end. -/

/-- A new run is found under no number given out before. -/
theorem memberAt?_join (spec : NodeSpec) {t : Nat} (ht : t ≠ c.nextSerial) :
    ((join spec).run c).2.memberAt? t = c.memberAt? t := by
  let m := Member.start spec c.nextSerial c.elapsed (.fresh spec.dynamicDurable)
    (.fresh spec.staticDurable)
  have hm : [m].find? (·.serial = t) = none := by simp [m, Member.start, Ne.symm ht]
  change ((c.members ++ [m]) ++ c.retired).find? (·.serial = t) = _
  rw [List.find?_append, List.find?_append, hm, Option.or_none, memberAt?, List.find?_append]

/-- What was there before a new run begins is there. -/
theorem informed_of_memberAt? (hcounted : c.Counted → c'.Counted)
    (hm : ∀ t, t ≠ c.nextSerial → c'.memberAt? t = c.memberAt? t) (hc : c.Counted) :
    Informed a c c' where
  counted := hcounted
  tells r hr := by
    obtain ⟨m, hat, -⟩ := Option.map_eq_some_iff.mp hr
    have hlt := hc.lt_nextSerial hat
    refine ⟨r, ?_, .refl r⟩
    rw [replica?, hm _ (by omega)]
    exact hr

theorem Counted.join (h : c.Counted) (spec : NodeSpec) : ((join spec).run c).2.Counted where
  toOrderly := h.toOrderly.join spec
  retired s hs := by
    obtain ⟨hnot, hlt⟩ := h.retired s hs
    have hserials : ((Cluster.join spec).run c).2.members.map (·.serial) =
        c.members.map (·.serial) ++ [c.nextSerial] := List.map_append
    rw [hserials, List.mem_append, List.mem_singleton]
    exact ⟨fun h => h.elim hnot (Nat.ne_of_lt hlt), Nat.lt_succ_of_lt hlt⟩

theorem candid_join (spec : NodeSpec) : Candid a (join spec) := fun _ hc =>
  informed_of_memberAt? (fun h => h.join spec) (fun _ ht => memberAt?_join spec ht) hc

theorem Counted.relaunch (h : c.Counted) (n : Nat) : (relaunch n c).Counted where
  toOrderly := h.toOrderly.relaunch n
  retired s hs := by
    rw [Cluster.relaunch] at hs ⊢
    cases hm : c.memberAt? n with
    | none =>
      rw [hm] at hs
      exact h.retired s hs
    | some old =>
      have hn := h.lt_nextSerial hm
      have hold := serial_of_memberAt? hm
      have hgone : s ∉ c.members.map (·.serial) ∧ s < c.nextSerial ∨ s = n ∧ n < c.nextSerial := by
        rw [hm, List.map_append, List.mem_append] at hs
        refine hs.imp (h.retired s) fun hs => ⟨?_, hn⟩
        rw [← hold]
        exact List.mem_singleton.mp hs
      -- the run that takes the place of the old one has a number that nothing had
      refine ⟨fun hin => ?_, ?_⟩
      · rw [map_serial_replace] at hin
        obtain ⟨y, hy, hys⟩ := List.mem_map.mp hin
        change (if y = n then c.nextSerial else y) = s at hys
        rcases hgone with ⟨hnot, hlt⟩ | ⟨rfl, hlt⟩
        · split_ifs at hys
          · omega
          · exact hnot (hys ▸ hy)
        · split_ifs at hys <;> omega
      · change s < c.nextSerial + 1
        omega

theorem memberAt?_relaunch (h : c.Counted) (n : Nat) {t : Nat} (ht : t ≠ c.nextSerial) :
    (relaunch n c).memberAt? t = c.memberAt? t := by
  rw [relaunch]
  cases hm : c.memberAt? n with
  | none => rfl
  | some old =>
    have hold := serial_of_memberAt? hm
    rw [memberAt?, List.find?_append] at hm
    rw [memberAt?, memberAt?, List.find?_append, List.find?_append, List.find?_append]
    by_cases hn : n = t
    -- the run that is over has gone to the others that are
    · subst hn
      have hone : [old].find? (·.serial = n) = some old := by simp [hold]
      rw [hm, find?_map_replace_self (Ne.symm ht), hone, Option.none_or]
      cases hr : c.retired.find? (·.serial = n) with
      | none => rfl
      | some m =>
        rw [h.find?_members hr, hr, Option.none_or] at hm
        exact hm
    · have hone : [old].find? (·.serial = t) = none := by simp [hold, hn]
      rw [find?_map_replace hn (Ne.symm ht), hone, Option.or_none]

theorem candid_restart (n : Nat) : Candid a (restart n) := by
  intro c hc
  have h₁ := candid_stop (a := a) ⟨n, .dynamic⟩ c hc
  have h₂ := h₁.trans (candid_stop ⟨n, .static⟩ _ (h₁.counted hc))
  have hc₂ := h₂.counted hc
  rw [run_restart]
  exact h₂.trans (informed_of_memberAt? (fun h => h.relaunch n)
    (fun _ ht => memberAt?_relaunch hc₂ n ht) hc₂)

theorem candid_turn (b : Address) (t : Turn) : Candid a (t.run b) := by
  have haloof := aloof_outlook.pervasive
  have hop {α : Type} {op : Op Replica α} (h : Preserves outlook op) :
      Candid a (discard (onReplica b op)) :=
    candid_discard (candid_onReplica (fun r => .of_outlook_eq (h r)) b)
  cases t with
  | hears peer batch result => exact candid_finishPush b peer batch result
  | does o =>
    cases o with
    | put now key value maxAge => exact hop (haloof.put now key value maxAge)
    | delete now key => exact hop (haloof.delete now key)
    | lookup now key => exact hop (haloof.lookup now key)
    | live now => exact hop (haloof.live now)
    | snapshot => exact hop haloof.engineGetAll
    | merge now batch => exact hop (haloof.mergeFrom now {} batch)
    | absorb now peer pulled =>
      exact candid_discard (candid_onReplica (fun r => ⟨_, told_absorb now peer pulled r⟩) b)
    | sweep now =>
      refine candid_modify (informed_mapReplica (fun r => ?_) b)
      exact .of_outlook_eq (aloof_outlook.sweepOnce now r)
    | drain => exact candid_drain b

/-- Of all moves only one takes from what was said. -/
theorem candid_move {m : Move} (hm : m ≠ .takeLog) : Candid a m.run := by
  cases m with
  | turn b t => exact candid_turn b t
  | request n now q =>
    refine candid_discard (candid_onNode (fun node => .of_outlook_eq ?_) n _)
    exact Node.preserves_serveBy aloof_outlook (.still now) a.side q node
  | receivePush n now name entries =>
    refine candid_discard (candid_onNode (fun node => .of_outlook_eq ?_) n _)
    exact aloof_outlook.receivePush now name entries node a.side
  | servePull n name =>
    refine candid_discard (candid_onNode (fun node => .of_outlook_eq ?_) n _)
    exact aloof_outlook.servePull name node a.side
  | upset b f =>
    let strike (r : Replica) : Replica := { r with engine := f r.engine }
    have hstrike (r : Replica) : r.Tells (strike r) := .of_outlook_eq rfl
    exact candid_modify (informed_mapReplica hstrike b)
  | pass ms => exact candid_pass ms
  | sync b peer => exact candid_discard (candid_sync b peer)
  | antiEntropy b => exact candid_discard (candid_antiEntropy b)
  | stop b => exact candid_stop b
  | join spec => exact candid_join spec
  | restart n => exact candid_restart n
  | setPeers n peers =>
    exact candid_modify fun c => informed_mapMember (fun _ => rfl) fun _ _ => .refl _
  | setRoute r => exact candid_modify fun _ => informed_of_eq rfl rfl rfl
  | setClock now => exact candid_modify fun _ => informed_of_eq rfl rfl rfl
  | takeLog => contradiction
  | takeSent => exact fun c _ => informed_of_eq rfl rfl rfl

theorem Counted.takeLog (h : c.Counted) : (takeLog.run c).2.Counted :=
  h.of_serials (congrArg (·, c.nextSerial) List.map_map) List.map_map

theorem Counted.move (h : c.Counted) (m : Move) : (m.run.run c).2.Counted := by
  by_cases hm : m = .takeLog
  · rw [hm]
    exact h.takeLog
  · exact (candid_move (a := ⟨0, .dynamic⟩) hm c h).counted h

theorem replica?_takeLog (a : Address) (c : Cluster) :
    (takeLog.run c).2.replica? a = (c.replica? a).map fun r => { r with log := [] } := by
  let clear (m : Member) : Member := { m with node := m.node.clearReports }
  change ((c.members.map clear ++ c.retired.map clear).find? fun m => m.serial = a.serial).map
    (fun m => m.node.replica a.side) = _
  rw [← List.map_append, List.find?_map, Option.map_map, replica?, Option.map_map]
  refine Option.map_congr fun m _ => ?_
  cases a.side <;> rfl

/-- The lines of a store about a peer that have been taken in the course of moves. -/
inductive Heard (a : Address) (p : String) (c₀ : Cluster) : List Event → Cluster → Prop
  | start : Heard a p c₀ [] c₀
  | move {l : List Event} {c : Cluster} (h : Heard a p c₀ l c) {m : Move} (hm : m ≠ .takeLog) :
      Heard a p c₀ l (m.run.run c).2
  | take {l : List Event} {c : Cluster} (h : Heard a p c₀ l c) :
      Heard a p c₀ (l ++ (c.replica? a).elim [] (·.linesOf p)) (takeLog.run c).2

/-- With what was taken and what is left to take a store has said all that changed for a peer, and
nothing else about it. -/
structure Accurate (store p : String) (l : List Event) (r : Replica) (os : List Bool) : Prop where
  name : r.name = store
  lines : l ++ r.linesOf p = (changes true os).map (Event.tiding store p)
  trusts : r.trusts p = os.getLast?.getD true

variable {store p : String} {l : List Event} {r r' : Replica} {os : List Bool} {c₀ : Cluster}

theorem Accurate.tells (h : Accurate store p l r os) (ht : r.Tells r') :
    ∃ os', Accurate store p l r' os' := by
  obtain ⟨ends, ht⟩ := ht
  refine ⟨os ++ outcomesOf p ends, ht.name.trans h.name, ?_, ?_⟩
  · rw [ht.lines, h.trusts, h.name, changes_append, List.map_append, ← h.lines, List.append_assoc]
  · rw [ht.trusts, h.trusts, List.getLast?_append]
    cases (outcomesOf p ends).getLast? <;> rfl

theorem Accurate.take (h : Accurate store p l r os) :
    Accurate store p (l ++ r.linesOf p) { r with log := [] } os where
  name := h.name
  lines := (List.append_nil _).trans h.lines
  trusts := h.trusts

theorem Heard.exists_accurate (h : Heard a p c₀ l c) (h₀ : c₀.Counted)
    (hr : c₀.replica? a = some r) (ha : Accurate store p [] r os) :
    c.Counted ∧ ∃ r' os', c.replica? a = some r' ∧ Accurate store p l r' os' := by
  induction h with
  | start => exact ⟨h₀, r, os, hr, ha⟩
  | move _ hm ih =>
    obtain ⟨hc, r₁, os₁, hr₁, ha₁⟩ := ih
    have hi := candid_move (a := a) hm _ hc
    obtain ⟨r₂, hr₂, ht⟩ := hi.tells r₁ hr₁
    obtain ⟨os₂, ha₂⟩ := ha₁.tells ht
    exact ⟨hi.counted hc, r₂, os₂, hr₂, ha₂⟩
  | take _ ih =>
    obtain ⟨hc, r₁, os₁, hr₁, ha₁⟩ := ih
    refine ⟨hc.takeLog, { r₁ with log := [] }, os₁, ?_, ?_⟩
    · rw [replica?_takeLog, hr₁]
      rfl
    · rw [hr₁]
      exact ha₁.take

/-- Whatever happens in a cluster where calls are dealt with one at a time, what a store has said of a
peer since it started is true, and what was said last is what the store goes by. -/
theorem Heard.truthful {nodeId : String} {settings : Settings} {medium : Medium}
    (h : Heard a p c₀ l c) (h₀ : c₀.Counted)
    (hr : c₀.replica? a = some (Replica.start store nodeId settings medium)) :
    ∃ r os, c.replica? a = some r ∧ TellsTruly store p os (l ++ r.linesOf p) ∧
      (r.health.get? p = some .unreachable ↔ os.getLast? = some false) := by
  have hstart : Accurate store p [] (Replica.start store nodeId settings medium) [] := ⟨rfl, rfl, rfl⟩
  obtain ⟨-, r, os, hr', ha⟩ := h.exists_accurate h₀ hr hstart
  refine ⟨r, os, hr', ha.lines ▸ tellsTruly_changes store p os, ?_⟩
  have htrusts := ha.trusts
  rw [trusts] at htrusts
  generalize os.getLast? = last at htrusts
  rcases last with _ | _ | _ <;> simpa using htrusts

/-- Both stores of a node that joins have just started. -/
theorem exists_replica?_join (hc : c.Counted) (spec : NodeSpec) (side : Side) :
    ∃ name medium, ((join spec).run c).2.replica? ⟨c.nextSerial, side⟩ =
      some (Replica.start name spec.id spec.settings medium) := by
  let m := Member.start spec c.nextSerial c.elapsed (.fresh spec.dynamicDurable)
    (.fresh spec.staticDurable)
  have hone : [m].find? (·.serial = c.nextSerial) = some m := by simp [m, Member.start]
  have hat : ((join spec).run c).2.memberAt? c.nextSerial = some m := by
    change ((c.members ++ [m]) ++ c.retired).find? (·.serial = c.nextSerial) = _
    rw [List.find?_append, List.find?_append, hc.find?_nextSerial, hone]
    rfl
  rw [replica?, hat]
  cases side with
  | dynamic => exact ⟨spec.dynamicName, _, rfl⟩
  | static => exact ⟨spec.staticName, _, rfl⟩

end Cluster

end ServiceDirectory
