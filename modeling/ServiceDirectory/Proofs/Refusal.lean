import ServiceDirectory.Proofs.Blame

namespace ServiceDirectory

open Replica

theorem Uuid.code_of_ofRequest {what raw : String} {s : Status}
    (h : Uuid.ofRequest what raw = .error s) : s.code = .invalidArgument ∧ Uuid.parse? raw = none := by
  unfold ofRequest at h
  split at h
  · contradiction
  · rename_i hraw
    cases h
    exact ⟨rfl, hraw⟩

theorem Uuid.ofRequest_eq_ok {what raw : String} {id : Uuid} :
    Uuid.ofRequest what raw = .ok id ↔ Uuid.parse? raw = some id := by
  unfold ofRequest
  split <;> simp_all

namespace Node

variable {α β : Type} {n n' : Node} {now : Instant} {clock : Readings} {s : Status}

/-- Both stores are as they were, and what waits for the peers is what waited. -/
structure Unharmed (n n' : Node) : Prop where
  dynamic : Intact n.dynamic n'.dynamic
  static : Intact n.static n'.static

theorem Unharmed.refl (n : Node) : Unharmed n n := ⟨⟨rfl, rfl⟩, ⟨rfl, rfl⟩⟩

/-- Every service that is shown stands under its own id, and no fault that is due puts it down to the
caller. -/
structure Orderly (now : Instant) (n : Node) : Prop where
  placed : n.dynamic.Placed now
  dynamic : n.dynamic.Unrefusing
  static : n.static.Unrefusing

/-- Where it puts it down to the caller it has changed nothing. -/
def RefusesSafely (now : Instant) (h : Handler α) : Prop :=
  ∀ ⦃n s n'⦄, n.Orderly now → h.run.run n = (.error s, n') → s.code.isRefusal → Unharmed n n'

theorem run_check_of_eq {e x : Except Status α} (h : e = x) (n : Node) :
    (e : Handler α).run.run n = (x, n) := h ▸ run_check e n

theorem refusesSafely_check_bind {e : Except Status α} {g : α → Handler β}
    (hg : ∀ a, RefusesSafely now (g a)) : RefusesSafely now ((e : Handler α) >>= g) := by
  intro n s n' ho h hs
  cases e with
  | error s' =>
    cases h
    exact .refl n
  | ok a => exact hg a ho h hs

theorem refusesSafely_get_bind {g : Node → Handler β} (hg : ∀ m, RefusesSafely now (g m)) :
    RefusesSafely now (get >>= g) := by
  intro n s n' ho h hs
  rw [run_bind (run_get n)] at h
  exact hg n ho h hs

theorem refusesSafely_throw (s : Status) : RefusesSafely now (throw s : Handler α) := by
  intro n s' n' ho h hs
  cases h
  exact .refl n

theorem RefusesSafely.bind_pure {h : Handler α} (hh : RefusesSafely now h) (g : α → β) :
    RefusesSafely now (h >>= fun a => pure (g a)) := by
  intro n s n' ho hrun hs
  rcases error_of_bind hrun with hrun | ⟨a, n₁, -, hrun⟩
  · exact hh ho hrun hs
  · injection congrArg Prod.fst hrun

theorem RefusesSafely.monitored {h : Handler α} (hh : RefusesSafely now h) (kind : RequestKind) :
    RefusesSafely now (monitored kind h) := by
  intro n s n' ho hrun hs
  rcases hop : h.run.run n with ⟨x, n₁⟩
  obtain ⟨stats, log, hm⟩ := exists_run_monitored kind hop
  cases hm.symm.trans hrun
  have hu := hh ho hop hs
  exact ⟨hu.dynamic, hu.static⟩

theorem refusesSafely_atSide {op : Op Replica α} (h : NeverRefuses op) (side : Side) :
    RefusesSafely now (atSide side op) := by
  intro n s n' ho hrun hs
  have hu : (n.replica side).Unrefusing := by
    cases side with
    | dynamic => exact ho.dynamic
    | static => exact ho.static
  rcases hop : op.run.run (n.replica side) with ⟨x, r'⟩
  have hx : x.mapError Failure.toStatus = .error s := by
    have hs' : (op.run.run (n.replica side)).1.mapError Failure.toStatus = .error s :=
      congrArg Prod.fst hrun
    rwa [hop] at hs'
  cases x with
  | ok a => contradiction
  | error f =>
    cases hx
    have hf := (h hu hop).2 f rfl
    exact absurd hs (by simp [Failure.toStatus, hf])

/-! What may be asked of a node. -/

theorem refusesSafely_putBy (maxAge : Span) (node : Uuid) (a : NodeAnnouncement) :
    RefusesSafely now (atSide .dynamic (DynamicView.putBy clock maxAge node a)) := by
  cases hf : a.flaw? with
  | some flaw =>
    intro n s n' ho h hs
    rw [run_atDynamic (DynamicView.run_putBy_of_flaw hf clock maxAge node n.dynamic)] at h
    cases h
    exact .refl n
  | none => exact refusesSafely_atSide (DynamicView.neverRefuses_putBy hf clock maxAge node) .dynamic

theorem refusesSafely_announceBy (req : AnnounceRequest) :
    RefusesSafely now (announceBy clock req) := by
  refine RefusesSafely.monitored ?_ .announce
  refine refusesSafely_check_bind fun node => refusesSafely_get_bind fun m => ?_
  refine refusesSafely_check_bind fun _ => refusesSafely_check_bind fun services => ?_
  exact refusesSafely_get_bind fun m => refusesSafely_putBy m.dynamicMaxAge node _

/-- A service that the node of that id offers when its withdrawal begins does not outlast it. -/
def Lapses (clock : Readings) (n : Node) (nodeId : String) : Prop :=
  ∃ node, Uuid.parse? nodeId = some node ∧ DynamicView.Lapses clock node n.dynamic

theorem unharmed_or_lapses {nodeId : String} (ho : n.Orderly (clock 0))
    (h : (withdrawBy clock nodeId).run.run n = (.error s, n')) (hs : s.code.isRefusal) :
    Unharmed n n' ∨ n.Lapses clock nodeId := by
  cases hid : Uuid.ofRequest "node_id" nodeId with
  | error s' =>
    obtain ⟨stats, log, hrun⟩ := exists_run_monitored .withdraw
      (run_bind_error (run_check_of_eq hid n))
    cases hrun.symm.trans h
    exact .inl ⟨⟨rfl, rfl⟩, ⟨rfl, rfl⟩⟩
  | ok node =>
    rcases hop : (DynamicView.deleteBy clock node).run.run n.dynamic with ⟨x, r'⟩
    have hat := run_atDynamic hop
    have hcheck := run_check_of_eq hid n
    cases x with
    | error f =>
      have hsafe : RefusesSafely (clock 0) (atSide .dynamic (DynamicView.deleteBy clock node)) :=
        refusesSafely_atSide (DynamicView.inherits_deleteBy pervasive_neverRefuses clock node) .dynamic
      obtain ⟨stats, log, hrun⟩ : ∃ stats log, (withdrawBy clock nodeId).run.run n = (_, _) :=
        exists_run_monitored .withdraw <| (run_bind hcheck).trans (run_bind_error hat)
      cases hrun.symm.trans h
      have hu := hsafe ho hat hs
      exact .inl ⟨hu.dynamic, hu.static⟩
    | ok found =>
      cases found with
      | true =>
        obtain ⟨stats, log, hrun⟩ : ∃ stats log, (withdrawBy clock nodeId).run.run n = (.ok (), _) :=
          exists_run_monitored .withdraw <| (run_bind hcheck).trans <| (run_bind hat).trans rfl
        injection congrArg Prod.fst (hrun.symm.trans h)
      | false =>
        obtain ⟨stats, log, hrun⟩ : ∃ stats log, (withdrawBy clock nodeId).run.run n = (.error _, _) :=
          exists_run_monitored .withdraw <| (run_bind hcheck).trans <| (run_bind hat).trans rfl
        cases hrun.symm.trans h
        rcases DynamicView.intact_or_lapses ho.placed hop with hintact | hlapses
        · exact .inl ⟨hintact, ⟨rfl, rfl⟩⟩
        · exact .inr ⟨node, Uuid.ofRequest_eq_ok.mp hid, hlapses⟩

theorem refusesSafely_register (fresh : Uuid) (req : Registration) :
    RefusesSafely now (register now fresh req) := by
  refine RefusesSafely.monitored ?_ .register
  refine refusesSafely_get_bind fun m => refusesSafely_check_bind fun _ => ?_
  cases hf : req.flaw? with
  | some flaw => exact refusesSafely_throw _
  | none =>
    exact (refusesSafely_atSide (StaticView.inherits_put pervasive_neverRefuses now _) .static).bind_pure fun _ => _

theorem refusesSafely_listRegistered : RefusesSafely now (listRegistered now) :=
  (refusesSafely_atSide (StaticView.inherits_all pervasive_neverRefuses.toHereditary now) .static).monitored .listRegistered

theorem refusesSafely_unregisterBy (raw : String) : RefusesSafely now (unregisterBy clock raw) :=
  (refusesSafely_check_bind fun _ =>
    refusesSafely_atSide (pervasive_neverRefuses.deleteBy clock _) .static).monitored .unregister

theorem refusesSafely_both {dynamic static : Op Replica (List Service)}
    (hd : NeverRefuses dynamic) (hs : NeverRefuses static) :
    RefusesSafely now (both dynamic static) := by
  intro n s n' ho h href
  rcases hdrun : dynamic.run.run n.dynamic with ⟨x, r₁⟩
  rcases hsrun : static.run.run n.static with ⟨y, r₂⟩
  rw [run_both hdrun hsrun] at h
  have hx := (hd ho.dynamic hdrun).2
  have hy := (hs ho.static hsrun).2
  cases x with
  | error f =>
    cases h
    exact absurd href (by simp [Failure.toStatus, hx f rfl])
  | ok ds =>
    cases y with
    | error f =>
      cases h
      exact absurd href (by simp [Failure.toStatus, hy f rfl])
    | ok ss => injection congrArg Prod.fst h

theorem refusesSafely_queryBy (req : QueryRequest) : RefusesSafely now (queryBy clock req) := by
  refine RefusesSafely.monitored ?_ .query
  have hP := pervasive_neverRefuses.toHereditary
  dsimp only
  cases req.kind.filter (· ≠ "") with
  | none =>
    exact (refusesSafely_both (DynamicView.inherits_all hP (clock 0))
      (StaticView.inherits_all hP (clock 1))).bind_pure _
  | some kind =>
    exact refusesSafely_both (DynamicView.inherits_ofKind hP (clock 0) kind _)
      (StaticView.inherits_ofKind hP (clock 1) kind _)

/-- A request, with the id that a registration is given. -/
inductive Request
  | announce (req : AnnounceRequest)
  | withdraw (nodeId : String)
  | register (fresh : Uuid) (req : Registration)
  | listRegistered
  | unregister (raw : String)
  | query (req : QueryRequest)

/-- Serves a request, by what the clock shows as it goes on; what it answers with is left out unless
it is a status. -/
def Request.serveBy (clock : Readings) : Request → Handler Unit
  | announce req => do discard <| announceBy clock req
  | withdraw nodeId => withdrawBy clock nodeId
  | register fresh req => do discard <| Node.register (clock 0) fresh req
  | listRegistered => do discard <| Node.listRegistered (clock 0)
  | unregister raw => do discard <| unregisterBy clock raw
  | query req => do discard <| queryBy clock req

/-- Serves a request while the clock stands still. -/
def Request.serve (now : Instant) : Request → Handler Unit := serveBy (.still now)

theorem Request.unharmed_or_lapses {q : Request} (ho : n.Orderly (clock 0))
    (h : (q.serveBy clock).run.run n = (.error s, n')) (hs : s.code.isRefusal) :
    Unharmed n n' ∨ ∃ nodeId, q = .withdraw nodeId ∧ n.Lapses clock nodeId := by
  have hsafe {op : Handler Unit} (hop : RefusesSafely (clock 0) op)
      (hrun : op.run.run n = (.error s, n')) :
      Unharmed n n' ∨ ∃ nodeId, q = .withdraw nodeId ∧ n.Lapses clock nodeId := .inl (hop ho hrun hs)
  cases q with
  | announce req => exact hsafe ((refusesSafely_announceBy req).bind_pure _) h
  | withdraw nodeId =>
    exact (Node.unharmed_or_lapses ho h hs).imp_right fun hlapses => ⟨nodeId, rfl, hlapses⟩
  | register fresh req => exact hsafe ((refusesSafely_register fresh req).bind_pure _) h
  | listRegistered => exact hsafe (refusesSafely_listRegistered.bind_pure _) h
  | unregister raw => exact hsafe ((refusesSafely_unregisterBy raw).bind_pure _) h
  | query req => exact hsafe ((refusesSafely_queryBy req).bind_pure _) h

/-! Which announcements are refused as invalid. -/

end Node

/-- The services of an announcement can be read where all their ids can. -/
theorem OfferRequest.mapM_toOffer (reqs : List OfferRequest) :
    (∃ offers, reqs.mapM toOffer = .ok offers ∧ ∀ o ∈ reqs, ∃ id, Uuid.parse? o.id = some id) ∨
      ∃ s, reqs.mapM toOffer = .error s ∧ s.code = .invalidArgument ∧
        ∃ o ∈ reqs, Uuid.parse? o.id = none := by
  induction reqs with
  | nil => exact .inl ⟨[], rfl, by simp⟩
  | cons o reqs ih =>
    rw [List.mapM_cons]
    cases hid : Uuid.ofRequest "service id" o.id with
    | error s =>
      obtain ⟨hs, hnone⟩ := Uuid.code_of_ofRequest hid
      exact .inr ⟨s, by rw [toOffer, hid]; rfl, hs, o, by simp, hnone⟩
    | ok id =>
      have ho : toOffer o = .ok ⟨id, o.kind, o.properties⟩ := by
        rw [toOffer, hid]
        rfl
      rw [ho]
      rcases ih with ⟨offers, hoffers, hids⟩ | ⟨s, herr, hs, o', ho', hnone⟩
      · refine .inl ⟨⟨id, o.kind, o.properties⟩ :: offers, by rw [hoffers]; rfl, ?_⟩
        exact List.forall_mem_cons.mpr ⟨⟨id, Uuid.ofRequest_eq_ok.mp hid⟩, hids⟩
      · exact .inr ⟨s, by rw [herr]; rfl, hs, o', List.mem_cons_of_mem o ho', hnone⟩

/-- What a node announces by a request of which the services have been read. -/
def AnnounceRequest.toAnnouncement (req : AnnounceRequest) (offers : List Offer) : NodeAnnouncement where
  environment := req.environment
  pool := req.pool
  location := req.location
  services := offers

/-- An announcement for this environment, of which the ids can be read and the rest passes the check. -/
structure AnnounceRequest.Valid (n : Node) (req : AnnounceRequest) : Prop where
  environment : req.environment = n.environment
  nodeId : ∃ node, Uuid.parse? req.nodeId = some node
  ids : ∀ o ∈ req.services, ∃ id, Uuid.parse? o.id = some id
  payload : ∀ offers, req.services.mapM OfferRequest.toOffer = .ok offers →
    (req.toAnnouncement offers).flaw? = none

namespace Node

variable {n n' : Node} {now : Instant} {clock : Readings} {s : Status} {req : AnnounceRequest}

/-- An announcement is refused as invalid at its first defect, and else answered by the store. -/
inductive Announced (clock : Readings) (req : AnnounceRequest) (n : Node) : Prop
  | refused (s : Status) (hs : s.code = .invalidArgument) (hv : ¬ req.Valid n) (n' : Node)
      (h : (announceBy clock req).run.run n = (.error s, n'))
  | valid (hv : req.Valid n) (node : Uuid) (a : NodeAnnouncement) (hf : a.flaw? = none) (n' : Node)
      (h : (announceBy clock req).run.run n = (((DynamicView.putBy clock n.dynamicMaxAge node a).run.run
        n.dynamic).1.mapError Failure.toStatus, n'))

theorem run_checkEnvironment_of_ne (he : req.environment ≠ n.environment) :
    ∃ s : Status, s.code = .invalidArgument ∧
      (checkEnvironment n req.environment : Handler Unit).run.run n = (.error s, n) :=
  ⟨_, rfl, run_check_of_eq (if_neg he) n⟩

/-- Where all can be read the store has the word. -/
theorem exists_run_announce {node : Uuid} {offers : List Offer}
    (hid : Uuid.ofRequest "node_id" req.nodeId = .ok node) (he : req.environment = n.environment)
    (hoffers : req.services.mapM OfferRequest.toOffer = .ok offers) :
    ∃ n', (announceBy clock req).run.run n = (((DynamicView.putBy clock n.dynamicMaxAge node
      (req.toAnnouncement offers)).run.run n.dynamic).1.mapError Failure.toStatus, n') := by
  have henv : n.checkEnvironment req.environment = .ok () := if_pos he
  have hput := run_atDynamic (Prod.mk.eta (p := (DynamicView.putBy clock n.dynamicMaxAge node
    (req.toAnnouncement offers)).run.run n.dynamic)).symm
  obtain ⟨stats, log, hrun⟩ : ∃ stats log, (announceBy clock req).run.run n = (_, _) :=
    exists_run_monitored .announce <| (run_bind (run_check_of_eq hid n)).trans <|
      (run_bind (run_get n)).trans <| (run_bind (run_check_of_eq henv n)).trans <|
      (run_bind (run_check_of_eq hoffers n)).trans <| (run_bind (run_get n)).trans hput
  exact ⟨_, hrun⟩

theorem announced (clock : Readings) (req : AnnounceRequest) (n : Node) : Announced clock req n := by
  -- the cases stand in the order in which the defects are looked for
  cases hid : Uuid.ofRequest "node_id" req.nodeId with
  | error s =>
    obtain ⟨hs, hnone⟩ := Uuid.code_of_ofRequest hid
    have hv : ¬ req.Valid n := fun hv => by
      obtain ⟨node, hnode⟩ := hv.nodeId
      simp [hnone] at hnode
    obtain ⟨stats, log, hrun⟩ := exists_run_monitored .announce <|
      run_bind_error (run_check_of_eq hid n)
    exact .refused s hs hv _ hrun
  | ok node =>
    by_cases he : req.environment = n.environment
    · have henv : n.checkEnvironment req.environment = .ok () := if_pos he
      rcases OfferRequest.mapM_toOffer req.services with
        ⟨offers, hoffers, hids⟩ | ⟨s, herr, hs, o, ho, hnone⟩
      · obtain ⟨n', hrun⟩ : ∃ n', (announceBy clock req).run.run n = (_, n') :=
          exists_run_announce hid he hoffers
        cases hf : (req.toAnnouncement offers).flaw? with
        | some flaw =>
          have hv : ¬ req.Valid n := fun hv => by
            have hnone := hv.payload offers hoffers
            simp [hf] at hnone
          rw [DynamicView.run_putBy_of_flaw hf] at hrun
          exact .refused flaw.toFailure.toStatus rfl hv n' hrun
        | none =>
          have hv : req.Valid n := {
            environment := he
            nodeId := ⟨node, Uuid.ofRequest_eq_ok.mp hid⟩
            ids := hids
            payload := fun offers' h => Except.ok.inj (hoffers.symm.trans h) ▸ hf }
          exact .valid hv node _ hf n' hrun
      · have hv : ¬ req.Valid n := fun hv => by
          obtain ⟨id, hid⟩ := hv.ids o ho
          simp [hnone] at hid
        obtain ⟨stats, log, hrun⟩ : ∃ stats log, (announceBy clock req).run.run n = (.error s, _) :=
          exists_run_monitored .announce <| (run_bind (run_check_of_eq hid n)).trans <|
            (run_bind (run_get n)).trans <| (run_bind (run_check_of_eq henv n)).trans <|
            run_bind_error (run_check_of_eq herr n)
        exact .refused s hs hv _ hrun
    · obtain ⟨s, hs, henv⟩ := run_checkEnvironment_of_ne he
      obtain ⟨stats, log, hrun⟩ : ∃ stats log, (announceBy clock req).run.run n = (.error s, _) :=
        exists_run_monitored .announce <| (run_bind (run_check_of_eq hid n)).trans <|
          (run_bind (run_get n)).trans <| run_bind_error henv
      exact .refused s hs (fun hv => he hv.environment) _ hrun

/-- A request is not called invalid, whatever else comes of it. -/
def Accepts {α : Type} (h : Handler α) (n : Node) : Prop :=
  ∀ s n', h.run.run n = (.error s, n') → s.code ≠ .invalidArgument

theorem accepts_announce_iff (hn : n.dynamic.Unrefusing) :
    Accepts (announceBy clock req) n ↔ req.Valid n := by
  cases announced clock req n with
  | refused s hs hv n' h => exact iff_of_false (fun ha => ha s n' h hs) hv
  | valid hv node a hf n' h =>
    refine iff_of_true (fun s n'' h' => ?_) hv
    rcases hput : (DynamicView.putBy clock n.dynamicMaxAge node a).run.run n.dynamic with ⟨x, r'⟩
    have hx : x.mapError Failure.toStatus = .error s := by
      rw [hput] at h
      exact congrArg Prod.fst (h.symm.trans h')
    cases x with
    | ok ss => contradiction
    | error f =>
      cases hx
      exact Failure.code_toStatus_ne (((DynamicView.neverRefuses_putBy hf clock _ node) hn hput).2 f rfl)

section Registering

variable {fresh : Uuid} {reg : Registration}

theorem exists_run_register_of_failure {f : Failure} {r' : Replica}
    (he : reg.environment = n.environment) (hf : reg.flaw? = none)
    (hput : (StaticView.put now (reg.toService fresh)).run.run n.static = (.error f, r')) :
    ∃ stats log, (register now fresh reg).run.run n =
      (.error f.toStatus, { n with static := r', stats, log }) := by
  refine exists_run_monitored .register (show _ = (_, { n with static := r' }) from ?_)
  rw [run_bind (run_get n), run_bind (run_checkEnvironment he), hf]
  exact run_bind_error (run_atStatic hput)

theorem accepts_register_iff (hn : n.static.Unrefusing) :
    Accepts (register now fresh reg) n ↔ reg.environment = n.environment ∧ reg.flaw? = none := by
  constructor
  · intro ha
    have he : reg.environment = n.environment := by
      by_contra he
      have henv : n.checkEnvironment reg.environment = .error _ := if_neg he
      obtain ⟨stats, log, hrun⟩ := exists_run_register_of_error now fresh henv
      exact ha _ _ hrun rfl
    refine ⟨he, ?_⟩
    rw [Option.eq_none_iff_forall_ne_some]
    intro flaw hf
    obtain ⟨stats, log, hrun⟩ := exists_run_register_of_flaw now fresh he hf
    exact ha _ _ hrun rfl
  · rintro ⟨he, hf⟩ s n' h
    rcases hput : (StaticView.put now (reg.toService fresh)).run.run n.static with ⟨x, r'⟩
    cases x with
    | ok u =>
      obtain ⟨stats, log, hrun⟩ := exists_run_register he hf hput
      injection congrArg Prod.fst (hrun.symm.trans h)
    | error f =>
      obtain ⟨stats, log, hrun⟩ := exists_run_register_of_failure he hf hput
      cases hrun.symm.trans h
      exact Failure.code_toStatus_ne (((StaticView.inherits_put pervasive_neverRefuses now _) hn hput).2 f rfl)

end Registering

/-- What is answered with a refusal has changed nothing. -/
def Harmless (clock : Readings) (n : Node) : Prop :=
  ∀ q s n', (Request.serveBy clock q).run.run n = (.error s, n') →
    s.code = .invalidArgument ∨ s.code = .notFound → Unharmed n n'

/-- A request that is put down to the caller changes nothing, unless it withdraws services of which
one lapses meanwhile; and an announcement or a registration is invalid where its environment, its ids
or its payload are and nowhere else. The clock is read anew at each step of a request and may show
anything. Engines that put their own failures down to the caller are left out. -/
theorem refusals_change_nothing (clock : Readings) (ho : n.Orderly (clock 0)) :
    (∀ q s n', (Request.serveBy clock q).run.run n = (.error s, n') →
      s.code = .invalidArgument ∨ s.code = .notFound →
      Unharmed n n' ∨ ∃ nodeId, q = .withdraw nodeId ∧ n.Lapses clock nodeId) ∧
    (∀ req, Accepts (announceBy clock req) n ↔ req.Valid n) ∧
    ∀ fresh reg, Accepts (register (clock 0) fresh reg) n ↔
      reg.environment = n.environment ∧ reg.flaw? = none := by
  refine ⟨fun q s n' h hs => ?_, fun req => accepts_announce_iff ho.dynamic, fun fresh reg =>
    accepts_register_iff ho.static⟩
  refine Request.unharmed_or_lapses ho h ?_
  rcases hs with hs | hs <;> rw [hs] <;> rfl

/-- Shown are services that no node offers, each under its own id. -/
theorem shown_fair {k : Bytes} {t : Service} (hat : fair.dynamic.serviceAt now k = some t) :
    t.key = k ∧ t.nodeId = none := by
  obtain ⟨e, hheld, -, ht⟩ := Replica.serviceAt_eq_some_iff.mp hat
  have hall : ∀ row ∈ fairEntries.rows, row.2.value = none ∨ row.2.value = some [49] ∨
      ∃ u ∈ [stand 1 "api" "main", stand 2 "api" "main", stand 3 "web" "main"],
        u.key = row.1 ∧ u.nodeId = none ∧ row.2.value = some u.encode := by decide +kernel
  rcases hall (k, e) (Table.get?_eq_some_iff.mp hheld) with hv | hv | ⟨u, -, hkey, hnode, hv⟩
  · rw [Entry.service?, hv] at ht
    contradiction
  · have hnone : Service.decode? [49] = none := by decide +kernel
    rw [Entry.service?, hv] at ht
    exact absurd (hnone.symm.trans ht) (by simp)
  · rw [Entry.service?_of_value hv] at ht
    cases ht
    exact ⟨hkey, hnode⟩

/-- A clock that goes on by a millisecond each time it is read. -/
def ticking : Readings := fun i => 1000 + .ofNat i

theorem orderly_fair : fair.Orderly (ticking 0) where
  placed _ _ hat := (shown_fair hat).1
  dynamic := by rintro φ ⟨⟩
  static := by rintro φ ⟨⟩

/-- Two services of which the second lacks a type. -/
def untyped : AnnounceRequest where
  nodeId := (repeated 9).text
  environment := "test"
  pool := "main"
  location := none
  services := [⟨(repeated 1).text, "api", .empty⟩, ⟨(repeated 2).text, "", .empty⟩]

/-- The first of them is not stored either; and a node that has announced nothing is not found. -/
theorem refusals_change_nothing_fair : ∃ s₁ n₁ s₂ n₂, fair.Orderly (ticking 0) ∧
    (Request.serveBy ticking (.announce untyped)).run.run fair = (.error s₁, n₁) ∧
    s₁.code = .invalidArgument ∧ Unharmed fair n₁ ∧ ¬ untyped.Valid fair ∧
    (Request.serveBy ticking (.withdraw (repeated 8).text)).run.run fair = (.error s₂, n₂) ∧
    s₂.code = .notFound ∧ Unharmed fair n₂ := by
  obtain ⟨hsafe, hannounce, -⟩ := refusals_change_nothing ticking orderly_fair
  have h₁ : (Request.serveBy ticking (.announce untyped)).run.run fair =
      (.error (Announcement.Flaw.serviceWithoutKind (repeated 2)).toFailure.toStatus, _) :=
    Prod.ext (by decide +kernel) rfl
  have h₂ : (Request.serveBy ticking (.withdraw (repeated 8).text)).run.run fair =
      (.error ⟨.notFound, "no announcement for node " ++ (repeated 8).text⟩, _) :=
    Prod.ext (by decide +kernel) rfl
  have hv : ¬ untyped.Valid fair := fun hv => by
    have hann : (announceBy ticking untyped).run.run fair = (.error
        (Announcement.Flaw.serviceWithoutKind (repeated 2)).toFailure.toStatus, _) :=
      Prod.ext (by decide +kernel) rfl
    exact (hannounce untyped).mpr hv _ _ hann rfl
  have hstays (nodeId : String) : ¬ fair.Lapses ticking nodeId := by
    rintro ⟨node, -, k, t, hat, hnode, -⟩
    rw [(shown_fair hat).2] at hnode
    cases hnode
  refine ⟨_, _, _, _, orderly_fair, h₁, rfl, ?_, hv, h₂, rfl, ?_⟩
  · exact (hsafe _ _ _ h₁ (.inl rfl)).resolve_right fun ⟨_, hq, _⟩ => nomatch hq
  · exact (hsafe _ _ _ h₂ (.inr rfl)).resolve_right fun ⟨nodeId, _, hl⟩ => hstays nodeId hl

/-! Where a refusal does harm. -/

/-- A service that a node offers. -/
def offered : Service := { stand 1 "api" "main" with nodeId := some (repeated 9) }

/-- A node that holds it for ten milliseconds. -/
def passing : Node :=
  { fair with dynamic := { Replica.infant "a" with
      engine := { medium := .volatile (.ofList [(offered.key, posted 100 (some 10) offered)]) } } }

/-- Its last millisecond, and from the third reading on the next. -/
def lapsing : Readings := fun i => if i < 2 then 109 else 110

theorem placed_passing : passing.dynamic.Placed (lapsing 0) := by
  intro k t hat
  obtain ⟨e, hheld, -, ht⟩ := Replica.serviceAt_eq_some_iff.mp hat
  have hrow : (k, e) ∈ [(offered.key, posted 100 (some 10) offered)] := Table.get?_eq_some_iff.mp hheld
  cases List.mem_singleton.mp hrow
  rw [Entry.service?_of_value rfl] at ht
  cases ht
  rfl

/-- A node of which the second write from now on is refused by the engine. -/
def choosy : Node :=
  { fair with dynamic := { fair.dynamic with
      engine := { fair.dynamic.engine with faults := [⟨.put, .invalidArgument "no room", 1, 1⟩] } } }

def typed : AnnounceRequest :=
  { untyped with
    services := [⟨(repeated 1).text, "api", .empty⟩, ⟨(repeated 2).text, "web", .empty⟩] }

/-- A refusal that leaves more or less to be pushed than before does harm. -/
theorem not_harmless_of_length_ne {q : Request}
    (hrun : (Request.serveBy clock q).run.run n = (.error s, n'))
    (hs : s.code = .invalidArgument ∨ s.code = .notFound)
    (hne : n'.dynamic.outbox.waiting.length ≠ n.dynamic.outbox.waiting.length) :
    ¬ Harmless clock n := by
  intro h
  rw [(h q s n' hrun hs).dynamic.outbox] at hne
  exact hne rfl

/-- The clock may pass a lifetime while the service is withdrawn, which is then not found though its
tombstone was stored and queued; and a valid announcement is called invalid in the middle where the
engine's own failure says so. -/
theorem not_harmless : (passing.dynamic.Placed (lapsing 0) ∧ ¬ Harmless lapsing passing) ∧
    choosy.dynamic.Placed 1000 ∧ ¬ Harmless (.still 1000) choosy := by
  have hwithdraw : (Request.serveBy lapsing (.withdraw (repeated 9).text)).run.run passing =
      (.error ⟨.notFound, "no announcement for node " ++ (repeated 9).text⟩, _) :=
    Prod.ext (by decide +kernel) rfl
  have hannounce : (Request.serveBy (.still 1000) (.announce typed)).run.run choosy =
      (.error (Failure.invalidArgument "no room").toStatus, _) :=
    Prod.ext (by decide +kernel) rfl
  refine ⟨⟨placed_passing, ?_⟩, fun k t hat => (shown_fair hat).1, ?_⟩
  · exact not_harmless_of_length_ne hwithdraw (.inr rfl) (by decide +kernel)
  · exact not_harmless_of_length_ne hannounce (.inl rfl) (by decide +kernel)

end Node

end ServiceDirectory
