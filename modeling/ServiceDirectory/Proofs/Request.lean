import ServiceDirectory.Proofs.Listing
import ServiceDirectory.Request

namespace ServiceDirectory.Node

variable {α : Type} {n n' : Node} {r' : Replica} {now : Instant} {fresh id : Uuid}
  {req : Registration} {raw : String} {x : Except Status α} {status : Status}

/-- Being counted changes nothing but the counters and the log. -/
theorem exists_run_monitored (kind : RequestKind) {h : Handler α} (hrun : h.run.run n = (x, n')) :
    ∃ stats log, (monitored kind h).run.run n = (x, { n' with stats, log }) := by
  simp only [StateT.run] at hrun
  simp only [monitored, ExceptT.run_mk, StateT.run, hrun]
  exact ⟨_, _, rfl⟩

theorem run_atStatic {op : Op Replica α} {y : Except Failure α} (h : op.run.run n.static = (y, r')) :
    (atSide .static op).run.run n = (y.mapError Failure.toStatus, { n with static := r' }) := by
  change ((op.run.run n.static).1.mapError _, { n with static := (op.run.run n.static).2 }) = _
  rw [h]

theorem run_atDynamic {op : Op Replica α} {y : Except Failure α}
    (h : op.run.run n.dynamic = (y, r')) :
    (atSide .dynamic op).run.run n = (y.mapError Failure.toStatus, { n with dynamic := r' }) := by
  change ((op.run.run n.dynamic).1.mapError _, { n with dynamic := (op.run.run n.dynamic).2 }) = _
  rw [h]

theorem run_check (e : Except Status α) (n : Node) : (e : Handler α).run.run n = (e, n) := by
  cases e <;> rfl

theorem run_checkEnvironment (he : req.environment = n.environment) :
    (checkEnvironment n req.environment : Handler Unit).run.run n = (.ok (), n) := by
  rw [checkEnvironment, if_pos he]
  rfl

/-- A valid registration stores the service that it answers with. -/
theorem exists_run_register (he : req.environment = n.environment) (hf : req.flaw? = none)
    (hput : (StaticView.put now (req.toService fresh)).run.run n.static = (.ok (), r')) :
    ∃ stats log, (register now fresh req).run.run n =
      (.ok (req.toService fresh), { n with static := r', stats, log }) := by
  refine exists_run_monitored .register (show _ = (_, { n with static := r' }) from ?_)
  rw [run_bind (run_get n), run_bind (run_checkEnvironment he), hf]
  have hat : (atSide .static (StaticView.put now (req.toService fresh))).run.run n =
      (.ok (), { n with static := r' }) := run_atStatic hput
  rw [run_bind hat]
  rfl

/-- A registration for another environment leaves the stores alone. -/
theorem exists_run_register_of_error (now : Instant) (fresh : Uuid)
    (he : n.checkEnvironment req.environment = .error status) :
    ∃ stats log, (register now fresh req).run.run n = (.error status, { n with stats, log }) := by
  refine exists_run_monitored .register ?_
  rw [run_bind (run_get n), he]
  rfl

/-- So does one that lacks something. -/
theorem exists_run_register_of_flaw {flaw : Announcement.Flaw} (now : Instant) (fresh : Uuid)
    (he : req.environment = n.environment) (hf : req.flaw? = some flaw) : ∃ stats log,
    (register now fresh req).run.run n =
      (.error flaw.toFailure.toStatus, { n with stats, log }) := by
  refine exists_run_monitored .register ?_
  rw [run_bind (run_get n), run_bind (run_checkEnvironment he), hf]
  rfl

theorem exists_run_unregister {found : Bool} (hid : Uuid.parse? raw = some id)
    (hdelete : (StaticView.delete now id).run.run n.static = (.ok found, r')) :
    ∃ stats log, (unregister now raw).run.run n = (.ok found, { n with static := r', stats, log }) := by
  rw [unregister, unregisterBy]
  refine exists_run_monitored .unregister (show _ = (_, { n with static := r' }) from ?_)
  have hread : (Uuid.ofRequest "id" raw : Handler Uuid).run.run n = (.ok id, n) := by
    rw [Uuid.ofRequest, hid]
    rfl
  rw [run_bind hread]
  exact run_atStatic hdelete

theorem exists_run_unregister_of_error (now : Instant)
    (hid : Uuid.ofRequest "id" raw = .error status) :
    ∃ stats log, (unregister now raw).run.run n = (.error status, { n with stats, log }) := by
  rw [unregister, unregisterBy]
  refine exists_run_monitored .unregister ?_
  rw [hid]
  rfl

theorem exists_run_listRegistered {y : Except Failure (List Service)}
    (hall : (StaticView.all now).run.run n.static = (y, r')) : ∃ stats log,
    (listRegistered now).run.run n =
      (y.mapError Failure.toStatus, { n with static := r', stats, log }) :=
  exists_run_monitored .listRegistered (run_atStatic hall)

end ServiceDirectory.Node
