import ServiceDirectory.Proofs.Refusal
import ServiceDirectory.Proofs.Wire

namespace ServiceDirectory

/-! What a step of a store leaves as it was. -/

/-- However it ends, `g` of the state is what it was. -/
def Preserves {ε σ α γ : Type} (g : σ → γ) (op : ExceptT ε (StateM σ) α) : Prop :=
  ∀ s, g (op.run.run s).2 = g s

section Preserves

variable {ε σ α β γ : Type} {g : σ → γ} {op : ExceptT ε (StateM σ) α}
  {f : α → ExceptT ε (StateM σ) β}

theorem preserves_pure (a : α) : Preserves g (pure a : ExceptT ε (StateM σ) α) := fun _ => rfl

theorem preserves_throw (e : ε) : Preserves g (throw e : ExceptT ε (StateM σ) α) := fun _ => rfl

theorem preserves_modify {f : σ → σ} (hf : ∀ s, g (f s) = g s) :
    Preserves g (modify f : ExceptT ε (StateM σ) PUnit) := hf

theorem preserves_ofExcept (x : Except ε α) :
    Preserves g (MonadExcept.ofExcept x : ExceptT ε (StateM σ) α) := by
  cases x with
  | error e => exact preserves_throw e
  | ok a => exact preserves_pure a

theorem Preserves.bind (h : Preserves g op) (hf : ∀ a, Preserves g (f a)) :
    Preserves g (op >>= f) := by
  intro s
  have hs := h s
  rcases hop : op.run.run s with ⟨x, s'⟩
  rw [hop] at hs
  cases x with
  | error x =>
    rw [run_bind_error hop]
    exact hs
  | ok a =>
    rw [run_bind hop]
    exact (hf a s').trans hs

theorem Preserves.bind_pure (h : Preserves g op) (f : α → β) :
    Preserves g (op >>= fun a => pure (f a)) := h.bind fun a => preserves_pure (f a)

theorem preserves_get_bind {f : σ → ExceptT ε (StateM σ) β} (hf : ∀ s, Preserves g (f s)) :
    Preserves g (get >>= f) := by
  intro s
  rw [run_bind (run_get s)]
  exact hf s s

end Preserves

theorem Engine.isTiding_of_mem_sweepOnce {n : Engine} {now : Instant} {d : Span} {e : Event}
    (h : e ∈ (n.sweepOnce now d).2.1) : e.isTiding = false := by
  unfold sweepOnce at h
  split at h
  · rcases List.mem_append.mp h with h | h
    · rw [List.eq_of_mem_replicate h]
      rfl
    · split_ifs at h
      · rw [List.mem_singleton.mp h]
        rfl
      · contradiction
  · rw [List.mem_singleton.mp h]
    rfl

namespace Replica

variable {γ : Type} {g : Replica → γ}

/-- It shows nothing of the engine, and of what is reported at most what becomes of the peers. -/
structure Blind (g : Replica → γ) : Prop where
  engine (r : Replica) (n : Engine) : g { r with engine := n } = g r
  emit (r : Replica) {e : Event} (he : e.isTiding = false) : g (r.emit e) = g r

/-- Nor anything of what is queued. -/
structure Aloof (g : Replica → γ) : Prop extends Blind g where
  enqueue (r : Replica) (e : Entry) : g (r.enqueue e) = g r

namespace Blind

theorem emitAll (hg : Blind g) {es : List Event} (hes : ∀ e ∈ es, e.isTiding = false) (r : Replica) :
    g (r.emitAll es) = g r := by
  induction es generalizing r with
  | nil => rw [Replica.emitAll, List.append_nil]
  | cons e es ih =>
    have hcons : r.emitAll (e :: es) = (r.emit e).emitAll es := by
      simp only [Replica.emitAll, Replica.emit, List.append_assoc, List.singleton_append]
    rw [hcons, ih fun x hx => hes x (List.mem_cons_of_mem e hx), hg.emit r (hes e List.mem_cons_self)]

theorem onEngine (hg : Blind g) (op : Op Engine α) : Preserves g (onEngine op) :=
  fun r => hg.engine r _

theorem hereditary (hg : Blind g) : Hereditary fun op => Preserves g op where
  pure := preserves_pure
  bind h hf := h.bind hf
  get_bind hf _ := preserves_get_bind hf
  engineGet _ := hg.onEngine _
  engineGetAll := hg.onEngine _
  enginePut _ := hg.onEngine _
  emitAll hes := preserves_modify (hg.emitAll hes)

theorem absorb (hg : Blind g) (now : Instant) (peer : String) (pulled : Except Failure (List Entry))
    (r : Replica) : g ((absorb now peer pulled).run.run r).2 = g (r.recordPeer peer pulled.isOk) := by
  cases pulled with
  | ok batch => exact hg.hereditary.mergeFrom now {} batch _
  | error f =>
    rw [run_absorb_error]
    rfl

theorem sweepOnce (hg : Blind g) (now : Instant) (r : Replica) : g (r.sweepOnce now) = g r := by
  have hengine := hg.engine r (r.engine.sweepOnce now r.settings.tombstoneMaxAge).2.2
  exact (hg.emitAll (fun e he => Engine.isTiding_of_mem_sweepOnce he) _).trans hengine

end Blind

theorem Aloof.pervasive (hg : Aloof g) : Pervasive fun op => Preserves g op where
  toHereditary := hg.hereditary
  enqueue e := preserves_modify fun r => hg.enqueue r e

end Replica

open Replica

theorem DynamicView.preserves_putBy {γ : Type} {g : Replica → γ} (hg : Aloof g) (clock : Readings)
    (maxAge : Span) (node : Uuid) (a : NodeAnnouncement) : Preserves g (putBy clock maxAge node a) := by
  refine inherits_putBy hg.pervasive clock maxAge node fun flaw h r => ?_
  rw [run_putBy_of_flaw h]

namespace Node

variable {α γ : Type} {g : Replica → γ} {n : Node}

theorem replica_setReplica (n : Node) (side side' : Side) (r : Replica) :
    (n.setReplica side r).replica side' = if side = side' then r else n.replica side' := by
  cases side <;> cases side' <;> rfl

/-- Another replica of which `g` is the same. -/
theorem apply_setReplica {side : Side} {r : Replica} (h : g r = g (n.replica side)) (side' : Side) :
    g ((n.setReplica side r).replica side') = g (n.replica side') := by
  rw [replica_setReplica]
  split_ifs with hs
  · rw [h, hs]
  · rfl

theorem preserves_atSide {op : Op Replica α} (h : Preserves g op) (side side' : Side) :
    Preserves (fun n => g (n.replica side')) (atSide side op) :=
  fun n => apply_setReplica (h (n.replica side)) side'

theorem preserves_monitored {h : Handler α} {side : Side}
    (hh : Preserves (fun n => g (n.replica side)) h) (kind : RequestKind) :
    Preserves (fun n => g (n.replica side)) (monitored kind h) := by
  intro n
  have hs := hh n
  rcases hrun : h.run.run n with ⟨x, n'⟩
  obtain ⟨stats, log, hm⟩ := exists_run_monitored kind hrun
  rw [hrun] at hs
  rw [hm]
  cases side <;> exact hs

theorem preserves_check {g : Node → γ} (e : Except Status α) : Preserves g (e : Handler α) :=
  fun n => by rw [run_check]

theorem preserves_both {dynamic static : Op Replica (List Service)} (hd : Preserves g dynamic)
    (hs : Preserves g static) (side : Side) :
    Preserves (fun n => g (n.replica side)) (both dynamic static) := by
  refine Preserves.bind (fun n => preserves_atSide hd .dynamic side n) fun d => ?_
  refine Preserves.bind (fun n => preserves_atSide hs .static side n) fun s => ?_
  exact (preserves_ofExcept d).bind fun ds => (preserves_ofExcept s).bind_pure _

variable (hg : Aloof g) (clock : Readings) (side : Side)

include hg

theorem preserves_announceBy (req : AnnounceRequest) :
    Preserves (fun n => g (n.replica side)) (announceBy clock req) := by
  refine preserves_monitored ?_ .announce
  refine (preserves_check _).bind fun node => preserves_get_bind fun n => ?_
  refine (preserves_check _).bind fun _ => (preserves_check _).bind fun services => ?_
  refine preserves_get_bind fun n => ?_
  exact preserves_atSide (DynamicView.preserves_putBy hg clock n.dynamicMaxAge node _) .dynamic side

theorem preserves_withdrawBy (nodeId : String) :
    Preserves (fun n => g (n.replica side)) (withdrawBy clock nodeId) := by
  refine preserves_monitored ?_ .withdraw
  refine (preserves_check _).bind fun node => ?_
  have hdelete := DynamicView.inherits_deleteBy hg.pervasive clock node
  refine (preserves_atSide hdelete .dynamic side).bind fun found => ?_
  cases found with
  | true => exact preserves_pure _
  | false => exact preserves_throw _

theorem preserves_register (fresh : Uuid) (req : Registration) :
    Preserves (fun n => g (n.replica side)) (register (clock 0) fresh req) := by
  refine preserves_monitored ?_ .register
  refine preserves_get_bind fun n => (preserves_check _).bind fun _ => ?_
  cases req.flaw? with
  | some flaw => exact preserves_throw _
  | none =>
    have hput := StaticView.inherits_put hg.pervasive (clock 0) (req.toService fresh)
    exact (preserves_atSide hput .static side).bind_pure _

theorem preserves_queryBy (req : QueryRequest) :
    Preserves (fun n => g (n.replica side)) (queryBy clock req) := by
  refine preserves_monitored ?_ .query
  dsimp only
  cases req.kind.filter (· ≠ "") with
  | none =>
    exact (preserves_both (DynamicView.inherits_all hg.hereditary _)
      (StaticView.inherits_all hg.hereditary _) side).bind_pure _
  | some kind =>
    exact preserves_both (DynamicView.inherits_ofKind hg.hereditary _ kind _)
      (StaticView.inherits_ofKind hg.hereditary _ kind _) side

theorem preserves_serveBy (q : Request) :
    Preserves (fun n => g (n.replica side)) (q.serveBy clock) := by
  cases q with
  | announce req => exact (preserves_announceBy hg clock side req).bind_pure _
  | withdraw nodeId => exact preserves_withdrawBy hg clock side nodeId
  | register fresh req => exact (preserves_register hg clock side fresh req).bind_pure _
  | listRegistered =>
    have hall := preserves_atSide (StaticView.inherits_all hg.hereditary (clock 0)) .static side
    exact (preserves_monitored hall .listRegistered).bind_pure _
  | unregister raw =>
    refine (preserves_monitored ?_ .unregister).bind_pure _
    refine (preserves_check _).bind fun id => ?_
    exact preserves_atSide (hg.pervasive.deleteBy clock _) .static side
  | query req => exact (preserves_queryBy hg clock side req).bind_pure _

end Node

namespace Replica.Blind

variable {γ : Type} {g : Replica → γ}

theorem receivePush (hg : Blind g) (now : Instant) (name : String) (ws : List WireEntry) (n : Node)
    (side : Side) : g ((n.receivePush now name ws).2.replica side) = g (n.replica side) := by
  cases hn : n.sideNamed? name with
  | none => simp only [Node.receivePush, hn]
  | some side' =>
    have hm := hg.hereditary.mergeFrom now {} (ws.map WireEntry.toEntry) (n.replica side')
    rcases hrun : (merge now (ws.map WireEntry.toEntry)).run.run (n.replica side') with ⟨x, r⟩
    rw [← merge, hrun] at hm
    rw [Node.receivePush_of_merge hn hrun]
    exact Node.apply_setReplica hm side

theorem servePull (hg : Blind g) (name : String) (n : Node) (side : Side) :
    g ((n.servePull name).2.replica side) = g (n.replica side) := by
  cases hn : n.sideNamed? name with
  | none => simp only [Node.servePull, hn]
  | some side' =>
    have hs := hg.onEngine Engine.getAll (n.replica side')
    rcases hrun : snapshot.run.run (n.replica side') with ⟨x, r⟩
    rw [← snapshot, hrun] at hs
    have hn' : (n.servePull name).2 = n.setReplica side' r := by
      simp only [Node.servePull, hn, Node.onSide, hrun]
      cases x <;> rfl
    rw [hn']
    exact Node.apply_setReplica hs side

end Replica.Blind

end ServiceDirectory
