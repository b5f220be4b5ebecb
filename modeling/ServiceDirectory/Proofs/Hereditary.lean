import Mathlib.Tactic.SplitIfs
import ServiceDirectory.View.Dynamic
import ServiceDirectory.View.Static

namespace ServiceDirectory

/-! What holds of all that a store does because it holds of the parts. -/

/-- Says that a peer cannot be reached any more, or can be reached again. -/
def Event.isTiding (e : Event) : Bool :=
  e.message = "peer unreachable" || e.message = "peer reachable again"

namespace Replica

/-- It holds of the calls of an engine and of reports that are no tidings of peers, and passes from
steps to what is built of them. -/
structure Hereditary (P : {α : Type} → Op Replica α → Prop) : Prop where
  pure {α : Type} (a : α) : P (pure a)
  bind {α β : Type} {op : Op Replica α} {f : α → Op Replica β} :
    P op → (∀ a, P (f a)) → P (op >>= f)
  /-- What is read of a store is not its engine. -/
  get_bind {β : Type} {f : Replica → Op Replica β} :
    (∀ r, P (f r)) → (∀ (r : Replica) n, f { r with engine := n } = f r) → P (get >>= f)
  engineGet (key : Bytes) : P (onEngine (Engine.get key))
  engineGetAll : P (onEngine Engine.getAll)
  enginePut (e : Entry) : P (onEngine (Engine.put e))
  emitAll {es : List Event} : (∀ e ∈ es, e.isTiding = false) → P (modify (·.emitAll es))

/-- It holds of what queues a write, too. -/
structure Pervasive (P : {α : Type} → Op Replica α → Prop) : Prop extends Hereditary P where
  enqueue (e : Entry) : P (modify (·.enqueue e))

variable {P : {α : Type} → Op Replica α → Prop} {α β : Type} {now : Instant} {key : Bytes}
  {value : Option Bytes} {maxAge : Option UInt64}

namespace Hereditary

theorem bind_pure (hP : Hereditary P) {op : Op Replica α} (h : P op) (f : α → β) :
    P (op >>= fun a => Pure.pure (f a)) := hP.bind h fun a => hP.pure (f a)

theorem report (hP : Hereditary P) {e : Event} (he : e.isTiding = false) : P (report e) := by
  have hes : ∀ x ∈ [e], x.isTiding = false := List.forall_mem_singleton.mpr he
  exact hP.emitAll hes

theorem lookup (hP : Hereditary P) (now : Instant) (key : Bytes) : P (lookup now key) :=
  hP.bind_pure (hP.engineGet key) _

theorem live (hP : Hereditary P) (now : Instant) : P (live now) := hP.bind_pure hP.engineGetAll _

theorem mergeEntry (hP : Hereditary P) (now : Instant) (e : Entry) : P (mergeEntry now e) := by
  unfold Replica.mergeEntry
  split
  · exact hP.get_bind (fun r => hP.bind_pure (hP.report rfl) _) fun _ _ => rfl
  · split_ifs
    · exact hP.pure _
    · refine hP.bind (hP.engineGet e.key) fun held => ?_
      dsimp only
      split_ifs
      · exact hP.pure _
      · exact hP.bind_pure (hP.enginePut _) _

theorem mergeFrom (hP : Hereditary P) (now : Instant) (o : MergeOutcome) (batch : List Entry) :
    P (mergeFrom now o batch) := by
  induction batch generalizing o with
  | nil => exact hP.pure o
  | cons e es ih => exact hP.bind (hP.mergeEntry now e) fun v => ih (o.count v)

end Hereditary

namespace Pervasive

theorem write (hP : Pervasive P) (now : Instant) (key : Bytes) (value : Option Bytes)
    (maxAge : Option UInt64) : P (write now key value maxAge) := by
  refine hP.bind (hP.engineGet key) fun held => hP.get_bind (fun r => ?_) fun _ _ => rfl
  refine hP.bind (hP.enginePut _) fun _ => ?_
  split_ifs
  · exact hP.bind_pure (hP.enqueue _) _
  · exact hP.pure _

theorem put (hP : Pervasive P) (now : Instant) (key value : Bytes) (maxAge : Option UInt64) :
    P (put now key value maxAge) := hP.bind_pure (hP.write now key (some value) maxAge) _

theorem deleteBy (hP : Pervasive P) (clock : Readings) (key : Bytes) : P (deleteBy clock key) :=
  hP.bind_pure (hP.write (clock 0) key none none) _

theorem delete (hP : Pervasive P) (now : Instant) (key : Bytes) : P (delete now key) :=
  hP.deleteBy (.still now) key

end Pervasive

end Replica

open Replica

namespace DynamicView

variable {P : {α : Type} → Op Replica α → Prop}

theorem inherits_all (hP : Hereditary P) (now : Instant) : P (all now) := by
  refine hP.bind (hP.live now) fun entries => hP.bind_pure (hP.emitAll fun e he => ?_) _
  obtain ⟨key, -, rfl⟩ := List.mem_map.mp he
  rfl

theorem inherits_ofNode (hP : Hereditary P) (now : Instant) (node : Uuid) : P (ofNode now node) :=
  hP.bind_pure (inherits_all hP now) _

theorem inherits_ofKind (hP : Hereditary P) (now : Instant) (kind : String) (pool : Option String) :
    P (ofKind now kind pool) := hP.bind_pure (inherits_all hP now) _

theorem inherits_deleteAllBy (hP : Pervasive P) (clock : Readings) (ss : List Service) :
    P (deleteAllBy clock ss) := by
  induction ss generalizing clock with
  | nil => exact hP.pure _
  | cons s ss ih => exact hP.bind (hP.deleteBy clock s.key) fun one => hP.bind_pure (ih _) _

theorem inherits_putAllBy (hP : Pervasive P) (clock : Readings) (maxAge : Span) (ss : List Service) :
    P (putAllBy clock maxAge ss) := by
  induction ss generalizing clock with
  | nil => exact hP.pure _
  | cons s ss ih =>
    exact hP.bind (hP.bind_pure (hP.put (clock 0) s.key s.encode _) _) fun _ => ih _

/-- It holds of a good announcement, and of the others if it does of refusing them. -/
theorem inherits_putBy (hP : Pervasive P) (clock : Readings) (maxAge : Span) (node : Uuid)
    {a : NodeAnnouncement} (ha : ∀ flaw ∈ a.flaw?, P (putBy clock maxAge node a)) :
    P (putBy clock maxAge node a) := by
  cases hflaw : a.flaw? with
  | some flaw => exact ha flaw hflaw
  | none =>
    unfold putBy
    rw [hflaw]
    refine hP.bind (inherits_ofNode hP.toHereditary (clock 0) node) fun stale => ?_
    refine hP.bind (hP.bind_pure (inherits_deleteAllBy hP _ _) _) fun _ => ?_
    refine hP.bind (inherits_putAllBy hP _ maxAge _) fun _ => ?_
    exact hP.bind_pure (hP.report rfl) _

theorem inherits_deleteBy (hP : Pervasive P) (clock : Readings) (node : Uuid) :
    P (deleteBy clock node) :=
  hP.bind (inherits_ofNode hP.toHereditary (clock 0) node) fun ss => inherits_deleteAllBy hP _ ss

end DynamicView

namespace StaticView

variable {P : {α : Type} → Op Replica α → Prop}

theorem inherits_put (hP : Pervasive P) (now : Instant) (s : Service) : P (put now s) :=
  hP.bind (hP.bind_pure (hP.put now s.key s.encode none) _) fun _ => hP.report rfl

theorem inherits_all (hP : Hereditary P) (now : Instant) : P (all now) := by
  refine hP.bind (hP.live now) fun entries => hP.bind_pure (hP.emitAll fun e he => ?_) _
  obtain ⟨key, -, rfl⟩ := List.mem_map.mp he
  rfl

theorem inherits_ofKind (hP : Hereditary P) (now : Instant) (kind : String) (pool : Option String) :
    P (ofKind now kind pool) := hP.bind_pure (inherits_all hP now) _

end StaticView

end ServiceDirectory
