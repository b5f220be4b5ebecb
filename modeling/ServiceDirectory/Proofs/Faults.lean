import ServiceDirectory.Proofs.Hereditary
import ServiceDirectory.Proofs.Replica

namespace ServiceDirectory

/-! What a node answers in spite of the faults of its engine it answers without them too. -/

theorem exists_run_of_bind {σ α β : Type} {op : Op σ α} {f : α → Op σ β} {s s' : σ} {b : β}
    (h : (op >>= f).run.run s = (.ok b, s')) :
    ∃ a s₁, op.run.run s = (.ok a, s₁) ∧ (f a).run.run s₁ = (.ok b, s') := by
  rcases hop : op.run.run s with ⟨x, s₁⟩
  simp only [ExceptT.run_bind, StateT.run_bind, hop] at h
  cases x with
  | ok a => exact ⟨a, s₁, rfl, h⟩
  | error e => injection congrArg Prod.fst h

theorem run_discard {σ α : Type} {op : Op σ α} {s s' : σ} {a : α}
    (h : op.run.run s = (.ok a, s')) : (discard op).run.run s = (.ok (), s') := by
  change ((fun _ => ()) <$> op).run.run s = _
  rw [map_eq_pure_bind]
  exact run_bind h

theorem Engine.run_guarded_of_ok {α : Type} {call : EngineCall}
    {work : Medium → Except Failure α × Medium} {n n' : Engine} {a : α}
    (h : (Engine.guarded call work).run.run n = (.ok a, n')) :
    work n.medium = (.ok a, n'.medium) := by
  simp only [guarded, ExceptT.run_mk, StateT.run] at h
  split at h
  · injection congrArg Prod.fst h
  · obtain ⟨ha, rfl⟩ := Prod.mk.inj h
    exact Prod.ext ha rfl

namespace Replica

variable {r r' : Replica} {α β : Type}

/-- The node with no fault due any more. -/
def spared (r : Replica) : Replica := { r with engine := { r.engine with faults := [] } }

@[simp] theorem held_spared (r : Replica) : r.spared.held = r.held := rfl

@[simp] theorem nodeId_spared (r : Replica) : r.spared.nodeId = r.nodeId := rfl

theorem Sound.spared_eq (h : r.Sound) : r.spared = r := by
  rw [spared, ← h.faults]

/-- Where it gives an answer it gives the same with no fault due. -/
def Endures (op : Op Replica α) : Prop :=
  ∀ ⦃r a r'⦄, op.run.run r = (.ok a, r') → op.run.run r.spared = (.ok a, r'.spared)

theorem endures_pure (a : α) : Endures (pure a) := by
  intro r b r' h
  cases h
  rfl

theorem Endures.bind {op : Op Replica α} {f : α → Op Replica β} (h : Endures op)
    (hf : ∀ a, Endures (f a)) : Endures (op >>= f) := by
  intro r b r' hrun
  obtain ⟨a, r₁, hop, hrest⟩ := exists_run_of_bind hrun
  rw [run_bind (h hop)]
  exact hf a hrest

/-- What is read of the state is the same without faults. -/
theorem endures_get_bind {f : Replica → Op Replica β} (hf : ∀ s, Endures (f s))
    (hs : ∀ s, f s.spared = f s) : Endures (get >>= f) := by
  intro r b r' hrun
  rw [run_bind (run_get _)] at hrun ⊢
  rw [hs]
  exact hf r hrun

theorem endures_modify {f : Replica → Replica} (hf : ∀ s, f s.spared = (f s).spared) :
    Endures (modify f : Op Replica PUnit) := by
  intro r a r' h
  cases h
  exact congrArg (Prod.mk _) (hf r)

theorem endures_onEngine (call : EngineCall) (work : Medium → Except Failure α × Medium) :
    Endures (onEngine (Engine.guarded call work)) := by
  intro r a r' h
  rcases hn : (Engine.guarded call work).run.run r.engine with ⟨x, n⟩
  have ho : (onEngine (Engine.guarded call work)).run.run r = (x, { r with engine := n }) := by
    change (((Engine.guarded call work).run.run r.engine).1, _) = _
    rw [hn]
  cases ho.symm.trans h
  have hw := Engine.run_guarded_of_ok hn
  change (((Engine.guarded call work).run.run r.spared.engine).1, _) = _
  rw [run_guarded rfl]
  change ((work r.engine.medium).1, { r with engine := { medium := (work r.engine.medium).2 } }) = _
  rw [hw]
  rfl

theorem spared_enqueue (r : Replica) (e : Entry) : r.spared.enqueue e = (r.enqueue e).spared := by
  unfold enqueue
  rw [apply_ite spared, apply_ite spared]
  rfl

theorem pervasive_endures : Pervasive Endures where
  pure := endures_pure
  bind := Endures.bind
  get_bind hf hs := endures_get_bind hf fun s => hs s _
  engineGet _ := endures_onEngine ..
  engineGetAll := endures_onEngine ..
  enginePut _ := endures_onEngine ..
  emitAll _ := endures_modify fun _ => rfl
  enqueue e := endures_modify fun s => spared_enqueue s e

end Replica

end ServiceDirectory
