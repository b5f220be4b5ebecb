import ServiceDirectory.Proofs.Interruption
import ServiceDirectory.Proofs.Query
import ServiceDirectory.Proofs.Replacement

namespace ServiceDirectory

/-- Answers that put it down to the caller. -/
def Code.isRefusal : Code → Bool
  | .invalidArgument | .notFound => true
  | _ => false

theorem Failure.code_toStatus_ne {f : Failure} (h : f.code.isRefusal = false) :
    f.toStatus.code ≠ .invalidArgument := by
  intro hs
  rw [show f.code = .invalidArgument from hs] at h
  contradiction

/-- A fault strikes with its own failure, and leaves the faults that are due what they were. -/
theorem Fault.strike_spec {p : Failure → Prop} (call : EngineCall) {fs : List Fault}
    (h : ∀ φ ∈ fs, p φ.failure) :
    (∀ f ∈ (strike call fs).1, p f) ∧ ∀ φ ∈ (strike call fs).2, p φ.failure := by
  induction fs with
  | nil => simp [strike]
  | cons φ fs ih =>
    obtain ⟨hφ, hfs⟩ := List.forall_mem_cons.mp h
    unfold strike
    split_ifs
    · exact ⟨by simp, List.forall_mem_cons.mpr ⟨hφ, hfs⟩⟩
    · exact ⟨by simpa using hφ, List.forall_mem_cons.mpr ⟨hφ, hfs⟩⟩
    · exact ⟨(ih hfs).1, List.forall_mem_cons.mpr ⟨hφ, (ih hfs).2⟩⟩

theorem Medium.eq_of_get?_error {m : Medium} {k : Bytes} {f : Failure} (h : m.get? k = .error f) :
    f = .undecodableRow := by
  cases m with
  | volatile entries => contradiction
  | durable rows =>
    rw [get?] at h
    split at h
    · contradiction
    · split at h <;> cases h
      rfl

theorem Medium.eq_of_all_error {m : Medium} {f : Failure} (h : m.all = .error f) :
    f = .undecodableRow := by
  cases m with
  | volatile entries => contradiction
  | durable rows =>
    rw [all] at h
    split at h <;> cases h
    rfl

namespace Replica

variable {r r' : Replica} {α β : Type} {now : Instant}

/-- No fault that is due puts it down to the caller. -/
def Unrefusing (r : Replica) : Prop := ∀ φ ∈ r.engine.faults, φ.failure.code.isRefusal = false

/-- Where it fails its engine has failed; it does not put it down to the caller. -/
def NeverRefuses (op : Op Replica α) : Prop :=
  ∀ ⦃r x r'⦄, r.Unrefusing → op.run.run r = (x, r') →
    r'.Unrefusing ∧ ∀ f, x = .error f → f.code.isRefusal = false

theorem neverRefuses_pure (a : α) : NeverRefuses (pure a) := by
  intro r x r' hr h
  cases h
  exact ⟨hr, by rintro f ⟨⟩⟩

theorem NeverRefuses.bind {op : Op Replica α} {g : α → Op Replica β} (h : NeverRefuses op)
    (hg : ∀ a, NeverRefuses (g a)) : NeverRefuses (op >>= g) := by
  intro r x r' hr hrun
  rcases hop : op.run.run r with ⟨y, r₁⟩
  obtain ⟨hr₁, hy⟩ := h hr hop
  cases y with
  | error f =>
    cases (run_bind_error hop).symm.trans hrun
    exact ⟨hr₁, fun f' hf => by cases hf; exact hy f rfl⟩
  | ok a =>
    rw [run_bind hop] at hrun
    exact hg a hr₁ hrun

theorem neverRefuses_get_bind {g : Replica → Op Replica β} (hg : ∀ s, NeverRefuses (g s)) :
    NeverRefuses (get >>= g) := by
  intro r x r' hr hrun
  rw [run_bind (run_get r)] at hrun
  exact hg r hr hrun

theorem neverRefuses_modify {f : Replica → Replica} (hf : ∀ s, (f s).engine = s.engine) :
    NeverRefuses (modify f : Op Replica PUnit) := by
  intro r x r' hr h
  cases h
  refine ⟨?_, by rintro f ⟨⟩⟩
  rw [Unrefusing, hf]
  exact hr

theorem neverRefuses_onEngine (call : EngineCall) {work : Medium → Except Failure α × Medium}
    (hw : ∀ m f, (work m).1 = .error f → f.code.isRefusal = false) :
    NeverRefuses (onEngine (Engine.guarded call work)) := by
  intro r x r' hr h
  obtain ⟨hx, hr'⟩ := Prod.mk.inj h
  obtain ⟨hstruck, hleft⟩ := Fault.strike_spec (p := (·.code.isRefusal = false)) call hr
  simp only [Engine.guarded, ExceptT.run_mk, StateT.run] at hx hr'
  split at hx
  · rename_i hs
    rw [hs] at hr' hstruck hleft
    subst hr' hx
    exact ⟨hleft, fun f hf => by cases hf; exact hstruck _ rfl⟩
  · rename_i hs
    rw [hs] at hr' hleft
    subst hr'
    exact ⟨hleft, fun f hf => hw _ f (hx.trans hf)⟩

theorem pervasive_neverRefuses : Pervasive NeverRefuses where
  pure := neverRefuses_pure
  bind := NeverRefuses.bind
  get_bind hg _ := neverRefuses_get_bind hg
  engineGet _ := neverRefuses_onEngine .get fun _ _ hf => by
    rw [Medium.eq_of_get?_error hf]
    rfl
  engineGetAll := neverRefuses_onEngine .getAll fun _ _ hf => by
    rw [Medium.eq_of_all_error hf]
    rfl
  enginePut _ := neverRefuses_onEngine .put fun _ _ hf => nomatch hf
  emitAll _ := neverRefuses_modify fun _ => rfl
  enqueue e := neverRefuses_modify fun s => engine_enqueue s e

/-- A write that succeeds answers with what was held. -/
theorem held_of_run_write {key : Bytes} {value : Option Bytes} {maxAge : Option UInt64}
    {w : Entry × Option Entry} (h : (write now key value maxAge).run.run r = (.ok w, r')) :
    w.2 = r.held key := by
  obtain ⟨held, r₁, hread, hrest⟩ := exists_run_of_bind h
  rw [run_bind (run_get r₁)] at hrest
  obtain ⟨_, r₂, -, hrest⟩ := exists_run_of_bind hrest
  have hw : w.2 = held := by
    dsimp only at hrest
    split at hrest <;> cases hrest <;> rfl
  have hheld : r.engine.medium.get? key = .ok held := answer_of_onEngine (congrArg Prod.fst hread)
  rw [hw, Replica.held, Medium.held, hheld]
  rfl

end Replica

open Replica

namespace DynamicView

/-- A valid announcement is refused no more. -/
theorem neverRefuses_putBy {a : NodeAnnouncement} (h : a.flaw? = none) (clock : Readings)
    (maxAge : Span) (node : Uuid) : NeverRefuses (putBy clock maxAge node a) := by
  refine inherits_putBy pervasive_neverRefuses clock maxAge node fun flaw hf => ?_
  cases h.symm.trans hf

section Withdrawing

variable {r r' : Replica} {now : Instant} {node : Uuid} {ss : List Service} {s : Service}

/-- A listing changes nothing, and all that it lists stands in the store. -/
theorem intact_of_all (h : (all now).run.run r = (.ok ss, r')) :
    Intact r r' ∧ ∀ s ∈ ss, ∃ k, r.serviceAt now k = some s := by
  obtain ⟨es, r₁, hlive, hreport⟩ := exists_run_of_bind h
  obtain ⟨xs, r₂, hread, hfilter⟩ := exists_run_of_bind hlive
  have hr₂ : r₂ = r₁ := congrArg Prod.snd hfilter
  have hr' : r₁.emitAll ((undecodableIn es).map .undecodableDynamic) = r' := congrArg Prod.snd hreport
  have hintact : Intact r r₁ := hr₂ ▸ .of_spared_eq (spared_of_getAll hread)
  refine ⟨hr' ▸ ⟨hintact.medium, hintact.outbox⟩, fun s hs => ?_⟩
  obtain ⟨rows, r'', hshowing, hrun⟩ :=
    exists_run_listing (congrArg Prod.fst hread) now .undecodableDynamic
  have hss : rows.map (·.2) = ss := Except.ok.inj (congrArg Prod.fst (hrun.symm.trans h))
  rw [← hss] at hs
  obtain ⟨row, hmem, rfl⟩ := List.mem_map.mp hs
  exact ⟨row.1, (hshowing.mem_iff row.1 row.2).mp hmem⟩

/-- A delete answers whether what was held is live by the second reading. -/
theorem eq_of_run_deleteBy {clock : Readings} {key : Bytes} {e : Entry} {b : Bool}
    (hheld : r.held key = some e) (h : (Replica.deleteBy clock key).run.run r = (.ok b, r')) :
    b = e.isLive (clock 1) := by
  obtain ⟨w, r₁, hw, hb⟩ := exists_run_of_bind h
  rw [held_of_run_write hw, hheld] at hb
  exact (Except.ok.inj (congrArg Prod.fst hb)).symm

/-- Of what the node shows by the clock's first reading something is shown no more by the third, when
the first of its services has been deleted. -/
def Lapses (clock : Readings) (node : Uuid) (r : Replica) : Prop :=
  ∃ k s, r.serviceAt (clock 0) k = some s ∧ s.nodeId = some node ∧ r.serviceAt (clock 2) k = none

/-- Where nothing was withdrawn nothing has changed, unless a lifetime ran out in between. -/
theorem intact_or_lapses {clock : Readings} (hp : r.Placed (clock 0))
    (h : (deleteBy clock node).run.run r = (.ok false, r')) : Intact r r' ∨ Lapses clock node r := by
  obtain ⟨ss, r₁, hof, hdelete⟩ := exists_run_of_bind h
  obtain ⟨listed, r₂, hall, hfilter⟩ := exists_run_of_bind hof
  have hr₂ : r₂ = r₁ := congrArg Prod.snd hfilter
  have hss : listed.filter (·.nodeId = some node) = ss := Except.ok.inj (congrArg Prod.fst hfilter)
  obtain ⟨hintact, hstands⟩ := intact_of_all hall
  rw [hr₂] at hintact
  cases ss with
  | nil =>
    have hr' : r₁ = r' := congrArg Prod.snd hdelete
    exact .inl (hr' ▸ hintact)
  -- the first service listed was live where it stands, so its delete finds it there
  | cons s ss =>
    obtain ⟨hlisted, hnode⟩ := List.mem_filter.mp (hss ▸ List.mem_cons_self : s ∈ listed.filter _)
    obtain ⟨k, hat⟩ := hstands s hlisted
    obtain rfl := hp k s hat
    obtain ⟨e, hheld, -, -⟩ := serviceAt_eq_some_iff.mp hat
    have hheld₁ : r₁.held s.key = some e := by
      rw [← hheld, Replica.held, Replica.held, hintact.medium]
    obtain ⟨one, r₃, hone, hrest⟩ := exists_run_of_bind hdelete
    obtain ⟨others, r₄, -, hor⟩ := exists_run_of_bind hrest
    have hfalse : (one || others) = false := Except.ok.inj (congrArg Prod.fst hor)
    have hexpired : e.isLive (clock 2) = false :=
      (eq_of_run_deleteBy hheld₁ hone).symm.trans (Bool.or_eq_false_iff.mp hfalse).1
    refine .inr ⟨s.key, s, hat, of_decide_eq_true hnode, ?_⟩
    rw [serviceAt, hheld, Option.filter_some, hexpired, if_neg Bool.false_ne_true, Option.bind_none]

end Withdrawing

end DynamicView

end ServiceDirectory
