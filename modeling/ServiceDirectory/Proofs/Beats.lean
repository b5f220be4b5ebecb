import ServiceDirectory.Proofs.Upkeep

namespace ServiceDirectory

/-! The beats of the tasks beside a store, while time passes. -/

/-- The next beat of what is done every `d` is at most one period away; without a period there is no
beat. -/
def OnBeat (d : Span) (now : Nat) : Option Ticker → Prop
  | none => d.nanos = 0
  | some t => t.period = d.ceilMillis ∧ t.due ≤ now + t.period

namespace OnBeat

variable {d : Span} {now now' : Nat} {o : Option Ticker} {t : Ticker}

theorem start (d : Span) (now : Nat) : OnBeat d now (Ticker.start? now d) := by
  unfold Ticker.start?
  split_ifs with h
  · exact h
  · exact ⟨rfl, Nat.le_refl _⟩

theorem beat (h : OnBeat d now (some t)) (hdue : t.due ≤ now) : OnBeat d now (some (t.beat now)) := by
  refine ⟨h.1, ?_⟩
  simp only [Ticker.beat]
  split_ifs <;> omega

theorem mono (h : OnBeat d now o) (hn : now ≤ now') : OnBeat d now' o := by
  cases o with
  | none => exact h
  | some t => exact ⟨h.1, Nat.le_trans h.2 (Nat.add_le_add_right hn _)⟩

theorem exists_ticker (h : OnBeat d now o) (hd : d.nanos ≠ 0) : ∃ t, o = some t := by
  cases o with
  | none => contradiction
  | some t => exact ⟨t, rfl⟩

end OnBeat

/-- A pull of a store that is under way. -/
structure Call.IsPatrolOf (call : Call) (a : Address) : Prop where
  caller : call.caller = a
  errand : call.errand.isPatrol

namespace Upkeep

/-- The tasks of a store go on, with the calls `due` about to be ended and none of the others ending
before `lo`. -/
structure Sound (s : Settings) (a : Address) (lo : Nat) (due : List Call) (c : Cluster) (u : Upkeep) :
    Prop where
  settings : u.standing.settings = s
  isOpen : s.keepsRunning .replicator → u.standing.isOpen
  running : u.timers.running
  sweep : OnBeat s.gcInterval c.elapsed u.timers.sweep
  patrol : OnBeat s.antiEntropyInterval c.elapsed u.timers.patrol
  patrolling : u.timers.patrolling → ∃ call, (call ∈ due ∨ call ∈ c.calls ∧ lo ≤ call.wake) ∧
    call.IsPatrolOf a ∧ call.wake ≤ c.elapsed + s.peerTimeout.ceilMillis

/-- No beat comes before `lo`. -/
structure Prompt (lo : Nat) (u : Upkeep) : Prop where
  sweep : ∀ t ∈ u.timers.sweep, lo ≤ t.due
  patrol : u.timers.patrolling ∨ ∀ t ∈ u.timers.patrol, lo ≤ t.due

variable {s : Settings} {a : Address} {lo : Nat} {due : List Call} {c c' : Cluster} {u : Upkeep}

theorem Sound.carry (h : u.Sound s a lo due c) (he : c'.elapsed = c.elapsed)
    (hcalls : c.calls ⊆ c'.calls) : u.Sound s a lo due c' where
  settings := h.settings
  isOpen := h.isOpen
  running := h.running
  sweep := he ▸ h.sweep
  patrol := he ▸ h.patrol
  patrolling hp := by
    obtain ⟨call, hin, hcall⟩ := h.patrolling hp
    exact ⟨call, hin.imp_right fun hin => ⟨hcalls hin.1, hin.2⟩, he ▸ hcall⟩

theorem Sound.of_frame (h : u.Sound s a lo due c) (hf : c.Frame c') : u.Sound s a lo due c' :=
  h.carry hf.elapsed hf.calls

theorem Sound.drained (h : u.Sound s a lo due c) :
    Sound s a lo due c { u with standing := u.standing.drained } where
  settings := h.settings
  isOpen hk := by simp [Standing.drained, h.settings, hk, h.isOpen hk]
  running := h.running
  sweep := h.sweep
  patrol := h.patrol
  patrolling := h.patrolling

end Upkeep

namespace Cluster

variable {s : Settings} {a b : Address} {lo now : Nat} {due : List Call} {c c' : Cluster} {u : Upkeep}

theorem forM_induction {α : Type} {P : Cluster → Prop} {f : α → Sim Unit}
    (h : ∀ x c, P c → P ((f x).run c).2) (l : List α) (hc : P c) : P ((l.forM f).run c).2 := by
  induction l generalizing c with
  | nil => exact hc
  | cons x l ih => exact ih (h x c hc)

/-! A call ends. -/

theorem exists_complete (hc : c.Orderly) (call : Call) : ∃ c', (∀ a, Spares a c c') ∧
    ((complete call).run c).2 = if call.errand.isPatrol then
      c'.mapTimers call.caller ({ · with patrolling := false }) else c' := by
  obtain ⟨wake, getsThrough, caller, store, peer, errand⟩ := call
  cases errand with
  | push batch =>
    cases getsThrough with
    | true =>
      have hd := quiet_deliver hc.nodup store peer batch
      have hf := quiet_finishPush caller peer batch ((deliver store peer batch).run c).1
        ((deliver store peer batch).run c).2
      exact ⟨_, fun a => (hd.spares a).trans (hf.spares a), rfl⟩
    | false =>
      exact ⟨_, (quiet_finishPush caller peer batch (.error .timeout) c).spares, rfl⟩
  | patrol =>
    cases getsThrough with
    | true =>
      have hd := quiet_fetch hc.nodup store peer
      have hf := quiet_finishPatrol caller peer ((fetch store peer).run c).1
        ((fetch store peer).run c).2
      exact ⟨_, fun a => (hd.spares a).trans (hf.spares a), rfl⟩
    | false =>
      exact ⟨_, (quiet_finishPatrol caller peer (.error .timeout) c).spares, rfl⟩

/-- A store that has not been stopped. -/
structure Tended (s : Settings) (a : Address) (lo : Nat) (due : List Call) (c : Cluster) : Prop where
  orderly : c.Orderly
  upkeep : ∃ u, c.upkeep? a = some u ∧ u.Sound s a lo due c

/-- And no beat of its tasks is overdue. -/
structure Attended (s : Settings) (a : Address) (lo : Nat) (c : Cluster) : Prop where
  orderly : c.Orderly
  upkeep : ∃ u, c.upkeep? a = some u ∧ u.Sound s a lo [] c ∧ u.Prompt lo

theorem Tended.of_spares (h : c.Tended s a lo due) (hs : Spares a c c') : c'.Tended s a lo due := by
  obtain ⟨u, hu, hsound⟩ := h.upkeep
  exact ⟨h.orderly.of_roll hs.roll, u, hs.upkeep.trans hu, hsound.of_frame hs.toFrame⟩

theorem Attended.of_spares (h : c.Attended s a lo) (hs : Spares a c c') : c'.Attended s a lo := by
  obtain ⟨u, hu, hsound, hprompt⟩ := h.upkeep
  exact ⟨h.orderly.of_roll hs.roll, u, hs.upkeep.trans hu, hsound.of_frame hs.toFrame, hprompt⟩

/-- As of now. -/
def UpToDate (s : Settings) (a : Address) (c : Cluster) : Prop := c.Attended s a c.elapsed

theorem Attended.upToDate (h : c.Attended s a lo) (he : c.elapsed = lo) : c.UpToDate s a := by
  rw [UpToDate, he]
  exact h

theorem UpToDate.of_spares (h : c.UpToDate s a) (hs : Spares a c c') : c'.UpToDate s a :=
  (Attended.of_spares h hs).upToDate hs.elapsed

theorem Attended.tended (h : c.Attended s a lo) : c.Tended s a lo [] := by
  obtain ⟨u, hu, hsound, -⟩ := h.upkeep
  exact ⟨h.orderly, u, hu, hsound⟩

theorem Tended.complete {call : Call} (h : c.Tended s a lo (call :: due)) :
    ((complete call).run c).2.Tended s a lo due ∧ ((complete call).run c).2.elapsed = c.elapsed := by
  obtain ⟨c', hs, hrun⟩ := exists_complete h.orderly call
  obtain ⟨u, hu, hsound⟩ := (h.of_spares (hs a)).upkeep
  have ho := h.orderly.of_roll (hs a).roll
  -- the call that ends counts no more, but if it is a pull of this store there is none to count
  have hrest (hne : ¬ call.IsPatrolOf a) : u.Sound s a lo due c' :=
    { hsound with
      patrolling := fun hp => by
        obtain ⟨x, hin, hx, hwake⟩ := hsound.patrolling hp
        refine ⟨x, hin.imp_left fun hin => ?_, hx, hwake⟩
        rcases List.mem_cons.mp hin with rfl | hin
        · contradiction
        · exact hin }
  rw [hrun]
  split_ifs with he
  · refine ⟨?_, (hs a).elapsed⟩
    by_cases ha : call.caller = a
    · subst ha
      have hf := frame_mapTimers call.caller ({ · with patrolling := false }) c'
      refine ⟨ho.of_roll hf.roll, _, by rw [upkeep?_mapTimers, hu]; rfl, ?_⟩
      exact ⟨hsound.settings, hsound.isOpen, hsound.running, hsound.sweep, hsound.patrol, nofun⟩
    · have hc' : c'.Tended s a lo due := ⟨ho, u, hu, hrest fun h => ha h.caller⟩
      exact hc'.of_spares (spares_mapTimers ha _ c')
  · exact ⟨⟨ho, u, hu, hrest fun h => he h.errand⟩, (hs a).elapsed⟩

theorem Tended.completeAll (h : c.Tended s a lo due) :
    ((due.forM Cluster.complete).run c).2.Tended s a lo [] ∧
      ((due.forM Cluster.complete).run c).2.elapsed = c.elapsed := by
  induction due generalizing c with
  | nil => exact ⟨h, rfl⟩
  | cons call due ih =>
    obtain ⟨h', he⟩ := h.complete
    obtain ⟨h'', he'⟩ := ih h'
    exact ⟨h'', he'.trans he⟩

/-! A tick. -/

theorem later_bounds {mode : Mode} {peer : String} {timeout : Span} {ms : Nat} {getsThrough : Bool}
    (h : mode.contact peer timeout = .later ms getsThrough) : 0 < ms ∧ ms ≤ timeout.ceilMillis := by
  cases mode with
  | up | down | fail f => injection h
  | hang =>
    rw [Mode.contact] at h
    split_ifs at h with h0
    injection h
    omega
  | delay d =>
    rw [Mode.contact] at h
    split_ifs at h with h0 hle h1 <;> injection h <;> omega

/-- A pull either ends at once or has to wait, and is then under way. -/
theorem patrol_cases (hc : c.Orderly) (b : Address) :
    ∃ c', (∀ a, Spares a c c') ∧ ((patrol b).run c = (true, c') ∨
      (patrol b).run c = (false, c'.mapTimers b ({ · with patrolling := true })) ∧
      ∃ m, c.memberAt? b.serial = some m ∧ ∃ call ∈ c'.calls, call.IsPatrolOf b ∧
        c.elapsed < call.wake ∧
        call.wake ≤ c.elapsed + (m.node.replica b.side).settings.peerTimeout.ceilMillis) := by
  rw [patrol]
  simp only [StateT.run_bind, StateT.run_get, pure_bind]
  cases hm : c.memberAt? b.serial with
  | none => exact ⟨c, fun a => .refl a c, .inl rfl⟩
  | some m =>
    dsimp only
    cases m.peers.head? with
    | none => exact ⟨c, fun a => .refl a c, .inl rfl⟩
    | some peer =>
      simp only [StateT.run_bind, StateT.run_get, pure_bind]
      cases hcontact : c.contact m b.side peer with
      | through =>
        have hd := quiet_fetch hc.nodup (m.node.replica b.side).name peer
        have hf := quiet_finishPatrol b peer ((fetch (m.node.replica b.side).name peer).run c).1
          ((fetch (m.node.replica b.side).name peer).run c).2
        exact ⟨_, fun a => (hd.spares a).trans (hf.spares a), .inl rfl⟩
      | failed f =>
        exact ⟨_, (quiet_finishPatrol b peer (.error f) c).spares, .inl rfl⟩
      | later ms getsThrough =>
        obtain ⟨hpos, hle⟩ := later_bounds hcontact
        refine ⟨_, fun a => spares_await ms getsThrough b _ peer .patrol a c, .inr ⟨rfl, m, rfl, ?_⟩⟩
        refine ⟨_, List.mem_append_right _ (List.mem_singleton_self _), ⟨rfl, rfl⟩, ?_, ?_⟩
        · exact Nat.lt_add_of_pos_right hpos
        · exact Nat.add_le_add_left hle _

theorem spares_sweeps (hb : b ≠ a) (now : Nat) (t : Ticker) (c : Cluster) :
    Spares a c ((sweeps b now t).run c).2 := by
  induction t using sweeps.induct now generalizing c with
  | case1 t hdue ih =>
    rw [sweeps, if_pos hdue]
    have hbeat := (spares_mapTimers hb ({ · with sweep := some (t.beat now) }) c).trans
      (spares_mapReplica hb (Replica.sweepOnce c.clock) _)
    exact hbeat.trans (ih _)
  | case2 t hdue =>
    rw [sweeps, if_neg hdue]
    exact .refl a c

theorem run_patrols {t : Ticker} {more : Bool} (hdue : t.due ≤ now)
    (h : (patrol b).run (c.mapTimers b ({ · with patrol := some (t.beat now) })) = (more, c')) :
    ((patrols b now t).run c).2 = if more then ((patrols b now (t.beat now)).run c').2 else c' := by
  rw [patrols, if_pos hdue]
  simp only [StateT.run_bind, StateT.run_modify, pure_bind, h]
  cases more <;> rfl

theorem spares_patrols (hb : b ≠ a) (hc : c.Orderly) (now : Nat) (t : Ticker) :
    Spares a c ((patrols b now t).run c).2 := by
  induction t using patrols.induct now generalizing c with
  | case1 t hdue ih =>
    have hbeat := spares_mapTimers hb ({ · with patrol := some (t.beat now) }) c
    have hc₁ := hc.of_roll hbeat.roll
    obtain ⟨c', hs, hrun | ⟨hrun, -⟩⟩ := patrol_cases hc₁ b
    · rw [run_patrols hdue hrun, if_pos rfl]
      exact hbeat.trans ((hs a).trans (ih (hc₁.of_roll (hs a).roll)))
    · rw [run_patrols hdue hrun, if_neg Bool.false_ne_true]
      exact hbeat.trans ((hs a).trans (spares_mapTimers hb _ c'))
  | case2 t hdue =>
    rw [patrols, if_neg hdue]
    exact .refl a c

/-- All sweeps that are due are made, and the next one is not due yet. -/
theorem sweeps_self {d : Span} {t : Ticker} (hu : c.upkeep? a = some u)
    (hsweep : u.timers.sweep = some t) (ht : OnBeat d now (some t)) :
    c.Frame ((sweeps a now t).run c).2 ∧ ∃ t', OnBeat d now (some t') ∧ now < t'.due ∧
      ((sweeps a now t).run c).2.upkeep? a =
        some { u with timers := { u.timers with sweep := some t' } } := by
  induction t using sweeps.induct now generalizing c u with
  | case1 t hdue ih =>
    rw [sweeps, if_pos hdue]
    let c₁ := (c.mapTimers a ({ · with sweep := some (t.beat now) })).mapReplica a
      (Replica.sweepOnce c.clock)
    have hf : c.Frame c₁ := (frame_mapTimers a _ c).trans (frame_mapNode _ _ _)
    have hu₁ : c₁.upkeep? a =
        some { u with timers := { u.timers with sweep := some (t.beat now) } } := by
      rw [upkeep?_mapReplica (g := id) a _ fun _ _ => rfl, upkeep?_mapTimers, hu]
      rfl
    obtain ⟨hf', t', ht', hlt, hu'⟩ := ih hu₁ rfl (ht.beat hdue)
    exact ⟨hf.trans hf', t', ht', hlt, hu'⟩
  | case2 t hdue =>
    rw [sweeps, if_neg hdue]
    refine ⟨.refl c, t, ht, by omega, ?_⟩
    rw [← hsweep]
    exact hu

/-- All pulls that are due are begun, unless one of them has to wait. -/
theorem patrols_self {t : Ticker} (hc : c.Orderly) (hnow : c.elapsed = now)
    (hu : c.upkeep? a = some u) (h : u.Sound s a (now + 1) [] c) (hpatrol : u.timers.patrol = some t) :
    c.Frame ((patrols a now t).run c).2 ∧ ∃ u', u'.Sound s a (now + 1) [] ((patrols a now t).run c).2 ∧
      u'.timers.sweep = u.timers.sweep ∧
      (u'.timers.patrolling ∨ ∀ t' ∈ u'.timers.patrol, now + 1 ≤ t'.due) ∧
      ((patrols a now t).run c).2.upkeep? a = some u' := by
  have ht : OnBeat s.antiEntropyInterval now (some t) := by
    rw [← hnow, ← hpatrol]
    exact h.patrol
  induction t using patrols.induct now generalizing c u with
  | case1 t hdue ih =>
    let u₁ : Upkeep := { u with timers := { u.timers with patrol := some (t.beat now) } }
    let c₁ := c.mapTimers a ({ · with patrol := some (t.beat now) })
    have hf : c.Frame c₁ := frame_mapTimers a _ c
    have hc₁ : c₁.Orderly := hc.of_roll hf.roll
    have hu₁ : c₁.upkeep? a = some u₁ := by
      rw [upkeep?_mapTimers, hu]
      rfl
    have h₁ : u₁.Sound s a (now + 1) [] c₁ :=
      { h.of_frame hf with patrol := hnow ▸ ht.beat hdue }
    obtain ⟨c', hs, hrun | ⟨hrun, m, hm, call, hin, hcall, hlt, hle⟩⟩ := patrol_cases hc₁ a
    · rw [run_patrols hdue hrun, if_pos rfl]
      have hf' := (hs a).toFrame
      obtain ⟨hf'', u', hu'⟩ := ih (hc₁.of_roll hf'.roll) (hf'.elapsed.trans hnow)
        ((hs a).upkeep.trans hu₁) (h₁.of_frame hf') rfl (ht.beat hdue)
      exact ⟨hf.trans (hf'.trans hf''), u', hu'⟩
    · rw [run_patrols hdue hrun, if_neg Bool.false_ne_true]
      have hf' : c₁.Frame (c'.mapTimers a ({ · with patrolling := true })) :=
        (hs a).toFrame.trans (frame_mapTimers a _ c')
      have hset : (m.node.replica a.side).settings = s := by
        obtain ⟨m', hm', -, hmu⟩ := exists_member_of_upkeep? hu₁
        cases hm.symm.trans hm'
        exact (congrArg (·.standing.settings) hmu).trans h₁.settings
      have hnow₁ : c₁.elapsed = now := hf.elapsed.trans hnow
      refine ⟨hf.trans hf', { u₁ with timers := { u₁.timers with patrolling := true } }, ?_, rfl,
        .inl rfl, ?_⟩
      · refine { h₁.of_frame hf' with patrolling := fun _ => ⟨call, .inr ⟨hin, ?_⟩, hcall, ?_⟩ }
        · rw [← hnow₁]
          exact hlt
        · rw [hf'.elapsed, ← hset]
          exact hle
      · rw [upkeep?_mapTimers, (hs a).upkeep, hu₁]
        rfl
  | case2 t hdue =>
    rw [patrols, if_neg hdue]
    refine ⟨.refl c, u, h, rfl, .inr fun t' ht' => ?_, hu⟩
    cases hpatrol.symm.trans ht'
    omega

theorem timers?_of_upkeep? (hu : c.upkeep? a = some u) : c.timers? a = some u.timers := by
  obtain ⟨m, hm, -, hmu⟩ := exists_member_of_upkeep? hu
  rw [timers?, hm, ← hmu]
  rfl

/-- The state after the sweeps of a tick. -/
def swept (b : Address) (t : Timers) (c : Cluster) : Cluster :=
  ((t.sweep.forM (sweeps b c.elapsed)).run c).2

theorem run_tick {t : Timers} (ht : c.timers? b = some t) : ((tick b).run c).2 =
    if !t.running then c else if t.patrolling then swept b t c else
      ((t.patrol.forM (patrols b c.elapsed)).run (swept b t c)).2 := by
  rw [tick]
  simp only [StateT.run_bind, StateT.run_get, pure_bind, ht]
  cases t.running <;> cases t.patrolling <;> rfl

theorem spares_swept (hb : b ≠ a) (t : Timers) (c : Cluster) : Spares a c (swept b t c) := by
  unfold swept
  cases t.sweep with
  | none => exact .refl a c
  | some t => exact spares_sweeps hb c.elapsed t c

theorem spares_tick (hb : b ≠ a) (hc : c.Orderly) : Spares a c ((tick b).run c).2 := by
  cases ht : c.timers? b with
  | none =>
    rw [tick]
    simp only [StateT.run_bind, StateT.run_get, pure_bind, ht]
    exact .refl a c
  | some t =>
    rw [run_tick ht]
    have hs := spares_swept hb t c
    split_ifs
    · exact .refl a c
    · exact hs
    · refine hs.trans ?_
      cases t.patrol with
      | none => exact .refl a _
      | some t' => exact spares_patrols hb (hc.of_roll hs.roll) c.elapsed t'

/-- After the sweeps of a tick none is overdue. -/
theorem swept_self (hu : c.upkeep? a = some u) (h : u.Sound s a lo due c) :
    c.Frame (swept a u.timers c) ∧ ∃ u', u'.Sound s a lo due (swept a u.timers c) ∧
      (∀ t ∈ u'.timers.sweep, c.elapsed + 1 ≤ t.due) ∧ u'.timers.patrol = u.timers.patrol ∧
      u'.timers.patrolling = u.timers.patrolling ∧ (swept a u.timers c).upkeep? a = some u' := by
  unfold swept
  cases hsweep : u.timers.sweep with
  | none =>
    refine ⟨.refl c, u, h, fun t ht => ?_, rfl, rfl, hu⟩
    rw [hsweep] at ht
    contradiction
  | some t =>
    obtain ⟨hf, t', ht', hlt, hu'⟩ := sweeps_self hu hsweep (hsweep ▸ h.sweep)
    refine ⟨hf, { u with timers := { u.timers with sweep := some t' } }, ?_, fun t ht => ?_, rfl, rfl,
      hu'⟩
    · exact { h.of_frame hf with sweep := hf.elapsed.symm ▸ ht' }
    · cases ht
      exact hlt

theorem Tended.tick (h : c.Tended s a (c.elapsed + 1) []) :
    ((tick a).run c).2.Attended s a (c.elapsed + 1) ∧ c.Frame ((tick a).run c).2 := by
  obtain ⟨u, hu, hsound⟩ := h.upkeep
  have ht := timers?_of_upkeep? hu
  obtain ⟨hf, u', hsound', hsweep, hpatrol, hpatrolling, hu'⟩ := swept_self hu hsound
  rw [run_tick ht, hsound.running, if_neg (by simp)]
  split_ifs with hp
  · refine ⟨⟨h.orderly.of_roll hf.roll, u', hu', hsound', hsweep, .inl ?_⟩, hf⟩
    rw [hpatrolling]
    exact hp
  · cases hp' : u.timers.patrol with
    | none =>
      refine ⟨⟨h.orderly.of_roll hf.roll, u', hu', hsound', hsweep, .inr fun t ht => ?_⟩, hf⟩
      rw [hpatrol, hp'] at ht
      contradiction
    | some t =>
      obtain ⟨hf', u'', hsound'', hsweep', hlast, hu''⟩ := patrols_self
        (h.orderly.of_roll hf.roll) hf.elapsed hu' hsound' (hpatrol.trans hp')
      have hf'' := hf.trans hf'
      exact ⟨⟨h.orderly.of_roll hf''.roll, u'', hu'', hsound'', hsweep' ▸ hsweep, hlast⟩, hf''⟩

/-! Time passes. -/

theorem mem_addresses (hu : c.upkeep? a = some u) : a ∈ c.addresses := by
  obtain ⟨m, hm, -⟩ := Option.map_eq_some_iff.mp hu
  have hs := serial_of_find? hm
  obtain ⟨serial, side⟩ := a
  refine List.mem_flatMap.mpr ⟨m, List.mem_of_find?_eq_some hm, ?_⟩
  cases side <;> simp [hs]

theorem Tended.tickAll {l : List Address} (h : c.Tended s a (now + 1) []) (hnow : c.elapsed = now)
    (hl : a ∈ l ∨ c.Attended s a (now + 1)) :
    ((l.forM Cluster.tick).run c).2.Attended s a (now + 1) ∧
      ((l.forM Cluster.tick).run c).2.elapsed = now := by
  induction l generalizing c with
  | nil => exact ⟨hl.resolve_left List.not_mem_nil, hnow⟩
  | cons b l ih =>
    by_cases hb : b = a
    · subst hb
      subst hnow
      obtain ⟨h', hf⟩ := h.tick
      exact ih h'.tended hf.elapsed (.inr h')
    · have hs := spares_tick hb h.orderly
      refine ih (h.of_spares hs) (hs.elapsed.trans hnow) ?_
      rcases hl with hl | hl
      · exact .inl ((List.mem_cons.mp hl).resolve_left (Ne.symm hb))
      · exact .inr (hl.of_spares hs)

/-- Once all is done that is due nothing is. -/
theorem Tended.runDue (h : c.Tended s a lo []) :
    ((runDue).run c).2.Attended s a (c.elapsed + 1) ∧ ((runDue).run c).2.elapsed = c.elapsed := by
  let due := (c.calls.partition (·.wake ≤ c.elapsed)).1
  let c₁ : Cluster := { c with calls := (c.calls.partition (·.wake ≤ c.elapsed)).2 }
  have h₁ : c₁.Tended s a (c.elapsed + 1) due := by
    obtain ⟨u, hu, hsound⟩ := h.upkeep
    refine ⟨h.orderly.of_roll rfl, u, hu, { hsound with patrolling := fun hp => ?_ }⟩
    obtain ⟨call, hin, hcall, hle⟩ := hsound.patrolling hp
    have hin' : call ∈ c.calls := (hin.resolve_left List.not_mem_nil).1
    refine ⟨call, ?_, hcall, hle⟩
    by_cases hw : call.wake ≤ c.elapsed
    · exact .inl (by simp [due, hin', hw])
    · exact .inr ⟨by simp [c₁, hin', hw], by omega⟩
  obtain ⟨h₂, he⟩ := h₁.completeAll
  obtain ⟨u, hu, -⟩ := h₂.upkeep
  exact h₂.tickAll he (.inl (mem_addresses hu))

/-- When something is next to be done, done or not. -/
def times (c : Cluster) : List Nat :=
  c.calls.map (·.wake) ++ (c.addresses.filterMap c.timers?).flatMap Timers.dueTimes

theorem mem_times_of_upkeep? {t : Nat} (hu : c.upkeep? a = some u) (ht : t ∈ u.timers.dueTimes) :
    t ∈ c.times := by
  refine List.mem_append_right _ (List.mem_flatMap.mpr ⟨u.timers, ?_, ht⟩)
  exact List.mem_filterMap.mpr ⟨a, mem_addresses hu, timers?_of_upkeep? hu⟩

theorem nextDue?_le {goal t x : Nat} (h : c.nextDue? goal = some t) (hx : x ∈ c.times)
    (hlt : c.elapsed < x) : t ≤ x := by
  by_cases hg : x < goal
  · have hmem : x ∈ c.times.filter fun t => c.elapsed < t ∧ t < goal :=
      List.mem_filter.mpr ⟨hx, by simp [hlt, hg]⟩
    exact (List.min?_eq_some_iff.mp h).2 x hmem
  · have := (lt_of_nextDue? h).2
    omega

theorem le_of_nextDue?_none {goal x : Nat} (h : c.nextDue? goal = none) (hx : x ∈ c.times)
    (hlt : c.elapsed < x) : goal ≤ x := by
  have hnil := List.min?_eq_none_iff.mp h
  have hx' := List.filter_eq_nil_iff.mp hnil x hx
  simp only [decide_eq_true_eq] at hx'
  omega

/-- Time may pass up to when something is next to be done. -/
theorem Attended.wait {t : Nat} (h : c.Attended s a (c.elapsed + 1)) (hle : c.elapsed ≤ t)
    (ht : ∀ x ∈ c.times, c.elapsed < x → t ≤ x) : Attended s a t { c with elapsed := t } := by
  obtain ⟨u, hu, hsound, hprompt⟩ := h.upkeep
  have hdue (x : Ticker) (hx : x ∈ u.timers.sweep ∨ x ∈ u.timers.patrol) (hlt : c.elapsed < x.due) :
      t ≤ x.due := by
    refine ht _ (mem_times_of_upkeep? hu ?_) hlt
    rw [Timers.dueTimes, if_pos hsound.running, ← List.map_append]
    exact List.mem_map_of_mem (List.mem_append.mpr (hx.imp Option.mem_toList.mpr Option.mem_toList.mpr))
  refine ⟨h.orderly.of_roll rfl, u, hu, ?_, ?_⟩
  · refine { hsound with
      sweep := hsound.sweep.mono hle
      patrol := hsound.patrol.mono hle
      patrolling := fun hp => ?_ }
    obtain ⟨call, hin, hcall, hwake⟩ := hsound.patrolling hp
    obtain ⟨hin, hlo⟩ := hin.resolve_left List.not_mem_nil
    have hx := ht _ (List.mem_append_left _ (List.mem_map_of_mem hin)) hlo
    exact ⟨call, .inr ⟨hin, hx⟩, hcall, hwake.trans (Nat.add_le_add_right hle _)⟩
  · constructor
    · exact fun x hx => hdue x (.inl hx) (hprompt.sweep x hx)
    · exact hprompt.patrol.imp_right fun hpatrol x hx => hdue x (.inr hx) (hpatrol x hx)

theorem Attended.passUntil {goal : Nat} (h : c.Attended s a (c.elapsed + 1)) (hle : c.elapsed ≤ goal) :
    (passUntil goal c).Attended s a goal ∧ (passUntil goal c).elapsed = goal := by
  induction c using passUntil.induct goal with
  | case1 c hnone =>
    rw [Cluster.passUntil]
    split
    · exact ⟨h.wait hle fun x hx => le_of_nextDue?_none hnone hx, rfl⟩
    · rename_i t ht
      rw [hnone] at ht
      contradiction
  | case2 c t ht ih =>
    have hlt := lt_of_nextDue? ht
    have hwait := h.wait (Nat.le_of_lt hlt.1) fun x hx => nextDue?_le ht hx
    obtain ⟨h', he⟩ := hwait.tended.runDue
    rw [Cluster.passUntil]
    split
    · rename_i hnone
      rw [hnone] at ht
      contradiction
    · rename_i t' ht'
      cases ht.symm.trans ht'
      generalize (runDue.run { c with elapsed := t }).2 = c' at h' he ih ⊢
      have hsame : { c' with elapsed := t } = c' := by
        subst he
        rfl
      rw [hsame] at ih ⊢
      subst he
      exact ih h' (Nat.le_of_lt hlt.2)

theorem Attended.drain (h : c.Attended s a lo) (b : Address) :
    ((drain b).run c).2.Attended s a lo := by
  obtain ⟨hf, hu'⟩ := frame_drain h.orderly b a
  obtain ⟨u, hu, hsound, hprompt⟩ := h.upkeep
  rw [hu] at hu'
  refine ⟨h.orderly.of_roll hf.roll, ?_⟩
  split_ifs at hu'
  · exact ⟨_, hu', hsound.drained.of_frame hf, hprompt.sweep, hprompt.patrol⟩
  · exact ⟨u, hu', hsound.of_frame hf, hprompt⟩

/-- A store that is attended to at one time is so whenever time has passed. -/
theorem UpToDate.pass (h : c.UpToDate s a) (ms : Nat) : ((pass ms).run c).2.UpToDate s a := by
  rw [Cluster.pass]
  split_ifs with hms
  · exact h
  · obtain ⟨h₁, he⟩ := (Attended.tended h).runDue
    let c₁ := (runDue.run c).2
    obtain ⟨h₂, he₂⟩ := forM_induction (f := Cluster.drain)
      (P := fun c' => c'.Attended s a (c.elapsed + 1) ∧ c'.elapsed = c.elapsed)
      (fun b c' h' => ⟨h'.1.drain b, (frame_drain h'.1.orderly b a).1.elapsed.trans h'.2⟩)
      c₁.addresses (c := c₁) ⟨h₁, he⟩
    rw [← he₂] at h₂
    obtain ⟨h₃, he₃⟩ := h₂.passUntil (Nat.le_add_right _ ms)
    exact h₃.upToDate he₃

end Cluster

end ServiceDirectory
