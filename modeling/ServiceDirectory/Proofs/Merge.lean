import Mathlib.Data.List.Induction
import ServiceDirectory.Proofs.Faults
import ServiceDirectory.Proofs.Operation

namespace ServiceDirectory.Replica

variable {r r' r'' : Replica} {now : Instant} {k : Bytes} {e : Entry} {batch : List Entry}
  {v : Verdict} {o o' : MergeOutcome}

/-! What one entry of a batch does. -/

namespace Weighed

theorem faults (h : Weighed now e r v r') : r'.engine.faults = r.engine.faults := by
  cases h <;> rfl

/-- Only what is applied changes anything that is stored. -/
theorem engine_eq (h : Weighed now e r v r') (hv : v ≠ .applied) : r'.engine = r.engine := by
  cases h with
  | malformed hf => rfl
  | late hf ha => rfl
  | beaten ha hr hw => rfl
  | won ha hr hw => exact absurd rfl hv

/-- Other keys stay as they are, and all of them do where the entry is not admitted. -/
theorem untouched (h : Weighed now e r v r') (hk : e.isAdmitted now → e.key ≠ k) :
    r'.engine.medium.get? k = r.engine.medium.get? k ∧
      r'.engine.medium.row? k = r.engine.medium.row? k := by
  cases h with
  | malformed hf => exact ⟨rfl, rfl⟩
  | late hf ha => exact ⟨rfl, rfl⟩
  | beaten ha hr hw => exact ⟨rfl, rfl⟩
  | won ha hr hw => exact Medium.get?_put_of_ne (hk ha)

theorem readable_key (h : Weighed now e r v r') (ht : r.Takes e) (ha : e.isAdmitted now) :
    r'.Readable e.key := by
  cases h with
  | malformed hf => simp [Entry.isAdmitted, hf] at ha
  | late hf hn => exact absurd ha hn
  | beaten _ hr hw => exact hr
  | won _ hr hw =>
    rw [Readable, held_store ht, if_pos rfl]
    exact Medium.get?_put_self ht

theorem readable (h : Weighed now e r v r') (ht : r.Takes e) (hr : r.Readable k) :
    r'.Readable k := by
  by_cases hk : e.isAdmitted now → e.key ≠ k
  · have hg := (h.untouched hk).1
    simpa only [Readable, Replica.held, Medium.held, hg] using hr
  · obtain ⟨ha, hke⟩ := Classical.not_imp.mp hk
    exact not_not.mp hke ▸ h.readable_key ht ha

theorem applied_iff (h : Weighed now e r v r') (ht : r.Takes e) :
    v = .applied ↔ r.held e.key ≠ r'.held e.key := by
  cases h with
  | malformed hf => exact iff_of_false (by simp) fun hne => hne rfl
  | late hf ha => exact iff_of_false (by simp) fun hne => hne rfl
  | beaten ha hr hw => exact iff_of_false (by simp) fun hne => hne rfl
  | won ha hr hw =>
    have hwe : e = Entry.resolve (r.held e.key) e :=
      (Entry.resolve_eq (r.held e.key) e).resolve_left hw
    rw [held_store ht, if_pos rfl]
    exact iff_of_true rfl fun heq => hw (heq.trans (congrArg some hwe))

/-- An entry is applied exactly if it is admitted and outranks what is held, if anything. -/
theorem applied_iff_outranks (h : Weighed now e r v r') :
    v = .applied ↔ e.isAdmitted now ∧ ¬ ∃ x ∈ r.held e.key, ¬ e.Outranks x := by
  rw [← Entry.eq_resolve_iff]
  cases h with
  | malformed hf => simp [Entry.isAdmitted, hf]
  | late hf ha => exact iff_of_false (by simp) fun hw => ha hw.1
  | beaten ha hr hw => exact iff_of_false (by simp) fun hw' => hw'.2 hw
  | won ha hr hw => exact iff_of_true rfl ⟨ha, hw⟩

end Weighed

/-- Where an entry gets a verdict, it was weighed as if no fault had been due. -/
theorem weighed_of_run (h : (mergeEntry now e).run.run r = (.ok v, r')) :
    Weighed now e r.spared v r'.spared := by
  have hs := pervasive_endures.mergeEntry now e h
  by_cases ha : e.isAdmitted now
  · rcases r.spared.readable_or_error e.key with hr | ⟨f, hf⟩
    · obtain ⟨v', s, hrun, hw⟩ := weighed_of_readable ha rfl hr
      cases hrun.symm.trans hs
      exact hw
    · rw [mergeEntry_of_isAdmitted ha] at hs
      obtain ⟨x, s, hget, -⟩ := exists_run_of_bind hs
      rw [Engine.get, run_onEngine rfl, hf] at hget
      injection congrArg Prod.fst hget
  · obtain ⟨v', s, hrun, hw⟩ := weighed_of_not_isAdmitted ha r.spared
    cases hrun.symm.trans hs
    exact hw

/-! What a whole batch does, from its last entry back. -/

theorem exists_run_of_merge_concat (h : (merge now (batch ++ [e])).run.run r = (.ok o', r'')) :
    ∃ o r' v, (merge now batch).run.run r = (.ok o, r') ∧
      (mergeEntry now e).run.run r' = (.ok v, r'') ∧ o' = o.count v := by
  rw [merge, mergeFrom_append] at h
  obtain ⟨o, r', hrun, hrest⟩ := exists_run_of_bind h
  rw [mergeFrom] at hrest
  obtain ⟨v, s, hrun', hend⟩ := exists_run_of_bind hrest
  cases hend
  exact ⟨o, r', v, hrun, hrun', rfl⟩

/-- What a merge did that came to its end. -/
structure Folded (now : Instant) (batch : List Entry) (r : Replica) (o : MergeOutcome)
    (r' : Replica) : Prop where
  frame : Frame r r'
  held (k : Bytes) : r'.held k =
    Entry.settle (r.held k) (batch.filter fun e => e.key = k ∧ e.isAdmitted now)
  untouched (k : Bytes) : (∀ e ∈ batch, e.isAdmitted now → e.key ≠ k) →
    r'.engine.medium.get? k = r.engine.medium.get? k ∧
      r'.engine.medium.row? k = r.engine.medium.row? k
  readable : ∀ e ∈ batch, e.isAdmitted now → r'.Readable e.key
  rejected : o.rejected = batch.countP (·.flaw?.isSome)
  total : o.total = batch.length

theorem Folded.nil (r : Replica) : Folded now [] r {} r where
  frame := .refl r
  held _ := rfl
  untouched _ _ := ⟨rfl, rfl⟩
  readable _ h := absurd h List.not_mem_nil
  rejected := rfl
  total := rfl

theorem Folded.concat (h : Folded now batch r o r') (ht : r.Takes e)
    (hw : Weighed now e r'.spared v r''.spared) :
    Folded now (batch ++ [e]) r (o.count v) r'' where
  frame := h.frame.trans ⟨hw.frame.nodeId, hw.frame.settings, hw.frame.outbox, hw.frame.takes⟩
  held k := by
    have ht' : r'.Takes e := (h.frame.takes e).mpr ht
    have hk : r''.held k = _ := hw.held ht' k
    rw [hk, List.filter_append, Entry.settle_append, ← h.held, Entry.settle_filter_singleton]
    rfl
  untouched k hk := by
    have hu := hw.untouched (k := k) (hk e (by simp))
    have hb := h.untouched k fun x hx => hk x (List.mem_append_left [e] hx)
    exact ⟨hu.1.trans hb.1, hu.2.trans hb.2⟩
  readable x hx ha := by
    have ht' : r'.spared.Takes e := (h.frame.takes e).mpr ht
    rcases List.mem_append.mp hx with hx | hx
    · exact hw.readable ht' (h.readable x hx ha)
    · exact List.mem_singleton.mp hx ▸ hw.readable_key ht' (List.mem_singleton.mp hx ▸ ha)
  rejected := by
    rw [MergeOutcome.rejected_count, h.rejected, List.countP_append, List.countP_singleton]
    simp only [hw.rejected_iff]
  total := by rw [MergeOutcome.total_count, h.total, List.length_append, List.length_singleton]

theorem folded_of_run (ht : ∀ e ∈ batch, r.Takes e)
    (h : (merge now batch).run.run r = (.ok o, r')) : Folded now batch r o r' := by
  induction batch using List.reverseRecOn generalizing o r' with
  | nil =>
    cases h
    exact .nil r
  | append_singleton es e ih =>
    obtain ⟨o₁, r₁, v, hrun, hlast, rfl⟩ := exists_run_of_merge_concat h
    have hes := ih (fun x hx => ht x (List.mem_append_left [e] hx)) hrun
    exact hes.concat (ht e (by simp)) (weighed_of_run hlast)

/-- The node once the first `n` entries of a batch have been weighed. -/
def midway (now : Instant) (batch : List Entry) (n : Nat) (r : Replica) : Replica :=
  ((merge now (batch.take n)).run.run r).2

theorem midway_append (es es' : List Entry) {n : Nat} (h : n ≤ es.length) :
    midway now (es ++ es') n r = midway now es n r := by
  rw [midway, midway, List.take_append_of_le_length h]

theorem midway_length (h : (merge now batch).run.run r = (.ok o, r')) :
    midway now batch batch.length r = r' := by
  rw [midway, List.take_length, h]

/-- Whether weighing the entry at a position changed what is held under its key. -/
def changesAt (now : Instant) (batch : List Entry) (r : Replica) (p : Entry × Nat) : Bool :=
  (midway now batch p.2 r).held p.1.key ≠ (midway now batch (p.2 + 1) r).held p.1.key

theorem countP_changesAt_append (es : List Entry) (e : Entry) :
    (es.zipIdx).countP (changesAt now (es ++ [e]) r) = (es.zipIdx).countP (changesAt now es r) := by
  refine List.countP_congr fun p hp => ?_
  have hlt : p.2 < es.length := by simpa using List.snd_lt_of_mem_zipIdx hp
  rw [changesAt, changesAt, midway_append _ _ hlt.le, midway_append _ _ hlt]

/-- Applied are just the positions at which what is held changed. -/
theorem applied_eq_countP (ht : ∀ e ∈ batch, r.Takes e)
    (h : (merge now batch).run.run r = (.ok o, r')) :
    o.applied = batch.zipIdx.countP (changesAt now batch r) := by
  induction batch using List.reverseRecOn generalizing o r' with
  | nil =>
    cases h
    rfl
  | append_singleton es e ih =>
    have hend := midway_length h
    obtain ⟨o₁, r₁, v, hrun, hlast, rfl⟩ := exists_run_of_merge_concat h
    have htes : ∀ x ∈ es, r.Takes x := fun x hx => ht x (List.mem_append_left [e] hx)
    have ht₁ : r₁.Takes e := ((folded_of_run htes hrun).frame.takes e).mpr (ht e (by simp))
    have hv : v = .applied ↔ changesAt now (es ++ [e]) r (e, es.length) := by
      rw [List.length_append, List.length_singleton] at hend
      rw [changesAt, midway_append _ _ le_rfl, midway_length hrun, hend, decide_eq_true_iff]
      exact (weighed_of_run hlast).applied_iff ht₁
    rw [MergeOutcome.applied_count, ih htes hrun, List.zipIdx_append, List.countP_append,
      countP_changesAt_append]
    simp [hv, List.countP_singleton]

/-- A merge that succeeds leaves under each key the fold of what came in for it and was admitted, and
other keys as they were. It counts the malformed entries as rejected and the positions at which what is
held changed as applied, gives each entry one verdict, and queues nothing. -/
theorem merge_folds (ht : ∀ e ∈ batch, r.Takes e)
    (h : (merge now batch).run.run r = (.ok o, r')) :
    (∀ k, r'.held k = Entry.settle (r.held k) (batch.filter fun e => e.key = k ∧ e.isAdmitted now)) ∧
    (∀ k, (∀ e ∈ batch, e.isAdmitted now → e.key ≠ k) →
      r'.engine.medium.get? k = r.engine.medium.get? k ∧
        r'.engine.medium.row? k = r.engine.medium.row? k) ∧
    o.rejected = batch.countP (·.flaw?.isSome) ∧
    o.applied = batch.zipIdx.countP (changesAt now batch r) ∧
    o.applied + o.ignored + o.rejected = batch.length ∧ r'.outbox = r.outbox := by
  have hf := folded_of_run ht h
  exact ⟨hf.held, hf.untouched, hf.rejected, applied_eq_countP ht h, hf.total, hf.frame.outbox⟩

/-- Three copies of one key, the last of them twice, with a malformed entry and one that came too late
in between. -/
def assorted : List Entry := [
  { key := [107], value := some [50], version := 2, origin := "a", timestamp := 100, maxAge := none },
  { key := [107], value := some [49], version := 1, origin := "", timestamp := 300, maxAge := none },
  { key := [107], value := some [51], version := 1, origin := "b", timestamp := 200, maxAge := none },
  { key := [108], value := some [52], version := 1, origin := "b", timestamp := 200, maxAge := some 1 },
  { key := [107], value := some [51], version := 1, origin := "b", timestamp := 200, maxAge := none }]

theorem run_merge_assorted : (merge 1000 assorted).run.run (infant "x") =
    (.ok { applied := 2, ignored := 2, rejected := 1 }, midway 1000 assorted 5 (infant "x")) :=
  Prod.ext (by decide +kernel) rfl

/-- The later of two origins stays, its second copy changes nothing, and the late entry leaves no trace. -/
theorem merge_folds_assorted : (∀ e ∈ assorted, (infant "x").Takes e) ∧
    (merge 1000 assorted).run.run (infant "x") =
      (.ok { applied := 2, ignored := 2, rejected := 1 }, midway 1000 assorted 5 (infant "x")) ∧
    (midway 1000 assorted 5 (infant "x")).held [107] = assorted[4]? ∧
    (midway 1000 assorted 5 (infant "x")).held [108] = none ∧
    assorted.zipIdx.countP (changesAt 1000 assorted (infant "x")) = 2 := by
  have ht : ∀ e ∈ assorted, (infant "x").Takes e := fun _ _ => trivial
  obtain ⟨hheld, -, -, happlied, -⟩ := merge_folds ht run_merge_assorted
  refine ⟨ht, run_merge_assorted, ?_, ?_, happlied.symm⟩
  · rw [hheld]
    decide +kernel
  · rw [hheld]
    decide +kernel

/-! The same batch once more. -/

theorem exists_run_mergeFrom_of_readable (hf : r.engine.faults = []) (ht : ∀ e ∈ batch, r.Takes e)
    (hr : ∀ e ∈ batch, e.isAdmitted now → r.Readable e.key) (o : MergeOutcome) :
    ∃ o' r', (mergeFrom now o batch).run.run r = (.ok o', r') := by
  induction batch generalizing r o with
  | nil => exact ⟨o, r, rfl⟩
  | cons e es ih =>
    obtain ⟨v, r₁, hrun, hw⟩ := exists_weighed now hf (hr e (by simp))
    have hte := ht e (by simp)
    obtain ⟨o', r₂, hrun'⟩ := ih (hw.faults.trans hf)
      (fun x hx => (hw.frame.takes x).mpr (ht x (List.mem_cons_of_mem e hx)))
      (fun x hx ha => hw.readable hte (hr x (List.mem_cons_of_mem e hx) ha)) (o.count v)
    exact ⟨o', r₂, by rw [mergeFrom, run_bind hrun, hrun']⟩

/-- Nothing is applied exactly if each admitted entry finds one that it does not outrank. -/
theorem applied_eq_zero_iff (h : (merge now batch).run.run r = (.ok o, r')) :
    (o.applied = 0 ↔ ∀ e ∈ batch, e.isAdmitted now → ∃ x ∈ r.held e.key, ¬ e.Outranks x) ∧
      (o.applied = 0 → r'.engine.medium = r.engine.medium) := by
  induction batch using List.reverseRecOn generalizing o r' with
  | nil =>
    cases h
    simp
  | append_singleton es e ih =>
    obtain ⟨o₁, r₁, v, hrun, hlast, rfl⟩ := exists_run_of_merge_concat h
    have hw := weighed_of_run hlast
    obtain ⟨hiff, heq⟩ := ih hrun
    have hcount : (o₁.count v).applied = 0 ↔ o₁.applied = 0 ∧ v ≠ .applied := by
      rw [MergeOutcome.applied_count]
      split_ifs <;> simp_all
    have hv : o₁.applied = 0 →
        (v ≠ .applied ↔ (e.isAdmitted now → ∃ x ∈ r.held e.key, ¬ e.Outranks x)) := by
      intro h0
      have hheld : r₁.spared.held = r.held := by
        funext k
        change r₁.engine.medium.held k = _
        rw [heq h0]
        rfl
      rw [ne_eq, hw.applied_iff_outranks, hheld, not_and, not_not]
    refine ⟨?_, fun h0 => ?_⟩
    · rw [hcount, List.forall_mem_append, List.forall_mem_singleton, ← hiff]
      exact and_congr_right hv
    · obtain ⟨h0, hne⟩ := hcount.mp h0
      have hm := congrArg Engine.medium (hw.engine_eq hne)
      exact hm.trans (heq h0)

/-- A batch that went in finds nothing to do if it is merged again: with no fault due none of it is
applied, as many entries are rejected, and what is stored stays. -/
def MergesOnce (now : Instant) (batch : List Entry) (r : Replica) : Prop :=
  ∀ o r', (merge now batch).run.run r = (.ok o, r') → ∃ o' r'',
    (merge now batch).run.run r'.spared = (.ok o', r'') ∧ o'.applied = 0 ∧
      o'.rejected = o.rejected ∧ r''.engine.medium = r'.engine.medium

/-- No entry that a merge of the batch admits outranks what its key ends with. -/
def Unsurpassed (now : Instant) (batch : List Entry) (r : Replica) : Prop :=
  ∀ e ∈ batch, e.isAdmitted now → ∀ w ∈ Entry.settle (r.held e.key)
    (batch.filter fun x => x.key = e.key ∧ x.isAdmitted now), ¬ e.Outranks w

theorem mem_filter_self (he : e ∈ batch) (ha : e.isAdmitted now) :
    e ∈ batch.filter fun x => x.key = e.key ∧ x.isAdmitted now :=
  List.mem_filter.mpr ⟨he, decide_eq_true ⟨rfl, ha⟩⟩

theorem unsurpassed_of_nodup (hn : (batch.map (·.key)).Nodup) (now : Instant) (r : Replica) :
    Unsurpassed now batch r := by
  intro e he ha w hw
  refine Entry.not_outranks_of_settle (mem_filter_self he ha) (fun x hx z hz ho => ?_) hw
  obtain ⟨hxb, hx⟩ := List.mem_filter.mp hx
  have hxe : x = e := List.inj_on_of_nodup_map hn hxb he (decide_eq_true_iff.mp hx).1
  exact absurd (hxe ▸ ho) (Entry.not_outranks_self e)

/-- Where versions count milliseconds, no batch has anything to do twice. -/
theorem unsurpassed_of_stamped (hb : ∀ e ∈ batch, e.Stamped)
    (hr : ∀ e ∈ batch, ∀ x ∈ r.held e.key, x.Stamped) (now : Instant) :
    Unsurpassed now batch r := by
  intro e he ha w hw
  refine Entry.not_outranks_of_settle (mem_filter_self he ha) (fun x hx z hz => ?_) hw
  have hxs := hb x (List.mem_of_mem_filter hx)
  have hzs : z.Stamped := hz.elim (hr e he z) fun hz => hb z (List.mem_of_mem_filter hz)
  exact Entry.Outranks.trans (hb e he) hxs hzs

/-- A batch merges once exactly if no entry of it outranks what its key ends with. -/
theorem mergesOnce_iff (ht : ∀ e ∈ batch, r.Takes e)
    (h : (merge now batch).run.run r = (.ok o, r')) :
    MergesOnce now batch r ↔ Unsurpassed now batch r := by
  have hf := folded_of_run ht h
  have ht' : ∀ e ∈ batch, r'.spared.Takes e := fun e he => (hf.frame.takes e).mpr (ht e he)
  obtain ⟨o', r'', hrun⟩ := exists_run_mergeFrom_of_readable (r := r'.spared) rfl ht' hf.readable {}
  have hf' := folded_of_run ht' hrun
  have hzero := applied_eq_zero_iff hrun
  have hend : Unsurpassed now batch r ↔
      ∀ e ∈ batch, e.isAdmitted now → ∃ x ∈ r'.held e.key, ¬ e.Outranks x := by
    refine forall_congr' fun e => forall_congr' fun he => forall_congr' fun ha => ?_
    rw [hf.held]
    obtain ⟨w, hw⟩ := Entry.exists_settle_of_mem (r.held e.key) (mem_filter_self he ha)
    rw [hw]
    simp
  constructor
  · intro hall
    obtain ⟨o₂, r₂, hrun₂, ha, -, -⟩ := hall o r' h
    cases hrun₂.symm.trans hrun
    exact hend.mpr (hzero.1.mp ha)
  · intro hu o₁ r₁ h₁
    cases h₁.symm.trans h
    have ha := hzero.1.mpr (hend.mp hu)
    exact ⟨o', r'', hrun, ha, hf'.rejected.trans hf.rejected.symm, hzero.2 ha⟩

theorem mergesOnce_assorted : (∀ e ∈ assorted, (infant "x").Takes e) ∧
    MergesOnce 1000 assorted (infant "x") := by
  have ht : ∀ e ∈ assorted, (infant "x").Takes e := fun _ _ => trivial
  refine ⟨ht, (mergesOnce_iff ht run_merge_assorted).mpr ?_⟩
  unfold Unsurpassed
  decide +kernel

/-- Three valid copies of one key of which each outranks another: the last of them stays at first, and
then loses to the second. -/
theorem not_mergesOnce_cycle : (∀ e ∈ Entry.cycle.reverse, e.key = [107] ∧ e.flaw? = none) ∧
    ¬ MergesOnce 1000 Entry.cycle.reverse (infant "x") := by
  refine ⟨by decide, fun h => ?_⟩
  have hrun : (merge 1000 Entry.cycle.reverse).run.run (infant "x") =
      (.ok { applied := 2, ignored := 1, rejected := 0 },
        midway 1000 Entry.cycle.reverse 3 (infant "x")) := Prod.ext (by decide +kernel) rfl
  obtain ⟨o', r'', hrun', ha, -⟩ := h _ _ hrun
  have hagain : ((merge 1000 Entry.cycle.reverse).run.run
      (midway 1000 Entry.cycle.reverse 3 (infant "x")).spared).1 =
        .ok { applied := 1, ignored := 2, rejected := 0 } := by decide +kernel
  rw [hrun'] at hagain
  cases hagain
  contradiction

end ServiceDirectory.Replica
