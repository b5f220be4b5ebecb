import ServiceDirectory.Proofs.LastWrite
import ServiceDirectory.Proofs.Replacement
import ServiceDirectory.Proofs.Request

namespace ServiceDirectory

theorem Draft.version_le_of_leaves {d : Draft} {origin : String} {now : Instant} {k : Bytes}
    {held : Option Entry} {x : Entry} {m : Nat} (hnow : now.toInt ≤ m)
    (hheld : ∀ y ∈ held, y.version.toNat ≤ m) (hx : d.leaves origin now k held = some x) :
    x.version.toNat ≤ m + 1 := by
  rw [leaves] at hx
  split at hx
  · rcases Entry.resolve_eq held (d.over origin now held) with he | he
    · exact Nat.le_succ_of_le (hheld x (he.trans hx))
    · rw [← Option.some.inj hx, ← he]
      exact Entry.version_over_le hnow hheld
  · exact Nat.le_succ_of_le (hheld x hx)

/-- What a caller brought about among the registered services. -/
inductive Deed
  | registered (s : Service)
  | unregistered (id : Uuid)
deriving DecidableEq

namespace Deed

variable {s : Service} {id : Uuid} {past : List Deed}

/-- What it writes: a record without end, or a tombstone. -/
def draft : Deed → Draft
  | registered s => ⟨s.key, some s.encode, none⟩
  | unregistered id => ⟨Utf8.encode id.text, none, none⟩

/-- The services that were registered and not unregistered since. -/
def standing : List Deed → List Service
  | [] => []
  | registered s :: ds => if unregistered s.id ∈ ds then standing ds else s :: standing ds
  | unregistered _ :: ds => standing ds

theorem standing_concat_registered (ds : List Deed) (s : Service) :
    standing (ds ++ [registered s]) = standing ds ++ [s] := by
  induction ds with
  | nil => rfl
  | cons d ds ih =>
    cases d with
    | unregistered id => exact ih
    | registered t =>
      have hmem : unregistered t.id ∈ ds ++ [registered s] ↔ unregistered t.id ∈ ds := by simp
      simp only [List.cons_append, standing, hmem, ih]
      split_ifs <;> rfl

theorem standing_concat_unregistered (ds : List Deed) (id : Uuid) :
    standing (ds ++ [unregistered id]) = (standing ds).filter (·.id ≠ id) := by
  induction ds with
  | nil => rfl
  | cons d ds ih =>
    cases d with
    | unregistered _ => exact ih
    | registered t =>
      have hmem : unregistered t.id ∈ ds ++ [unregistered id] ↔ unregistered t.id ∈ ds ∨ t.id = id := by
        simp
      simp only [List.cons_append, standing, hmem, ih]
      by_cases hds : unregistered t.id ∈ ds
      · rw [if_pos (.inl hds), if_pos hds]
      · by_cases ht : t.id = id
        · rw [if_pos (.inr ht), if_neg hds, List.filter_cons_of_neg (by simpa using ht)]
        · rw [if_neg (not_or.mpr ⟨hds, ht⟩), if_neg hds, List.filter_cons_of_pos (by simpa using ht)]

theorem registered_of_mem_standing (h : s ∈ standing past) : registered s ∈ past := by
  induction past with
  | nil => contradiction
  | cons d ds ih =>
    cases d with
    | unregistered _ => exact List.mem_cons_of_mem _ (ih h)
    | registered t =>
      rw [standing] at h
      split_ifs at h
      · exact List.mem_cons_of_mem _ (ih h)
      · rcases List.mem_cons.mp h with rfl | h
        · exact List.mem_cons_self
        · exact List.mem_cons_of_mem _ (ih h)

/-- An id under which nothing was ever registered. It may have been unregistered all the same, though
not so often that the versions of its tombstone came to their end: at the end of time nothing but its
version ranks a write above a tombstone. -/
structure Unused (past : List Deed) (id : Uuid) : Prop where
  id_ne : ∀ s, registered s ∈ past → s.id ≠ id
  count_lt : past.count (unregistered id) < 2 ^ 63

theorem Unused.key_ne (h : Unused past id) (hs : s ∈ standing past) : s.key ≠ Utf8.encode id.text :=
  fun hk => h.id_ne s (registered_of_mem_standing hs) (Uuid.encode_text_inj.mp hk)

/-! What stands under a key. -/

theorem find?_concat_registered (hu : Unused past s.id) (k : Bytes) :
    (standing (past ++ [registered s])).find? (·.key = k) =
      if s.key = k then some s else (standing past).find? (·.key = k) := by
  rw [standing_concat_registered, List.find?_append, List.find?_singleton]
  by_cases hk : s.key = k
  · subst hk
    have hnone : (standing past).find? (·.key = s.key) = none :=
      List.find?_eq_none.mpr fun t ht hkey => hu.key_ne ht (of_decide_eq_true hkey)
    rw [hnone]
    simp
  · simp [hk]

theorem find?_concat_unregistered (past : List Deed) (id : Uuid) (k : Bytes) :
    (standing (past ++ [unregistered id])).find? (·.key = k) =
      if Utf8.encode id.text = k then none else (standing past).find? (·.key = k) := by
  rw [standing_concat_unregistered, List.find?_filter]
  split_ifs with hk
  · refine List.find?_eq_none.mpr fun t _ ht => ?_
    simp only [decide_eq_true_eq] at ht
    exact ht.1 (Uuid.encode_text_inj.mp (ht.2.trans hk.symm))
  · congr 1
    funext t
    refine decide_eq_decide.mpr ?_
    simp only [decide_eq_true_eq, and_iff_right_iff_imp]
    rintro htk rfl
    exact hk htk

end Deed

namespace Replica

variable {r r' : Replica} {now : Instant} {past : List Deed} {d : Deed} {k : Bytes} {s : Service}
  {id : Uuid} {x : Entry}

open Deed

/-- A durable store that holds just what was registered and not unregistered since, and tombstones. -/
structure Records (past : List Deed) (r : Replica) : Prop where
  stocked : r.Stocked
  nodeId : (Utf8.encode r.nodeId).length < 2 ^ 64
  durable : ∃ rows, r.engine.medium = .durable rows
  own (k : Bytes) : ∀ x ∈ r.held k, x.origin = r.nodeId ∧ x.maxAge = none
  value (k : Bytes) : (r.held k).bind (·.value) = ((standing past).find? (·.key = k)).map Service.encode
  version (id : Uuid) : (∀ s, registered s ∈ past → s.id ≠ id) →
    ∀ x ∈ r.held (Utf8.encode id.text), x.version.toNat < 2 ^ 63 + past.count (unregistered id)
  distinct : ((standing past).map Service.key).Nodup

namespace Records

theorem start (name : String) {nodeId : String} (settings : Settings)
    (hid : (Utf8.encode nodeId).length < 2 ^ 64) :
    Records [] (Replica.start name nodeId settings (Medium.fresh true)) := by
  have hn (k : Bytes) : (Replica.start name nodeId settings (Medium.fresh true)).held k = none :=
    Medium.held_fresh true k
  refine ⟨stocked_start .., hid, ⟨_, rfl⟩, fun k x hx => ?_, fun k => ?_, fun id _ x hx => ?_, .nil⟩
  · exact absurd ((hn k).symm.trans hx) (by simp)
  · rw [hn]
    rfl
  · exact absurd ((hn _).symm.trans hx) (by simp)

theorem of_engine_eq (h : Records past r) (he : r'.engine = r.engine) (hid : r'.nodeId = r.nodeId) :
    Records past r' := by
  have hheld : r'.held = r.held := by
    funext k
    rw [held, held, he]
  refine ⟨h.stocked.of_engine_eq he, hid ▸ h.nodeId, he ▸ h.durable, ?_, ?_, ?_, h.distinct⟩
  · rw [hheld, hid]
    exact h.own
  · rw [hheld]
    exact h.value
  · rw [hheld]
    exact h.version

/-- What is held here never expires. -/
theorem isExpired_eq_false (h : Records past r) (hx : r.held k = some x) (now : Instant) :
    x.isExpired now = false := by
  simp [Entry.isExpired, Entry.expiresAt, (h.own k x hx).2]

theorem isLive_eq (h : Records past r) (hx : r.held k = some x) (now : Instant) :
    x.isLive now = x.value.isSome := by
  rw [Entry.isLive, h.isExpired_eq_false hx, Entry.isTombstone]
  cases x.value <;> rfl

/-- A sweep takes tombstones only, which nobody sees. -/
theorem sweepOnce (h : Records past r) (now : Instant) : Records past (r.sweepOnce now) := by
  have hs := h.stocked.toSound
  have hfr : Frame r (r.sweepOnce now) := frame_sweepOnce hs
  refine ⟨h.stocked.sweepOnce, hfr.nodeId ▸ h.nodeId, ?_, fun k x hx => ?_, fun k => ?_,
    fun id hid x hx => ?_, h.distinct⟩
  · obtain ⟨rows, hm⟩ := h.durable
    rw [Replica.sweepOnce, Engine.sweepOnce, Engine.removeExpired, run_guarded hs.faults]
    exact ⟨_, congrArg (fun m => (Medium.sweep now _ m).2) hm⟩
  · rw [held_sweepOnce hs] at hx
    exact hfr.nodeId ▸ h.own k x (Option.filter_eq_some_iff.mp hx).1
  · rw [held_sweepOnce hs, ← h.value]
    cases hk : r.held k with
    | none => rfl
    | some x =>
      rw [Option.filter_some]
      split
      · rfl
      · rename_i hc
        rw [Entry.isCollectable, h.isExpired_eq_false hk, Entry.isTombstone] at hc
        cases hv : x.value with
        | none => simp [hv]
        | some v => simp [hv] at hc
  · rw [held_sweepOnce hs] at hx
    exact h.version id hid x (Option.filter_eq_some_iff.mp hx).1

theorem restarted (h : Records past r) : Records past r.restarted := by
  refine h.of_engine_eq ?_ rfl
  obtain ⟨rows, hm⟩ := h.durable
  change ({ medium := r.engine.medium.reopened } : Engine) = r.engine
  rw [hm, Medium.reopened, ← hm, ← h.stocked.faults]

theorem isLiveAt_iff (h : Records past r) :
    r.isLiveAt now k ↔ ∃ s ∈ standing past, s.key = k := by
  have hany : r.isLiveAt now k = ((r.held k).bind (·.value)).isSome := by
    rw [isLiveAt]
    cases hk : r.held k with
    | none => rfl
    | some x => exact h.isLive_eq hk now
  rw [hany, h.value, Option.isSome_map, List.find?_isSome]
  simp

theorem serviceAt_eq (h : Records past r) (now : Instant) (k : Bytes) :
    r.serviceAt now k = (standing past).find? (·.key = k) := by
  have hvalue : r.serviceAt now k = ((r.held k).bind (·.value)).bind Service.decode? := by
    rw [serviceAt]
    cases hk : r.held k with
    | none => rfl
    | some x =>
      rw [Option.filter_some, h.isLive_eq hk]
      cases hv : x.value <;> simp [Entry.service?, hv]
  rw [hvalue, h.value]
  cases (standing past).find? (·.key = k) <;> simp

theorem serviceAt_eq_some_iff (h : Records past r) :
    r.serviceAt now k = some s ↔ s ∈ standing past ∧ s.key = k := by
  rw [h.serviceAt_eq]
  constructor
  · intro hf
    exact ⟨List.mem_of_find?_eq_some hf, by simpa using List.find?_some hf⟩
  · rintro ⟨hs, rfl⟩
    have hsome : ((standing past).find? (·.key = s.key)).isSome :=
      List.find?_isSome.mpr ⟨s, hs, decide_eq_true rfl⟩
    obtain ⟨t, ht⟩ := Option.isSome_iff_exists.mp hsome
    have hkey : t.key = s.key := by simpa using List.find?_some ht
    have hts : t = s := List.inj_on_of_nodup_map h.distinct (List.mem_of_find?_eq_some ht) hs hkey
    rw [ht, hts]

/-! What one more deed leaves. -/

theorem own_wrote (h : Records past r) (hw : Wrote d.draft now r r') (k : Bytes) :
    ∀ x ∈ r'.held k, x.origin = r'.nodeId ∧ x.maxAge = none := by
  intro x hx
  rw [hw.held, Draft.leaves] at hx
  rw [hw.nodeId]
  split at hx
  · rcases Entry.resolve_eq (r.held k) (d.draft.over r.nodeId now (r.held k)) with he | he
    · exact h.own k x (he.trans hx)
    · rw [← Option.some.inj hx, ← he]
      cases d <;> exact ⟨rfl, rfl⟩
  · exact h.own k x hx

/-- Whatever tombstone an unused id has left, a registration under that id prevails. -/
theorem resolve_registered (h : Records past r) (hu : Unused past s.id) (now : Instant) :
    Entry.resolve (r.held s.key) ((registered s).draft.over r.nodeId now (r.held s.key)) =
      (registered s).draft.over r.nodeId now (r.held s.key) := by
  cases hk : r.held s.key with
  | none => rfl
  | some x =>
    have hv := h.version s.id hu.id_ne x hk
    have hc := hu.count_lt
    refine Entry.winner_of_outranks (Entry.outranks_of_version_lt ?_ (Entry.version_lt_over ?_))
    · exact (h.own s.key x hk).1.symm
    · omega

theorem registered (h : Records past r) (hu : Unused past s.id)
    (hw : Wrote (Deed.registered s).draft now r r') (hm : ∃ rows, r'.engine.medium = .durable rows) :
    Records (past ++ [.registered s]) r' := by
  refine ⟨hw.stocked, hw.nodeId ▸ h.nodeId, hm, h.own_wrote hw, fun k => ?_, fun id hid x hx => ?_, ?_⟩
  · rw [hw.held, find?_concat_registered hu, Draft.leaves]
    change (if s.key = k then _ else _ : Option Entry).bind _ = _
    split_ifs with hk
    · subst hk
      rw [h.resolve_registered hu]
      rfl
    · exact h.value k
  · have hkey : (Deed.registered s).draft.key ≠ Utf8.encode id.text := fun hk =>
      hid s (by simp) (Uuid.encode_text_inj.mp hk)
    rw [hw.held, Draft.leaves, if_neg hkey] at hx
    have hv := h.version id (fun t ht => hid t (List.mem_append_left _ ht)) x hx
    rw [List.count_append]
    omega
  · rw [standing_concat_registered, List.map_append, List.nodup_append]
    refine ⟨h.distinct, List.nodup_singleton _, fun a ha b hb => ?_⟩
    obtain ⟨t, ht, rfl⟩ := List.mem_map.mp ha
    rw [List.mem_singleton.mp hb]
    exact hu.key_ne ht

theorem unregistered (h : Records past r) (hw : Wrote (Deed.unregistered id).draft now r r')
    (hm : ∃ rows, r'.engine.medium = .durable rows) : Records (past ++ [.unregistered id]) r' := by
  refine ⟨hw.stocked, hw.nodeId ▸ h.nodeId, hm, h.own_wrote hw, fun k => ?_, fun j hj x hx => ?_, ?_⟩
  · rw [hw.held, find?_concat_unregistered, Draft.leaves]
    change (if Utf8.encode id.text = k then _ else _ : Option Entry).bind _ = _
    split_ifs with hk
    · exact Option.isNone_iff_eq_none.mp (Draft.isTombstone_resolve rfl (r.held k))
    · exact h.value k
  · have hv := h.version j fun t ht => hj t (List.mem_append_left _ ht)
    rw [hw.held] at hx
    rw [List.count_append, List.count_singleton]
    by_cases hij : id = j
    · subst hij
      have hnow : now.toInt ≤ (2 ^ 63 - 1 + past.count (.unregistered id) : Nat) := by
        have := now.toInt_lt
        omega
      have hle := Draft.version_le_of_leaves hnow (fun y hy => by have := hv y hy; omega) hx
      rw [if_pos (beq_self_eq_true _)]
      omega
    · have hkey : (Deed.unregistered id).draft.key ≠ Utf8.encode j.text := fun hk =>
        hij (Uuid.encode_text_inj.mp hk)
      rw [Draft.leaves, if_neg hkey] at hx
      have := hv x hx
      omega
  · rw [standing_concat_unregistered]
    exact h.distinct.sublist (List.filter_sublist.map _)

/-! The view's calls. -/

theorem durable_of_run_write (h : Records past r) {value : Option Bytes} {maxAge : Option UInt64}
    {w : Entry × Option Entry} (hrun : (write now k value maxAge).run.run r = (.ok w, r')) :
    ∃ rows, r'.engine.medium = .durable rows := by
  obtain ⟨rows, hm⟩ := h.durable
  rw [run_write h.stocked.toSound rfl] at hrun
  obtain ⟨-, rfl⟩ := Prod.mk.inj hrun
  split
  · rw [engine_enqueue, store, hm]
    exact ⟨_, rfl⟩
  · rw [store, hm]
    exact ⟨_, rfl⟩

theorem exists_run_put (h : Records past r) (now : Instant) (s : Service) : ∃ r',
    (StaticView.put now s).run.run r = (.ok (), r') ∧
    (Unused past s.id → s.encode.length < 2 ^ 64 → Records (past ++ [.registered s]) r') := by
  obtain ⟨w, r₁, hrun⟩ : ∃ w r₁, (write now s.key (some s.encode) none).run.run r = (.ok w, r₁) :=
    ⟨_, _, run_write h.stocked.toSound rfl⟩
  have hput := run_put hrun
  have hdiscard : (discard (Replica.put now s.key s.encode none) : Op Replica Unit).run.run r =
      (.ok (), r₁) := run_discard hput
  refine ⟨r₁.emit (.registered s.id s.kind), ?_, fun hu hs => ?_⟩
  · rw [StaticView.put, run_bind hdiscard]
    rfl
  · have hf : (Deed.registered s).draft.Fits r.nodeId :=
      ⟨s.length_key_lt, by rintro _ ⟨⟩; exact hs, h.nodeId⟩
    have hw : Wrote (Deed.registered s).draft now r r₁ := h.stocked.wrote hf hrun
    exact (h.registered hu hw (h.durable_of_run_write hrun)).of_engine_eq rfl rfl

theorem exists_run_delete (h : Records past r) (now : Instant) (id : Uuid) : ∃ found r',
    (StaticView.delete now id).run.run r = (.ok found, r') ∧
    (found = true ↔ ∃ s ∈ standing past, s.id = id) ∧ Records (past ++ [.unregistered id]) r' := by
  have hf : (Deed.unregistered id).draft.Fits r.nodeId :=
    ⟨id.length_encode_text_lt, by rintro _ ⟨⟩, h.nodeId⟩
  obtain ⟨e, r', hrun, hw⟩ := h.stocked.exists_wrote hf now
  refine ⟨_, r', run_delete hrun, ?_, h.unregistered hw (h.durable_of_run_write hrun)⟩
  exact h.isLiveAt_iff.trans (exists_congr fun s => and_congr_right fun _ => Uuid.encode_text_inj)

theorem exists_run_all (h : Records past r) (now : Instant) : ∃ ss r',
    (StaticView.all now).run.run r = (.ok ss, r') ∧ ss.Perm (standing past) ∧ Records past r' := by
  obtain ⟨es, hrun, hsorted, hmem⟩ := exists_rows_live h.stocked.toSound now
  have hkeys : (rowsIn es).map (·.1) = (servicesIn es).map Service.key := by
    rw [← map_rowsIn, List.map_map]
    refine List.map_congr_left fun row hrow => ?_
    exact ((h.serviceAt_eq_some_iff.mp ((hmem row.1 row.2).mp hrow)).2).symm
  have hnodup : (servicesIn es).Nodup :=
    .of_map Service.key (hkeys ▸ nodup_map_fst_of_sorted hsorted)
  refine ⟨servicesIn es, r.emitAll ((undecodableIn es).map .undecodableStatic), ?_, ?_,
    h.of_engine_eq rfl rfl⟩
  · rw [StaticView.all, run_bind hrun]
    rfl
  · refine (List.perm_ext_iff_of_nodup hnodup (.of_map _ h.distinct)).mpr fun s => ?_
    rw [← map_rowsIn, List.mem_map]
    constructor
    · rintro ⟨row, hrow, rfl⟩
      exact (h.serviceAt_eq_some_iff.mp ((hmem row.1 row.2).mp hrow)).1
    · intro hs
      exact ⟨(s.key, s), (hmem s.key s).mpr (h.serviceAt_eq_some_iff.mpr ⟨hs, rfl⟩), rfl⟩

end Records

end Replica

namespace Node

open Deed Replica

/-- What callers did to the registered services of a node that has no peers, by any readings of its
clock. In between the store may be swept and the node stop and start again, and all that is not kept in
that store may change as it likes. -/
inductive Registering (n₀ : Node) : List Deed → Node → Prop
  | start : Registering n₀ [] n₀
  | registered {past n n' now fresh req s} : Registering n₀ past n → Unused past fresh →
      s.encode.length < 2 ^ 64 → (register now fresh req).run.run n = (.ok s, n') →
      Registering n₀ (past ++ [.registered s]) n'
  | notRegistered {past n n' now fresh req status} : Registering n₀ past n →
      (register now fresh req).run.run n = (.error status, n') → Registering n₀ past n'
  | unregistered {past n n' now raw id found} : Registering n₀ past n → Uuid.parse? raw = some id →
      (unregister now raw).run.run n = (.ok found, n') →
      Registering n₀ (past ++ [.unregistered id]) n'
  | notUnregistered {past n n' now raw status} : Registering n₀ past n →
      (unregister now raw).run.run n = (.error status, n') → Registering n₀ past n'
  | listed {past n n' now result} : Registering n₀ past n →
      (listRegistered now).run.run n = (result, n') → Registering n₀ past n'
  | swept {past n} (now : Instant) : Registering n₀ past n →
      Registering n₀ past { n with static := n.static.sweepOnce now }
  | reopened {past n} : Registering n₀ past n →
      Registering n₀ past { n with static := n.static.restarted }
  | aside {past n n'} : Registering n₀ past n → n'.static.engine = n.static.engine →
      n'.static.nodeId = n.static.nodeId → Registering n₀ past n'

variable {n n' n₀ : Node} {past : List Deed} {now : Instant} {fresh id : Uuid} {req : Registration}
  {raw : String} {s : Service} {status : Status}

theorem exists_run_register_of_records (h : Records past n.static) (now : Instant) (fresh : Uuid)
    (he : req.environment = n.environment) (hf : req.flaw? = none) : ∃ n',
    (register now fresh req).run.run n = (.ok (req.toService fresh), n') ∧
    n'.environment = n.environment ∧
    (StaticView.put now (req.toService fresh)).run.run n.static = (.ok (), n'.static) := by
  obtain ⟨r', hput, -⟩ := h.exists_run_put now (req.toService fresh)
  obtain ⟨stats, log, hrun⟩ := exists_run_register he hf hput
  exact ⟨_, hrun, rfl, hput⟩

/-- A registration either is refused and changes nothing or puts the service that it answers with. -/
theorem register_cases (h : Records past n.static) {result : Except Status Service}
    (hrun : (register now fresh req).run.run n = (result, n')) :
    ((∃ status, result = .error status) ∧ n'.static = n.static) ∨
      (result = .ok (req.toService fresh) ∧
        (StaticView.put now (req.toService fresh)).run.run n.static = (.ok (), n'.static)) := by
  by_cases he : req.environment = n.environment
  · cases hf : req.flaw? with
    | some flaw =>
      obtain ⟨stats, log, hrun'⟩ := exists_run_register_of_flaw now fresh he hf
      cases hrun'.symm.trans hrun
      exact .inl ⟨⟨_, rfl⟩, rfl⟩
    | none =>
      obtain ⟨n₁, hrun', -, hput⟩ := exists_run_register_of_records h now fresh he hf
      cases hrun'.symm.trans hrun
      exact .inr ⟨rfl, hput⟩
  · have hc : n.checkEnvironment req.environment = _ := if_neg he
    obtain ⟨stats, log, hrun'⟩ := exists_run_register_of_error now fresh hc
    cases hrun'.symm.trans hrun
    exact .inl ⟨⟨_, rfl⟩, rfl⟩

theorem records_of_registered (h : Records past n.static) (hu : Unused past fresh)
    (hs : s.encode.length < 2 ^ 64) (hrun : (register now fresh req).run.run n = (.ok s, n')) :
    Records (past ++ [.registered s]) n'.static := by
  obtain ⟨⟨_, he⟩, -⟩ | ⟨he, hput⟩ := register_cases h hrun
  · contradiction
  · obtain ⟨r', hput', hr'⟩ := h.exists_run_put now (req.toService fresh)
    cases he
    cases hput'.symm.trans hput
    exact hr' hu hs

theorem records_of_notRegistered (h : Records past n.static)
    (hrun : (register now fresh req).run.run n = (.error status, n')) : Records past n'.static := by
  obtain ⟨-, hn⟩ | ⟨he, -⟩ := register_cases h hrun
  · exact hn ▸ h
  · contradiction

/-- A readable id is looked up whatever way it is spelled. -/
theorem exists_run_unregister_of_records (h : Records past n.static) (now : Instant)
    (hid : Uuid.parse? raw = some id) : ∃ found n', (unregister now raw).run.run n = (.ok found, n') ∧
      n'.environment = n.environment ∧ (found = true ↔ ∃ s ∈ standing past, s.id = id) ∧
      Records (past ++ [.unregistered id]) n'.static := by
  obtain ⟨found, r', hdelete, hfound, hr'⟩ := h.exists_run_delete now id
  obtain ⟨stats, log, hrun⟩ := exists_run_unregister hid hdelete
  exact ⟨found, _, hrun, rfl, hfound, hr'⟩

theorem records_of_notUnregistered (h : Records past n.static)
    (hrun : (unregister now raw).run.run n = (.error status, n')) : Records past n'.static := by
  cases hid : Uuid.parse? raw with
  | some id =>
    obtain ⟨found, n₁, hrun', -⟩ := exists_run_unregister_of_records h now hid
    cases hrun'.symm.trans hrun
  | none =>
    have hread : Uuid.ofRequest "id" raw = .error (.invalid ("invalid id: '" ++ raw ++ "'")) := by
      rw [Uuid.ofRequest, hid]
      rfl
    obtain ⟨stats, log, hrun'⟩ := exists_run_unregister_of_error now hread
    cases hrun'.symm.trans hrun
    exact h

theorem exists_run_listRegistered_of_records (h : Records past n.static) (now : Instant) :
    ∃ ss n', (listRegistered now).run.run n = (.ok ss, n') ∧ ss.Perm (standing past) ∧
      Records past n'.static := by
  obtain ⟨ss, r', hall, hperm, hr'⟩ := h.exists_run_all now
  obtain ⟨stats, log, hrun⟩ := exists_run_listRegistered hall
  exact ⟨ss, _, hrun, hperm, hr'⟩

theorem Registering.records (h₀ : Records [] n₀.static) (h : Registering n₀ past n) :
    Records past n.static := by
  induction h with
  | start => exact h₀
  | registered _ hu hs hrun ih => exact records_of_registered ih hu hs hrun
  | notRegistered _ hrun ih => exact records_of_notRegistered ih hrun
  | @unregistered past n n' now raw id found _ hid hrun ih =>
    obtain ⟨found', n₁, hrun', -, -, hr⟩ := exists_run_unregister_of_records ih now hid
    cases hrun'.symm.trans hrun
    exact hr
  | notUnregistered _ hrun ih => exact records_of_notUnregistered ih hrun
  | @listed past n n' now result _ hrun ih =>
    obtain ⟨ss, n₁, hrun', -, hr⟩ := exists_run_listRegistered_of_records ih now
    cases hrun'.symm.trans hrun
    exact hr
  | swept now _ ih => exact ih.sweepOnce now
  | reopened _ ih => exact ih.restarted
  | aside _ he hid ih => exact ih.of_engine_eq he hid

/-- A node that keeps its registered services durably lists just those that were registered and not
unregistered since, whatever the clock did, however often the store was swept or the node began again,
and whichever ids without a service were unregistered before. An id is found exactly if it was listed
just before. -/
theorem Registering.lists_standing {name nodeId : String} {settings : Settings}
    (h : Registering n₀ past n) (h₀ : n₀.static = Replica.start name nodeId settings (.fresh true))
    (hid : (Utf8.encode nodeId).length < 2 ^ 64) (now : Instant) :
    ∃ ss n', (listRegistered now).run.run n = (.ok ss, n') ∧ ss.Perm (standing past) ∧
      ∀ now' raw id, Uuid.parse? raw = some id → ∃ found n'',
        (unregister now' raw).run.run n' = (.ok found, n'') ∧ (found = true ↔ ∃ s ∈ ss, s.id = id) := by
  have hr : Records past n.static := h.records (h₀ ▸ .start name settings hid)
  obtain ⟨ss, n', hrun, hperm, hr'⟩ := exists_run_listRegistered_of_records hr now
  refine ⟨ss, n', hrun, hperm, fun now' raw id hraw => ?_⟩
  obtain ⟨found, n'', hrun', -, hfound, -⟩ := exists_run_unregister_of_records hr' now' hraw
  refine ⟨found, n'', hrun', hfound.trans (exists_congr fun s => ?_)⟩
  rw [hperm.mem_iff]

/-- A node that has just started, with registered services kept in rows. -/
def office : Node where
  environment := "test"
  dynamicMaxAge := ⟨30000000000⟩
  dynamic := infant "a"
  static := archive

def desk (kind : String) : Registration := ⟨"test", kind, "main", none, .empty⟩

theorem length_encode_desk : ∀ s ∈ [(desk "db").toService (DynamicView.uniform 7),
    (desk "web").toService (DynamicView.uniform 10)], s.encode.length < 2 ^ 64 := by
  decide +kernel

/-- An id is unregistered before a service is given it, the tombstone is swept, the node begins again and
the clock goes back before the epoch; another service comes, and goes by a name for its id in upper
case. -/
theorem lists_standing_office : ∃ n n' n'', Registering office
      [.unregistered (DynamicView.uniform 7),
        .registered ((desk "db").toService (DynamicView.uniform 7)),
        .registered ((desk "web").toService (DynamicView.uniform 10)),
        .unregistered (DynamicView.uniform 10)] n ∧
    (listRegistered (-10)).run.run n = (.ok [(desk "db").toService (DynamicView.uniform 7)], n') ∧
    (unregister (-11) "77777777777777777777777777777777").run.run n' = (.ok true, n'') := by
  have hr₀ : Records [] office.static := .start "static" _ (by decide)
  have h₀ : Registering office [] office := .start
  obtain ⟨_, n₁, hrun₁, he₁, -⟩ :=
    exists_run_unregister_of_records hr₀ 5 (Uuid.parse?_text (DynamicView.uniform 7))
  have h₁ := ((h₀.unregistered (Uuid.parse?_text _) hrun₁).swept 10000000000).reopened
  obtain ⟨n₂, hrun₂, he₂, -⟩ := exists_run_register_of_records (h₁.records hr₀) (-3)
    (DynamicView.uniform 7) (show (desk "db").environment = _ from he₁.symm) rfl
  have hu₂ : Unused [.unregistered (DynamicView.uniform 7)] (DynamicView.uniform 7) :=
    ⟨by simp, by decide⟩
  have h₂ := h₁.registered hu₂ (length_encode_desk _ (by simp)) hrun₂
  obtain ⟨n₃, hrun₃, he₃, -⟩ := exists_run_register_of_records (h₂.records hr₀) (-7)
    (DynamicView.uniform 10) (show (desk "web").environment = _ from (he₂.trans he₁).symm) rfl
  have hu₃ : Unused [.unregistered (DynamicView.uniform 7),
      .registered ((desk "db").toService (DynamicView.uniform 7))] (DynamicView.uniform 10) := by
    refine ⟨fun s hs => ?_, by decide +kernel⟩
    simp only [List.mem_cons, reduceCtorEq, Deed.registered.injEq, List.not_mem_nil, or_false,
      false_or] at hs
    rw [hs]
    decide
  have h₃ := h₂.registered hu₃ (length_encode_desk _ (by simp)) hrun₃
  have hupper : Uuid.parse? "URN:UUID:AAAAAAAA-AAAA-AAAA-AAAA-AAAAAAAAAAAA" =
      some (DynamicView.uniform 10) := by decide +kernel
  obtain ⟨_, n₄, hrun₄, -⟩ := exists_run_unregister_of_records (h₃.records hr₀) (-9) hupper
  have h₄ := h₃.unregistered hupper hrun₄
  obtain ⟨ss, n', hlist, hperm, hdelete⟩ := h₄.lists_standing rfl (by decide) (-10)
  have hss : ss = [(desk "db").toService (DynamicView.uniform 7)] := List.perm_singleton.mp hperm
  obtain ⟨found, n'', hrun, hfound⟩ := hdelete (-11) "77777777777777777777777777777777"
    (DynamicView.uniform 7) (by decide +kernel)
  have hf : found = true := hfound.mpr ⟨_, hss ▸ List.mem_singleton.mpr rfl, rfl⟩
  exact ⟨n₄, n', n'', h₄, hss ▸ hlist, hf ▸ hrun⟩

end Node

end ServiceDirectory
