import ServiceDirectory.Proofs.Authored
import ServiceDirectory.Proofs.Convergence
import ServiceDirectory.Proofs.Replacement

namespace ServiceDirectory

namespace Entry

/-- By a clock that has come to the epoch: the version is not behind the timestamp, and until time
ends it is ahead by one at most. -/
structure Timed (e : Entry) : Prop where
  le_version : e.timestamp.toInt ≤ e.version.toNat
  version_le : e.timestamp ≠ Int64.maxValue → (e.version.toNat : Int) ≤ e.timestamp.toInt + 1

section Order

variable {a b : Entry}

theorem Timed.outranks_of_timestamp_lt (ha : a.Timed) (hb : b.Timed)
    (h : b.timestamp < a.timestamp) : a.Outranks b := by
  rw [Outranks, compare_eq]
  split
  · rename_i hne
    have hle := hb.version_le (Instant.ne_maxValue_of_lt h)
    have hge := ha.le_version
    rw [Int64.lt_iff_toInt_lt] at h
    refine Std.compare_eq_gt.mpr (UInt64.lt_of_le_of_ne ?_ hne.2.symm)
    rw [UInt64.le_iff_toNat_le]
    omega
  · change (Ord.compare a.timestamp b.timestamp).then _ = .gt
    rw [Std.compare_eq_gt.mpr h]
    rfl

theorem Timed.timestamp_le (ha : a.Timed) (hb : b.Timed) (h : a.Outranks b) :
    b.timestamp ≤ a.timestamp := by
  apply Int64.not_lt.mp
  intro hlt
  exact h.asymm (hb.outranks_of_timestamp_lt ha hlt)

end Order

section Over

variable {held : Option Entry} {origin : String} {now : Instant} {key : Bytes}
  {value : Option Bytes} {maxAge : Option UInt64}

theorem timed_over_none (hnow : 0 ≤ now) : (Entry.over none origin now key value maxAge).Timed := by
  rw [Int64.le_iff_toInt_le, Int64.toInt_zero] at hnow
  have hv := Instant.toNat_toVersion hnow
  have hversion : (Entry.over none origin now key value maxAge).version.toNat =
      max 1 now.toVersion.toNat := by
    change (max 1 now.toVersion).toNat = _
    rw [toNat_max, UInt64.toNat_one]
  constructor
  · change now.toInt ≤ _
    omega
  · intro _
    change _ ≤ now.toInt + 1
    omega

theorem timed_over_some {h : Entry} (hnow : 0 ≤ now) (hh : h.Timed) :
    (Entry.over (some h) origin now key value maxAge).Timed := by
  rw [Int64.le_iff_toInt_le, Int64.toInt_zero] at hnow
  have hv := Instant.toNat_toVersion hnow
  have hversion : (Entry.over (some h) origin now key value maxAge).version.toNat =
      max (nextVersion h.version).toNat now.toVersion.toNat := toNat_max _ _
  have htime : (Entry.over (some h) origin now key value maxAge).timestamp.toInt =
      max now.toInt h.timestamp.succ.toInt := Instant.toInt_latest _ _
  have hle := hh.le_version
  by_cases ht : h.timestamp = Int64.maxValue
  -- the timestamp stays at the end of time, which the version has reached
  · rw [ht, Instant.succ_maxValue, Int64.toInt_maxValue] at htime
    rw [ht, Int64.toInt_maxValue] at hle
    have hnext := UInt64.le_iff_toNat_le.mp (le_nextVersion h.version)
    have hlast := now.bounds.2
    unfold Instant.last at hlast
    constructor
    · omega
    · intro hne
      refine absurd (Int64.toInt_inj.mp ?_) hne
      rw [htime, Int64.toInt_maxValue]
      omega
  · have hlt := Instant.lt_succ_of_ne ht
    rw [Int64.lt_iff_toInt_lt] at hlt
    have hlast := h.timestamp.succ.bounds.2
    have hsucc : h.timestamp.succ.toInt = h.timestamp.toInt + 1 := Instant.toInt_succ (by omega)
    have hnext := hh.version_le ht
    rw [Instant.last] at hlast
    rw [toNat_nextVersion (by omega)] at hversion
    constructor
    · omega
    · intro _
      omega

theorem timed_over (hnow : 0 ≤ now) (hheld : ∀ h ∈ held, h.Timed) :
    (Entry.over held origin now key value maxAge).Timed := by
  cases held with
  | none => exact timed_over_none hnow
  | some h => exact timed_over_some hnow (hheld h rfl)

theorem flaw?_over_eq_none (hnow : 0 ≤ now) (hkey : key ≠ []) (horigin : origin ≠ "")
    (hheld : ∀ h ∈ held, h.flaw? = none) :
    (Entry.over held origin now key value maxAge).flaw? = none := by
  have htime : 0 ≤ (Entry.over held origin now key value maxAge).timestamp :=
    Int64.le_trans hnow now_le_timestamp_over
  refine flaw?_eq_none_iff.mpr ⟨hkey, horigin, ?_, Int64.not_lt.mpr htime⟩
  have hpos : 0 < (held.elim 1 fun h => nextVersion h.version).toNat := by
    cases held with
    | none => decide
    | some h =>
      have hv := (flaw?_eq_none_iff.mp (hheld h rfl)).2.2.1
      have hnext := UInt64.le_iff_toNat_le.mp (le_nextVersion h.version)
      have hne : h.version.toNat ≠ 0 := fun he => hv (UInt64.toNat_inj.mp he)
      exact Nat.lt_of_lt_of_le (Nat.pos_of_ne_zero hne) hnext
  intro hzero
  have hmax : (Entry.over held origin now key value maxAge).version.toNat =
    max (held.elim 1 fun h => nextVersion h.version).toNat now.toVersion.toNat := toNat_max _ _
  rw [hzero, UInt64.toNat_zero] at hmax
  omega

end Over

/-- An entry that the dynamic view makes where announcements last so long: a service's record stands
under the service's id. -/
structure Registered (ttl : Option UInt64) (e : Entry) : Prop where
  timed : e.Timed
  flaw? : e.flaw? = none
  fits : e.Fits
  lives : e.Lives ttl
  placed : ∀ s, e.service? = some s → s.key = e.key

end Entry

theorem Service.key_ne_nil (s : Service) : s.key ≠ [] := by
  intro h
  have htext : s.id.text = "" := Utf8.encode_injective h
  have hlen := s.id.length_chars
  rw [Uuid.text, String.ofList_eq_empty_iff] at htext
  rw [htext] at hlen
  contradiction

namespace Draft

variable {d : Draft} {maxAge : Span} {origin : String} {now : Instant} {held : Option Entry}

/-- What the dynamic view writes where announcements last so long. -/
def Registers (maxAge : Span) (d : Draft) : Prop :=
  ∃ s : Service, d = s.draft maxAge ∨ d = s.erasure

theorem Registers.registered (hd : d.Registers maxAge) (hf : d.Fits origin) (ho : origin ≠ "")
    (hnow : 0 ≤ now) (hheld : ∀ x ∈ held, x.Registered (some maxAge.millisWord)) :
    (d.over origin now held).Registered (some maxAge.millisWord) := by
  obtain ⟨s, hd⟩ := hd
  have hkey : d.key = s.key := by
    rcases hd with rfl | rfl <;> rfl
  refine ⟨Entry.timed_over hnow fun x hx => (hheld x hx).timed,
    Entry.flaw?_over_eq_none hnow (hkey ▸ s.key_ne_nil) ho fun x hx => (hheld x hx).flaw?,
    hf.over now held, ?_, ?_⟩
  · rcases hd with rfl | rfl
    · exact .inr rfl
    · exact .inl rfl
  · intro t ht
    rcases hd with rfl | rfl
    · have hs : ((s.draft maxAge).over origin now held).service? = some s :=
        Entry.service?_of_value rfl
      cases hs.symm.trans ht
      rfl
    · exact absurd ht (by simp [Entry.service?, Draft.over, Entry.over, Service.erasure])

end Draft

namespace Replica

variable {r r' : Replica} {maxAge : Span} {now : Instant} {d : Draft} {ds : List Draft}
  {batch : List Entry} {o : Operation}

/-- All that is held or waits for the peers has been made by the dynamic view. -/
structure Regular (maxAge : Span) (r : Replica) : Prop where
  stocked : r.Stocked
  nodeId_ne : r.nodeId ≠ ""
  length_nodeId : (Utf8.encode r.nodeId).length < 2 ^ 64
  held {k : Bytes} {e : Entry} : r.held k = some e → e.Registered (some maxAge.millisWord)
  waiting : ∀ e ∈ r.outbox.waiting, e.Registered (some maxAge.millisWord)

theorem Regular.placed (h : r.Regular maxAge) (now : Instant) : r.Placed now := by
  intro k s hs
  obtain ⟨e, he, -, hsvc⟩ := serviceAt_eq_some_iff.mp hs
  rw [(h.held he).placed s hsvc, h.stocked.key_of_held he]

theorem Regular.spared (h : r.Regular maxAge) : r.spared.Stocked :=
  h.stocked.toSound.spared_eq.symm ▸ h.stocked

theorem Regular.of_eq (h : r.Regular maxAge) (hid : r'.nodeId = r.nodeId)
    (hengine : r'.engine = r.engine) (hbox : r'.outbox = r.outbox) : r'.Regular maxAge where
  stocked := h.stocked.of_engine_eq hengine
  nodeId_ne := hid ▸ h.nodeId_ne
  length_nodeId := hid ▸ h.length_nodeId
  held {k e} he := by
    rw [Replica.held, hengine] at he
    exact h.held he
  waiting := hbox ▸ h.waiting

theorem Regular.write {w : Entry × Option Entry} (h : r.Regular maxAge) (hd : d.Registers maxAge)
    (hf : d.Fits r.nodeId) (hnow : 0 ≤ now)
    (hw : (Replica.write now d.key d.value d.maxAge).run.run r = (.ok w, r')) :
    r'.Regular maxAge := by
  have hwrote := h.stocked.wrote hf hw
  have hnew : (d.over r.nodeId now (r.held d.key)).Registered (some maxAge.millisWord) :=
    hd.registered hf h.nodeId_ne hnow fun x hx => h.held hx
  refine ⟨hwrote.stocked, hwrote.nodeId ▸ h.nodeId_ne, hwrote.nodeId ▸ h.length_nodeId,
    fun {k e} he => ?_, fun e he => ?_⟩
  · rw [hwrote.held, Draft.leaves] at he
    split at he
    · rename_i hk
      subst hk
      rcases Entry.resolve_eq (r.held d.key) (d.over r.nodeId now (r.held d.key)) with hr | hr
      · exact h.held (hr.trans he)
      · exact Option.some.inj he ▸ hr ▸ hnew
    · exact h.held he
  · have hrun := run_write h.stocked.toSound (rfl : r.built now d.key d.value d.maxAge = _)
    have hr : r' = _ := congrArg Prod.snd (hw.symm.trans hrun)
    rw [hr] at he
    split_ifs at he
    · rcases mem_waiting_enqueue he with he | rfl
      · exact h.waiting e he
      · exact hnew
    · exact h.waiting e he

theorem Regular.writes (hw : Writes now ds r r') (h : r.Regular maxAge)
    (hds : ∀ d ∈ ds, d.Registers maxAge ∧ d.Fits r.nodeId) (hnow : 0 ≤ now) :
    r'.Regular maxAge := by
  induction hw with
  | nil => exact h
  | @cons d ds r r₁ r' w hrun _ ih =>
    obtain ⟨hd, hf⟩ := hds d (by simp)
    refine ih (h.write hd hf hnow hrun) fun d' hd' => ?_
    obtain ⟨hreg, hf'⟩ := hds d' (List.mem_cons_of_mem _ hd')
    exact ⟨hreg, (h.stocked.wrote hf hrun).fits hf'⟩

theorem registers_erasure {ss : List Service} (hid : (Utf8.encode r.nodeId).length < 2 ^ 64) :
    ∀ d ∈ ss.map Service.erasure, d.Registers maxAge ∧ d.Fits r.nodeId := by
  intro d hd
  obtain ⟨s, -, rfl⟩ := List.mem_map.mp hd
  exact ⟨⟨s, .inr rfl⟩, Draft.fits_erasure hid s⟩

section View

variable {node : Uuid} {a : NodeAnnouncement}

theorem Regular.put {x : Except Failure (List Service)} (h : r.Regular maxAge) (hnow : 0 ≤ now)
    (hsize : ∀ s ∈ a.toServices node, s.encode.length < 2 ^ 64)
    (hrun : (DynamicView.put now maxAge node a).run.run r = (x, r')) : r'.Regular maxAge := by
  cases hv : a.flaw? with
  | some flaw =>
    have hr : r = r' := congrArg Prod.snd ((DynamicView.run_put_of_flaw hv ..).symm.trans hrun)
    exact hr ▸ h
  | none =>
    obtain ⟨before, hl⟩ := exists_lists h.spared.toSound now
    obtain ⟨evs, r₁, hput, hw⟩ : ∃ evs r₁, (DynamicView.put now maxAge node a).run.run r =
          (.ok (a.toServices node), r₁.emit (.announced node a.services.length)) ∧
        Writes now (DynamicView.changes maxAge node a before) (r.emitAll evs) r₁ :=
      DynamicView.exists_run_put h.stocked hv h.length_nodeId hsize hl
    have h₁ : (r.emitAll evs).Regular maxAge := h.of_eq rfl rfl rfl
    have h₂ : r₁.Regular maxAge := h₁.writes hw (fun d hd => ?_) hnow
    · have hr : r₁.emit _ = r' := congrArg Prod.snd (hput.symm.trans hrun)
      exact hr ▸ h₂.of_eq rfl rfl rfl
    rcases List.mem_append.mp hd with hd | hd
    · exact registers_erasure h.length_nodeId d hd
    · obtain ⟨s, hs, rfl⟩ := List.mem_map.mp hd
      exact ⟨⟨s, .inl rfl⟩, Draft.fits_draft h.length_nodeId (hsize s hs) maxAge⟩

theorem Regular.delete {x : Except Failure Bool} (h : r.Regular maxAge) (hnow : 0 ≤ now)
    (hrun : (DynamicView.delete now node).run.run r = (x, r')) : r'.Regular maxAge := by
  obtain ⟨before, hl⟩ := exists_lists h.spared.toSound now
  obtain ⟨evs, r₁, hdelete, hw⟩ : ∃ evs r₁, (DynamicView.delete now node).run.run r = (.ok _, r₁) ∧
      Writes now _ (r.emitAll evs) r₁ :=
    DynamicView.exists_run_delete h.stocked h.length_nodeId hl
  have h₁ : (r.emitAll evs).Regular maxAge := h.of_eq rfl rfl rfl
  have hr : r₁ = r' := congrArg Prod.snd (hdelete.symm.trans hrun)
  exact hr ▸ h₁.writes hw (registers_erasure h.length_nodeId) hnow

end View

/-! What a node does that is no write of its own. -/

theorem fits_of_authored_eq_nil (ho : o.authored r = []) (hb : ∀ e ∈ o.batch, e.Fits) : o.Fits r := by
  cases o with
  | put now key value maxAge => exact absurd ho (List.cons_ne_nil _ _)
  | delete now key => exact absurd ho (List.cons_ne_nil _ _)
  | _ => exact hb

theorem Stocked.mem_waiting_run (h : r.Stocked) (ho : o.authored r = []) (hb : ∀ e ∈ o.batch, e.Fits)
    {e : Entry} (he : e ∈ (o.run r).outbox.waiting) : e ∈ r.outbox.waiting := by
  cases o with
  | put now key value maxAge => exact absurd ho (List.cons_ne_nil _ _)
  | delete now key => exact absurd ho (List.cons_ne_nil _ _)
  | lookup now key =>
    rw [Operation.run, run_lookup h.toSound] at he
    exact he
  | live now =>
    obtain ⟨es, hrun, -⟩ := exists_run_live h.toSound now
    rw [Operation.run, hrun] at he
    exact he
  | snapshot =>
    obtain ⟨es, hrun, -⟩ := exists_run_snapshot h.toSound
    rw [Operation.run, hrun] at he
    exact he
  | merge now batch =>
    have ht : ∀ e ∈ batch, r.Takes e := fun e he => takes_of_fits r (hb e he)
    obtain ⟨o, r', hrun, hm, -⟩ := exists_run_merge h.toSound ht now
    rw [Operation.run, hrun, hm.frame.outbox] at he
    exact he
  | absorb now peer pulled =>
    cases pulled with
    | ok batch =>
      have ht : ∀ e ∈ batch, r.Takes e := fun e he => takes_of_fits r (hb e he)
      obtain ⟨o, r', hrun, hm, -⟩ := exists_run_absorb h.toSound ht now peer
      rw [Operation.run, hrun, hm.frame.outbox] at he
      exact he
    | error f =>
      obtain ⟨health, log, hp⟩ := exists_recordPeer r peer false
      rw [Operation.run, run_absorb_error, hp] at he
      exact he
  | sweep now =>
    rw [Operation.run, (frame_sweepOnce h.toSound).outbox] at he
    exact he
  | drain => exact mem_waiting_drain he

theorem Regular.run (h : r.Regular maxAge) (ho : o.authored r = [])
    (hb : ∀ e ∈ o.batch, e.Registered (some maxAge.millisWord)) : (o.run r).Regular maxAge := by
  have hfits : ∀ e ∈ o.batch, e.Fits := fun e he => (hb e he).fits
  have hstep := h.stocked.step (fits_of_authored_eq_nil ho hfits)
  refine ⟨hstep.stocked, hstep.nodeId ▸ h.nodeId_ne, hstep.nodeId ▸ h.length_nodeId,
    fun {k e} he => ?_, fun e he => h.waiting e (h.stocked.mem_waiting_run ho hfits he)⟩
  rw [hstep.held] at he
  rcases Operation.mem_of_leaves he with he | he | he
  · exact h.held he
  · exact absurd he (ho ▸ List.not_mem_nil)
  · exact hb e he

theorem Regular.restarted (h : r.Regular maxAge) : r.restarted.Regular maxAge where
  stocked := {
    faults := rfl
    medium := h.stocked.medium.reopened
    fits := fun he => h.stocked.fits (Medium.held_reopened _ he) }
  nodeId_ne := h.nodeId_ne
  length_nodeId := h.length_nodeId
  held he := h.held (Medium.held_reopened _ he)
  waiting _ he := absurd he List.not_mem_nil

theorem regular_start {nodeId : String} (hid : nodeId ≠ "")
    (hlen : (Utf8.encode nodeId).length < 2 ^ 64) (name : String) (settings : Settings)
    (isDurable : Bool) : (start name nodeId settings (.fresh isDurable)).Regular maxAge where
  stocked := stocked_start name nodeId settings isDurable
  nodeId_ne := hid
  length_nodeId := hlen
  held {k e} he := by
    have hn := Medium.held_fresh isDurable k
    exact absurd (hn.symm.trans he) (by simp)
  waiting _ he := absurd he List.not_mem_nil

/-- The node of a registry in which announcements last so long, by any clock that has come to the
epoch. What comes in has been held or waited for the peers at such a node, at any time. -/
inductive Enrolled (maxAge : Span) : Replica → Prop
  | start {nodeId : String} : nodeId ≠ "" → (Utf8.encode nodeId).length < 2 ^ 64 →
    ∀ name settings isDurable, Enrolled maxAge (start name nodeId settings (.fresh isDurable))
  | announce {r r' : Replica} {now : Instant} {node : Uuid} {a : NodeAnnouncement}
    {x : Except Failure (List Service)} : Enrolled maxAge r → 0 ≤ now →
    (∀ s ∈ a.toServices node, s.encode.length < 2 ^ 64) →
    (DynamicView.put now maxAge node a).run.run r = (x, r') → Enrolled maxAge r'
  | withdraw {r r' : Replica} {now : Instant} {node : Uuid} {x : Except Failure Bool} :
    Enrolled maxAge r → 0 ≤ now → (DynamicView.delete now node).run.run r = (x, r') →
    Enrolled maxAge r'
  /-- Anything but a write: a read, a sweep, entries of peers, the outbox emptied. -/
  | run {r : Replica} {o : Operation} (peers : Entry → Replica) : Enrolled maxAge r →
    o.authored r = [] → (∀ e ∈ o.batch, Enrolled maxAge (peers e)) →
    (∀ e ∈ o.batch, (peers e).held e.key = some e ∨ e ∈ (peers e).outbox.waiting) →
    Enrolled maxAge (o.run r)
  | restart {r : Replica} : Enrolled maxAge r → Enrolled maxAge r.restarted
  /-- Whatever becomes of its log and of what it thinks of its peers. -/
  | aside {r r' : Replica} : Enrolled maxAge r → r'.nodeId = r.nodeId → r'.engine = r.engine →
    r'.outbox = r.outbox → Enrolled maxAge r'

theorem Enrolled.regular (h : Enrolled maxAge r) : r.Regular maxAge := by
  induction h with
  | start hid hlen name settings isDurable => exact regular_start hid hlen name settings isDurable
  | announce _ hnow hsize hrun ih => exact ih.put hnow hsize hrun
  | withdraw _ hnow hrun ih => exact ih.delete hnow hrun
  | run peers _ ho _ hpeers ih ihp =>
    refine ih.run ho fun e he => ?_
    rcases hpeers e he with hk | hw
    · exact (ihp e he).held hk
    · exact (ihp e he).waiting e hw
  | restart _ ih => exact ih.restarted
  | aside _ hid hengine hbox ih => exact ih.of_eq hid hengine hbox

end Replica

end ServiceDirectory
