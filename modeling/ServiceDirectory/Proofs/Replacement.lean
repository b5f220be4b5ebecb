import ServiceDirectory.Proofs.Announcement

namespace ServiceDirectory

namespace DynamicView

open Draft

variable {maxAge : Span} {node : Uuid} {a : NodeAnnouncement} {listed : List Service} {s : Service}
  {origin : String} {now : Instant} {k : Bytes} {held : Option Entry}

theorem mem_stale : s ∈ stale node a listed ↔
    s ∈ listed ∧ s.nodeId = some node ∧ ∀ o ∈ a.toServices node, o.key ≠ s.key := by
  simp [stale, List.mem_filter, and_comm, Service.key_eq_key_iff]

/-- What is written to a key that is offered ends with the last record of it. -/
theorem exists_foldl_changes (hroom : Entry.Room (a.toServices node).length now held)
    (hs : ((a.toServices node).filter (·.key = k)).getLast? = some s) :
    ∃ before, Entry.Room 1 now before ∧
      (changes maxAge node a listed).foldl (leaves origin now k) held =
        some ((s.draft maxAge).over origin now before) := by
  obtain ⟨hmem, hk⟩ := List.mem_filter.mp (List.mem_of_getLast? hs)
  have hkept : ((stale node a listed).map Service.erasure).foldl (leaves origin now k) held = held := by
    refine foldl_erasures_of_forall_ne fun t ht htk => ?_
    exact (mem_stale.mp ht).2.2 s hmem ((of_decide_eq_true hk).trans htk.symm)
  rw [changes, List.foldl_append, hkept]
  refine exists_foldl_leaves (by simpa using hroom) ?_
  rw [List.filter_map, List.getLast?_map]
  exact congrArg (Option.map _) hs

theorem foldl_changes_of_not_offered (hk : ∀ o ∈ a.toServices node, o.key ≠ k) :
    (changes maxAge node a listed).foldl (leaves origin now k) held =
      ((stale node a listed).map Service.erasure).foldl (leaves origin now k) held := by
  rw [changes, List.foldl_append]
  refine foldl_leaves_of_forall_ne (fun d hd => ?_) _
  obtain ⟨o, ho, rfl⟩ := List.mem_map.mp hd
  exact hk o ho

theorem exists_foldl_changes_of_stale (hk : ∀ o ∈ a.toServices node, o.key ≠ k)
    (hs : ∃ s ∈ stale node a listed, s.key = k) :
    ∃ t, (changes maxAge node a listed).foldl (leaves origin now k) held = some t ∧
      t.isTombstone := by
  rw [foldl_changes_of_not_offered hk]
  exact exists_foldl_erasures hs

theorem foldl_changes_of_untouched (hk : ∀ o ∈ a.toServices node, o.key ≠ k)
    (hs : ∀ s ∈ stale node a listed, s.key ≠ k) :
    (changes maxAge node a listed).foldl (leaves origin now k) held = held := by
  rw [foldl_changes_of_not_offered hk]
  exact foldl_erasures_of_forall_ne hs

end DynamicView

namespace Replica

open DynamicView

variable {r r' : Replica} {now : Instant} {maxAge : Span} {node : Uuid} {a : NodeAnnouncement}
  {ss before after : List Service} {s : Service} {k : Bytes}

/-- Every service that is shown stands under its own id. -/
def Placed (r : Replica) (now : Instant) : Prop := ∀ k s, r.serviceAt now k = some s → s.key = k

theorem serviceAt_of_draft {held : Option Entry} {origin : String} (hnow : now < Int64.maxValue)
    (hk : r.held k = some ((s.draft maxAge).over origin now held)) : r.serviceAt now k = some s := by
  refine serviceAt_eq_some_iff.mpr ⟨_, hk, ?_, Entry.service?_of_value rfl⟩
  have hx : ((s.draft maxAge).over origin now held).isExpired now = false := Entry.isExpired_over hnow
  rw [Entry.isLive, hx]
  rfl

theorem serviceAt_of_tombstone {t : Entry} (hk : r.held k = some t) (ht : t.isTombstone) :
    r.serviceAt now k = none := by
  simp [serviceAt, hk, Option.filter_some, Entry.isLive, ht]

end Replica

namespace DynamicView

open Replica

variable {r r' : Replica} {now : Instant} {maxAge : Span} {node : Uuid} {a : NodeAnnouncement}
  {ss before after : List Service} {s : Service} {k : Bytes}

theorem exists_put (h : r.Stocked) (hv : a.flaw? = none)
    (hid : (Utf8.encode r.nodeId).length < 2 ^ 64)
    (hsize : ∀ s ∈ a.toServices node, s.encode.length < 2 ^ 64) (hl : r.Lists now before) :
    ∃ r', (put now maxAge node a).run.run r = (.ok (a.toServices node), r') ∧ r'.Stocked ∧
      r'.nodeId = r.nodeId ∧
      ∀ k, r'.held k = (changes maxAge node a before).foldl (Draft.leaves r.nodeId now k) (r.held k) := by
  obtain ⟨evs, r₁, hrun, hw⟩ := exists_run_put h hv hid hsize hl
  obtain ⟨h₁, hid₁, hheld⟩ := hw.held (h.of_engine_eq rfl) fun d hd => by
    rcases List.mem_append.mp hd with hd | hd
    · obtain ⟨s, -, rfl⟩ := List.mem_map.mp hd
      exact Draft.fits_erasure hid s
    · obtain ⟨s, hs', rfl⟩ := List.mem_map.mp hd
      exact Draft.fits_draft hid (hsize s hs') maxAge
  exact ⟨_, hrun, h₁.of_engine_eq rfl, hid₁, hheld⟩

/-- An announcement that succeeds was well formed, and leaves what its writes leave. -/
theorem held_put (hs : r.spared.Stocked) (hid : (Utf8.encode r.nodeId).length < 2 ^ 64)
    (hsize : ∀ s ∈ a.toServices node, s.encode.length < 2 ^ 64) (hl : r.Lists now before)
    (h : (put now maxAge node a).run.run r = (.ok ss, r')) :
    ss = a.toServices node ∧ r'.spared.Stocked ∧
      ∀ k, r'.held k = (changes maxAge node a before).foldl (Draft.leaves r.nodeId now k) (r.held k) := by
  have hv : a.flaw? = none := by
    rw [Option.eq_none_iff_forall_ne_some]
    intro flaw hf
    rw [run_put_of_flaw hf] at h
    injection congrArg Prod.fst h
  have hl' : r.spared.Lists now before := by rwa [Replica.Lists, hs.toSound.spared_eq]
  obtain ⟨r₁, hrun, h₁, -, hheld⟩ := exists_put hs hv hid hsize hl'
  obtain ⟨hss, hr⟩ := Prod.mk.inj ((endures_put now maxAge node a h).symm.trans hrun)
  rw [← held_spared r', hr]
  exact ⟨Except.ok.inj hss, h₁, hheld⟩

/-- What an announcement comes to, in the listings before and after and in the store. -/
structure Replaced (now : Instant) (node : Uuid) (a : NodeAnnouncement) (before after : List Service)
    (r r' : Replica) : Prop where
  /-- The last service of each id that was announced is listed, and no other of that id. -/
  offered : ∀ o ∈ a.services, ∃ s, ((a.toServices node).filter (·.id = o.id)).getLast? = some s ∧
    after.filter (·.id = o.id) = [s]
  /-- Nothing else is listed of the node. -/
  withdrawn : ∀ s ∈ after, s.nodeId = some node → ∃ o ∈ a.services, o.id = s.id
  /-- Other nodes' services of other ids are listed as they were. -/
  others : after.filter (fun s => s.nodeId ≠ some node ∧ ∀ o ∈ a.services, o.id ≠ s.id) =
    before.filter fun s => s.nodeId ≠ some node ∧ ∀ o ∈ a.services, o.id ≠ s.id
  /-- What stood under no id of the announcement and showed no service of the node still stands. -/
  untouched : ∀ k, (∀ s ∈ a.toServices node, s.key ≠ k) →
    (∀ s, r.serviceAt now k = some s → s.nodeId ≠ some node) → r'.held k = r.held k

theorem exists_mem_toServices {o : Offer} (ho : o ∈ a.services) :
    ∃ s ∈ a.toServices node, s.id = o.id :=
  ⟨_, List.mem_map_of_mem ho, rfl⟩

theorem exists_mem_services (hs : s ∈ a.toServices node) :
    s.nodeId = some node ∧ ∃ o ∈ a.services, o.id = s.id := by
  obtain ⟨o, ho, rfl⟩ := List.mem_map.mp hs
  exact ⟨rfl, o, ho, rfl⟩

/-- What a key shows after an announcement: the last service offered under it, nothing if it was stale,
and else what it showed. -/
inductive Outcome (now : Instant) (node : Uuid) (a : NodeAnnouncement) (before : List Service)
    (r r' : Replica) (k : Bytes) : Prop
  | offered (s : Service) (hlast : ((a.toServices node).filter (·.key = k)).getLast? = some s)
      (h : r'.serviceAt now k = some s)
  | stale (hk : ∀ o ∈ a.toServices node, o.key ≠ k)
      (hs : ∃ s ∈ DynamicView.stale node a before, s.key = k) (h : r'.serviceAt now k = none)
  | untouched (hk : ∀ o ∈ a.toServices node, o.key ≠ k)
      (hs : ∀ s ∈ DynamicView.stale node a before, s.key ≠ k) (h : r'.held k = r.held k)

theorem outcome (hroom : ∀ s ∈ a.toServices node, Entry.Room a.services.length now (r.held s.key))
    (hheld : ∀ k, r'.held k =
      (changes maxAge node a before).foldl (Draft.leaves r.nodeId now k) (r.held k)) (k : Bytes) :
    Outcome now node a before r r' k := by
  cases hlast : ((a.toServices node).filter (·.key = k)).getLast? with
  | some s =>
    obtain ⟨hs, hk⟩ := List.mem_filter.mp (List.mem_of_getLast? hlast)
    have hr : Entry.Room (a.toServices node).length now (r.held k) := by
      rw [NodeAnnouncement.toServices, List.length_map, ← of_decide_eq_true hk]
      exact hroom s hs
    obtain ⟨held, hroom', hfold⟩ : ∃ held, Entry.Room 1 now held ∧
        r'.held k = some ((s.draft maxAge).over r.nodeId now held) := by
      rw [hheld]
      exact exists_foldl_changes hr hlast
    have hnow : now < Int64.maxValue := by
      have := hroom'.clock
      rw [Instant.lt_maxValue_iff]
      omega
    exact .offered s hlast (serviceAt_of_draft hnow hfold)
  | none =>
    have hk : ∀ o ∈ a.toServices node, o.key ≠ k := by
      simpa using List.filter_eq_nil_iff.mp (List.getLast?_eq_none_iff.mp hlast)
    by_cases hs : ∃ s ∈ stale node a before, s.key = k
    · obtain ⟨t, hfold, ht⟩ : ∃ t, r'.held k = some t ∧ t.isTombstone := by
        rw [hheld]
        exact exists_foldl_changes_of_stale hk hs
      exact .stale hk hs (serviceAt_of_tombstone hfold ht)
    · have hs' : ∀ s ∈ stale node a before, s.key ≠ k := fun s hs' hk' => hs ⟨s, hs', hk'⟩
      exact .untouched hk hs' ((hheld k).trans (foldl_changes_of_untouched hk hs'))

/-- Of distinct services that are announced each is shown. -/
theorem Outcome.serviceAt_eq (ho : Outcome now node a before r r' s.key)
    (hnodup : (a.services.map (·.id)).Nodup) (hs : s ∈ a.toServices node) :
    r'.serviceAt now s.key = some s := by
  cases ho with
  | offered t hlast h =>
    obtain ⟨ht, hk⟩ := List.mem_filter.mp (List.mem_of_getLast? hlast)
    have hid : t.id = s.id := Service.key_eq_key_iff.mp (of_decide_eq_true hk)
    have hnodup' : ((a.toServices node).map (·.id)).Nodup := by
      rw [NodeAnnouncement.toServices, List.map_map]
      exact hnodup
    rw [h, List.inj_on_of_nodup_map hnodup' ht hs hid]
  | stale hk _ _ => exact absurd rfl (hk s hs)
  | untouched hk _ _ => exact absurd rfl (hk s hs)

theorem serviceAt_congr (h : r'.held k = r.held k) : r'.serviceAt now k = r.serviceAt now k := by
  rw [serviceAt, serviceAt, h]

theorem placed_of_outcome (hp : r.Placed now) (ho : ∀ k, Outcome now node a before r r' k) :
    r'.Placed now := by
  intro k s hs
  cases ho k with
  | offered t hlast h =>
    cases h.symm.trans hs
    exact of_decide_eq_true (List.mem_filter.mp (List.mem_of_getLast? hlast)).2
  | stale _ _ h => exact absurd (h.symm.trans hs) (by simp)
  | untouched _ _ h => exact hp k s ((serviceAt_congr h).symm.trans hs)

section Listings

variable (hs : r.spared.Stocked) (hp : r.Placed now) (hl : r.Lists now before)
include hs hp hl

/-- A service of the node that is not announced again stands under a stale key. -/
theorem mem_stale_of_serviceAt (hk : ∀ o ∈ a.toServices node, o.key ≠ k)
    (h : r.serviceAt now k = some s) (hn : s.nodeId = some node) :
    s ∈ stale node a before ∧ s.key = k := by
  have hkey := hp k s h
  exact ⟨mem_stale.mpr ⟨(hl.mem_iff hs.toSound).mpr ⟨k, h⟩, hn, hkey ▸ hk⟩, hkey⟩

theorem serviceAt_of_mem_stale (h : s ∈ stale node a before) :
    r.serviceAt now s.key = some s ∧ s.nodeId = some node := by
  obtain ⟨hlisted, hn, -⟩ := mem_stale.mp h
  obtain ⟨k, hk⟩ := (hl.mem_iff hs.toSound).mp hlisted
  rw [hp k s hk]
  exact ⟨hk, hn⟩

variable (hs' : r'.spared.Stocked) (hl' : r'.Lists now after)
  (ho : ∀ k, Outcome now node a before r r' k)
include hs' hl' ho

omit hs hl in
theorem filter_offered {o : Offer} (hoff : o ∈ a.services) :
    ∃ s, ((a.toServices node).filter (·.id = o.id)).getLast? = some s ∧
      after.filter (·.id = o.id) = [s] := by
  have hp' := placed_of_outcome hp ho
  obtain ⟨t, ht, hid⟩ : ∃ t ∈ a.toServices node, t.id = o.id := exists_mem_toServices hoff
  have hfilter : (a.toServices node).filter (·.id = o.id) =
      (a.toServices node).filter (·.key = t.key) := by
    simp only [Service.key_eq_key_iff, hid]
  rw [hfilter]
  cases ho t.key with
  | offered s hlast h =>
    have hk := of_decide_eq_true (List.mem_filter.mp (List.mem_of_getLast? hlast)).2
    refine ⟨s, hlast, hl'.filter_eq_singleton (k := t.key) hs'.toSound fun k' s' => ?_⟩
    constructor
    -- another row with the id would stand under the same key
    · rintro ⟨h', hid'⟩
      have hk' : k' = t.key := by
        rw [← hp' k' s' h', Service.key_eq_key_iff, of_decide_eq_true hid', hid]
      subst hk'
      exact ⟨rfl, Option.some.inj (h'.symm.trans h)⟩
    · rintro ⟨rfl, rfl⟩
      exact ⟨h, decide_eq_true ((Service.key_eq_key_iff.mp hk).trans hid)⟩
  | stale hk _ _ => exact absurd rfl (hk t ht)
  | untouched hk _ _ => exact absurd rfl (hk t ht)

theorem exists_offer_of_nodeId (hmem : s ∈ after) (hn : s.nodeId = some node) :
    ∃ o ∈ a.services, o.id = s.id := by
  obtain ⟨k, h⟩ := (hl'.mem_iff hs'.toSound).mp hmem
  cases ho k with
  | offered t hlast h' =>
    cases h'.symm.trans h
    exact (exists_mem_services (List.mem_filter.mp (List.mem_of_getLast? hlast)).1).2
  | stale _ _ h' => exact absurd (h'.symm.trans h) (by simp)
  | untouched hk hst h' =>
    obtain ⟨hmem', hkey⟩ :=
      mem_stale_of_serviceAt hs hp hl hk ((serviceAt_congr h').symm.trans h) hn
    exact absurd hkey (hst s hmem')

theorem filter_others :
    after.filter (fun s => s.nodeId ≠ some node ∧ ∀ o ∈ a.services, o.id ≠ s.id) =
      before.filter fun s => s.nodeId ≠ some node ∧ ∀ o ∈ a.services, o.id ≠ s.id := by
  refine hl'.filter_eq hs'.toSound hs.toSound hl fun k s hkeep => ?_
  obtain ⟨hn, hid⟩ := of_decide_eq_true hkeep
  cases ho k with
  | offered t hlast h' =>
    have ht := List.mem_filter.mp (List.mem_of_getLast? hlast)
    obtain ⟨htn, o, ho', hoid⟩ := exists_mem_services ht.1
    constructor
    · intro h
      cases h'.symm.trans h
      exact absurd htn hn
    -- a service of another node that stood under an id that is offered now is not kept
    · intro h
      have hkey := (hp k s h).trans (of_decide_eq_true ht.2).symm
      exact absurd (hoid.trans (Service.key_eq_key_iff.mp hkey).symm) (hid o ho')
  | stale hk hst h' =>
    obtain ⟨t, ht, rfl⟩ := hst
    obtain ⟨hat, htn⟩ := serviceAt_of_mem_stale hs hp hl ht
    constructor
    · intro h
      exact absurd (h'.symm.trans h) (by simp)
    -- what stood there was the node's
    · intro h
      exact absurd (Option.some.inj (hat.symm.trans h) ▸ htn) hn
  | untouched _ _ h' => rw [serviceAt_congr h']

omit hs' hl' in
theorem held_of_untouched (hk : ∀ s ∈ a.toServices node, s.key ≠ k)
    (hnode : ∀ s, r.serviceAt now k = some s → s.nodeId ≠ some node) : r'.held k = r.held k := by
  cases ho k with
  | offered s hlast _ =>
    have ht := List.mem_filter.mp (List.mem_of_getLast? hlast)
    exact absurd (of_decide_eq_true ht.2) (hk s ht.1)
  | stale _ hst _ =>
    obtain ⟨t, ht, rfl⟩ := hst
    obtain ⟨hat, htn⟩ := serviceAt_of_mem_stale hs hp hl ht
    exact absurd htn (hnode t hat)
  | untouched _ _ h => exact h

end Listings

/-- An announcement that succeeds replaces what its node offered as a whole, and nothing else. -/
theorem put_replaces (hs : r.spared.Stocked) (hid : (Utf8.encode r.nodeId).length < 2 ^ 64)
    (hsize : ∀ s ∈ a.toServices node, s.encode.length < 2 ^ 64) (hp : r.Placed now)
    (hroom : ∀ s ∈ a.toServices node, Entry.Room a.services.length now (r.held s.key))
    (h : (put now maxAge node a).run.run r = (.ok ss, r')) :
    ss = a.toServices node ∧ ∃ before after, r.Lists now before ∧ r'.Lists now after ∧
      Replaced now node a before after r r' := by
  obtain ⟨before, hl⟩ := exists_lists hs.toSound now
  obtain ⟨hss, hs', hheld⟩ := held_put hs hid hsize hl h
  obtain ⟨after, hl'⟩ := exists_lists hs'.toSound now
  have ho := outcome hroom hheld
  exact ⟨hss, before, after, hl, hl', {
    offered := fun o hoff => filter_offered hp hs' hl' ho hoff
    withdrawn := fun s hmem hn => exists_offer_of_nodeId hs hp hl hs' hl' ho hmem hn
    others := filter_others hs hp hl hs' hl' ho
    untouched := fun k hk hnode => held_of_untouched hs hp hl ho hk hnode }⟩

/-- An identifier with one digit throughout. -/
def uniform (d : Fin 16) : Uuid := ⟨List.replicate 32 d, rfl⟩

def offering (offers : List (Fin 16 × String)) : NodeAnnouncement where
  environment := "test"
  pool := "main"
  location := none
  services := offers.map fun o => ⟨uniform o.1, o.2, .empty⟩

/-- What may be offered in the runs below can be stored. -/
theorem length_encode_offering {offers : List (Fin 16 × String)}
    (h : offers ⊆ [(1, "api"), (1, "web"), (2, "web"), (2, "site")]) :
    ∀ s ∈ (offering offers).toServices (uniform 9), s.encode.length < 2 ^ 64 := by
  have hall : ∀ s ∈ (offering [(1, "api"), (1, "web"), (2, "web"), (2, "site")]).toServices (uniform 9),
      s.encode.length < 2 ^ 64 := by decide +kernel
  exact fun s hs => hall s (List.map_subset _ (List.map_subset _ h) hs)

theorem held_infant (id : String) (k : Bytes) : (infant id).held k = none := Medium.held_fresh false k

theorem lists_infant (id : String) (now : Instant) : (infant id).Lists now [] := by
  have hs : (infant id).spared.Sound := (stocked_infant id).toSound
  obtain ⟨ss, hl⟩ := exists_lists hs now
  have hss : ss = [] := List.eq_nil_iff_forall_not_mem.mpr fun s hmem => by
    obtain ⟨k, hk⟩ := (hl.mem_iff hs).mp hmem
    simp [serviceAt, held_infant] at hk
  exact hss ▸ hl

/-- The first announcement at a node. -/
theorem exists_put_infant {id : String} (hv : a.flaw? = none)
    (hid : (Utf8.encode id).length < 2 ^ 64)
    (hsize : ∀ s ∈ a.toServices node, s.encode.length < 2 ^ 64)
    (hroom : now.toInt + a.services.length < Instant.last) :
    ∃ r, (put now maxAge node a).run.run (infant id) = (.ok (a.toServices node), r) ∧ r.Stocked ∧
      r.nodeId = id ∧ r.Placed now ∧ ∀ k, Outcome now node a [] (infant id) r k := by
  obtain ⟨r, hrun, hr, hid', hheld⟩ :=
    exists_put (stocked_infant id) hv hid hsize (lists_infant id now)
  have ho := outcome (fun s _ => ⟨hroom, by simp [held_infant]⟩) hheld
  have hp : (infant id).Placed now := fun k s hk => by simp [serviceAt, held_infant] at hk
  exact ⟨r, hrun, hr, hid', placed_of_outcome hp ho, ho⟩

/-- A node offers an API, and then a web service in its stead, twice by one id. -/
theorem put_replaces_offering : ∃ r r' before after,
    (put 1000 ⟨30000000000⟩ (uniform 9) (offering [(2, "web"), (2, "site")])).run.run r =
      (.ok ((offering [(2, "web"), (2, "site")]).toServices (uniform 9)), r') ∧
    (∃ s ∈ before, s.kind = "api") ∧ r.Lists 1000 before ∧ r'.Lists 1000 after ∧
    Replaced 1000 (uniform 9) (offering [(2, "web"), (2, "site")]) before after r r' := by
  obtain ⟨r, -, hr, hid, hp, ho⟩ : ∃ r,
      (put 1000 ⟨30000000000⟩ (uniform 9) (offering [(1, "api")])).run.run (infant "a") = _ ∧ _ :=
    exists_put_infant (by decide) (by decide) (length_encode_offering (by decide)) (by decide)
  have hid' : (Utf8.encode r.nodeId).length < 2 ^ 64 := by
    rw [hid]
    decide
  have hsize : ∀ s ∈ (offering [(2, "web"), (2, "site")]).toServices (uniform 9),
      s.encode.length < 2 ^ 64 := length_encode_offering (by decide)
  -- nothing stands yet under the id that is announced now
  have hnone : ∀ s ∈ (offering [(2, "web"), (2, "site")]).toServices (uniform 9),
      r.held s.key = none := by
    intro s hs
    have hne : ∀ t ∈ (offering [(1, "api")]).toServices (uniform 9), t.key ≠ s.key := by
      have h₂ : s.id = uniform 2 := by revert s; decide
      have h₁ : ∀ t ∈ (offering [(1, "api")]).toServices (uniform 9), t.id ≠ uniform 2 := by decide
      intro t ht hk
      exact h₁ t ht ((Service.key_eq_key_iff.mp hk).trans h₂)
    cases ho s.key with
    | offered t hlast _ =>
      have ht := List.mem_filter.mp (List.mem_of_getLast? hlast)
      exact absurd (of_decide_eq_true ht.2) (hne t ht.1)
    | stale _ hst _ => exact absurd hst (by simp [stale])
    | untouched _ _ h => rw [h, held_infant]
  have hs : r.spared.Stocked := hr.toSound.spared_eq.symm ▸ hr
  obtain ⟨before, hl⟩ := exists_lists hs.toSound 1000
  obtain ⟨r', hrun, -⟩ : ∃ r', (put 1000 ⟨30000000000⟩ (uniform 9) _).run.run r = _ ∧ _ :=
    exists_put hr (by decide) hid' hsize hl
  obtain ⟨-, before, after, hl, hl', hrep⟩ := put_replaces hs hid' hsize hp
    (fun s hmem => ⟨by decide, by simp [hnone s hmem]⟩) hrun
  refine ⟨r, r', before, after, hrun, ?_, hl, hl', hrep⟩
  have hat := (ho _).serviceAt_eq (by decide) (List.mem_singleton_self _)
  exact ⟨_, (hl.mem_iff hs.toSound).mpr ⟨_, hat⟩, rfl⟩

end DynamicView

end ServiceDirectory
