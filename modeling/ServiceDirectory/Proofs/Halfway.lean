import ServiceDirectory.Proofs.FailedWrites

namespace ServiceDirectory

theorem Draft.room_foldl_leaves {ds : List Draft} {origin : String} {now : Instant} {k : Bytes}
    {held : Option Entry} {n : Nat} (h : Entry.Room (n + ds.length) now held) :
    Entry.Room n now (ds.foldl (leaves origin now k) held) := by
  induction ds generalizing held with
  | nil => exact h
  | cons d ds ih => exact ih (Room.leaves h d)

namespace DynamicView

open Replica

variable {r r' : Replica} {now : Instant} {maxAge : Span} {node : Uuid} {a : NodeAnnouncement}
  {before gone stored : List Service} {s : Service} {k : Bytes} {φ : Fault} {f : Failure}

/-- A store where an announcement was cut off: it had deleted `gone` and then stored `stored`. -/
structure CutOff (now : Instant) (maxAge : Span) (gone stored : List Service) (r r' : Replica) :
    Prop where
  stocked : r'.spared.Stocked
  nodeId : r'.nodeId = r.nodeId
  held (k : Bytes) : r'.held k = (stored.map (Service.draft maxAge)).foldl (Draft.leaves r.nodeId now k)
    ((gone.map Service.erasure).foldl (Draft.leaves r.nodeId now k) (r.held k))
  unmoved {k : Bytes} : (∀ s ∈ gone, s.key ≠ k) → (∀ s ∈ stored, s.key ≠ k) → Unmoved r r' k

/-- How far an announcement got: nothing is stored before all that is stale is deleted. -/
structure Progress (node : Uuid) (a : NodeAnnouncement) (before gone stored : List Service) : Prop where
  goes : gone ⊆ stale node a before
  comes : stored <+: a.toServices node
  ordered : stored ≠ [] → gone = stale node a before

theorem progress_take (node : Uuid) (a : NodeAnnouncement) (before : List Service) (n : Nat) :
    Progress node a before ((stale node a before).take n)
      ((a.toServices node).take (n - (stale node a before).length)) where
  goes := List.take_subset n _
  comes := List.take_prefix _ _
  ordered hne := by
    refine List.take_of_length_le ?_
    by_contra hlt
    exact hne (by rw [Nat.sub_eq_zero_of_le (by omega), List.take_zero])

theorem cutOff_of_writes {r₁ : Replica} (hs : r.spared.Stocked)
    (hid : (Utf8.encode r.nodeId).length < 2 ^ 64) (hsize : ∀ s ∈ stored, s.encode.length < 2 ^ 64)
    (hengine : r₁.engine = r.spared.engine) (hnode : r₁.nodeId = r.nodeId)
    (hw : Writes now (gone.map Service.erasure ++ stored.map (Service.draft maxAge)) r₁ r'.spared) :
    CutOff now maxAge gone stored r r' := by
  have h₁ : r₁.Stocked := hs.of_engine_eq hengine
  have hfits : ∀ d ∈ gone.map Service.erasure ++ stored.map (Service.draft maxAge),
      d.Fits r₁.nodeId := by
    rw [hnode]
    intro d hd
    rcases List.mem_append.mp hd with hd | hd
    · obtain ⟨s, -, rfl⟩ := List.mem_map.mp hd
      exact Draft.fits_erasure hid s
    · obtain ⟨s, hs', rfl⟩ := List.mem_map.mp hd
      exact Draft.fits_draft hid (hsize s hs') maxAge
  obtain ⟨hstocked, hnode', hheld⟩ := hw.held h₁ hfits
  refine ⟨hstocked, hnode'.trans hnode, fun k => ?_, fun {k} hgone hstored => ?_⟩
  · have hheld₁ : r₁.held k = r.held k := by
      rw [Replica.held, hengine]
      rfl
    rw [← held_spared r', hheld, hnode, hheld₁, List.foldl_append]
  · have hmoved : Unmoved r₁ r'.spared k := hw.unmoved h₁ hfits fun d hd => by
      rcases List.mem_append.mp hd with hd | hd
      · obtain ⟨s, hs', rfl⟩ := List.mem_map.mp hd
        exact hgone s hs'
      · obtain ⟨s, hs', rfl⟩ := List.mem_map.mp hd
        exact hstored s hs'
    obtain ⟨hread, hrow⟩ := hmoved
    rw [hengine] at hread hrow
    exact ⟨hread, hrow⟩

theorem exists_cutOff (hs : r.spared.Stocked) (hid : (Utf8.encode r.nodeId).length < 2 ^ 64)
    (hsize : ∀ s ∈ a.toServices node, s.encode.length < 2 ^ 64) (hv : a.flaw? = none)
    (hl : r.Lists now before) (h : (put now maxAge node a).run.run r = (.error f, r')) :
    ∃ gone stored, Progress node a before gone stored ∧ CutOff now maxAge gone stored r r' := by
  obtain ⟨r₁, n, hengine, hnode, hw⟩ := exists_writes_of_put_error hs.toSound hv hl h
  rw [changes, List.take_append, List.length_map, ← List.map_take, ← List.map_take] at hw
  exact ⟨_, _, progress_take node a before n, cutOff_of_writes hs hid
    (fun s hs' => hsize s (List.mem_of_mem_take hs')) hengine hnode hw⟩

/-- A tombstone stands under the key. -/
def Buried (r : Replica) (k : Bytes) : Prop := ∃ t, r.held k = some t ∧ t.isTombstone

/-- The key holds a record of the announcement for its id. -/
def Stores (now : Instant) (maxAge : Span) (node : Uuid) (a : NodeAnnouncement) (r : Replica)
    (k : Bytes) : Prop :=
  ∃ s ∈ a.toServices node, s.key = k ∧
    ∃ held, r.held k = some ((s.draft maxAge).over r.nodeId now held)

/-- What an announcement that fails leaves of a store. -/
structure HalfReplaced (now : Instant) (maxAge : Span) (node : Uuid) (a : NodeAnnouncement)
    (r r' : Replica) : Prop where
  /-- What stood under no id of the announcement and showed no service of the node has not moved. -/
  aside : ∀ k, (∀ s ∈ a.toServices node, s.key ≠ k) →
    (∀ s, r.serviceAt now k = some s → s.nodeId ≠ some node) → Unmoved r r' k
  /-- A service of the node that is not announced again is as it was or deleted. -/
  withdrawn : ∀ k s, (∀ s ∈ a.toServices node, s.key ≠ k) → r.serviceAt now k = some s →
    s.nodeId = some node → Unmoved r r' k ∨ Buried r' k
  /-- What stood under an id of the announcement is as it was or its record, and this only where all
  that is to go has gone. -/
  offered : ∀ s ∈ a.toServices node, Unmoved r r' s.key ∨ Stores now maxAge node a r' s.key ∧
    ∀ k t, (∀ s ∈ a.toServices node, s.key ≠ k) → r.serviceAt now k = some t →
      t.nodeId = some node → Buried r' k

section CutOff

variable (hs : r.spared.Stocked) (hp : r.Placed now) (hl : r.Lists now before)
  (hprog : Progress node a before gone stored) (hc : CutOff now maxAge gone stored r r')
include hs hp hl hprog hc

omit hs hp hl in
theorem buried_of_mem_gone (hk : ∀ s ∈ a.toServices node, s.key ≠ k) (hgone : ∃ s ∈ gone, s.key = k) :
    Buried r' k := by
  obtain ⟨t, ht, htomb⟩ : ∃ t, (gone.map Service.erasure).foldl (Draft.leaves r.nodeId now k)
      (r.held k) = some t ∧ t.isTombstone := Draft.exists_foldl_erasures hgone
  refine ⟨t, ?_, htomb⟩
  rw [hc.held, ht]
  refine Draft.foldl_leaves_of_forall_ne (fun d hd => ?_) _
  obtain ⟨s, hs', rfl⟩ := List.mem_map.mp hd
  exact hk s (hprog.comes.subset hs')

omit hs hp hl in
/-- The deletes leave the ids of the announcement alone. -/
theorem held_cutOff_offered (hmem : s ∈ a.toServices node) : r'.held s.key =
    (stored.map (Service.draft maxAge)).foldl (Draft.leaves r.nodeId now s.key) (r.held s.key) := by
  rw [hc.held, Draft.foldl_erasures_of_forall_ne fun g hg => ?_]
  exact ((mem_stale.mp (hprog.goes hg)).2.2 s hmem).symm

theorem halfReplaced
    (hroom : ∀ s ∈ a.toServices node, Entry.Room a.services.length now (r.held s.key)) :
    HalfReplaced now maxAge node a r r' where
  aside k hk hnode := by
    refine hc.unmoved (fun g hg hgk => ?_) fun s hs' => hk s (hprog.comes.subset hs')
    obtain ⟨hat, hgn⟩ := serviceAt_of_mem_stale hs hp hl (hprog.goes hg)
    exact hnode g (hgk ▸ hat) hgn
  withdrawn k s hk hat hn := by
    by_cases hgone : ∃ g ∈ gone, g.key = k
    · exact .inr (buried_of_mem_gone hprog hc hk hgone)
    · exact .inl (hc.unmoved (fun g hg hgk => hgone ⟨g, hg, hgk⟩) fun s hs' =>
        hk s (hprog.comes.subset hs'))
  offered s hmem := by
    cases hlast : (stored.filter (·.key = s.key)).getLast? with
    | none =>
      refine .inl (hc.unmoved (fun g hg => ?_) ?_)
      · exact ((mem_stale.mp (hprog.goes hg)).2.2 s hmem).symm
      · simpa using List.filter_eq_nil_iff.mp (List.getLast?_eq_none_iff.mp hlast)
    | some t =>
      obtain ⟨ht, htk⟩ := List.mem_filter.mp (List.mem_of_getLast? hlast)
      have hr : Entry.Room (stored.map (Service.draft maxAge)).length now (r.held s.key) := by
        refine (hroom s hmem).mono ?_
        rw [List.length_map]
        exact hprog.comes.length_le.trans_eq (List.length_map _)
      have hlast' : ((stored.map (Service.draft maxAge)).filter (·.key = s.key)).getLast? =
          some (t.draft maxAge) := by
        rw [List.filter_map, List.getLast?_map]
        exact congrArg (Option.map _) hlast
      obtain ⟨held, -, hfold⟩ : ∃ held, Entry.Room 1 now held ∧
          (stored.map (Service.draft maxAge)).foldl (Draft.leaves r.nodeId now s.key) (r.held s.key) =
            some ((t.draft maxAge).over r.nodeId now held) := Draft.exists_foldl_leaves hr hlast'
      refine .inr ⟨⟨t, hprog.comes.subset ht, of_decide_eq_true htk, held, ?_⟩, ?_⟩
      · rw [held_cutOff_offered hprog hc hmem, hfold, hc.nodeId]
      -- something was stored, so all that was stale had gone
      · intro k u hk hat hn
        have hgone := hprog.ordered (List.ne_nil_of_mem ht)
        exact buried_of_mem_gone hprog hc hk
          ⟨u, hgone ▸ mem_stale_of_serviceAt hs hp hl hk hat hn⟩

omit hs hp hl in
theorem room_cutOff (hmem : s ∈ a.toServices node)
    (hroom : Entry.Room (2 * a.services.length) now (r.held s.key)) :
    Entry.Room a.services.length now (r'.held s.key) := by
  rw [held_cutOff_offered hprog hc hmem]
  refine Draft.room_foldl_leaves (hroom.mono ?_)
  have hlen : stored.length ≤ a.services.length :=
    hprog.comes.length_le.trans_eq (List.length_map _)
  rw [List.length_map]
  omega

end CutOff

/-! An announcement that failed, made again. -/

theorem getLast?_of_not_offered (hk : ∀ o ∈ a.toServices node, o.key ≠ k) :
    ((a.toServices node).filter (·.key = k)).getLast? = none := by
  simpa using hk

/-- What a key shows after an announcement that fails: what it showed, nothing in the place of a
service of the node, or what is announced. -/
theorem HalfReplaced.serviceAt_cases (h : HalfReplaced now maxAge node a r r')
    (hnow : now < Int64.maxValue) (k : Bytes) :
    r'.serviceAt now k = r.serviceAt now k ∨
      (∃ s, r.serviceAt now k = some s ∧ s.nodeId = some node ∧ r'.serviceAt now k = none ∧
        ∀ o ∈ a.toServices node, o.key ≠ k) ∨
      ∃ s ∈ a.toServices node, s.key = k ∧ r'.serviceAt now k = some s := by
  by_cases hk : ∀ o ∈ a.toServices node, o.key ≠ k
  · by_cases hn : ∃ s, r.serviceAt now k = some s ∧ s.nodeId = some node
    · obtain ⟨s, hat, hn⟩ := hn
      rcases h.withdrawn k s hk hat hn with hmoved | ⟨t, ht, htomb⟩
      · exact .inl (serviceAt_congr hmoved.held)
      · exact .inr (.inl ⟨s, hat, hn, serviceAt_of_tombstone ht htomb, hk⟩)
    · exact .inl (serviceAt_congr (h.aside k hk fun s hat hs => hn ⟨s, hat, hs⟩).held)
  · push Not at hk
    obtain ⟨o, ho, rfl⟩ := hk
    rcases h.offered o ho with hmoved | ⟨⟨s, hs, hkey, held, hheld⟩, -⟩
    · exact .inl (serviceAt_congr hmoved.held)
    · exact .inr (.inr ⟨s, hs, hkey, serviceAt_of_draft hnow hheld⟩)

theorem HalfReplaced.placed (h : HalfReplaced now maxAge node a r r') (hnow : now < Int64.maxValue)
    (hp : r.Placed now) : r'.Placed now := by
  intro k s hat
  rcases h.serviceAt_cases hnow k with he | ⟨-, -, -, he, -⟩ | ⟨t, -, hkey, he⟩
  · exact hp k s (he.symm.trans hat)
  · simp [he] at hat
  · cases he.symm.trans hat
    exact hkey

/-- What a key shows once an announcement has come through: the last service announced under it, or
else what it showed of other nodes. -/
def shown (now : Instant) (node : Uuid) (a : NodeAnnouncement) (r : Replica) (k : Bytes) :
    Option Service :=
  ((a.toServices node).filter (·.key = k)).getLast?.or
    ((r.serviceAt now k).filter (·.nodeId ≠ some node))

theorem Outcome.serviceAt_eq_shown (hs : r.spared.Stocked) (hp : r.Placed now)
    (hl : r.Lists now before) (ho : Outcome now node a before r r' k) :
    r'.serviceAt now k = shown now node a r k := by
  cases ho with
  | offered s hlast h =>
    rw [shown, hlast, h]
    rfl
  | stale hk hst h =>
    obtain ⟨s, hmem, rfl⟩ := hst
    obtain ⟨hat, hn⟩ := serviceAt_of_mem_stale hs hp hl hmem
    rw [h, shown, getLast?_of_not_offered hk, hat]
    simp [hn, Option.filter_some]
  | untouched hk hst h =>
    rw [serviceAt_congr h, shown, getLast?_of_not_offered hk, Option.none_or]
    cases hat : r.serviceAt now k with
    | none => rfl
    | some s =>
      have hn : s.nodeId ≠ some node := fun hn =>
        have hmem := mem_stale_of_serviceAt hs hp hl hk hat hn
        hst s hmem.1 hmem.2
      simp [hn, Option.filter_some]

/-- Where an announcement fails, the next one makes of each key what it would have made of it. -/
theorem HalfReplaced.shown_eq (h : HalfReplaced now maxAge node a r r')
    (hnow : now < Int64.maxValue) (k : Bytes) : shown now node a r' k = shown now node a r k := by
  rcases h.serviceAt_cases hnow k with he | ⟨s, hat, hn, he, hk⟩ | ⟨s, hs, hkey, -⟩
  · rw [shown, he, shown]
  · rw [shown, shown, getLast?_of_not_offered hk, he, hat]
    simp [hn, Option.filter_some]
  · cases hlast : ((a.toServices node).filter (·.key = k)).getLast? with
    | some t => rw [shown, shown, hlast, Option.some_or, Option.some_or]
    | none =>
      have hne := List.filter_eq_nil_iff.mp (List.getLast?_eq_none_iff.mp hlast) s hs
      simp [hkey] at hne

/-- Nodes of which each key shows the same list the same. -/
theorem lists_congr (hs : r.spared.Sound) (hs' : r'.spared.Sound) {after : List Service}
    (h : ∀ k, r.serviceAt now k = r'.serviceAt now k) (hl : r.Lists now after) :
    r'.Lists now after := by
  obtain ⟨after', hl'⟩ := exists_lists hs' now
  have heq := hl.filter_eq hs hs' hl' (p := fun _ => true) fun k s _ => by rw [h]
  rw [List.filter_true, List.filter_true] at heq
  exact heq ▸ hl'

theorem exists_mem_of_valid (hv : a.flaw? = none) (node : Uuid) : ∃ s, s ∈ a.toServices node := by
  have hne : a.services ≠ [] := by
    rintro he
    simp only [NodeAnnouncement.flaw?, he] at hv
    split_ifs at hv
  obtain ⟨o, ho⟩ := List.exists_mem_of_ne_nil _ hne
  exact ⟨_, List.mem_map_of_mem ho⟩

theorem exists_put_shown (hs : r.spared.Stocked) (hid : (Utf8.encode r.nodeId).length < 2 ^ 64)
    (hsize : ∀ s ∈ a.toServices node, s.encode.length < 2 ^ 64) (hv : a.flaw? = none)
    (hp : r.Placed now)
    (hroom : ∀ s ∈ a.toServices node, Entry.Room a.services.length now (r.held s.key))
    (maxAge : Span) : ∃ r', (put now maxAge node a).run.run r.spared = (.ok (a.toServices node), r') ∧
      r'.spared.Sound ∧ ∀ k, r'.serviceAt now k = shown now node a r k := by
  obtain ⟨before, hl⟩ := exists_lists hs.toSound now
  obtain ⟨r', hrun, hs', -, hheld⟩ : ∃ r', (put now maxAge node a).run.run r.spared = _ ∧ _ :=
    exists_put hs hv hid hsize hl
  refine ⟨r', hrun, hs'.toSound.spared_eq.symm ▸ hs'.toSound, fun k => ?_⟩
  have ho : Outcome now node a before r r' k := outcome hroom hheld k
  exact ho.serviceAt_eq_shown hs hp hl

/-- The announcement is made again, of a node where it failed and of the node as it was, with no fault
due. Both succeed, and list the same. -/
def Recovers (now : Instant) (maxAge : Span) (node : Uuid) (a : NodeAnnouncement) (r r' : Replica) :
    Prop :=
  ∃ r₁ r₂ after, (put now maxAge node a).run.run r'.spared = (.ok (a.toServices node), r₁) ∧
    (put now maxAge node a).run.run r.spared = (.ok (a.toServices node), r₂) ∧
    r₁.Lists now after ∧ r₂.Lists now after

/-- A fault that is due within the calls of an announcement makes it fail, harms nothing that the
announcement is not about, and is made good by the same announcement. -/
theorem failed_put_recovers (hs : r.spared.Stocked) (hid : (Utf8.encode r.nodeId).length < 2 ^ 64)
    (hsize : ∀ s ∈ a.toServices node, s.encode.length < 2 ^ 64) (hv : a.flaw? = none)
    (hp : r.Placed now)
    (hroom : ∀ s ∈ a.toServices node, Entry.Room (2 * a.services.length) now (r.held s.key))
    (hl : r.Lists now before) (hφ : r.engine.faults = [φ]) (hcount : 0 < φ.count)
    (hskip : φ.skip < callsMade node a before φ.call) :
    ∃ f r', (put now maxAge node a).run.run r = (.error f, r') ∧
      HalfReplaced now maxAge node a r r' ∧ Recovers now maxAge node a r r' := by
  obtain ⟨f, r', hrun⟩ := exists_put_error hv hl hφ hcount hskip
  obtain ⟨gone, stored, hprog, hc⟩ := exists_cutOff hs hid hsize hv hl hrun
  have hroom₁ : ∀ s ∈ a.toServices node, Entry.Room a.services.length now (r.held s.key) :=
    fun s hmem => (hroom s hmem).mono (by omega)
  have hhalf := halfReplaced hs hp hl hprog hc hroom₁
  obtain ⟨s, hmem⟩ := exists_mem_of_valid hv node
  have hnow : now < Int64.maxValue := by
    have := (hroom₁ s hmem).clock
    rw [Instant.lt_maxValue_iff]
    omega
  obtain ⟨r₁, hrun₁, hs₁, hshown₁⟩ := exists_put_shown hc.stocked (hc.nodeId.symm ▸ hid) hsize hv
    (hhalf.placed hnow hp) (fun s hmem => room_cutOff hprog hc hmem (hroom s hmem)) maxAge
  obtain ⟨r₂, hrun₂, hs₂, hshown₂⟩ := exists_put_shown hs hid hsize hv hp hroom₁ maxAge
  obtain ⟨after, hafter⟩ := exists_lists hs₁ now
  refine ⟨f, r', hrun, hhalf, r₁, r₂, after, hrun₁, hrun₂, hafter, ?_⟩
  refine lists_congr hs₁ hs₂ (fun k => ?_) hafter
  rw [hshown₁, hshown₂, hhalf.shown_eq hnow]

/-- The node with one fault due. -/
def faulty (φ : Fault) (r : Replica) : Replica := { r with engine := { r.engine with faults := [φ] } }

theorem Outcome.held_of_infant {id : String} (ho : Outcome now node a [] (infant id) r k)
    (hk : ∀ t ∈ a.toServices node, t.key ≠ k) : r.held k = none := by
  cases ho with
  | offered t hlast _ =>
    have ht := List.mem_filter.mp (List.mem_of_getLast? hlast)
    exact absurd (of_decide_eq_true ht.2) (hk t ht.1)
  | stale _ hst _ => exact absurd hst (by simp [DynamicView.stale])
  | untouched _ _ h => rw [h, held_infant]

/-- A node offers an API, and then a web service in its stead; the second write of that fails. -/
theorem failed_put_recovers_offering : ∃ r before f r',
    (∃ s ∈ before, s.kind = "api") ∧ r.Lists 1000 before ∧
    r.engine.faults = [⟨.put, .storage "injected", 1, 1⟩] ∧
    (put 1000 ⟨30000000000⟩ (uniform 9) (offering [(2, "web"), (2, "site")])).run.run r =
      (.error f, r') ∧
    HalfReplaced 1000 ⟨30000000000⟩ (uniform 9) (offering [(2, "web"), (2, "site")]) r r' ∧
    Recovers 1000 ⟨30000000000⟩ (uniform 9) (offering [(2, "web"), (2, "site")]) r r' := by
  obtain ⟨r, -, hr, hid, hp, ho⟩ : ∃ r,
      (put 1000 ⟨30000000000⟩ (uniform 9) (offering [(1, "api")])).run.run (infant "a") = _ ∧ _ :=
    exists_put_infant (by decide) (by decide) (length_encode_offering (by decide)) (by decide)
  -- nothing stands yet under the id that is announced now
  have hnone : ∀ s ∈ (offering [(2, "web"), (2, "site")]).toServices (uniform 9),
      r.held s.key = none := by
    intro s hs
    have hs₂ : s.id = uniform 2 := by revert s; decide
    have ht₁ : ∀ t ∈ (offering [(1, "api")]).toServices (uniform 9), t.id ≠ uniform 2 := by decide
    exact (ho s.key).held_of_infant fun t ht hk =>
      ht₁ t ht ((Service.key_eq_key_iff.mp hk).trans hs₂)
  have hs : r.spared.Stocked := hr.toSound.spared_eq.symm ▸ hr
  have hid' : (Utf8.encode r.nodeId).length < 2 ^ 64 := by
    rw [hid]
    decide
  obtain ⟨before, hl⟩ := exists_lists hs.toSound 1000
  have hat := (ho _).serviceAt_eq (by decide) (List.mem_singleton_self _)
  have hsize : ∀ s ∈ (offering [(2, "web"), (2, "site")]).toServices (uniform 9),
      s.encode.length < 2 ^ 64 := length_encode_offering (by decide)
  obtain ⟨f, r', hrun, hhalf, hagain⟩ : ∃ f r', (put 1000 ⟨30000000000⟩ (uniform 9) _).run.run
      (faulty ⟨.put, .storage "injected", 1, 1⟩ r) = (.error f, r') ∧ _ :=
    failed_put_recovers hs hid' hsize (by decide) hp
      (fun s hmem => ⟨by decide, fun x hx => nomatch (hnone s hmem).symm.trans hx⟩) hl rfl (by decide)
      (Nat.lt_add_left _ (by decide))
  exact ⟨faulty _ r, before, f, r', ⟨_, (hl.mem_iff hs.toSound).mpr ⟨_, hat⟩, rfl⟩, hl, rfl, hrun,
    hhalf, hagain⟩

end DynamicView

end ServiceDirectory
