import Mathlib.Data.List.Perm.Subperm
import ServiceDirectory.Proofs.Replacement

namespace ServiceDirectory

namespace Replica

variable {r r' : Replica} {now : Instant} {node : Uuid} {ss : List Service} {s : Service}

/-- Every key that shows a service of the node is the key of such a service. -/
def Reaches (r : Replica) (now : Instant) (node : Uuid) : Prop :=
  ∀ k s, r.serviceAt now k = some s → s.nodeId = some node →
    ∃ k' t, r.serviceAt now k' = some t ∧ t.nodeId = some node ∧ t.key = k

theorem Placed.reaches (h : r.Placed now) (node : Uuid) : r.Reaches now node := by
  intro k s hs hn
  exact ⟨k, s, hs, hn, h k s hs⟩

/-- As many keys show services of the node as there are such services, so that where those keys are
all among the keys of these they are the same. -/
theorem Reaches.exists_serviceAt (h : r.Reaches now node) (hs : r.spared.Sound)
    (hl : r.Lists now ss) (hmem : s ∈ ss) (hn : s.nodeId = some node) :
    ∃ t, r.serviceAt now s.key = some t ∧ t.nodeId = some node := by
  obtain ⟨rows, rfl, hsorted, hrows⟩ := hl.exists_rows hs
  generalize hown : rows.filter (·.2.nodeId = some node) = own
  have hat {k : Bytes} {t : Service} :
      (k, t) ∈ own ↔ r.serviceAt now k = some t ∧ t.nodeId = some node := by
    rw [← hown, List.mem_filter, hrows, decide_eq_true_iff]
  have hnodup : (own.map (·.1)).Nodup := nodup_map_fst_of_sorted (hown ▸ hsorted.filter _)
  have hsub : own.map (·.1) ⊆ own.map (·.2.key) := by
    intro k hk
    obtain ⟨⟨_, t⟩, ht, rfl⟩ := List.mem_map.mp hk
    obtain ⟨k', t', hat', hn', hk'⟩ := h _ t (hat.mp ht).1 (hat.mp ht).2
    exact List.mem_map.mpr ⟨(k', t'), hat.mpr ⟨hat', hn'⟩, hk'⟩
  have hperm := (hnodup.subperm hsub).perm_of_length_le (by rw [List.length_map, List.length_map])
  obtain ⟨⟨k, s⟩, hrow, rfl⟩ := List.mem_map.mp hmem
  have hkey : s.key ∈ own.map (·.2.key) :=
    List.mem_map.mpr ⟨(k, s), hat.mpr ⟨(hrows k s).mp hrow, hn⟩, rfl⟩
  obtain ⟨⟨_, t⟩, ht, hk⟩ := List.mem_map.mp (hperm.mem_iff.mpr hkey)
  exact ⟨t, hat.mp (hk ▸ ht)⟩

end Replica

namespace DynamicView

open Replica

variable {r r' : Replica} {now : Instant} {node : Uuid} {before after : List Service} {b : Bool}
  {k : Bytes}

/-- A withdrawal that succeeds tells whether a key of the services listed was live, and leaves
tombstones under these keys. -/
theorem held_delete (hs : r.spared.Stocked) (hid : (Utf8.encode r.nodeId).length < 2 ^ 64)
    (hl : r.Lists now before) (h : (delete now node).run.run r = (.ok b, r')) :
    b = ((before.filter (·.nodeId = some node)).any fun s => r.isLiveAt now s.key) ∧
      r'.spared.Stocked ∧ ∀ k, r'.held k = ((before.filter (·.nodeId = some node)).map
        Service.erasure).foldl (Draft.leaves r.nodeId now k) (r.held k) := by
  have hl' : r.spared.Lists now before := by rwa [Replica.Lists, hs.toSound.spared_eq]
  obtain ⟨evs, r₁, hrun, hw⟩ : ∃ evs r₁, (delete now node).run.run r.spared = (.ok _, r₁) ∧ _ :=
    exists_run_delete hs hid hl'
  obtain ⟨h₁, -, hheld⟩ := hw.held (hs.of_engine_eq rfl) fun d hd => by
    obtain ⟨s, -, rfl⟩ := List.mem_map.mp hd
    exact Draft.fits_erasure hid s
  obtain ⟨hb, hr⟩ := Prod.mk.inj ((inherits_deleteBy pervasive_endures (.still now) node h).symm.trans hrun)
  rw [← held_spared r', hr]
  exact ⟨Except.ok.inj hb, h₁, hheld⟩

/-- What it comes to that a node is withdrawn, in the listings before and after and the answer. -/
structure Withdrawn (node : Uuid) (before after : List Service) (answer : Bool) : Prop where
  gone : ∀ s ∈ after, s.nodeId ≠ some node
  others : after.filter (·.nodeId ≠ some node) = before.filter (·.nodeId ≠ some node)
  answer : answer ↔ ∃ s ∈ before, s.nodeId = some node

section Listings

variable (hs : r.spared.Stocked) (hl : r.Lists now before)
  (hs' : r'.spared.Stocked) (hl' : r'.Lists now after)
  (hheld : ∀ k, r'.held k = ((before.filter (·.nodeId = some node)).map
    Service.erasure).foldl (Draft.leaves r.nodeId now k) (r.held k))

include hheld in
/-- What a key shows after a withdrawal: nothing if a service of the node that was listed has it, and
else what it showed. -/
theorem serviceAt_withdrawal (k : Bytes) :
    ((∃ s ∈ before, s.nodeId = some node ∧ s.key = k) ∧ r'.serviceAt now k = none) ∨
    (∀ s ∈ before, s.nodeId = some node → s.key ≠ k) ∧ r'.serviceAt now k = r.serviceAt now k := by
  by_cases hk : ∃ s ∈ before, s.nodeId = some node ∧ s.key = k
  · obtain ⟨s, hs, hn, hsk⟩ := id hk
    obtain ⟨t, hfold, ht⟩ : ∃ t, r'.held k = some t ∧ t.isTombstone := by
      rw [hheld]
      exact Draft.exists_foldl_erasures ⟨s, List.mem_filter.mpr ⟨hs, decide_eq_true hn⟩, hsk⟩
    exact .inl ⟨hk, serviceAt_of_tombstone hfold ht⟩
  · have hne : ∀ s ∈ before, s.nodeId = some node → s.key ≠ k :=
      fun s hs hn hsk => hk ⟨s, hs, hn, hsk⟩
    refine .inr ⟨hne, serviceAt_congr ?_⟩
    rw [hheld]
    refine Draft.foldl_erasures_of_forall_ne fun s hs => ?_
    obtain ⟨hs, hn⟩ := List.mem_filter.mp hs
    exact hne s hs (of_decide_eq_true hn)

include hs hl hs' hl' hheld

theorem reaches_of_gone (hw : ∀ s ∈ after, s.nodeId ≠ some node) : r.Reaches now node := by
  intro k s hat hn
  rcases serviceAt_withdrawal hheld k with ⟨⟨t, ht, htn, htk⟩, -⟩ | ⟨-, h⟩
  · obtain ⟨k', hat'⟩ := (hl.mem_iff hs.toSound).mp ht
    exact ⟨k', t, hat', htn, htk⟩
  · have hmem : s ∈ after := (hl'.mem_iff hs'.toSound).mpr ⟨k, h.trans hat⟩
    exact absurd hn (hw s hmem)

theorem withdrawn_of_reaches (h : r.Reaches now node) : Withdrawn node before after
    ((before.filter (·.nodeId = some node)).any fun s => r.isLiveAt now s.key) where
  gone s hmem hn := by
    obtain ⟨k, hat⟩ := (hl'.mem_iff hs'.toSound).mp hmem
    rcases serviceAt_withdrawal hheld k with ⟨-, hnone⟩ | ⟨hk, heq⟩
    · simp [hnone] at hat
    · obtain ⟨k', t, ht, htn, htk⟩ := h k s (heq.symm.trans hat) hn
      exact hk t ((hl.mem_iff hs.toSound).mpr ⟨k', ht⟩) htn htk
  others := by
    refine hl'.filter_eq hs'.toSound hs.toSound hl fun k s hn => ?_
    rcases serviceAt_withdrawal hheld k with ⟨⟨t, ht, htn, htk⟩, hnone⟩ | ⟨-, heq⟩
    -- what stood there was the node's
    · obtain ⟨u, hu, hun⟩ := h.exists_serviceAt hs.toSound hl ht htn
      rw [hnone, ← htk, hu]
      refine ⟨fun he => by simp at he, fun he => ?_⟩
      exact absurd (Option.some.inj he ▸ hun) (of_decide_eq_true hn)
    · rw [heq]
  answer := by
    rw [List.any_eq_true]
    constructor
    · rintro ⟨s, hmem, -⟩
      exact ⟨s, (List.mem_filter.mp hmem).1, of_decide_eq_true (List.mem_filter.mp hmem).2⟩
    · rintro ⟨s, hmem, hn⟩
      obtain ⟨t, ht, -⟩ := h.exists_serviceAt hs.toSound hl hmem hn
      obtain ⟨e, he, hlive, -⟩ := serviceAt_eq_some_iff.mp ht
      exact ⟨s, List.mem_filter.mpr ⟨hmem, decide_eq_true hn⟩, isLiveAt_iff.mpr ⟨e, he, hlive⟩⟩

end Listings

/-- A withdrawal withdraws the node and nothing else exactly if every key that shows a service of the
node is the key of such a service. -/
theorem delete_withdraws_iff (hs : r.spared.Stocked) (hid : (Utf8.encode r.nodeId).length < 2 ^ 64)
    (h : (delete now node).run.run r = (.ok b, r')) :
    ∃ before after, r.Lists now before ∧ r'.Lists now after ∧
      (Withdrawn node before after b ↔ r.Reaches now node) := by
  obtain ⟨before, hl⟩ := exists_lists hs.toSound now
  obtain ⟨rfl, hs', hheld⟩ := held_delete hs hid hl h
  obtain ⟨after, hl'⟩ := exists_lists hs'.toSound now
  refine ⟨before, after, hl, hl', ?_⟩
  constructor
  · exact fun hw => reaches_of_gone hs hl hs' hl' hheld hw.gone
  · exact withdrawn_of_reaches hs hl hs' hl' hheld

/-- A node that has announced an API is withdrawn. -/
theorem delete_withdraws_offering : ∃ r r' before after,
    (delete 1000 (uniform 9)).run.run r = (.ok true, r') ∧ (∃ s ∈ before, s.kind = "api") ∧
    r.Lists 1000 before ∧ r'.Lists 1000 after ∧ r.Reaches 1000 (uniform 9) ∧
    Withdrawn (uniform 9) before after true := by
  obtain ⟨r, -, hr, hid, hp, ho⟩ : ∃ r, (put 1000 ⟨30000000000⟩ (uniform 9)
      (offering [(1, "api")])).run.run (infant "a") = _ ∧ _ :=
    exists_put_infant (by decide) (by decide) (length_encode_offering (by decide)) (by decide)
  have hid' : (Utf8.encode r.nodeId).length < 2 ^ 64 := by
    rw [hid]
    decide
  have hs : r.spared.Stocked := hr.toSound.spared_eq.symm ▸ hr
  have hreach := hp.reaches (uniform 9)
  obtain ⟨listed, hl⟩ := exists_lists hs.toSound 1000
  obtain ⟨-, r', hrun, -⟩ : ∃ evs r', (delete 1000 (uniform 9)).run.run r = (.ok _, r') ∧ _ :=
    exists_run_delete hr hid' hl
  obtain ⟨before, after, hl, hl', hiff⟩ := delete_withdraws_iff hs hid' hrun
  have hw := hiff.mpr hreach
  have hat := (ho _).serviceAt_eq (by decide) (List.mem_singleton_self _)
  have hmem := (hl.mem_iff hs.toSound).mpr ⟨_, hat⟩
  have htrue := hw.answer.mpr ⟨_, hmem, rfl⟩
  rw [htrue] at hrun hw
  exact ⟨r, r', before, after, hrun, ⟨_, hmem, rfl⟩, hl, hl', hreach, hw⟩

/-- A service of the node, and the row in which a peer keeps its record under another key. -/
def straying : Service :=
  ⟨uniform ⟨1, by decide⟩, some (uniform ⟨9, by decide⟩), "api", "main", "/api", .empty⟩

def astray : Entry where
  key := [107]
  value := some straying.encode
  version := 1
  origin := "b"
  timestamp := 100
  maxAge := none

theorem service?_astray : astray.service? = some straying := Entry.service?_of_value rfl

theorem exists_trace_astray : ∃ r, Trace (infant "a") [.merge 1000 [astray]] r ∧ r.Stocked ∧
    r.nodeId = "a" ∧ ∀ k, r.held k = if astray.key = k then some astray else none := by
  have hf : (Operation.merge 1000 [astray]).Fits (infant "a") := by decide +kernel
  have h₀ : Trace (infant "a") [] (infant "a") := .nil
  have hstep := (stocked_infant "a").step hf
  refine ⟨_, h₀.snoc hf, hstep.stocked, hstep.nodeId, fun k => ?_⟩
  rw [hstep.held, Operation.leaves, held_infant]
  change Entry.settle none ([astray].filter _) = _
  rw [List.filter_singleton]
  by_cases hk : astray.key = k
  · rw [if_pos hk, decide_eq_true ⟨hk, by decide⟩]
    rfl
  · rw [if_neg hk, decide_eq_false fun h => hk h.1]
    rfl

theorem eq_straying (hs : r.spared.Stocked) (hl : r.Lists now before)
    (hheld : ∀ k, r.held k = if astray.key = k then some astray else none) :
    ∀ s ∈ before, s = straying := by
  intro s hmem
  obtain ⟨k, hk⟩ := (hl.mem_iff hs.toSound).mp hmem
  obtain ⟨e, he, -, hsvc⟩ := serviceAt_eq_some_iff.mp hk
  rw [hheld] at he
  split at he
  · cases he
    exact Option.some.inj (hsvc.symm.trans service?_astray)
  · cases he

/-- Such a row stays where a withdrawal looks for it under the id, and is not found live there. -/
theorem not_withdrawn_astray : ∃ r r' before after, Trace (infant "a") [.merge 1000 [astray]] r ∧
    (delete 1000 (uniform 9)).run.run r = (.ok false, r') ∧
    r.Lists 1000 before ∧ r'.Lists 1000 after ∧ straying ∈ before ∧ straying ∈ after ∧
    ¬ Withdrawn (uniform 9) before after false := by
  obtain ⟨r, htrace, hr, hnode, hheld⟩ := exists_trace_astray
  have hs : r.spared.Stocked := hr.toSound.spared_eq.symm ▸ hr
  have hid : (Utf8.encode r.nodeId).length < 2 ^ 64 := by
    rw [hnode]
    decide
  have hat : r.serviceAt 1000 astray.key = some straying :=
    serviceAt_eq_some_iff.mpr ⟨astray, by rw [hheld, if_pos rfl], by decide, service?_astray⟩
  obtain ⟨before, hl⟩ := exists_lists hs.toSound 1000
  obtain ⟨-, r', hrun, -⟩ : ∃ evs r', (delete 1000 (uniform 9)).run.run r = (.ok _, r') ∧ _ :=
    exists_run_delete hr hid hl
  obtain ⟨-, hs', hheld'⟩ := held_delete hs hid hl hrun
  obtain ⟨after, hl'⟩ := exists_lists hs'.toSound 1000
  have honly := eq_straying hs hl hheld
  have hne : astray.key ≠ straying.key := by decide +kernel
  -- nothing is live under the id that the record names
  have hfalse : ((before.filter (·.nodeId = some (uniform 9))).any
      fun s => r.isLiveAt 1000 s.key) = false := by
    refine List.any_eq_false.mpr fun s hmem => ?_
    rw [honly s (List.mem_of_mem_filter hmem), isLiveAt, hheld, if_neg hne]
    decide
  have hstays : r'.serviceAt 1000 astray.key = r.serviceAt 1000 astray.key := by
    refine (serviceAt_withdrawal hheld' astray.key).resolve_left ?_ |>.2
    rintro ⟨⟨s, hmem, -, hk⟩, -⟩
    exact hne (hk.symm.trans (congrArg Service.key (honly s hmem)))
  have hmem := (hl.mem_iff hs.toSound).mpr ⟨_, hat⟩
  have hmem' := (hl'.mem_iff hs'.toSound).mpr ⟨_, hstays.trans hat⟩
  rw [hfalse] at hrun
  exact ⟨r, r', before, after, htrace, hrun, hl, hl', hmem, hmem', fun hw => hw.gone _ hmem' rfl⟩

end DynamicView

end ServiceDirectory
