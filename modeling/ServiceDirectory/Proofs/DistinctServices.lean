import ServiceDirectory.Proofs.Replacement

namespace ServiceDirectory

namespace Draft

variable {held : Option Entry} {origin : String} {now : Instant}

theorem resolve_over_of_ne (d : Draft) (h : ∀ x ∈ held, x.timestamp ≠ Int64.maxValue) :
    Entry.resolve held (d.over origin now held) = d.over origin now held := by
  cases held with
  | none => rfl
  | some x => exact Entry.winner_of_outranks (Entry.over_outranks_of_timestamp_ne (h x rfl))

/-- A key that has come to the end of time stays there. -/
theorem ne_maxValue_of_resolve {d : Draft}
    (h : (Entry.resolve held (d.over origin now held)).timestamp ≠ Int64.maxValue) :
    ∀ x ∈ held, x.timestamp ≠ Int64.maxValue := by
  rintro x hx ht
  rw [Option.mem_def.mp hx] at h
  have hover : (d.over origin now (some x)).timestamp = Int64.maxValue := by
    change now.latest x.timestamp.succ = _
    rw [ht, Instant.succ_maxValue, Instant.latest, if_pos (Int64.le_maxValue now)]
  rcases Entry.resolve_eq (some x) (d.over origin now (some x)) with he | he
  · rw [← Option.some.inj he] at h
    exact h ht
  · rw [← he] at h
    exact h hover

theorem now_le_timestamp (d : Draft) : now ≤ (d.over origin now held).timestamp :=
  Entry.now_le_timestamp_over

theorem isLive_draft {maxAge : Span} {t : Instant}
    (h : maxAge.millisWord = 0 ∨ t < now.after maxAge.millisWord) (s : Service) :
    ((s.draft maxAge).over origin now held).isLive t := by
  have hx : ¬ ((s.draft maxAge).over origin now held).isExpired t := by
    intro hx
    obtain ⟨ms, hms, hpos, hle⟩ := Entry.isExpired_iff.mp hx
    cases Option.some.inj hms
    rcases h with hzero | hlt
    · rw [hzero] at hpos
      contradiction
    · have hnow : now ≤ ((s.draft maxAge).over origin now held).timestamp := now_le_timestamp _
      exact Int64.not_lt.mpr (Int64.le_trans (Instant.after_mono hnow _) hle) hlt
  have ht : ((s.draft maxAge).over origin now held).isTombstone = false := rfl
  simp [Entry.isLive, ht, hx]

end Draft

theorem Replica.Placed.nodup_map_key {r : Replica} {now : Instant} {ss : List Service}
    (hp : r.Placed now) (h : r.spared.Sound) (hl : r.Lists now ss) :
    (ss.map Service.key).Nodup := by
  obtain ⟨rows, rfl, hsorted, hmem⟩ := hl.exists_rows h
  have hkeys : (rows.map (·.2)).map Service.key = rows.map (·.1) := by
    rw [List.map_map]
    exact List.map_congr_left fun ⟨k, s⟩ hrow => hp k s ((hmem k s).mp hrow)
  rw [hkeys]
  exact nodup_map_fst_of_sorted hsorted

namespace DynamicView

open Replica

variable {r r' : Replica} {now : Instant} {maxAge : Span} {node : Uuid} {a : NodeAnnouncement}
  {ss before : List Service} {s : Service} {k : Bytes}

theorem nodup_map_key_toServices (hnodup : (a.services.map (·.id)).Nodup) :
    ((a.toServices node).map Service.key).Nodup := by
  have hids : ((a.toServices node).map (·.id)).Nodup := by
    rw [NodeAnnouncement.toServices, List.map_map]
    exact hnodup
  have hkeys : (a.toServices node).map Service.key =
      ((a.toServices node).map (·.id)).map fun id => Utf8.encode id.text := by
    rw [List.map_map]
    rfl
  rw [hkeys]
  exact hids.map fun _ _ h => Uuid.text_injective (Utf8.encode_injective h)

/-- An announcement of distinct services writes no key twice. -/
theorem nodup_changes (hbefore : (before.map Service.key).Nodup)
    (hnodup : (a.services.map (·.id)).Nodup) :
    ((changes maxAge node a before).map (·.key)).Nodup := by
  have hkeys : (changes maxAge node a before).map (·.key) =
      (stale node a before).map Service.key ++ (a.toServices node).map Service.key := by
    rw [changes, List.map_append, List.map_map, List.map_map]
    rfl
  rw [hkeys]
  refine List.Nodup.append ?_ (nodup_map_key_toServices hnodup) ?_
  · exact hbefore.sublist ((List.filter_sublist.trans List.filter_sublist).map _)
  · intro k hk hk'
    obtain ⟨s, hs, rfl⟩ := List.mem_map.mp hk
    obtain ⟨o, ho, hos⟩ := List.mem_map.mp hk'
    exact (mem_stale.mp hs).2.2 o ho hos

/-- What becomes of a key when distinct services are announced. -/
inductive Upshot (now : Instant) (maxAge : Span) (node : Uuid) (a : NodeAnnouncement)
    (before : List Service) (r r' : Replica) : Bytes → Prop
  | offered {s : Service} : s ∈ a.toServices node → r'.held s.key =
    some (Entry.resolve (r.held s.key) ((s.draft maxAge).over r.nodeId now (r.held s.key))) →
    Upshot now maxAge node a before r r' s.key
  | stale {s : Service} : s ∈ DynamicView.stale node a before → r'.held s.key =
    some (Entry.resolve (r.held s.key) (s.erasure.over r.nodeId now (r.held s.key))) →
    Upshot now maxAge node a before r r' s.key
  | untouched {k : Bytes} : (∀ o ∈ a.toServices node, o.key ≠ k) →
    (∀ s ∈ DynamicView.stale node a before, s.key ≠ k) → r'.held k = r.held k →
    Upshot now maxAge node a before r r' k

theorem exists_upshot (hs : r.spared.Stocked) (hid : (Utf8.encode r.nodeId).length < 2 ^ 64)
    (hp : r.Placed now) (hnodup : (a.services.map (·.id)).Nodup)
    (hsize : ∀ s ∈ a.toServices node, s.encode.length < 2 ^ 64)
    (hrun : (put now maxAge node a).run.run r = (.ok ss, r')) :
    ∃ before, r.Lists now before ∧ ∀ k, Upshot now maxAge node a before r r' k := by
  obtain ⟨before, hl⟩ := exists_lists hs.toSound now
  obtain ⟨-, -, hheld⟩ := held_put hs hid hsize hl hrun
  have hkeys : ((changes maxAge node a before).map (·.key)).Nodup :=
    nodup_changes (hp.nodup_map_key hs.toSound hl) hnodup
  refine ⟨before, hl, fun k => ?_⟩
  by_cases ho : ∃ s ∈ a.toServices node, s.key = k
  · obtain ⟨s, hs, rfl⟩ := ho
    refine .offered hs ?_
    have hd : s.draft maxAge ∈ changes maxAge node a before :=
      List.mem_append_right _ (List.mem_map_of_mem hs)
    exact (hheld _).trans ((Draft.foldl_leaves_of_nodup hkeys hd rfl _).trans (if_pos rfl))
  · have ho' : ∀ o ∈ a.toServices node, o.key ≠ k := fun s hs hk => ho ⟨s, hs, hk⟩
    by_cases hst : ∃ s ∈ stale node a before, s.key = k
    · obtain ⟨s, hs, rfl⟩ := hst
      refine .stale hs ?_
      have hd : s.erasure ∈ changes maxAge node a before :=
        List.mem_append_left _ (List.mem_map_of_mem hs)
      exact (hheld _).trans ((Draft.foldl_leaves_of_nodup hkeys hd rfl _).trans (if_pos rfl))
    · have hst' : ∀ s ∈ stale node a before, s.key ≠ k := fun s hs hk => hst ⟨s, hs, hk⟩
      exact .untouched ho' hst' ((hheld k).trans (foldl_changes_of_untouched ho' hst'))

theorem Upshot.held_of_offered (hup : Upshot now maxAge node a before r r' s.key)
    (hnodup : (a.services.map (·.id)).Nodup) (hs : s ∈ a.toServices node) : r'.held s.key =
      some (Entry.resolve (r.held s.key) ((s.draft maxAge).over r.nodeId now (r.held s.key))) := by
  generalize hk : s.key = k at hup ⊢
  cases hup with
  | @offered u hu hheld =>
    have hus : u = s := List.inj_on_of_nodup_map (nodup_map_key_toServices hnodup) hu hs hk.symm
    exact hus ▸ hheld
  | stale hu _ => exact absurd hk ((mem_stale.mp hu).2.2 s hs)
  | untouched ho _ _ => exact absurd hk (ho s hs)

end DynamicView

end ServiceDirectory
