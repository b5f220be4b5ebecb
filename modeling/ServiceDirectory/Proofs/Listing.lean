import ServiceDirectory.Proofs.Faults
import ServiceDirectory.Proofs.Service

namespace ServiceDirectory

/-- The service that an entry holds the record of. -/
def Entry.service? (e : Entry) : Option Service := e.value.bind Service.decode?

theorem Entry.service?_of_value {e : Entry} {s : Service} (h : e.value = some s.encode) :
    e.service? = some s := by
  rw [service?, h, Option.bind_some, Service.decode?_encode]

theorem Uuid.encode_text_inj {a b : Uuid} : Utf8.encode a.text = Utf8.encode b.text ↔ a = b :=
  ⟨fun h => text_injective (Utf8.encode_injective h), fun h => h ▸ rfl⟩

/-- Services have one key where they have one id. -/
theorem Service.key_eq_key_iff {s t : Service} : s.key = t.key ↔ s.id = t.id := Uuid.encode_text_inj

/-- The services that entries hold, each beside the key of its entry. -/
def rowsIn (es : List Entry) : List (Bytes × Service) :=
  es.filterMap fun e => e.service?.map (e.key, ·)

theorem map_rowsIn (es : List Entry) : (rowsIn es).map (·.2) = servicesIn es := by
  rw [rowsIn, List.map_filterMap, servicesIn]
  congr 1
  funext e
  rw [Option.map_map]
  exact Option.map_id'

def rowLt (a b : Bytes × Service) : Prop := compare a.1 b.1 = .lt

instance : Std.Irrefl rowLt := ⟨fun a h => by simp [rowLt] at h⟩

instance : Std.Antisymm rowLt :=
  ⟨fun a b h h' => by simp [rowLt, Std.OrientedCmp.gt_of_lt h] at h'⟩

theorem rowsIn_sorted {es : List Entry} (h : es.Pairwise Medium.keyLt) :
    (rowsIn es).Pairwise rowLt := by
  refine h.filterMap _ fun a b hab x hx y hy => ?_
  obtain ⟨s, -, rfl⟩ := Option.map_eq_some_iff.mp hx
  obtain ⟨t, -, rfl⟩ := Option.map_eq_some_iff.mp hy
  exact hab

theorem nodup_map_fst_of_sorted {rows : List (Bytes × Service)} (h : rows.Pairwise rowLt) :
    (rows.map (·.1)).Nodup :=
  List.Pairwise.map _ (fun x y hxy he => absurd hxy (by simp [rowLt, he])) h

namespace Replica

variable {r r' : Replica} {now : Instant} {k : Bytes} {s : Service} {ss ss' : List Service}

/-- The service that a key shows. -/
def serviceAt (r : Replica) (now : Instant) (k : Bytes) : Option Service :=
  ((r.held k).filter (·.isLive now)).bind Entry.service?

theorem serviceAt_eq_some_iff : r.serviceAt now k = some s ↔
    ∃ e, r.held k = some e ∧ e.isLive now ∧ e.service? = some s := by
  simp [serviceAt, Option.bind_eq_some_iff, Option.filter_eq_some_iff, and_assoc]

/-- What the view lists here with no fault due. -/
def Lists (r : Replica) (now : Instant) (ss : List Service) : Prop :=
  ((DynamicView.all now).run.run r.spared).1 = .ok ss

theorem lists_of_run (h : (DynamicView.all now).run.run r = (.ok ss, r')) : r.Lists now ss :=
  congrArg Prod.fst (DynamicView.inherits_all pervasive_endures.toHereditary now h)

theorem Lists.unique (h : r.Lists now ss) (h' : r.Lists now ss') : ss = ss' :=
  Except.ok.inj (h.symm.trans h')

/-- The rows that both views list: one for each key that shows a service, in key order. -/
theorem exists_rows_live (h : r.Sound) (now : Instant) : ∃ es, (live now).run.run r = (.ok es, r) ∧
    (rowsIn es).Pairwise rowLt ∧ ∀ k s, (k, s) ∈ rowsIn es ↔ r.serviceAt now k = some s := by
  obtain ⟨es, hrun, hsorted, hmem⟩ := exists_run_live h now
  refine ⟨es, hrun, rowsIn_sorted hsorted, fun k s => ?_⟩
  simp only [rowsIn, List.mem_filterMap, Option.map_eq_some_iff, Prod.mk.injEq, hmem,
    serviceAt_eq_some_iff]
  constructor
  · rintro ⟨e, ⟨hheld, hl⟩, s, hs, rfl, rfl⟩
    exact ⟨e, hheld, hl, hs⟩
  · rintro ⟨e, hheld, hl, hs⟩
    have hk := h.key_of_held hheld
    exact ⟨e, ⟨hk ▸ hheld, hl⟩, s, hs, hk, rfl⟩

/-- A listing reads every row, and changes nothing but the log. -/
theorem exists_run_all (h : r.Sound) (now : Instant) :
    ∃ (rows : List (Bytes × Service)) (evs : List Event),
      (DynamicView.all now).run.run r = (.ok (rows.map (·.2)), r.emitAll evs) ∧
      rows.Pairwise rowLt ∧ ∀ k s, (k, s) ∈ rows ↔ r.serviceAt now k = some s := by
  obtain ⟨es, hrun, hsorted, hmem⟩ := exists_rows_live h now
  refine ⟨rowsIn es, (undecodableIn es).map .undecodableDynamic, ?_, hsorted, hmem⟩
  rw [DynamicView.all, run_bind hrun, map_rowsIn]
  rfl

theorem Lists.exists_rows (h : r.spared.Sound) (hl : r.Lists now ss) : ∃ rows : List (Bytes × Service),
    ss = rows.map (·.2) ∧ rows.Pairwise rowLt ∧
    ∀ k s, (k, s) ∈ rows ↔ r.serviceAt now k = some s := by
  obtain ⟨rows, evs, hrun, hsorted, hmem⟩ := exists_run_all h now
  rw [Replica.Lists, hrun] at hl
  exact ⟨rows, (Except.ok.inj hl).symm, hsorted, hmem⟩

theorem exists_lists (h : r.spared.Sound) (now : Instant) : ∃ ss, r.Lists now ss := by
  obtain ⟨rows, evs, hrun, -⟩ := exists_run_all h now
  exact ⟨_, congrArg Prod.fst hrun⟩

theorem Sound.run_all (h : r.Sound) (hl : r.Lists now ss) :
    ∃ evs, (DynamicView.all now).run.run r = (.ok ss, r.emitAll evs) := by
  obtain ⟨rows, evs, hrun, -⟩ := exists_run_all h now
  rw [Replica.Lists, h.spared_eq, hrun] at hl
  exact ⟨evs, Except.ok.inj hl ▸ hrun⟩

theorem Lists.mem_iff (h : r.spared.Sound) (hl : r.Lists now ss) :
    s ∈ ss ↔ ∃ k, r.serviceAt now k = some s := by
  obtain ⟨rows, rfl, -, hmem⟩ := hl.exists_rows h
  simp [hmem]

/-- Two listings agree on the services that every key shows in both alike. -/
theorem Lists.filter_eq (h : r.spared.Sound) (h' : r'.spared.Sound) (hl : r.Lists now ss)
    (hl' : r'.Lists now ss') {p : Service → Bool}
    (hp : ∀ k s, p s → (r.serviceAt now k = some s ↔ r'.serviceAt now k = some s)) :
    ss.filter p = ss'.filter p := by
  obtain ⟨rows, rfl, hsorted, hmem⟩ := hl.exists_rows h
  obtain ⟨rows', rfl, hsorted', hmem'⟩ := hl'.exists_rows h'
  have hrows : rows.filter (p ·.2) = rows'.filter (p ·.2) := by
    apply (hsorted.filter _).eq_of_mem_iff (hsorted'.filter _)
    rintro ⟨k, s⟩
    rw [List.mem_filter, List.mem_filter, hmem, hmem']
    exact and_congr_left (hp k s)
  rw [List.filter_map, List.filter_map]
  exact congrArg _ hrows

/-- A listing has one service of a kind where one key alone shows such. -/
theorem Lists.filter_eq_singleton (h : r.spared.Sound) (hl : r.Lists now ss) {p : Service → Bool}
    (hp : ∀ k' s', r.serviceAt now k' = some s' ∧ p s' ↔ k' = k ∧ s' = s) :
    ss.filter p = [s] := by
  obtain ⟨rows, rfl, hsorted, hmem⟩ := hl.exists_rows h
  have hrows : rows.filter (p ·.2) = [(k, s)] := by
    apply (hsorted.filter _).eq_of_mem_iff (List.pairwise_singleton _ _)
    rintro ⟨k', s'⟩
    rw [List.mem_filter, hmem, hp, List.mem_singleton, Prod.mk.injEq]
  rw [List.filter_map]
  exact congrArg (List.map _) hrows

end Replica

end ServiceDirectory
