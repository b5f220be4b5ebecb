import ServiceDirectory.Proofs.Engine
import ServiceDirectory.Proofs.Operation
import ServiceDirectory.Proofs.Request

namespace ServiceDirectory

section Rows

variable {α β : Type} {g : α → Option β} {rows : List (Bytes × α)}

/-- The rows of which something comes, each with what comes of it. -/
def rowsOf (g : α → Option β) (rows : List (Bytes × α)) : List (Bytes × β) :=
  rows.filterMap fun row => (g row.2).map (row.1, ·)

theorem map_snd_rowsOf (g : α → Option β) (rows : List (Bytes × α)) :
    (rowsOf g rows).map (·.2) = (rows.map (·.2)).filterMap g := by
  rw [rowsOf, List.map_filterMap, List.filterMap_map]
  congr 1
  funext row
  rw [Option.map_map]
  exact Option.map_id'

theorem mem_rowsOf {k : Bytes} {b : β} : (k, b) ∈ rowsOf g rows ↔ ∃ a, (k, a) ∈ rows ∧ g a = some b := by
  simp only [rowsOf, List.mem_filterMap, Option.map_eq_some_iff, Prod.mk.injEq]
  constructor
  · rintro ⟨row, hmem, b, hb, rfl, rfl⟩
    exact ⟨row.2, hmem, hb⟩
  · rintro ⟨a, hmem, hb⟩
    exact ⟨(k, a), hmem, b, hb, rfl, rfl⟩

theorem nodup_rowsOf (h : (rows.map (·.1)).Nodup) : ((rowsOf g rows).map (·.1)).Nodup := by
  rw [List.nodup_iff_pairwise_ne, List.pairwise_map] at h ⊢
  refine h.filterMap _ fun a a' hne b hb b' hb' => ?_
  obtain ⟨c, -, rfl⟩ := Option.map_eq_some_iff.mp hb
  obtain ⟨c', -, rfl⟩ := Option.map_eq_some_iff.mp hb'
  exact hne

end Rows

theorem filterMap_of_mapM {α β : Type} {f : α → Option β} {l : List α} {l' : List β}
    (h : l.mapM f = some l') : l.filterMap f = l' := by
  induction l generalizing l' with
  | nil => exact Option.some.inj h
  | cons a l ih =>
    rw [List.mapM_cons] at h
    obtain ⟨b, hb, h⟩ := Option.bind_eq_some_iff.mp h
    obtain ⟨bs, hbs, h⟩ := Option.bind_eq_some_iff.mp h
    cases h
    rw [List.filterMap_cons_some hb, ih hbs]

/-- Where all of a medium can be read, one entry is read for each key that has one. -/
theorem Medium.exists_rows_of_all {m : Medium} {es : List Entry} (h : m.all = .ok es) :
    ∃ rows : List (Bytes × Entry), rows.map (·.2) = es ∧ (rows.map (·.1)).Nodup ∧
      ∀ k e, (k, e) ∈ rows ↔ m.held k = some e := by
  cases m with
  | volatile entries =>
    cases h
    refine ⟨entries.rows, rfl, entries.nodup_keys, fun k e => ?_⟩
    rw [held_volatile, Table.get?_eq_some_iff]
  | durable rows =>
    refine ⟨rowsOf Row.decode rows.rows, ?_, nodup_rowsOf rows.nodup_keys, fun k e => ?_⟩
    · rw [map_snd_rowsOf]
      rw [all] at h
      split at h
      · contradiction
      · rename_i hes
        cases h
        exact filterMap_of_mapM hes
    · simp only [mem_rowsOf, held_durable, Option.bind_eq_some_iff, Table.get?_eq_some_iff]

/-- The service that an entry shows. -/
def Entry.shows (now : Instant) (e : Entry) : Option Service :=
  ((some e).filter (·.isLive now)).bind service?

theorem servicesIn_filter (es : List Entry) (now : Instant) :
    servicesIn (es.filter (·.isLive now)) = es.filterMap (Entry.shows now) := by
  rw [servicesIn, List.filterMap_filter]
  congr 1
  funext e
  rw [Entry.shows, Option.filter_some]
  split <;> rfl

namespace Replica

variable {r r' : Replica} {now : Instant} {es : List Entry}

theorem serviceAt_eq_bind (r : Replica) (now : Instant) (k : Bytes) :
    r.serviceAt now k = (r.held k).bind (Entry.shows now) := by
  rw [serviceAt]
  cases r.held k <;> rfl

/-- What the engine answers its medium answers. -/
theorem answer_of_onEngine {α : Type} {call : EngineCall} {work : Medium → Except Failure α × Medium}
    {a : α} (h : ((onEngine (Engine.guarded call work)).run.run r).1 = .ok a) :
    (work r.engine.medium).1 = .ok a := by
  have hrun : (Engine.guarded call work).run.run r.engine =
      (.ok a, ((Engine.guarded call work).run.run r.engine).2) := Prod.ext h rfl
  exact congrArg Prod.fst (Engine.run_guarded_of_ok hrun)

/-- What a view reads of a store: one service for each key that shows one. -/
structure Showing (now : Instant) (r : Replica) (rows : List (Bytes × Service)) : Prop where
  nodup : (rows.map (·.1)).Nodup
  mem_iff (k : Bytes) (s : Service) : (k, s) ∈ rows ↔ r.serviceAt now k = some s

theorem exists_showing (now : Instant) (h : r.engine.medium.all = .ok es) :
    ∃ rows, Showing now r rows ∧ servicesIn (es.filter (·.isLive now)) = rows.map (·.2) := by
  obtain ⟨rows, rfl, hnodup, hmem⟩ := Medium.exists_rows_of_all h
  refine ⟨rowsOf (Entry.shows now) rows, ⟨nodup_rowsOf hnodup, fun k s => ?_⟩, ?_⟩
  · simp only [mem_rowsOf, hmem, serviceAt_eq_bind, Option.bind_eq_some_iff]
    rfl
  · rw [servicesIn_filter, map_snd_rowsOf]

/-- A view lists what it reads, whatever it reports of the rest. -/
theorem exists_run_listing (h : (snapshot.run.run r).1 = .ok es) (now : Instant)
    (report : Bytes → Event) : ∃ rows r', Showing now r rows ∧ (do
      let entries ← live now
      modify (·.emitAll ((undecodableIn entries).map report))
      return servicesIn entries : Op Replica (List Service)).run.run r = (.ok (rows.map (·.2)), r') := by
  obtain ⟨r₁, hrun⟩ : ∃ r₁, (onEngine Engine.getAll).run.run r = (.ok es, r₁) := ⟨_, Prod.ext h rfl⟩
  have hlive : (live now).run.run r = (.ok (es.filter (·.isLive now)), r₁) := by
    rw [live, run_bind hrun]
    rfl
  have hall : r.engine.medium.all = .ok es := answer_of_onEngine h
  obtain ⟨rows, hshowing, hrows⟩ := exists_showing now hall
  refine ⟨rows, r₁.emitAll ((undecodableIn (es.filter (·.isLive now))).map report), hshowing, ?_⟩
  rw [run_bind hlive, hrows]
  rfl

end Replica

/-- What a query asks for; an empty text asks for nothing. -/
structure QueryRequest.Admits (req : QueryRequest) (s : Service) : Prop where
  kind : ∀ kind, req.kind = some kind → kind ≠ "" → s.kind = kind
  pool : ∀ pool, req.pool = some pool → pool ≠ "" → s.pool = pool

theorem all_filter_iff {o : Option String} {x : String} :
    (o.filter (· ≠ "")).all (x == ·) ↔ ∀ y, o = some y → y ≠ "" → x = y := by
  cases o with
  | none => simp
  | some y => by_cases hy : y = "" <;> simp [Option.filter_some, hy]

theorem QueryRequest.admits_iff {req : QueryRequest} {s : Service} : req.Admits s ↔
    ((req.kind.filter (· ≠ "")).all (s.kind == ·) && (req.pool.filter (· ≠ "")).all (s.pool == ·)) := by
  rw [Bool.and_eq_true, all_filter_iff, all_filter_iff]
  exact ⟨fun h => ⟨h.kind, h.pool⟩, fun h => ⟨h.1, h.2⟩⟩

namespace Node

variable {n : Node} {now : Instant} {req : QueryRequest} {r₁ r₂ : Replica} {ds ss : List Service}

theorem run_outcome {α : Type} {h : Handler α} {x : Except Status α} {n' : Node}
    (hrun : h.run.run n = (x, n')) : (outcome h).run.run n = (.ok x, n') := by
  change (Except.ok (h.run.run n).1, (h.run.run n).2) = _
  rw [hrun]

/-- Both stores are read, and the first failure is the answer. -/
theorem run_both {dynamic static : Op Replica (List Service)} {x y : Except Failure (List Service)}
    (hd : dynamic.run.run n.dynamic = (x, r₁)) (hs : static.run.run n.static = (y, r₂)) :
    (both dynamic static).run.run n =
      ((do return (← x.mapError Failure.toStatus) ++ (← y.mapError Failure.toStatus)),
        { n with dynamic := r₁, static := r₂ }) := by
  have hs' : static.run.run ({ n with dynamic := r₁ } : Node).static = (y, r₂) := hs
  rw [both, run_bind (run_outcome (run_atDynamic hd)), run_bind (run_outcome (run_atStatic hs'))]
  cases x with
  | error f => rfl
  | ok ds => cases y <;> rfl

/-- All the ways of asking come to one filter. -/
theorem exists_run_query (hd : (DynamicView.all now).run.run n.dynamic = (.ok ds, r₁))
    (hs : (StaticView.all now).run.run n.static = (.ok ss, r₂)) (req : QueryRequest) :
    ∃ stats log, (query now req).run.run n =
      (.ok ((ds ++ ss).filter fun s => (req.kind.filter (· ≠ "")).all (s.kind == ·) &&
          (req.pool.filter (· ≠ "")).all (s.pool == ·)),
        { n with dynamic := r₁, static := r₂, stats, log }) := by
  refine exists_run_monitored .query
    (show _ = (_, { n with dynamic := r₁, static := r₂ }) from ?_)
  cases hkind : req.kind.filter (· ≠ "") with
  | none =>
    dsimp only
    rw [run_bind (run_both hd hs)]
    rfl
  | some kind =>
    dsimp only
    have hd' : (DynamicView.ofKind now kind (req.pool.filter (· ≠ ""))).run.run n.dynamic =
        (.ok (ds.filter (·.isOf kind (req.pool.filter (· ≠ "")))), r₁) := by
      rw [DynamicView.ofKind, run_bind hd]
      rfl
    have hs' : (StaticView.ofKind now kind (req.pool.filter (· ≠ ""))).run.run n.static =
        (.ok (ss.filter (·.isOf kind (req.pool.filter (· ≠ "")))), r₂) := by
      rw [StaticView.ofKind, run_bind hs]
      rfl
    rw [run_both hd' hs', List.filter_append]
    rfl

/-- The rows of a store that a query is to find: one for each key that shows a service which it admits. -/
structure Found (now : Instant) (req : QueryRequest) (r : Replica) (rows : List (Bytes × Service)) :
    Prop where
  nodup : (rows.map (·.1)).Nodup
  mem_iff (k : Bytes) (s : Service) : (k, s) ∈ rows ↔ r.serviceAt now k = some s ∧ req.Admits s

theorem found_of_showing {r : Replica} {rows : List (Bytes × Service)}
    (h : Replica.Showing now r rows) {p : Service → Bool} (hp : ∀ s, req.Admits s ↔ p s) :
    Found now req r (rows.filter (p ·.2)) where
  nodup := h.nodup.sublist (List.filter_sublist.map _)
  mem_iff k s := by rw [List.mem_filter, h.mem_iff, hp]

/-- A query finds the services of both stores that it admits, each entry's once, and nothing else. -/
theorem query_exact {des ses : List Entry} (hd : (Replica.snapshot.run.run n.dynamic).1 = .ok des)
    (hs : (Replica.snapshot.run.run n.static).1 = .ok ses) (now : Instant) (req : QueryRequest) :
    ∃ answer n' drows srows, (query now req).run.run n = (.ok answer, n') ∧
      Found now req n.dynamic drows ∧ Found now req n.static srows ∧
      answer.Perm ((drows ++ srows).map (·.2)) := by
  obtain ⟨drows, r₁, hdrows, hdall⟩ := Replica.exists_run_listing hd now .undecodableDynamic
  obtain ⟨srows, r₂, hsrows, hsall⟩ := Replica.exists_run_listing hs now .undecodableStatic
  obtain ⟨stats, log, hrun⟩ := exists_run_query hdall hsall req
  refine ⟨_, _, _, _, hrun, found_of_showing hdrows fun s => QueryRequest.admits_iff,
    found_of_showing hsrows fun s => QueryRequest.admits_iff, ?_⟩
  rw [← List.map_append, List.filter_map, List.filter_append]
  exact .refl _

/-- An identifier with one byte throughout. -/
def repeated (b : UInt8) : Uuid := ⟨(List.replicate 16 (Hex.ofByte b)).flatten, rfl⟩

/-- Services of the stores below. -/
def stand (id : UInt8) (kind pool : String) : Service :=
  ⟨repeated id, none, kind, pool, "/stand", .empty⟩

def posted (timestamp : Instant) (maxAge : Option UInt64) (s : Service) : Entry :=
  { key := s.key, value := some s.encode, version := 1, origin := "b", timestamp, maxAge }

def fairEntries : Table Bytes Entry := .ofList (
  [posted 900 none (stand 1 "api" "main"), posted 900 (some 50) (stand 2 "api" "main"),
    posted 900 none (stand 3 "web" "main"),
    { posted 900 none (stand 4 "api" "main") with value := none },
    { posted 900 none (stand 5 "api" "main") with value := some [49] }].map fun e => (e.key, e))

/-- A node of which both stores hold all sorts of entries, and both the first service. -/
def fair : Node where
  environment := "test"
  dynamicMaxAge := ⟨30000000000⟩
  dynamic := { Replica.infant "a" with engine := { medium := .volatile fairEntries } }
  static := { Replica.infant "a" with engine := { medium := .durable (.ofList (
    [posted 900 none (stand 1 "api" "main"), posted 900 none (stand 6 "api" "spare")].map
      fun e => (e.key, Row.encode e))) } }

/-- Of them all three are found. -/
theorem query_exact_fair : ∃ answer n' drows srows,
    (query 1000 ⟨some "api", some ""⟩).run.run fair = (.ok answer, n') ∧
    Found 1000 ⟨some "api", some ""⟩ fair.dynamic drows ∧
    Found 1000 ⟨some "api", some ""⟩ fair.static srows ∧
    answer.Perm ((drows ++ srows).map (·.2)) ∧
    answer = [stand 1 "api" "main", stand 1 "api" "main", stand 6 "api" "spare"] := by
  obtain ⟨des, hd⟩ : ∃ des, (Replica.snapshot.run.run fair.dynamic).1 = .ok des := ⟨_, rfl⟩
  obtain ⟨ses, hs⟩ : ∃ ses, (Replica.snapshot.run.run fair.static).1 = .ok ses := by
    have hok : (Replica.snapshot.run.run fair.static).1.isOk := by decide +kernel
    cases h : (Replica.snapshot.run.run fair.static).1 with
    | ok ses => exact ⟨ses, rfl⟩
    | error f => simp [h, Except.isOk, Except.toBool] at hok
  obtain ⟨answer, n', drows, srows, hrun, hdrows, hsrows, hperm⟩ :=
    query_exact hd hs 1000 ⟨some "api", some ""⟩
  have hanswer : ((query 1000 ⟨some "api", some ""⟩).run.run fair).1 =
      .ok [stand 1 "api" "main", stand 1 "api" "main", stand 6 "api" "spare"] := by decide +kernel
  rw [hrun] at hanswer
  exact ⟨answer, n', drows, srows, hrun, hdrows, hsrows, hperm, Except.ok.inj hanswer⟩

end Node

end ServiceDirectory
