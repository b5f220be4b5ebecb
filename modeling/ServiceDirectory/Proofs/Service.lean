import Mathlib.Algebra.GroupWithZero.Nat
import ServiceDirectory.Proofs.Json
import ServiceDirectory.Service.Json

namespace ServiceDirectory

/-! Identifiers and services, written and read back. -/

namespace Uuid

@[simp] theorem mapM_value?_digit (ds : List (Fin 16)) :
    (ds.map Hex.digit).mapM Hex.value? = some ds := by
  induction ds with
  | nil => rfl
  | cons d ds ih => simp [ih]

theorem readGroups_groups (ns : List Nat) (ds : List (Fin 16)) (hn : ns ≠ [])
    (hd : ds.length = ns.sum) : readGroups ns (groups ns ds) = some ds := by
  induction ns generalizing ds with
  | nil => exact absurd rfl hn
  | cons n ns ih =>
    cases ns with
    | nil =>
      rw [groups, readGroups, if_pos (by simpa using hd), mapM_value?_digit]
    | cons m ns =>
      rw [List.sum_cons] at hd
      have ht : ((ds.take n).map Hex.digit).length = n := by
        rw [List.length_map, List.length_take]
        omega
      have hr : readGroups (m :: ns) (groups (m :: ns) (ds.drop n)) = some (ds.drop n) :=
        ih _ (by simp) (by rw [List.length_drop]; omega)
      rw [groups, readGroups, List.drop_left' ht, List.take_left' ht]
      · simp only [mapM_value?_digit, hr, Option.bind_eq_bind, Option.bind_some, Option.pure_def,
          List.take_append_drop]
      · simp

theorem length_groups (ns : List Nat) (ds : List (Fin 16)) (hd : ds.length = ns.sum) :
    (groups ns ds).length = ds.length + (ns.length - 1) := by
  induction ns generalizing ds with
  | nil => simp_all [groups]
  | cons n ns ih =>
    cases ns with
    | nil => simp [groups]
    | cons m ns =>
      rw [List.sum_cons] at hd
      have := ih (ds.drop n) (by rw [List.length_drop]; omega)
      rw [groups]
      · simp only [List.length_append, List.length_map, List.length_take, List.length_cons,
          List.length_drop] at this ⊢
        omega
      · simp

theorem length_chars (id : Uuid) : id.chars.length = 36 := by
  rw [chars, length_groups _ _ id.length_eq, id.length_eq]
  rfl

/-- The text of an identifier stands in no wrapping. -/
theorem unwrap_chars (id : Uuid) : unwrap id.chars = id.chars := by
  have hl := length_chars id
  have hu : ∀ d : Fin 16, (Hex.digit d).toLower ≠ 'u' := by decide
  obtain ⟨_ | ⟨d, ds⟩, h⟩ := id
  · simp at h
  rw [unwrap, if_neg (by omega), if_neg]
  simp [chars, groups, hu]

theorem parse?_text (id : Uuid) : parse? id.text = some id := by
  have hg := readGroups_groups [8, 4, 4, 4, 12] id.digits (by simp) id.length_eq
  rw [← chars] at hg
  simp [parse?, text, length_chars, unwrap_chars, hg, ofDigits?, id.length_eq]

theorem text_injective {a b : Uuid} (h : a.text = b.text) : a = b := by
  simpa [parse?_text] using congrArg parse? h

@[simp] theorem ofJson?_text (id : Uuid) : ofJson? (.text (some id.text)) = some id :=
  parse?_text id

end Uuid

namespace Table

variable {κ α : Type} [Ord κ] [Std.TransOrd κ] [Std.LawfulEqOrd κ]

omit [Std.LawfulEqOrd κ] in
theorem place_of_gt (k : κ) (v : α) {rows : List (κ × α)}
    (h : ∀ r ∈ rows, compare r.1 k = .lt) : place k v rows = rows ++ [(k, v)] := by
  induction rows with
  | nil => rfl
  | cons r rows ih =>
    have hr : compare k r.1 = .gt := Std.OrientedCmp.gt_iff_lt.2 (h r (by simp))
    rw [place, hr]
    simp only
    rw [ih fun s hs => h s (List.mem_cons_of_mem _ hs), List.cons_append]

theorem rows_foldl_insert (t : Table κ α) (rows : List (κ × α))
    (h : (t.rows ++ rows).Pairwise fun a b => compare a.1 b.1 = .lt) :
    (rows.foldl (fun t r => t.insert r.1 r.2) t).rows = t.rows ++ rows := by
  induction rows generalizing t with
  | nil => simp
  | cons r rows ih =>
    have hi : (t.insert r.1 r.2).rows = t.rows ++ [r] :=
      place_of_gt r.1 r.2 fun s hs => (List.pairwise_append.1 h).2.2 s hs r (by simp)
    rw [List.foldl_cons, ih _ (by simpa [hi] using h), hi, List.append_assoc,
      List.singleton_append]

theorem ofList_rows (t : Table κ α) : ofList t.rows = t := by
  have h : (ofList t.rows).rows = t.rows := rows_foldl_insert empty t.rows (by simpa [empty] using t.sorted)
  generalize ofList t.rows = s at h
  cases s
  cases t
  cases h
  rfl

end Table

namespace Json

theorem plain_record {ms : List (String × Value)}
    (h : ∀ m ∈ ms, ∀ t ∈ m.2.toTokens, t.IsPlain) :
    ∀ t ∈ (Value.record ms).toTokens, t.IsPlain := by
  have hm : ∀ t ∈ memberTokens (ms.map fun m => (some m.1, m.2)), t.IsPlain := by
    induction ms with
    | nil => simp [memberTokens]
    | cons m ms ih =>
      have hv := h m (by simp)
      have ih := ih fun m hm => h m (List.mem_cons_of_mem _ hm)
      cases ms <;>
        simp only [List.map_cons, List.map_nil, memberTokens, List.mem_cons, List.mem_append,
          List.cons_append] at ih ⊢ <;>
        grind [Token.IsPlain]
  simp only [Value.record, Value.toTokens, List.mem_cons, List.mem_append, List.cons_append]
  grind [Token.IsPlain]

theorem plain_ofText (s : String) : ∀ t ∈ (Value.ofText s).toTokens, t.IsPlain := by
  simp [Value.ofText, Value.toTokens, Token.IsPlain]

end Json

namespace Properties

theorem ofJson?_record (rows : List (String × String)) :
    ofJson? (.record (rows.map fun r => (r.1, .ofText r.2))) = some (Table.ofList rows) := by
  have h : (rows.map fun r => (some r.1, Json.Value.ofText r.2)).mapM
      (fun m => m.1.bind fun n => m.2.text?.bind fun t => some (n, t)) = some rows := by
    induction rows with
    | nil => rfl
    | cons r rows ih => simp_all [Json.Value.ofText, Json.Value.text?]
  simp [Json.Value.record, ofJson?, Function.comp_def, h]

@[simp] theorem ofJson?_toJson (p : Properties) : ofJson? p.toJson = some p := by
  rw [toJson, ofJson?_record, Table.ofList_rows]

theorem plain_toJson (p : Properties) : ∀ t ∈ p.toJson.toTokens, t.IsPlain :=
  Json.plain_record fun m hm => by
    obtain ⟨r, -, rfl⟩ := List.mem_map.1 hm
    exact Json.plain_ofText r.2

end Properties

namespace Service

theorem ofJson?_toJson (s : Service) : ofJson? s.toJson = some s := by
  obtain ⟨id, _ | n, kind, pool, location, properties⟩ := s <;>
    simp [toJson, ofJson?, Json.Value.record, Json.Value.fields?, Json.Value.optional,
      Json.Value.ofText, Json.Value.text?, Uuid.toJson, Properties.ofField?]

theorem plain_toJson (s : Service) : ∀ t ∈ s.toJson.toTokens, t.IsPlain := by
  refine Json.plain_record fun m hm => ?_
  simp only [List.mem_append, List.mem_cons, List.mem_map, List.not_mem_nil, or_false] at hm
  obtain (rfl | ⟨n, -, rfl⟩) | rfl | rfl | rfl | rfl := hm
  case inr.inr.inr.inr => exact Properties.plain_toJson _
  all_goals exact Json.plain_ofText _

/-- A service comes back from a store as it went in. -/
@[simp] theorem decode?_encode (s : Service) : decode? s.encode = some s := by
  rw [decode?, encode, Json.parse_write s.plain_toJson, Option.bind_some, ofJson?_toJson]

end Service

end ServiceDirectory
