import ServiceDirectory.Proofs.Service

namespace ServiceDirectory

/-! Announcements, written and read back. -/

namespace Json

theorem plain_array {vs : List Value} (h : ∀ v ∈ vs, ∀ t ∈ v.toTokens, t.IsPlain) :
    ∀ t ∈ (Value.array vs).toTokens, t.IsPlain := by
  have hi : ∀ t ∈ itemTokens vs, t.IsPlain := by
    induction vs with
    | nil => simp [itemTokens]
    | cons v vs ih =>
      have hv := h v (by simp)
      have ih := ih fun w hw => h w (List.mem_cons_of_mem v hw)
      cases vs with
      | nil => exact hv
      | cons w vs =>
        rw [itemTokens, List.forall_mem_append, List.forall_mem_cons]
        exact ⟨hv, trivial, ih⟩
  rw [Value.toTokens, List.cons_append, List.forall_mem_cons, List.forall_mem_append,
    List.forall_mem_singleton]
  exact ⟨trivial, hi, trivial⟩

end Json

theorem plain_locationToJson (l : Option String) : ∀ t ∈ (locationToJson l).toTokens, t.IsPlain := by
  cases l with
  | none => simp [locationToJson, Json.Value.toTokens, Json.Token.IsPlain]
  | some l => exact Json.plain_ofText l

/-- A location is read as it was written; none is written as null. -/
@[simp] theorem optional_locationToJson (l : Option String) :
    Json.Value.optional Json.Value.text? (some (locationToJson l)) = some l := by
  cases l <;> rfl

namespace Offer

@[simp] theorem ofJson?_toJson (o : Offer) : ofJson? o.toJson = some o := by
  simp [toJson, ofJson?, Json.Value.record, Json.Value.fields?, Json.Value.ofText, Json.Value.text?,
    Uuid.toJson, Properties.ofField?]

theorem plain_toJson (o : Offer) : ∀ t ∈ o.toJson.toTokens, t.IsPlain := by
  refine Json.plain_record fun m hm => ?_
  simp only [List.mem_cons, List.not_mem_nil, or_false] at hm
  obtain rfl | rfl | rfl := hm
  · exact Json.plain_ofText _
  · exact Json.plain_ofText _
  · exact Properties.plain_toJson _

@[simp] theorem listOfJson?_map_toJson (os : List Offer) :
    listOfJson? (.array (os.map toJson)) = some os := by
  rw [listOfJson?, List.mapM_map]
  induction os with
  | nil => rfl
  | cons o os ih => simp [ih]

end Offer

namespace NodeAnnouncement

theorem ofJson?_toJson (a : NodeAnnouncement) : ofJson? a.toJson = some a := by
  simp [toJson, ofJson?, Json.Value.record, Json.Value.fields?, Json.Value.ofText, Json.Value.text?]

theorem plain_toJson (a : NodeAnnouncement) : ∀ t ∈ a.toJson.toTokens, t.IsPlain := by
  refine Json.plain_record fun m hm => ?_
  simp only [List.mem_cons, List.not_mem_nil, or_false] at hm
  obtain rfl | rfl | rfl | rfl := hm
  · exact Json.plain_ofText _
  · exact Json.plain_ofText _
  · exact plain_locationToJson _
  · refine Json.plain_array fun v hv => ?_
    obtain ⟨o, -, rfl⟩ := List.mem_map.mp hv
    exact o.plain_toJson

end NodeAnnouncement

namespace Registration

theorem ofJson?_toJson (r : Registration) : ofJson? r.toJson = some r := by
  simp [toJson, ofJson?, Json.Value.record, Json.Value.fields?, Json.Value.ofText, Json.Value.text?,
    Properties.ofField?]

theorem plain_toJson (r : Registration) : ∀ t ∈ r.toJson.toTokens, t.IsPlain := by
  refine Json.plain_record fun m hm => ?_
  simp only [List.mem_cons, List.not_mem_nil, or_false] at hm
  obtain rfl | rfl | rfl | rfl | rfl := hm
  case inr.inr.inr.inl => exact plain_locationToJson _
  case inr.inr.inr.inr => exact Properties.plain_toJson _
  all_goals exact Json.plain_ofText _

end Registration

/-- What is written is read back as it was; whatever can be read at all is read back as the same after
it has been written again, and is then written as the same bytes. -/
structure Lossless {α : Type} (encode : α → Bytes) (decode? : Bytes → Option α) : Prop where
  decode?_encode (a : α) : decode? (encode a) = some a
  decode?_again {bs : Bytes} {a : α} : decode? bs = some a → decode? (encode a) = decode? bs
  encode_again {bs : Bytes} {a b : α} :
    decode? bs = some a → decode? (encode a) = some b → encode b = encode a

theorem Lossless.of_decode?_encode {α : Type} {encode : α → Bytes} {decode? : Bytes → Option α}
    (h : ∀ a, decode? (encode a) = some a) : Lossless encode decode? where
  decode?_encode := h
  decode?_again hbs := (h _).trans hbs.symm
  encode_again _ hb := congrArg encode (Option.some.inj (hb.symm.trans (h _)))

theorem lossless_write {α : Type} {toJson : α → Json.Value} {ofJson? : Json.Value → Option α}
    (hp : ∀ a, ∀ t ∈ (toJson a).toTokens, t.IsPlain) (h : ∀ a, ofJson? (toJson a) = some a) :
    Lossless (fun a => (toJson a).write) fun bs => (Json.parse bs).bind ofJson? :=
  .of_decode?_encode fun a => by rw [Json.parse_write (hp a), Option.bind_some, h]

/-- Records and announcements lose nothing as JSON, whatever their texts and properties are. -/
theorem records_lossless : Lossless Service.encode Service.decode? ∧
    Lossless NodeAnnouncement.encode NodeAnnouncement.decode? ∧
    Lossless Registration.encode Registration.decode? :=
  ⟨lossless_write Service.plain_toJson Service.ofJson?_toJson,
    lossless_write NodeAnnouncement.plain_toJson NodeAnnouncement.ofJson?_toJson,
    lossless_write Registration.plain_toJson Registration.ofJson?_toJson⟩

end ServiceDirectory
