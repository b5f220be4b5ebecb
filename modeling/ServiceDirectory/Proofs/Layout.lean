import ServiceDirectory.Proofs.Grammar
import ServiceDirectory.Proofs.Service

namespace ServiceDirectory

/-! The ways to lay out a record as JSON, and that all of them are read alike. -/

namespace Json

/-- `text` is an object that gives these values to these names, each of which may be spelled in any
way. -/
def RecordOf (members : List (String × List Char)) (text : List Char) : Prop :=
  ∃ spelled, List.Forall₂ (fun m p => StringOf m.1 p.1 ∧ p.2 = m.2) members spelled ∧
    ObjectOf spelled text

theorem RecordOf.reads {members : List (String × List Char)} {text : List Char}
    {value : String × List Char → Value} (h : RecordOf members text)
    (hv : ∀ m ∈ members, Reads m.2 (value m).toTokens) :
    Reads text (Value.record (members.map fun m => (m.1, value m))).toTokens := by
  obtain ⟨spelled, hs, ho⟩ := h
  rw [Value.record, List.map_map]
  refine ho.reads (List.forall₂_map_right_iff.mpr ?_)
  have hm : List.Forall₂ (fun m m' => m = m' ∧ Reads m.2 (value m).toTokens) members members :=
    List.forall₂_same.mpr fun m hm => ⟨rfl, hv m hm⟩
  refine forall₂_of_forall₂ ?_ hs hm
  rintro m p _ ⟨hn, ht⟩ ⟨rfl, hr⟩
  exact ⟨hn.reads, ht ▸ hr⟩

theorem padded_self (cs : List Char) : Padded cs cs :=
  ⟨[], [], nofun, nofun, by rw [List.nil_append, List.append_nil]⟩

theorem memberChars_eq (ms : List (Option String × Value)) : memberChars ms =
    commaSeparated (ms.map fun m => quoted (m.1.getD "") ++ ':' :: m.2.chars) := by
  unfold commaSeparated
  induction ms with
  | nil => rfl
  | cons m ms ih => cases ms <;> simp_all [memberChars]

/-- The same blanks may stand before every name, and others before every value. -/
theorem objectOf_spaced {ms : List (List Char × List Char)} {before between : List Char}
    (hne : ms ≠ []) (hb : Blanks before) (hv : Blanks between) :
    ObjectOf ms ('\x7b' ::
      (commaSeparated (ms.map fun m => before ++ m.1 ++ ':' :: (between ++ m.2)) ++ ['\x7d'])) := by
  refine .members hne (List.forall₂_map_right_iff.mpr (List.forall₂_same.mpr fun m _ => ?_))
  exact ⟨_, _, ⟨before, [], hb, nofun, (List.append_nil _).symm⟩,
    ⟨between, [], hv, nofun, (List.append_nil _).symm⟩, rfl⟩

theorem objectOf_chars (ms : List (String × Value)) :
    ObjectOf (ms.map fun m => (quoted m.1, m.2.chars)) (Value.record ms).chars := by
  rw [Value.record, Value.chars, memberChars_eq, List.cons_append, List.map_map]
  cases ms with
  | nil => exact @ObjectOf.empty [] (List.forall_mem_nil _)
  | cons m ms =>
    have h := @objectOf_spaced ((m :: ms).map fun m => (quoted m.1, m.2.chars)) [] []
      (List.cons_ne_nil _ _) (List.forall_mem_nil _) (List.forall_mem_nil _)
    rw [List.map_map] at h
    exact h

theorem recordOf_chars (ms : List (String × Value)) :
    RecordOf (ms.map fun m => (m.1, m.2.chars)) (Value.record ms).chars := by
  refine ⟨_, ?_, objectOf_chars ms⟩
  refine List.forall₂_map_left_iff.mpr (List.forall₂_map_right_iff.mpr (List.forall₂_same.mpr ?_))
  exact fun m _ => ⟨stringOf_quoted m.1, rfl⟩

namespace Value

variable {ms : List (String × Value)} {n : String} {v : Value}

theorem mem_of_lookup (h : ms.lookup n = some v) : (n, v) ∈ ms := by
  obtain ⟨before, after, rfl, -⟩ := List.lookup_eq_some_iff.mp h
  exact List.mem_append_right before (List.mem_cons_self ..)

theorem exists_lookup (h : n ∈ ms.map (·.1)) : ∃ v, ms.lookup n = some v := by
  rw [← Option.isSome_iff_exists, ← Option.ne_none_iff_isSome, Ne, List.lookup_eq_none_iff]
  obtain ⟨m, hm, rfl⟩ := List.mem_map.mp h
  intro hne
  exact bne_iff_ne.mp (hne m hm) rfl

theorem filter_name (h : (ms.map (·.1)).Nodup) (n : String) :
    (ms.map fun m => (some m.1, m.2)).filter (·.1 = some n) =
      ((ms.lookup n).map fun v => (some n, v)).toList := by
  induction ms with
  | nil => rfl
  | cons m ms ih =>
    obtain ⟨k, v⟩ := m
    obtain ⟨hk, hms⟩ := List.nodup_cons.mp h
    by_cases hn : n = k
    · subst hn
      have hnone : ms.lookup n = none := by
        rw [List.lookup_eq_none_iff]
        intro m hm
        exact bne_iff_ne.mpr fun he => hk (he ▸ List.mem_map.mpr ⟨m, hm, rfl⟩)
      simp [ih hms, hnone]
    · simp [List.lookup_cons, ih hms, beq_false_of_ne hn, Ne.symm hn]

/-- In a record without repeated names the order of the members means nothing. -/
theorem fields?_record (h : (ms.map (·.1)).Nodup) (names : List String) :
    (record ms).fields? names = some (names.map fun n => ms.lookup n) := by
  have hall : (ms.map fun m => (some m.1, m.2)).all (·.1.isSome) := by simp
  rw [record, fields?, if_pos hall]
  induction names with
  | nil => rfl
  | cons n names ih =>
    rw [List.mapM_cons, ih, filter_name h n]
    cases hl : ms.lookup n <;> simp [hl]

end Value

end Json

namespace Table

variable {κ α : Type} [Ord κ] [DecidableEq κ] [Std.TransOrd κ] [Std.LawfulEqOrd κ]

theorem insert_comm {k j : κ} (h : k ≠ j) (t : Table κ α) (v w : α) :
    (t.insert k v).insert j w = (t.insert j w).insert k v := by
  ext i x
  simp only [get?_insert]
  by_cases hk : k = i
  · rw [if_neg fun hj => h (hk.trans hj.symm), if_pos hk, if_pos hk]
  · rw [if_neg hk, if_neg hk]

/-- The rows of a table make it up in any order. -/
theorem ofList_perm {t : Table κ α} {rows : List (κ × α)} (h : rows.Perm t.rows) :
    ofList rows = t := by
  have hcomm : ∀ x ∈ rows, ∀ y ∈ rows, ∀ s : Table κ α,
      (s.insert x.1 x.2).insert y.1 y.2 = (s.insert y.1 y.2).insert x.1 x.2 := by
    rintro ⟨k, v⟩ hx ⟨j, w⟩ hy s
    by_cases hkj : k = j
    · subst hkj
      have hv : t.get? k = some v := get?_eq_some_iff.mpr (h.mem_iff.mp hx)
      have hw : t.get? k = some w := get?_eq_some_iff.mpr (h.mem_iff.mp hy)
      cases hv.symm.trans hw
      rfl
    · exact insert_comm hkj s v w
  calc ofList rows = ofList t.rows := h.foldl_eq' hcomm empty
    _ = t := ofList_rows t

end Table

open Json

namespace Properties

/-- `text` gives the properties in any order. -/
def LaidOut (p : Properties) (text : List Char) : Prop :=
  ∃ rows spelled, rows.Perm p.rows ∧
    List.Forall₂ (fun r m => StringOf r.1 m.1 ∧ StringOf r.2 m.2) rows spelled ∧ ObjectOf spelled text

theorem LaidOut.exists_reads {p : Properties} {text : List Char} (h : p.LaidOut text) :
    ∃ v : Value, Reads text v.toTokens ∧ ofJson? v = some p := by
  obtain ⟨rows, spelled, hp, hs, ho⟩ := h
  refine ⟨.record (rows.map fun r => (r.1, .ofText r.2)), ?_, ?_⟩
  · rw [Value.record, List.map_map]
    refine ho.reads (List.forall₂_map_right_iff.mpr (hs.flip.imp ?_))
    rintro m r ⟨hn, ht⟩
    exact ⟨hn.reads, ht.reads⟩
  · rw [ofJson?_record, Table.ofList_perm hp]

theorem laidOut_chars (p : Properties) : p.LaidOut p.toJson.chars := by
  refine ⟨p.rows, _, .refl _, ?_, objectOf_chars _⟩
  rw [List.map_map]
  refine List.forall₂_map_right_iff.mpr (List.forall₂_same.mpr fun r _ => ?_)
  exact ⟨stringOf_quoted r.1, stringOf_quoted r.2⟩

end Properties

namespace Service

/-- What a member of a record may hold. A member of any other name may hold any value. -/
def IsField (s : Service) (name : String) (text : List Char) : Prop :=
  match name with
  | "id" => StringOf s.id.text text
  | "node_id" => s.nodeId.elim (text = ['n', 'u', 'l', 'l']) fun n => StringOf n.text text
  | "type" => StringOf s.kind text
  | "pool" => StringOf s.pool text
  | "location" => StringOf s.location text
  | "properties" => s.properties.LaidOut text
  | _ => IsValue text

/-- The members of a record, in any order. -/
structure HasMembers (s : Service) (members : List (String × List Char)) : Prop where
  nodup : (members.map (·.1)).Nodup
  field : ∀ m ∈ members, s.IsField m.1 m.2
  required : ∀ n ∈ ["id", "type", "pool", "location"], n ∈ members.map (·.1)
  node : s.nodeId ≠ none → "node_id" ∈ members.map (·.1)
  properties : s.properties ≠ .empty → "properties" ∈ members.map (·.1)

/-- `text` is a record of the service, laid out in any way. -/
def LaidOut (s : Service) (text : List Char) : Prop :=
  ∃ members record, s.HasMembers members ∧ RecordOf members record ∧ Padded record text

/-- What is read of a member. -/
def Holds (s : Service) (name : String) (v : Value) : Prop :=
  match name with
  | "id" => Uuid.ofJson? v = some s.id
  | "node_id" => Value.optional Uuid.ofJson? (some v) = some s.nodeId
  | "type" => v.text? = some s.kind
  | "pool" => v.text? = some s.pool
  | "location" => v.text? = some s.location
  | "properties" => Properties.ofJson? v = some s.properties
  | _ => True

theorem IsField.exists_reads {s : Service} {name : String} {text : List Char}
    (h : s.IsField name text) : ∃ v : Value, Reads text v.toTokens ∧ s.Holds name v := by
  unfold IsField at h
  split at h
  · exact ⟨_, h.reads, Uuid.ofJson?_text s.id⟩
  · cases hn : s.nodeId with
    | none =>
      rw [hn] at h
      subst h
      exact ⟨.null, reads_null, by simp [Holds, hn, Value.optional]⟩
    | some n =>
      rw [hn] at h
      exact ⟨_, h.reads, by simp [Holds, hn, Value.optional]⟩
  · exact ⟨_, h.reads, rfl⟩
  · exact ⟨_, h.reads, rfl⟩
  · exact ⟨_, h.reads, rfl⟩
  · obtain ⟨v, hv, hp⟩ := h.exists_reads
    exact ⟨v, hv, hp⟩
  · rename_i h1 h2 h3 h4 h5 h6
    obtain ⟨v, hv⟩ := h.exists_reads
    exact ⟨v, hv, by simp [Holds]⟩

/-- Fields are found by name, and those left out are read as none. -/
theorem ofJson?_record {s : Service} {ms : List (String × Value)} (hnd : (ms.map (·.1)).Nodup)
    (hheld : ∀ m ∈ ms, s.Holds m.1 m.2)
    (hreq : ∀ n ∈ ["id", "type", "pool", "location"], n ∈ ms.map (·.1))
    (hnode : s.nodeId ≠ none → "node_id" ∈ ms.map (·.1))
    (hprops : s.properties ≠ .empty → "properties" ∈ ms.map (·.1)) :
    ofJson? (.record ms) = some s := by
  have hfound {n : String} {v : Value} (h : ms.lookup n = some v) : s.Holds n v :=
    hheld _ (Value.mem_of_lookup h)
  obtain ⟨id, hid⟩ := Value.exists_lookup (hreq "id" (by simp))
  obtain ⟨kind, hkind⟩ := Value.exists_lookup (hreq "type" (by simp))
  obtain ⟨pool, hpool⟩ := Value.exists_lookup (hreq "pool" (by simp))
  obtain ⟨location, hlocation⟩ := Value.exists_lookup (hreq "location" (by simp))
  have hid' : Uuid.ofJson? id = some s.id := hfound hid
  have hkind' : kind.text? = some s.kind := hfound hkind
  have hpool' : pool.text? = some s.pool := hfound hpool
  have hlocation' : location.text? = some s.location := hfound hlocation
  have hnode' : Value.optional Uuid.ofJson? (ms.lookup "node_id") = some s.nodeId := by
    cases hl : ms.lookup "node_id" with
    | some v => exact hfound hl
    | none =>
      by_cases hn : s.nodeId = none
      · rw [hn]
        rfl
      · obtain ⟨v, hv⟩ := Value.exists_lookup (hnode hn)
        rw [hl] at hv
        contradiction
  have hprops' : Properties.ofField? (ms.lookup "properties") = some s.properties := by
    cases hl : ms.lookup "properties" with
    | some v => exact hfound hl
    | none =>
      by_cases hp : s.properties = .empty
      · rw [hp]
        rfl
      · obtain ⟨v, hv⟩ := Value.exists_lookup (hprops hp)
        rw [hl] at hv
        contradiction
  rw [ofJson?, Value.fields?_record hnd]
  simp [hid, hkind, hpool, hlocation, hid', hkind', hpool', hlocation', hnode', hprops']

/-- However a record is laid out, it is read as the service that it is a record of. -/
theorem decode?_of_laidOut {s : Service} {text : List Char} (h : s.LaidOut text) :
    decode? (text.flatMap Utf8.encodeChar) = some s := by
  obtain ⟨members, record, hm, hr, hp⟩ := h
  have : Nonempty Value := ⟨.null⟩
  choose! value hreads hheld using fun m hm' => (hm.field m hm').exists_reads
  have hnames : (members.map fun m => (m.1, value m)).map (·.1) = members.map (·.1) := by simp
  rw [decode?, parse_of_reads (hr.reads hreads) hp, Option.bind_some]
  refine ofJson?_record (by rw [hnames]; exact hm.nodup) ?_ (by rw [hnames]; exact hm.required)
    (by rw [hnames]; exact hm.node) (by rw [hnames]; exact hm.properties)
  intro m hm'
  obtain ⟨m', hm'', rfl⟩ := List.mem_map.mp hm'
  exact hheld m' hm''

/-- A value under a name that no record knows. -/
def extension : List Char :=
  ['[', '1', '.', '5', 'e', '-', '3', ' ', ',', '\x7b', '"', 'i', 'd', '"', ':', 'n', 'u', 'l', 'l',
    '\x7d', ']']

theorem isValue_extension : IsValue extension := by
  have hnumber : IsNumber ['1', '.', '5', 'e', '-', '3'] :=
    @IsNumber.intro [] ['1'] ['.', '5'] ['e', '-', '3'] (.inl rfl) (.other (by decide) (by decide))
      (.some (by decide) (by decide))
      (@IsExponent.some 'e' ['-'] ['3'] (.inl rfl) (.inr (.inr rfl)) (by decide) (by decide))
  have hname : IsString ['"', 'i', 'd', '"'] :=
    ⟨['i', 'd'], .bare (by decide) (.bare (by decide) .nil), rfl⟩
  have hmember : ObjectOf [(['"', 'i', 'd', '"'], ['n', 'u', 'l', 'l'])]
      ['\x7b', '"', 'i', 'd', '"', ':', 'n', 'u', 'l', 'l', '\x7d'] :=
    .members (List.cons_ne_nil _ _) (.cons ⟨_, _, padded_self _, padded_self _, rfl⟩ .nil)
  have hobject : IsValue ['\x7b', '"', 'i', 'd', '"', ':', 'n', 'u', 'l', 'l', '\x7d'] :=
    .object hmember (List.forall_mem_singleton.mpr hname) (List.forall_mem_singleton.mpr .null)
  have hitems := List.forall_mem_cons.mpr ⟨.number hnumber, List.forall_mem_singleton.mpr hobject⟩
  exact .array (.items (List.cons_ne_nil _ _)
    (.cons ⟨[], [' '], nofun, by decide, rfl⟩ (.cons (padded_self _) .nil))) hitems

def unnumbered : Service where
  id := ⟨List.replicate 32 ⟨0, by decide⟩, rfl⟩
  nodeId := none
  kind := "api"
  pool := ""
  location := "/é😀"
  properties := .ofList [("a", "1"), ("b", "")]

/-- Every character of its location is escaped. -/
def spelledLocation : List Char :=
  ['"', '\\', '/', '\\', 'u', '0', '0', 'e', '9', '\\', 'u', 'D', '8', '3', 'd', '\\', 'u', 'd', 'e',
    '0', '0', '"']

theorem stringOf_spelledLocation : StringOf unnumbered.location spelledLocation := by
  have hslash : SpellsChar '/' ['\\', '/'] := .named (by decide)
  have hacute : SpellsChar 'é' ['\\', 'u', '0', '0', 'e', '9'] :=
    .numbered (@NumberedEscape.intro _ 0 0 14 9 _ _ _ _ rfl (.inl rfl) (.inl rfl) (.inl rfl) (.inl rfl))
  have hhigh : NumberedEscape 0xD83D ['\\', 'u', 'D', '8', '3', 'd'] :=
    @NumberedEscape.intro _ 13 8 3 13 _ _ _ _ rfl (.inr rfl) (.inl rfl) (.inl rfl) (.inl rfl)
  have hlow : NumberedEscape 0xDE00 ['\\', 'u', 'd', 'e', '0', '0'] :=
    @NumberedEscape.intro _ 13 14 0 0 _ _ _ _ rfl (.inl rfl) (.inl rfl) (.inl rfl) (.inl rfl)
  have hface := @SpellsChar.paired '😀' _ _ _ _ (by decide) (by decide) (by decide) hhigh hlow
  have hlist : unnumbered.location.toList = ['/', 'é', '😀'] := by simp [unnumbered]
  have hspells := Spells.cons hslash (.cons hacute (.cons hface .nil))
  exact ⟨_, hlist ▸ hspells, rfl⟩

def swappedProperties : List Char :=
  '\x7b' :: (commaSeparated [quoted "b" ++ ':' :: quoted "", quoted "a" ++ ':' :: quoted "1"] ++ ['\x7d'])

theorem laidOut_swappedProperties : unnumbered.properties.LaidOut swappedProperties := by
  have hspelled : List.Forall₂ (fun r m => StringOf r.1 m.1 ∧ StringOf r.2 m.2)
      [("b", ""), ("a", "1")] [(quoted "b", quoted ""), (quoted "a", quoted "1")] :=
    .cons ⟨stringOf_quoted _, stringOf_quoted _⟩ (.cons ⟨stringOf_quoted _, stringOf_quoted _⟩ .nil)
  exact ⟨_, _, by decide, hspelled, @objectOf_spaced _ [] [] (List.cons_ne_nil _ _) nofun nofun⟩

/-- A record with every freedom taken. -/
def looseMembers : List (String × List Char) :=
  [("x", extension), ("properties", swappedProperties), ("location", spelledLocation),
    ("type", quoted "api"), ("node_id", ['n', 'u', 'l', 'l']), ("pool", quoted ""),
    ("id", quoted unnumbered.id.text)]

theorem hasMembers_loose : unnumbered.HasMembers looseMembers where
  nodup := by decide
  field := by
    simp only [looseMembers, List.forall_mem_cons]
    exact ⟨isValue_extension, laidOut_swappedProperties, stringOf_spelledLocation, stringOf_quoted _,
      rfl, stringOf_quoted _, stringOf_quoted _, nofun⟩
  required := by decide
  node := by decide
  properties := by decide

def looseRecord : List Char :=
  '\x7b' :: (commaSeparated ((looseMembers.map fun m => (quoted m.1, m.2)).map fun m =>
    ['\n'] ++ m.1 ++ ':' :: (['\t'] ++ m.2)) ++ ['\x7d'])

theorem recordOf_loose : RecordOf looseMembers looseRecord := by
  refine ⟨_, ?_, objectOf_spaced (List.cons_ne_nil _ _) (by decide) (by decide)⟩
  exact List.forall₂_map_right_iff.mpr (List.forall₂_same.mpr fun m _ => ⟨stringOf_quoted m.1, rfl⟩)

def looseText : List Char := ' ' :: looseRecord ++ ['\r', '\n']

theorem laidOut_loose : unnumbered.LaidOut looseText :=
  ⟨_, _, hasMembers_loose, recordOf_loose, [' '], ['\r', '\n'], by decide, by decide, rfl⟩

theorem decode?_loose : unnumbered.LaidOut looseText ∧
    decode? (looseText.flatMap Utf8.encodeChar) = some unnumbered :=
  ⟨laidOut_loose, decode?_of_laidOut laidOut_loose⟩

/-! A record as it is written, and what may be changed about its layout. -/

theorem HasMembers.perm {s : Service} {ms ms' : List (String × List Char)} (h : s.HasMembers ms)
    (hp : ms.Perm ms') : s.HasMembers ms' where
  nodup := (hp.map (·.1)).nodup_iff.mp h.nodup
  field m hm := h.field m (hp.mem_iff.mpr hm)
  required n hn := (hp.map (·.1)).mem_iff.mp (h.required n hn)
  node hn := (hp.map (·.1)).mem_iff.mp (h.node hn)
  properties hn := (hp.map (·.1)).mem_iff.mp (h.properties hn)

/-- The names that a record of a service gives values to. -/
def fieldNames : List String := ["id", "node_id", "type", "pool", "location", "properties"]

theorem isField_of_not_mem {s : Service} {name : String} {text : List Char}
    (hn : name ∉ fieldNames) (hv : IsValue text) : s.IsField name text := by
  unfold IsField
  split <;> first | exact absurd (by decide) hn | exact hv

theorem HasMembers.cons {s : Service} {ms : List (String × List Char)} {name : String}
    {text : List Char} (h : s.HasMembers ms) (hn : name ∉ fieldNames)
    (hnew : name ∉ ms.map (·.1)) (hv : IsValue text) : s.HasMembers ((name, text) :: ms) where
  nodup := List.nodup_cons.mpr ⟨hnew, h.nodup⟩
  field := List.forall_mem_cons.mpr ⟨isField_of_not_mem hn hv, h.field⟩
  required n hn := List.mem_cons_of_mem _ (h.required n hn)
  node hn := List.mem_cons_of_mem _ (h.node hn)
  properties hn := List.mem_cons_of_mem _ (h.properties hn)

/-- A record as it is written is one of its layouts. -/
theorem laidOut_chars (s : Service) : s.LaidOut s.toJson.chars := by
  refine ⟨_, _, ?_, recordOf_chars _, padded_self _⟩
  obtain ⟨id, node, kind, pool, location, properties⟩ := s
  have hprops := properties.laidOut_chars
  cases node with
  | none =>
    constructor
    · simp
    · simp [IsField, Value.chars, Value.ofText, Uuid.toJson, stringOf_quoted, hprops]
    · simp
    · simp
    · simp
  | some node =>
    constructor
    · simp
    · simp [IsField, Value.chars, Value.ofText, Uuid.toJson, stringOf_quoted, hprops]
    · simp
    · simp
    · simp

end Service

end ServiceDirectory
