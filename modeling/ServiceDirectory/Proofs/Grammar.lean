import Mathlib.Data.List.Forall2
import ServiceDirectory.Proofs.Json

namespace ServiceDirectory.Json

/-! JSON texts as the grammar has them, whichever way they are laid out, and that each is read. -/

/-- What may stand between two tokens. -/
def Blanks (cs : List Char) : Prop := ∀ c ∈ cs, c = ' ' ∨ c = '\t' ∨ c = '\n' ∨ c = '\r'

instance : DecidablePred Blanks := List.decidableBAll _

/-- `text` is `cs` with blanks on either side. -/
def Padded (cs text : List Char) : Prop :=
  ∃ before after, Blanks before ∧ Blanks after ∧ text = before ++ cs ++ after

/-! Numbers. -/

def AllDigits (cs : List Char) : Prop := ∀ c ∈ cs, c.isDigit

instance : DecidablePred AllDigits := List.decidableBAll _

/-- A zero stands alone. -/
inductive IsWhole : List Char → Prop
  | zero : IsWhole ['0']
  | other {c : Char} {cs : List Char} (hz : c ≠ '0') (h : AllDigits (c :: cs)) : IsWhole (c :: cs)

inductive IsFraction : List Char → Prop
  | none : IsFraction []
  | some {cs : List Char} (hne : cs ≠ []) (h : AllDigits cs) : IsFraction ('.' :: cs)

inductive IsExponent : List Char → Prop
  | none : IsExponent []
  | some {e : Char} {sign cs : List Char} (he : e = 'e' ∨ e = 'E')
    (hs : sign = [] ∨ sign = ['+'] ∨ sign = ['-']) (hne : cs ≠ []) (h : AllDigits cs) :
    IsExponent (e :: (sign ++ cs))

inductive IsNumber : List Char → Prop
  | intro {sign whole fraction exponent : List Char} (hs : sign = [] ∨ sign = ['-'])
    (hw : IsWhole whole) (hf : IsFraction fraction) (he : IsExponent exponent) :
    IsNumber (sign ++ (whole ++ (fraction ++ exponent)))

/-! Values of any nesting. -/

def commaSeparated (parts : List (List Char)) : List Char := [','].intercalate parts

/-- `text` is an array of the values `items`. -/
inductive ArrayOf : List (List Char) → List Char → Prop
  | empty {blanks : List Char} (h : Blanks blanks) : ArrayOf [] ('[' :: (blanks ++ [']']))
  | items {items parts : List (List Char)} (hne : items ≠ []) (h : List.Forall₂ Padded items parts) :
    ArrayOf items ('[' :: (commaSeparated parts ++ [']']))

/-- `text` gives a value to a name. -/
def MemberOf (m : List Char × List Char) (text : List Char) : Prop :=
  ∃ name value, Padded m.1 name ∧ Padded m.2 value ∧ text = name ++ ':' :: value

/-- `text` is an object that gives values to names as listed. -/
inductive ObjectOf : List (List Char × List Char) → List Char → Prop
  | empty {blanks : List Char} (h : Blanks blanks) : ObjectOf [] ('\x7b' :: (blanks ++ ['\x7d']))
  | members {members : List (List Char × List Char)} {parts : List (List Char)} (hne : members ≠ [])
    (h : List.Forall₂ MemberOf members parts) :
    ObjectOf members ('\x7b' :: (commaSeparated parts ++ ['\x7d']))

inductive IsValue : List Char → Prop
  | null : IsValue ['n', 'u', 'l', 'l']
  | true : IsValue ['t', 'r', 'u', 'e']
  | false : IsValue ['f', 'a', 'l', 's', 'e']
  | number {text : List Char} (h : IsNumber text) : IsValue text
  | string {text : List Char} (h : IsString text) : IsValue text
  | array {items : List (List Char)} {text : List Char} (h : ArrayOf items text)
    (hi : ∀ i ∈ items, IsValue i) : IsValue text
  | object {members : List (List Char × List Char)} {text : List Char} (h : ObjectOf members text)
    (hn : ∀ m ∈ members, IsString m.1) (hv : ∀ m ∈ members, IsValue m.2) : IsValue text

/-! Numbers are read. -/

/-- `r` could not go on a number. -/
def Clear (r : List Glyph) : Prop :=
  ∀ c, r.head? = some (some c) → ¬ c.isDigit ∧ c ≠ '.' ∧ c ≠ 'e' ∧ c ≠ 'E'

def NoDigit (r : List Glyph) : Prop := ∀ c, r.head? = some (some c) → ¬ c.isDigit

theorem Clear.noDigit {r : List Glyph} (h : Clear r) : NoDigit r := fun c hc => (h c hc).1

theorem digits_append {ds : List Char} {r : List Glyph} (hd : AllDigits ds) (hr : NoDigit r) :
    digits (ds.map some ++ r) = (ds, r) := by
  induction ds with
  | nil =>
    match r with
    | [] | none :: _ => rfl
    | some c :: r =>
      rw [List.map_nil, List.nil_append, digits, if_neg (hr c rfl)]
  | cons d ds ih =>
    obtain ⟨h, hds⟩ := List.forall_mem_cons.mp hd
    rw [List.map_cons, List.cons_append, digits, if_pos h, ih hds]

theorem digits1_append {ds : List Char} {r : List Glyph} (hne : ds ≠ []) (hd : AllDigits ds)
    (hr : NoDigit r) : digits1 (ds.map some ++ r) = some (ds, r) := by
  rw [digits1, digits_append hd hr, if_neg hne]

theorem integer_append {cs : List Char} {r : List Glyph} (h : IsWhole cs) (hr : NoDigit r) :
    integer (cs.map some ++ r) = some (cs, r) := by
  cases h with
  | zero => rfl
  | @other c cs hz hd =>
    rw [List.map_cons, List.cons_append, integer]
    · exact digits1_append (List.cons_ne_nil c cs) hd hr
    · simp [hz]

theorem fraction_append {cs : List Char} {r : List Glyph} (h : IsFraction cs) (hr : NoDigit r)
    (hp : ∀ s, r ≠ some '.' :: s) : fraction (cs.map some ++ r) = some (cs, r) := by
  cases h with
  | none =>
    rw [List.map_nil, List.nil_append, fraction]
    exact hp
  | some hne hd =>
    rw [List.map_cons, List.cons_append, fraction, digits1_append hne hd hr, Option.map_some]

theorem exponentDigits_append {sign cs : List Char} {r : List Glyph}
    (hs : sign = [] ∨ sign = ['+'] ∨ sign = ['-']) (hne : cs ≠ []) (hd : AllDigits cs)
    (hr : NoDigit r) : exponentDigits ((sign ++ cs).map some ++ r) = some (sign ++ cs, r) := by
  have hdigits := digits1_append hne hd hr
  rcases hs with rfl | rfl | rfl
  · obtain ⟨c, cs, rfl⟩ := List.exists_cons_of_ne_nil hne
    have hc : c.isDigit := hd c (by simp)
    rw [List.nil_append, List.map_cons, List.cons_append, exponentDigits]
    · exact hdigits
    · rintro s hcs
      cases hcs
      exact absurd hc (by decide)
    · rintro s hcs
      cases hcs
      exact absurd hc (by decide)
  · rw [List.singleton_append, List.map_cons, List.cons_append, exponentDigits, hdigits]
    rfl
  · rw [List.singleton_append, List.map_cons, List.cons_append, exponentDigits, hdigits]
    rfl

theorem exponent_append {cs : List Char} {r : List Glyph} (h : IsExponent cs) (hr : Clear r) :
    exponent (cs.map some ++ r) = some (cs, r) := by
  cases h with
  | none =>
    rw [List.map_nil, List.nil_append, exponent]
    · rintro s rfl
      exact (hr 'e' rfl).2.2.1 rfl
    · rintro s rfl
      exact (hr 'E' rfl).2.2.2 rfl
  | some he hs hne hd =>
    have hdigits := exponentDigits_append hs hne hd hr.noDigit
    rcases he with rfl | rfl
    · rw [List.map_cons, List.cons_append, exponent, hdigits, Option.map_some]
    · rw [List.map_cons, List.cons_append, exponent, hdigits, Option.map_some]

theorem unsigned_append {whole fraction exponent : List Char} {r : List Glyph} (hw : IsWhole whole)
    (hf : IsFraction fraction) (he : IsExponent exponent) (hr : Clear r) :
    unsigned ((whole ++ (fraction ++ exponent)).map some ++ r) =
      some (whole ++ (fraction ++ exponent), r) := by
  -- nothing that comes after a part goes on that part
  have hpoint : ∀ s, exponent.map some ++ r ≠ some '.' :: s := by
    intro s hs
    cases he with
    | none => exact (hr '.' (congrArg List.head? hs)).2.1 rfl
    | some he => rcases he with rfl | rfl <;> simp at hs
  have hexp : NoDigit (exponent.map some ++ r) := by
    cases he with
    | none => exact hr.noDigit
    | some he =>
      rintro c hc
      rcases he with rfl | rfl <;> cases hc <;> decide
  have hfrac : NoDigit (fraction.map some ++ (exponent.map some ++ r)) := by
    cases hf with
    | none => exact hexp
    | some =>
      rintro c hc
      cases hc
      decide
  simp only [List.map_append, List.append_assoc]
  simp only [unsigned, integer_append hw hfrac, fraction_append hf hexp hpoint,
    exponent_append he hr, Option.bind_eq_bind, Option.bind_some, Option.pure_def,
    List.append_assoc]

theorem IsWhole.exists_cons {cs : List Char} (h : IsWhole cs) :
    ∃ c rest, cs = c :: rest ∧ c.isDigit := by
  cases h with
  | zero => exact ⟨'0', [], rfl, rfl⟩
  | @other c cs _ hd => exact ⟨c, cs, rfl, hd c (by simp)⟩

theorem number_append {cs : List Char} {r : List Glyph} (h : IsNumber cs) (hr : Clear r) :
    number (cs.map some ++ r) = some (cs, r) := by
  obtain ⟨hs, hw, hf, he⟩ := h
  have hunsigned := unsigned_append hw hf he hr
  rcases hs with rfl | rfl
  · obtain ⟨c, rest, rfl, hc⟩ := hw.exists_cons
    rw [List.nil_append, List.cons_append, List.map_cons, List.cons_append, number]
    · exact hunsigned
    · rintro s hcs
      cases hcs
      exact absurd hc (by decide)
  · rw [List.singleton_append, List.map_cons, List.cons_append, number, hunsigned, Option.map_some]

/-! Values are read. -/

theorem forall₂_of_forall₂ {α β γ : Type} {R : α → β → Prop} {S : α → γ → Prop} {T : β → γ → Prop}
    (hT : ∀ a b c, R a b → S a c → T b c) {as : List α} {bs : List β} {cs : List γ}
    (h : List.Forall₂ R as bs) (h' : List.Forall₂ S as cs) : List.Forall₂ T bs cs := by
  induction h generalizing cs with
  | nil =>
    cases h'
    exact .nil
  | cons hr _ ih =>
    cases h' with
    | cons hs h' => exact .cons (hT _ _ _ hr hs) (ih h')

/-- `cs` is cut into `ts`, whatever follows that does not go on a number. -/
def Reads (cs : List Char) (ts : List Token) : Prop :=
  ∀ r, Clear r → tokens (cs.map some ++ r) = (ts ++ ·) <$> tokens r

theorem tokens_blanks {cs : List Char} (h : Blanks cs) (r : List Glyph) :
    tokens (cs.map some ++ r) = tokens r := by
  induction cs with
  | nil => rfl
  | cons c cs ih =>
    obtain ⟨hc, hcs⟩ := List.forall_mem_cons.mp h
    have hb : isBlank (some c) := by rcases hc with rfl | rfl | rfl | rfl <;> rfl
    rw [List.map_cons, List.cons_append, tokens, if_pos hb, ih hcs]

theorem clear_cons {c : Char} (h : ¬ c.isDigit ∧ c ≠ '.' ∧ c ≠ 'e' ∧ c ≠ 'E') (r : List Glyph) :
    Clear (some c :: r) := by
  rintro d hd
  cases hd
  exact h

theorem Blanks.clear {cs : List Char} (h : Blanks cs) {r : List Glyph} (hr : Clear r) :
    Clear (cs.map some ++ r) := by
  cases cs with
  | nil => exact hr
  | cons c cs =>
    refine clear_cons ?_ _
    rcases h c (by simp) with rfl | rfl | rfl | rfl <;> decide

namespace Reads

variable {cs ds text : List Char} {ts us : List Token}

theorem nil : Reads [] [] := fun r _ => by simp

theorem append (h : Reads cs ts) (h' : Reads ds us) (hd : ∀ r, Clear (ds.map some ++ r)) :
    Reads (cs ++ ds) (ts ++ us) := by
  intro r hr
  rw [List.map_append, List.append_assoc, h _ (hd r), h' r hr, Functor.map_map]
  simp only [List.append_assoc]

/-- A mark ends where it ends, whatever comes after it. -/
theorem cons {c : Char} {t : Token} (ht : t.IsPlain) (hc : t.chars = [c]) (h : Reads cs ts) :
    Reads (c :: cs) (t :: ts) := by
  intro r hr
  have hmark := tokens_chars ht (cs.map some ++ r)
  rw [hc, List.map_singleton, List.singleton_append] at hmark
  rw [List.map_cons, List.cons_append, hmark, h r hr, Functor.map_map]
  rfl

theorem blanks (hb : Blanks cs) (h : Reads ds ts) : Reads (cs ++ ds) ts := by
  intro r hr
  rw [List.map_append, List.append_assoc, tokens_blanks hb, h r hr]

theorem padded (h : Reads cs ts) (hp : Padded cs text) : Reads text ts := by
  obtain ⟨before, after, hb, ha, rfl⟩ := hp
  rw [List.append_assoc]
  refine .blanks hb fun r hr => ?_
  rw [List.map_append, List.append_assoc, h _ (ha.clear hr), tokens_blanks ha]

theorem commaSeparated {parts : List (List Char)} {tss : List (List Token)} {close : Char}
    {t : Token} (ht : t.IsPlain) (hc : t.chars = [close])
    (hclear : ¬ close.isDigit ∧ close ≠ '.' ∧ close ≠ 'e' ∧ close ≠ 'E')
    (h : List.Forall₂ Reads parts tss) :
    Reads (commaSeparated parts ++ [close]) ([Token.comma].intercalate tss ++ [t]) := by
  unfold Json.commaSeparated
  induction h with
  | nil => exact cons ht hc nil
  | @cons p ts parts tss hp htail ih =>
    cases htail with
    | nil =>
      rw [List.intercalate_singleton, List.intercalate_singleton]
      exact hp.append (cons ht hc nil) (clear_cons hclear)
    | cons =>
      simp only [List.intercalate_cons_cons, List.append_assoc, List.singleton_append] at ih ⊢
      exact hp.append (cons trivial rfl ih) (clear_cons (by decide))

end Reads

theorem Reads.of_token {c : Char} {cs : List Char} {t : Token} (hb : isBlank (some c) = false)
    (h : ∀ r, Clear r → token ((c :: cs).map some ++ r) = some (t, r)) : Reads (c :: cs) [t] :=
  fun r hr => tokens_of_token hb (h r hr)

/-- What starts like a number is read as one. -/
theorem token_number {c : Char} (hc : c = '-' ∨ c.isDigit) (s : List Glyph) :
    token (some c :: s) = (number (some c :: s)).map fun p => (.scalar p.1, p.2) := by
  unfold token
  split
  case h_11 => rfl
  all_goals
    rename_i heq
    cases heq
    exact absurd hc (by decide)

theorem IsNumber.reads {cs : List Char} (h : IsNumber cs) : Reads cs (Value.scalar cs).toTokens := by
  obtain ⟨c, rest, rfl, hc⟩ : ∃ c rest, cs = c :: rest ∧ (c = '-' ∨ c.isDigit) := by
    obtain ⟨hs, hw, -, -⟩ := h
    obtain ⟨c, rest, rfl, hc⟩ := hw.exists_cons
    rcases hs with rfl | rfl
    · exact ⟨c, _, rfl, .inr hc⟩
    · exact ⟨'-', _, rfl, .inl rfl⟩
  have hb : isBlank (some c) = false := by
    rw [Bool.eq_false_iff]
    intro hb
    simp only [isBlank, Bool.or_eq_true, beq_iff_eq, Option.some.injEq] at hb
    rcases hb with ((rfl | rfl) | rfl) | rfl <;> exact absurd hc (by decide)
  refine .of_token hb fun r hr => ?_
  have hn := number_append h hr
  rw [List.map_cons, List.cons_append] at hn ⊢
  rw [token_number hc, hn, Option.map_some]

theorem reads_null : Reads ['n', 'u', 'l', 'l'] Value.null.toTokens :=
  .of_token rfl fun r _ => by simp [token, dropWord]

theorem reads_true : Reads ['t', 'r', 'u', 'e'] (Value.scalar ['t', 'r', 'u', 'e']).toTokens :=
  .of_token rfl fun r _ => by simp [token, dropWord]

theorem reads_false :
    Reads ['f', 'a', 'l', 's', 'e'] (Value.scalar ['f', 'a', 'l', 's', 'e']).toTokens :=
  .of_token rfl fun r _ => by simp [token, dropWord]

theorem StringOf.reads {s : String} {text : List Char} (h : StringOf s text) :
    Reads text (Value.text (some s)).toTokens := by
  obtain ⟨body, hs, rfl⟩ := h
  exact .of_token rfl fun r _ => StringOf.token ⟨body, hs, rfl⟩ r

theorem IsString.exists_reads {text : List Char} (h : IsString text) :
    ∃ s, Reads text (Value.text s).toTokens := by
  obtain ⟨s, hs⟩ := h.exists_token
  obtain ⟨body, -, rfl⟩ := h
  exact ⟨s, .of_token rfl fun r _ => hs r⟩

theorem itemTokens_eq (vs : List Value) :
    itemTokens vs = [Token.comma].intercalate (vs.map Value.toTokens) := by
  induction vs with
  | nil => rfl
  | cons v vs ih => cases vs <;> simp_all [itemTokens]

theorem memberTokens_eq (ms : List (Option String × Value)) : memberTokens ms =
    [Token.comma].intercalate (ms.map fun m => .text m.1 :: .colon :: m.2.toTokens) := by
  induction ms with
  | nil => rfl
  | cons m ms ih => cases ms <;> simp_all [memberTokens]

theorem ArrayOf.reads {items : List (List Char)} {text : List Char} {vs : List Value}
    (h : ArrayOf items text) (hv : List.Forall₂ (fun i v => Reads i v.toTokens) items vs) :
    Reads text (Value.array vs).toTokens := by
  rw [Value.toTokens, itemTokens_eq, List.cons_append]
  cases h with
  | empty hb =>
    cases hv
    exact .cons (t := .openArray) trivial rfl (.blanks hb (.cons (t := .closeArray) trivial rfl .nil))
  | items _ hp =>
    have hparts : List.Forall₂ Reads _ (vs.map Value.toTokens) :=
      List.forall₂_map_right_iff.mpr (forall₂_of_forall₂ (fun _ _ _ hp hv => hv.padded hp) hp hv)
    exact .cons (t := .openArray) trivial rfl
      (.commaSeparated (t := .closeArray) trivial rfl (by decide) hparts)

theorem MemberOf.reads {m : List Char × List Char} {text : List Char} {v : Option String × Value}
    (h : MemberOf m text) (hn : Reads m.1 [.text v.1]) (hv : Reads m.2 v.2.toTokens) :
    Reads text (.text v.1 :: .colon :: v.2.toTokens) := by
  obtain ⟨name, value, hname, hvalue, rfl⟩ := h
  exact (hn.padded hname).append (.cons (t := .colon) trivial rfl (hv.padded hvalue))
    (clear_cons (by decide))

theorem ObjectOf.reads {members : List (List Char × List Char)} {text : List Char}
    {vs : List (Option String × Value)} (h : ObjectOf members text)
    (hv : List.Forall₂ (fun m v => Reads m.1 [.text v.1] ∧ Reads m.2 v.2.toTokens) members vs) :
    Reads text (Value.object vs).toTokens := by
  rw [Value.toTokens, memberTokens_eq, List.cons_append]
  cases h with
  | empty hb =>
    cases hv
    exact .cons (t := .openObject) trivial rfl
      (.blanks hb (.cons (t := .closeObject) trivial rfl .nil))
  | members _ hm =>
    have hparts : List.Forall₂ Reads _ (vs.map fun v => .text v.1 :: .colon :: v.2.toTokens) :=
      List.forall₂_map_right_iff.mpr
        (forall₂_of_forall₂ (fun _ _ _ hm hv => hm.reads hv.1 hv.2) hm hv)
    exact .cons (t := .openObject) trivial rfl
      (.commaSeparated (t := .closeObject) trivial rfl (by decide) hparts)

/-- Every value is read as one, however deep it is nested. -/
theorem IsValue.exists_reads {text : List Char} (h : IsValue text) :
    ∃ v : Value, Reads text v.toTokens := by
  have : Nonempty Value := ⟨.null⟩
  induction h with
  | null => exact ⟨_, reads_null⟩
  | true => exact ⟨_, reads_true⟩
  | false => exact ⟨_, reads_false⟩
  | number h => exact ⟨_, h.reads⟩
  | string h =>
    obtain ⟨s, hs⟩ := h.exists_reads
    exact ⟨.text s, hs⟩
  | @array items _ h _ ih =>
    choose! v hv using ih
    exact ⟨.array (items.map v), h.reads (List.forall₂_map_right_iff.mpr (List.forall₂_same.mpr hv))⟩
  | @object members _ h hn _ ih =>
    choose! s hs using fun m hm => (hn m hm).exists_reads
    choose! v hv using ih
    refine ⟨.object (members.map fun m => (s m, v m)), h.reads ?_⟩
    exact List.forall₂_map_right_iff.mpr (List.forall₂_same.mpr fun m hm => ⟨hs m hm, hv m hm⟩)

/-- A text that is cut into the tokens of a value is read as that value, with blanks around it too. -/
theorem parse_of_reads {cs text : List Char} {v : Value} (h : Reads cs v.toTokens)
    (hp : Padded cs text) : parse (text.flatMap Utf8.encodeChar) = some v := by
  have hs := Utf8.scan_encode_append text []
  have ht := h.padded hp [] (by rintro c ⟨⟩)
  have hr := readValue_toTokens [] [] v
  simp only [List.append_nil, Utf8.scan, tokens, Option.map_eq_map, Option.map_some] at hs ht hr
  rw [parse, hs, ht, Option.bind_some, hr, close]

end ServiceDirectory.Json
