import ServiceDirectory.Proofs.Spelling

namespace ServiceDirectory.Json

/-! A value as tokens, and the tokens read back. -/

mutual

def Value.toTokens : Value → List Token
  | .null => [.null]
  | .scalar l => [.scalar l]
  | .text s => [.text s]
  | .array items => .openArray :: itemTokens items ++ [.closeArray]
  | .object members => .openObject :: memberTokens members ++ [.closeObject]

def itemTokens : List Value → List Token
  | [] => []
  | [v] => v.toTokens
  | v :: w :: vs => v.toTokens ++ .comma :: itemTokens (w :: vs)

def memberTokens : List (Option String × Value) → List Token
  | [] => []
  | [(n, v)] => .text n :: .colon :: v.toTokens
  | (n, v) :: m :: ms => .text n :: .colon :: v.toTokens ++ .comma :: memberTokens (m :: ms)

end

/-- No value begins with the end of an array. -/
theorem head_toTokens (v : Value) : v.toTokens.head? ≠ some .closeArray := by
  cases v <;> simp [Value.toTokens]

theorem head_itemTokens (v : Value) (vs : List Value) (ts : List Token) :
    (itemTokens (v :: vs) ++ ts).head? ≠ some .closeArray := by
  have h := head_toTokens v
  have hne : v.toTokens ≠ [] := by cases v <;> simp [Value.toTokens]
  obtain ⟨t, rest, ht⟩ := List.exists_cons_of_ne_nil hne
  cases vs <;> simpa [itemTokens, ht] using h

theorem readValue_openArray {ts : List Token} (h : ts.head? ≠ some .closeArray)
    (open_ : List Frame) : readValue open_ (.openArray :: ts) = readValue (.array [] :: open_) ts := by
  rw [readValue]
  rintro rest rfl
  exact h rfl

theorem readValue_openObject (n : Option String) (open_ : List Frame) (ts : List Token) :
    readValue open_ (.openObject :: .text n :: ts) = readMember [] open_ (.text n :: ts) := by
  rw [readValue]
  simp

mutual

theorem readValue_toTokens (open_ : List Frame) (ts : List Token) :
    ∀ v : Value, readValue open_ (v.toTokens ++ ts) = close v open_ ts
  | .null => by simp only [Value.toTokens, List.cons_append, List.nil_append, readValue]
  | .scalar l => by simp only [Value.toTokens, List.cons_append, List.nil_append, readValue]
  | .text s => by simp only [Value.toTokens, List.cons_append, List.nil_append, readValue]
  | .array [] => by
    simp only [Value.toTokens, itemTokens, List.cons_append, List.nil_append, readValue]
  | .array (v :: vs) => by
    rw [Value.toTokens, List.cons_append, List.cons_append, List.append_assoc,
      readValue_openArray (head_itemTokens v vs _), List.singleton_append,
      readValue_itemTokens [] open_ ts v vs, List.reverse_nil, List.nil_append]
  | .object [] => by
    simp only [Value.toTokens, memberTokens, List.cons_append, List.nil_append, readValue]
  | .object ((n, v) :: ms) => by
    have h := readMember_memberTokens [] open_ ts n v ms
    rw [Value.toTokens, List.cons_append, List.cons_append, List.append_assoc,
      List.singleton_append]
    cases ms <;>
      simp only [memberTokens, List.cons_append, readValue_openObject] at h ⊢ <;>
      exact h
termination_by v => sizeOf v

theorem readValue_itemTokens (done : List Value) (open_ : List Frame) (ts : List Token)
    (v : Value) : ∀ vs : List Value,
    readValue (.array done :: open_) (itemTokens (v :: vs) ++ .closeArray :: ts) =
      close (.array (done.reverse ++ v :: vs)) open_ ts
  | [] => by rw [itemTokens, readValue_toTokens _ _ v, close, List.reverse_cons]
  | w :: vs => by
    rw [itemTokens, List.append_assoc, readValue_toTokens _ _ v, List.cons_append, close,
      readValue_itemTokens (v :: done) open_ ts w vs, List.reverse_cons, List.append_assoc,
      List.singleton_append]
termination_by vs => sizeOf v + sizeOf vs

theorem readMember_memberTokens (done : List (Option String × Value)) (open_ : List Frame)
    (ts : List Token) (n : Option String) (v : Value) : ∀ ms : List (Option String × Value),
    readMember done open_ (memberTokens ((n, v) :: ms) ++ .closeObject :: ts) =
      close (.object (done.reverse ++ (n, v) :: ms)) open_ ts
  | [] => by
    rw [memberTokens, List.cons_append, List.cons_append, readMember, readValue_toTokens _ _ v,
      close, List.reverse_cons]
  | (n', w) :: ms => by
    rw [memberTokens, List.append_assoc, List.cons_append, List.cons_append, readMember,
      readValue_toTokens _ _ v, List.cons_append, close,
      readMember_memberTokens ((n, v) :: done) open_ ts n' w ms, List.reverse_cons,
      List.append_assoc, List.singleton_append]
termination_by ms => sizeOf v + sizeOf ms

end

/-! The characters of a value, cut into its tokens again. -/

namespace Token

/-- A token as it is written. -/
def chars : Token → List Char
  | openObject => ['\x7b']
  | closeObject => ['\x7d']
  | openArray => ['[']
  | closeArray => [']']
  | comma => [',']
  | colon => [':']
  | null => "null".toList
  | scalar l => l
  | text s => quoted (s.getD "")

/-- Neither a number, a truth value nor a broken string. -/
def IsPlain : Token → Prop
  | scalar _ | text none => False
  | _ => True

end Token

theorem token_chars {t : Token} (h : t.IsPlain) (r : List Glyph) :
    token (t.chars.map some ++ r) = some (t, r) := by
  cases t with
  | scalar => exact h.elim
  | text s =>
    cases s with
    | none => exact h.elim
    | some s => exact (stringOf_quoted s).token r
  | null => simp [Token.chars, token, dropWord]
  | _ => rfl

theorem tokens_of_token {g : Glyph} {s rest : List Glyph} {t : Token} (hb : isBlank g = false)
    (h : token (g :: s) = some (t, rest)) : tokens (g :: s) = (t :: ·) <$> tokens rest := by
  rw [tokens, hb, if_neg Bool.false_ne_true]
  split
  · rename_i hn
    simp [h] at hn
  · rename_i t' rest' hs
    rw [h] at hs
    cases hs
    rfl

theorem tokens_chars {t : Token} (h : t.IsPlain) (r : List Glyph) :
    tokens (t.chars.map some ++ r) = (t :: ·) <$> tokens r := by
  obtain ⟨c, cs, hc, hb⟩ : ∃ c cs, t.chars = c :: cs ∧ isBlank (some c) = false := by
    cases t with
    | scalar => exact h.elim
    | text s => exact ⟨_, _, rfl, rfl⟩
    | _ => exact ⟨_, _, rfl, by decide⟩
  have ht := token_chars h r
  rw [hc, List.map_cons, List.cons_append] at ht ⊢
  exact tokens_of_token hb ht

theorem tokens_flatMap_chars {ts : List Token} (h : ∀ t ∈ ts, t.IsPlain) :
    tokens ((ts.flatMap Token.chars).map some) = some ts := by
  induction ts with
  | nil => simp [tokens]
  | cons t ts ih =>
    rw [List.flatMap_cons, List.map_append, tokens_chars (h t (by simp)),
      ih fun t ht => h t (List.mem_cons_of_mem _ ht)]
    rfl

mutual

theorem flatMap_toTokens : ∀ v : Value, v.toTokens.flatMap Token.chars = v.chars
  | .null => rfl
  | .scalar l => by simp [Value.toTokens, Token.chars, Value.chars]
  | .text s => by simp [Value.toTokens, Token.chars, Value.chars]
  | .array items => by
    simp [Value.toTokens, Token.chars, Value.chars, flatMap_itemTokens items]
  | .object members => by
    simp [Value.toTokens, Token.chars, Value.chars, flatMap_memberTokens members]

theorem flatMap_itemTokens : ∀ vs : List Value, (itemTokens vs).flatMap Token.chars = itemChars vs
  | [] => rfl
  | [v] => by rw [itemTokens, itemChars, flatMap_toTokens v]
  | v :: w :: vs => by
    simp [itemTokens, itemChars, Token.chars, flatMap_toTokens v, flatMap_itemTokens (w :: vs)]

theorem flatMap_memberTokens : ∀ ms : List (Option String × Value),
    (memberTokens ms).flatMap Token.chars = memberChars ms
  | [] => rfl
  | [(n, v)] => by simp [memberTokens, memberChars, Token.chars, flatMap_toTokens v]
  | (n, v) :: m :: ms => by
    simp [memberTokens, memberChars, Token.chars, flatMap_toTokens v, flatMap_memberTokens (m :: ms)]

end

/-- What is written without numbers is read back as it was. -/
theorem parse_write {v : Value} (h : ∀ t ∈ v.toTokens, t.IsPlain) : parse v.write = some v := by
  have hs := Utf8.scan_encode_append v.chars []
  have hr := readValue_toTokens [] [] v
  rw [List.append_nil] at hr
  simp only [List.append_nil, Utf8.scan] at hs
  rw [parse, Value.write, hs, ← flatMap_toTokens, tokens_flatMap_chars h, Option.bind_some, hr,
    close]

end ServiceDirectory.Json
