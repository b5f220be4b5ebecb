namespace ServiceDirectory.Config

/-- What a configuration text says. -/
inductive Value
  | text (s : String)
  | flag (b : Bool)
  | whole (i : Int)
  /-- Any other number. No setting takes one. -/
  | real
  | array (items : List Value)
  /-- No two members have the same name. -/
  | table (members : List (String × Value))

/-- Puts a member in the place of the one of that name, or at the end. -/
def setMember {α : Type} (k : String) (v : α) : List (String × α) → List (String × α)
  | [] => [(k, v)]
  | r :: rest => if r.1 = k then (k, v) :: rest else r :: setMember k v rest

theorem lookup_setMember {α : Type} (k : String) (v : α) (members : List (String × α)) (j : String) :
    (setMember k v members).lookup j = if j = k then some v else members.lookup j := by
  induction members with
  | nil => by_cases h : j = k <;> simp [setMember, List.lookup_cons, beq_false_of_ne, h]
  | cons r rest ih =>
    obtain ⟨i, w⟩ := r
    simp only [setMember]
    by_cases hi : i = k <;> by_cases h : j = k <;> by_cases hj : j = i <;>
      simp_all [List.lookup_cons, beq_false_of_ne]

namespace Value

mutual

/-- Lays `new` over `old`. Tables are merged member by member; of all else the new value stays. -/
def merge (old : Value) : Value → Value
  | table new =>
    match old with
    | table members => table (mergeMembers members new)
    | _ => table new
  | new => new

def mergeMembers (old : List (String × Value)) : List (String × Value) → List (String × Value)
  | [] => old
  | (k, v) :: rest =>
    mergeMembers (setMember k ((old.lookup k).elim v fun w => merge w v) old) rest

end

def text? : Value → Option String
  | text s => some s
  | _ => none

/-- A number that fits a machine word. -/
def word? : Value → Option UInt64
  | whole i => if 0 ≤ i ∧ i < 0x10000000000000000 then some (.ofNat i.toNat) else none
  | _ => none

/-- The values of the named fields. A table may have other members too; an array holds the fields
in order and perhaps more after them. -/
def fields? (names : List String) : Value → Option (List Value)
  | table members => names.mapM fun n => members.lookup n
  | array items => if names.length ≤ items.length then some (items.take names.length) else none
  | _ => none

end Value

end ServiceDirectory.Config
