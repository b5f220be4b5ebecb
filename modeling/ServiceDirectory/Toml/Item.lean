import ServiceDirectory.Config.Value
import ServiceDirectory.Toml.Text

namespace ServiceDirectory.Toml

open Config

/-- How a table came about. -/
inductive Origin
  /-- By a heading of its own. -/
  | heading
  /-- By a heading of a table within it. -/
  | path
  /-- By a dotted name. -/
  | dotted
deriving DecidableEq

/-- What a document has under a name so far. -/
inductive Item
  | value (v : Value)
  | table (origin : Origin) (members : List (String × Item))
  /-- Tables under one repeated heading. -/
  | tables (elements : List (List (String × Item)))

abbrev Members := List (String × Item)

/-- Changes what lies below a path of names; tables that are missing on the way come about as `mode`
says. A heading may lead through any tables. A dotted name may not lead through a table that has a
heading, nor end in one that did not come about by a dotted name. Of tables under one repeated
heading the last is meant. -/
def within (mode : Origin) : List String → (Members → Option Members) → Members → Option Members
  | [], f, m => f m
  | k :: ks, f, m =>
    match m.lookup k with
    | none => do return setMember k (.table mode (← within mode ks f [])) m
    | some (.value _) => none
    | some (.table origin sub) =>
      if mode = .dotted ∧ (origin = .heading ∨ (ks = [] ∧ origin ≠ .dotted)) then none
      else do return setMember k (.table origin (← within mode ks f sub)) m
    | some (.tables elements) =>
      if mode = .dotted ∧ ks = [] then none
      else do
        let last ← within mode ks f (← elements.getLast?)
        return setMember k (.tables (elements.dropLast ++ [last])) m

/-- A name may be given a value only once. -/
def assign (k : Key) (v : Value) : Members → Option Members :=
  within .dotted k.parents fun m =>
    if (m.lookup k.name).isSome then none else some (setMember k.name (.value v) m)

/-- Opens a table. One that so far only lies on the way to others may still get its heading. -/
def openTable (k : Key) : Members → Option Members :=
  within .path k.parents fun m =>
    match m.lookup k.name with
    | none => some (setMember k.name (.table .heading []) m)
    | some (.table .path sub) => some (setMember k.name (.table .heading sub) m)
    | _ => none

/-- Opens one more table under a repeated heading. -/
def openElement (k : Key) : Members → Option Members :=
  within .path k.parents fun m =>
    match m.lookup k.name with
    | none => some (setMember k.name (.tables [[]]) m)
    | some (.tables elements) => some (setMember k.name (.tables (elements ++ [[]])) m)
    | _ => none

mutual

def Item.toValue : Item → Value
  | .value v => v
  | .table _ members => .table (membersToValue members)
  | .tables elements => .array (elementsToValue elements)

def membersToValue : List (String × Item) → List (String × Value)
  | [] => []
  | (k, i) :: rest => (k, i.toValue) :: membersToValue rest

def elementsToValue : List (List (String × Item)) → List Value
  | [] => []
  | m :: rest => .table (membersToValue m) :: elementsToValue rest

end

end ServiceDirectory.Toml
