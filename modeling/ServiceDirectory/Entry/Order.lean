import ServiceDirectory.Entry

namespace ServiceDirectory.Entry

/-- Versions decide within one origin; otherwise the later timestamp, then a tombstone over a
value, and then every other field, so that only equal entries tie. Keys take no part. -/
def compare (a b : Entry) : Ordering :=
  if a.origin = b.origin ∧ a.version ≠ b.version then Ord.compare a.version b.version
  else
    (Ord.compare a.timestamp b.timestamp).then <|
    (Ord.compare a.isTombstone b.isTombstone).then <|
    (Ord.compare a.value b.value).then <|
    (Ord.compare a.origin b.origin).then <|
    (Ord.compare a.version b.version).then <|
    Ord.compare a.maxAge b.maxAge

/-- The greater of two entries for a key, the first if they tie. -/
def winner (a b : Entry) : Entry :=
  match compare a b with
  | .lt => b
  | .eq | .gt => a

/-- What a key holds once `incoming` has been weighed against what it held. -/
def resolve (held : Option Entry) (incoming : Entry) : Entry :=
  match held with
  | none => incoming
  | some current => winner current incoming

end ServiceDirectory.Entry
