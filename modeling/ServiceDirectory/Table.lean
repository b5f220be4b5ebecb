namespace ServiceDirectory

/-- Rows in strictly ascending key order: at most one row for a key. -/
structure Table (κ α : Type) [Ord κ] where
  rows : List (κ × α)
  sorted : rows.Pairwise fun a b => compare a.1 b.1 = .lt

namespace Table

section Basic

variable {κ α : Type} [Ord κ]

instance [DecidableEq κ] [DecidableEq α] : DecidableEq (Table κ α) := fun s t =>
  decidable_of_iff (s.rows = t.rows) ⟨fun h => by cases s; cases t; cases h; rfl, fun h => h ▸ rfl⟩

def empty : Table κ α := ⟨[], .nil⟩

instance : Inhabited (Table κ α) := ⟨empty⟩

def size (t : Table κ α) : Nat := t.rows.length

def keys (t : Table κ α) : List κ := t.rows.map (·.1)

def values (t : Table κ α) : List α := t.rows.map (·.2)

/-- Keeps the rows that pass `p`. -/
def filter (t : Table κ α) (p : κ → α → Bool) : Table κ α :=
  ⟨t.rows.filter fun r => p r.1 r.2, t.sorted.filter _⟩

def place (k : κ) (v : α) : List (κ × α) → List (κ × α)
  | [] => [(k, v)]
  | r :: rows =>
    match compare k r.1 with
    | .lt => (k, v) :: r :: rows
    | .eq => (k, v) :: rows
    | .gt => r :: place k v rows

theorem mem_place {k : κ} {v : α} {rows : List (κ × α)} {r : κ × α}
    (h : r ∈ place k v rows) : r = (k, v) ∨ r ∈ rows := by
  induction rows with
  | nil => simpa [place] using h
  | cons s rows ih =>
    unfold place at h
    split at h
    · simpa using h
    · rcases List.mem_cons.1 h with rfl | h <;> simp [*]
    · rcases List.mem_cons.1 h with rfl | h
      · simp
      · rcases ih h with h | h <;> simp [h]

theorem place_sorted [Std.TransOrd κ] [Std.LawfulEqOrd κ] (k : κ) (v : α) {rows : List (κ × α)}
    (h : rows.Pairwise fun a b => compare a.1 b.1 = .lt) :
    (place k v rows).Pairwise fun a b => compare a.1 b.1 = .lt := by
  induction rows with
  | nil => simp [place]
  | cons r rows ih =>
    obtain ⟨hr, hrows⟩ := List.pairwise_cons.1 h
    unfold place
    split
    · rename_i hk
      refine List.pairwise_cons.2 ⟨fun s hs => ?_, h⟩
      rcases List.mem_cons.1 hs with rfl | hs
      · exact hk
      · exact Std.TransCmp.lt_trans hk (hr s hs)
    · rename_i hk
      rw [Std.LawfulEqCmp.compare_eq_iff_eq] at hk
      exact List.pairwise_cons.2 ⟨fun s hs => by simpa [hk] using hr s hs, hrows⟩
    · rename_i hk
      refine List.pairwise_cons.2 ⟨fun s hs => ?_, ih hrows⟩
      rcases mem_place hs with rfl | hs
      · exact Std.OrientedCmp.gt_iff_lt.1 hk
      · exact hr s hs

def insert [Std.TransOrd κ] [Std.LawfulEqOrd κ] (t : Table κ α) (k : κ) (v : α) : Table κ α :=
  ⟨place k v t.rows, place_sorted k v t.sorted⟩

/-- Later rows win over earlier ones with the same key. -/
def ofList [Std.TransOrd κ] [Std.LawfulEqOrd κ] (rows : List (κ × α)) : Table κ α :=
  rows.foldl (fun t r => t.insert r.1 r.2) empty

variable [DecidableEq κ]

def get? (t : Table κ α) (k : κ) : Option α := (t.rows.find? (·.1 = k)).map (·.2)

def contains (t : Table κ α) (k : κ) : Bool := (t.get? k).isSome

def erase (t : Table κ α) (k : κ) : Table κ α := t.filter fun k' _ => k' ≠ k

@[simp] theorem get?_empty (k : κ) : (empty : Table κ α).get? k = none := rfl

end Basic

section Lookup

variable {κ α : Type} [Ord κ] [DecidableEq κ] [Std.TransOrd κ] [Std.LawfulEqOrd κ]

omit [Std.TransOrd κ] in
theorem find?_place (k : κ) (v : α) (rows : List (κ × α)) (j : κ) :
    (place k v rows).find? (·.1 = j) =
      if k = j then some (k, v) else rows.find? (·.1 = j) := by
  induction rows with
  | nil => by_cases h : k = j <;> simp [place, h]
  | cons r rows ih =>
    unfold place
    split <;> rename_i hk
    · by_cases h : k = j <;> simp [List.find?_cons, h]
    · rw [Std.LawfulEqCmp.compare_eq_iff_eq] at hk
      by_cases h : k = j <;> simp [h, ← hk]
    · by_cases h : k = j
      · subst h
        have hr : r.1 ≠ k := fun h => by simp [h] at hk
        simp [hr, ih]
      · by_cases hr : r.1 = j <;> simp [h, hr, ih]

theorem get?_insert (t : Table κ α) (k : κ) (v : α) (j : κ) :
    (t.insert k v).get? j = if k = j then some v else t.get? j := by
  simp only [get?, insert, find?_place]
  split <;> rfl

@[simp] theorem get?_insert_self (t : Table κ α) (k : κ) (v : α) :
    (t.insert k v).get? k = some v := by
  simp [get?_insert]

omit [Std.TransOrd κ] in
theorem get?_eq_some_iff {t : Table κ α} {k : κ} {v : α} : t.get? k = some v ↔ (k, v) ∈ t.rows := by
  obtain ⟨rows, sorted⟩ := t
  simp only [get?]
  induction rows with
  | nil => simp
  | cons r rows ih =>
    obtain ⟨hr, hrows⟩ := List.pairwise_cons.1 sorted
    by_cases h : r.1 = k
    · subst h
      simp only [List.find?_cons, decide_true, Option.map_some, Option.some.injEq, List.mem_cons]
      constructor
      · rintro rfl
        exact .inl rfl
      · rintro (h | h)
        · rw [← h]
        · have := hr _ h
          simp at this
    · have hne : (k, v) ≠ r := fun h' => h (by rw [← h'])
      simp [h, hne, ih hrows]

omit [Std.TransOrd κ] in
theorem get?_eq_none_iff {t : Table κ α} {k : κ} : t.get? k = none ↔ ∀ v, (k, v) ∉ t.rows := by
  rw [Option.eq_none_iff_forall_ne_some]
  exact forall_congr' fun v => not_congr get?_eq_some_iff

omit [Std.TransOrd κ] in
theorem get?_filter (t : Table κ α) (p : κ → α → Bool) (k : κ) :
    (t.filter p).get? k = (t.get? k).filter (p k) := by
  ext v
  rw [get?_eq_some_iff, Option.filter_eq_some_iff, get?_eq_some_iff]
  simp [filter]

omit [Std.TransOrd κ] in
theorem get?_erase (t : Table κ α) (k j : κ) :
    (t.erase k).get? j = if k = j then none else t.get? j := by
  rw [erase, get?_filter]
  by_cases h : k = j
  · subst h
    cases t.get? k <;> simp [Option.filter]
  · cases t.get? j <;> simp [Option.filter, h, Ne.symm h]

@[ext] theorem ext {s t : Table κ α} (h : ∀ k, s.get? k = t.get? k) : s = t := by
  have hmem : ∀ r, r ∈ s.rows ↔ r ∈ t.rows := fun r => by
    rw [← get?_eq_some_iff (t := s) (k := r.1), ← get?_eq_some_iff (t := t) (k := r.1), h]
  clear h
  obtain ⟨as, has⟩ := s
  obtain ⟨bs, hbs⟩ := t
  suffices as = bs by
    subst this
    rfl
  simp only at hmem
  induction as generalizing bs with
  | nil =>
    cases bs with
    | nil => rfl
    | cons b bs => exact absurd ((hmem b).2 (by simp)) (by simp)
  | cons a as ih =>
    cases bs with
    | nil => exact absurd ((hmem a).1 (by simp)) (by simp)
    | cons b bs =>
      obtain ⟨ha, has'⟩ := List.pairwise_cons.1 has
      obtain ⟨hb, hbs'⟩ := List.pairwise_cons.1 hbs
      have hab : a = b := by
        rcases List.mem_cons.1 ((hmem a).1 (by simp)) with h | h
        · exact h
        · rcases List.mem_cons.1 ((hmem b).2 (by simp)) with h' | h'
          · exact h'.symm
          · have := Std.TransCmp.lt_trans (hb a h) (ha b h')
            simp at this
      subst hab
      refine congrArg _ (ih has' bs hbs' fun r => ?_)
      by_cases hr : r = a
      · subst hr
        exact ⟨fun h => absurd (ha r h) (by simp), fun h => absurd (hb r h) (by simp)⟩
      · simpa [hr] using hmem r

end Lookup

end Table

end ServiceDirectory
