import ServiceDirectory.Proofs.Operation

namespace ServiceDirectory

namespace Entry

/-- The version counts the milliseconds of the timestamp, which stops at the end of time where
versions go on. -/
def Dated (e : Entry) : Prop :=
  e.Stamped ∨ e.timestamp = Int64.maxValue ∧ Instant.last < e.version.toNat

theorem Dated.stamped {e : Entry} (h : e.Dated) (hv : (e.version.toNat : Int) ≤ Instant.last) :
    e.Stamped := h.resolve_right fun hl => Int.not_le.mpr hl.2 hv

theorem Dated.stamped_of_timestamp_ne {e : Entry} (h : e.Dated)
    (ht : e.timestamp ≠ Int64.maxValue) : e.Stamped := h.resolve_right fun hl => ht hl.1

section Over

variable {held : Option Entry} {origin : String} {now : Instant} {key : Bytes}
  {value : Option Bytes} {maxAge : Option UInt64}

theorem last_lt_version_over {h : Entry} (hd : h.Dated) (ht : h.timestamp = Int64.maxValue) :
    Instant.last < (Entry.over (some h) origin now key value maxAge).version.toNat := by
  have hle : Instant.last ≤ h.version.toNat := by
    rcases hd with hs | hl
    · rw [Stamped, ht, Int64.toInt_maxValue] at hs
      unfold Instant.last
      omega
    · exact Int.le_of_lt hl.2
  have hnext : Instant.last < (nextVersion h.version).toNat := by
    have hmono := le_nextVersion h.version
    rw [UInt64.le_iff_toNat_le] at hmono
    by_cases hv : h.version.toNat + 1 < 2 ^ 64
    · rw [toNat_nextVersion hv]
      omega
    · unfold Instant.last
      omega
  change Instant.last < (max (nextVersion h.version) now.toVersion).toNat
  rw [toNat_max]
  omega

theorem dated_over (hnow : 1 ≤ now) (hheld : ∀ h ∈ held, h.Dated) :
    (Entry.over held origin now key value maxAge).Dated := by
  cases held with
  | none => exact .inl (stamped_over_none hnow)
  | some h =>
    by_cases ht : h.timestamp = Int64.maxValue
    · refine .inr ⟨?_, last_lt_version_over (hheld h rfl) ht⟩
      change now.latest h.timestamp.succ = _
      rw [ht, Instant.succ_maxValue, Instant.latest, if_pos (Int64.le_maxValue now)]
    · exact .inl (stamped_over_some hnow ((hheld h rfl).stamped_of_timestamp_ne ht) ht)

end Over

end Entry

namespace Operation

/-- The reading of the clock that it is done by. -/
def reading? : Operation → Option Instant
  | put now .. | delete now _ | lookup now _ | live now | merge now _ | absorb now .. | sweep now =>
    some now
  | snapshot | drain => none

/-- What it writes, whether or not that is what is held then. -/
def authored (r : Replica) : Operation → List Entry
  | put now key value maxAge => [r.built now key (some value) maxAge]
  | delete now key => [r.built now key none none]
  | _ => []

/-- By a clock that has begun, and taking in only entries whose versions count milliseconds. -/
def Dated (o : Operation) : Prop := (∀ t ∈ o.reading?, 1 ≤ t) ∧ ∀ e ∈ o.batch, e.Stamped

-- the reading by name, as instants are finitely many and could all be tried
instance (o : Operation) : Decidable o.Dated :=
  @instDecidableAnd _ _ (Option.decidableForallMem ..)
    (inferInstanceAs (Decidable (∀ e ∈ o.batch, e.version.toNat = e.timestamp.toInt)))

variable {r : Replica} {o : Operation} {k key : Bytes} {e new : Entry}

theorem mem_of_writes (h : writes r k key new = some e) : r.held k = some e ∨ e = new := by
  unfold writes at h
  split at h
  · rcases Entry.resolve_eq (r.held k) new with hr | hr
    · exact .inl (hr.trans h)
    · exact .inr ((Option.some.inj h).symm.trans hr.symm)
  · exact .inl h

/-- Nothing is held that was not held before, written or taken in. -/
theorem mem_of_leaves (h : o.leaves r k = some e) :
    r.held k = some e ∨ e ∈ o.authored r ∨ e ∈ o.batch := by
  cases o with
  | put now key value maxAge =>
    exact (mem_of_writes h).imp_right fun he => .inl (List.mem_singleton.mpr he)
  | delete now key =>
    exact (mem_of_writes h).imp_right fun he => .inl (List.mem_singleton.mpr he)
  | merge now batch =>
    exact (Entry.mem_of_settle h).imp_right fun he => .inr (List.mem_of_mem_filter he)
  | absorb now peer pulled =>
    exact (Entry.mem_of_settle h).imp_right fun he => .inr (List.mem_of_mem_filter he)
  | sweep now => exact .inl (Option.filter_eq_some_iff.mp h).1
  | _ => exact .inl h

theorem dated_authored (ho : o.Dated) (hr : ∀ k, ∀ e ∈ r.held k, e.Dated) :
    ∀ e ∈ o.authored r, e.Dated := by
  intro e he
  cases o with
  | put now key value maxAge =>
    rw [List.mem_singleton.mp he]
    exact Entry.dated_over (ho.1 now rfl) (hr key)
  | delete now key =>
    rw [List.mem_singleton.mp he]
    exact Entry.dated_over (ho.1 now rfl) (hr key)
  | _ => exact absurd he List.not_mem_nil

theorem origin_of_mem_authored (he : e ∈ o.authored r) : e.origin = r.nodeId := by
  cases o with
  | put now key value maxAge => rw [List.mem_singleton.mp he]; rfl
  | delete now key => rw [List.mem_singleton.mp he]; rfl
  | _ => exact absurd he List.not_mem_nil

theorem dated_leaves (ho : o.Dated) (hr : ∀ k, ∀ e ∈ r.held k, e.Dated) :
    ∀ k, ∀ e ∈ o.leaves r k, e.Dated := by
  intro k e he
  rcases mem_of_leaves he with he | he | he
  · exact hr k e he
  · exact dated_authored ho hr e he
  · exact .inl (ho.2 e he)

end Operation

namespace Replica

variable {r r₀ : Replica} {o : Operation} {os : List Operation}

/-- All that a node writes, operation by operation. -/
def authored (r : Replica) : List Operation → List Entry
  | [] => []
  | o :: os => o.authored r ++ authored (o.run r) os

theorem authored_append (r : Replica) (os os' : List Operation) :
    r.authored (os ++ os') = r.authored os ++ (os.foldl Operation.run r).authored os' := by
  induction os generalizing r with
  | nil => rfl
  | cons o os ih =>
    change o.authored r ++ (o.run r).authored (os ++ os') = _
    rw [ih, ← List.append_assoc]
    rfl

theorem Trace.eq_foldl (h : Trace r₀ os r) : r = os.foldl Operation.run r₀ := by
  induction h with
  | nil => rfl
  | snoc _ _ ih => rw [List.foldl_append, ← ih]; rfl

theorem Trace.authored_snoc (h : Trace r₀ os r) (o : Operation) :
    r₀.authored (os ++ [o]) = r₀.authored os ++ o.authored r := by
  rw [authored_append, ← h.eq_foldl]
  exact congrArg _ (List.append_nil _)

end Replica

end ServiceDirectory
