import ServiceDirectory.Proofs.Operation

namespace ServiceDirectory

variable {t : Entry} {age : Span} {k : Bytes} {now : Instant}

/-- Whatever comes in for the key of `t` is `t` or loses to it, nothing is written to that key, and no
sweep comes before tombstones as old as `t` may go. -/
def Operation.Spares (t : Entry) (age : Span) : Operation → Prop
  | put _ key _ _ | delete _ key => key ≠ t.key
  | sweep now => now.toInt < t.timestamp.toInt + age.millis
  | o => ∀ e ∈ o.batch, e.key = t.key → e = t ∨ t.Outranks e

instance (t : Entry) (age : Span) (o : Operation) : Decidable (o.Spares t age) :=
  match o with
  | .put .. | .delete .. => inferInstanceAs (Decidable (_ ≠ _))
  | .sweep _ => inferInstanceAs (Decidable (_ < _))
  | .lookup .. | .live .. | .snapshot | .merge .. | .absorb .. | .drain =>
    inferInstanceAs (Decidable (∀ e ∈ Operation.batch _, e.key = t.key → e = t ∨ t.Outranks e))

/-- Nothing outranks `t`: it would replace what is held. -/
def Entry.Tops (t : Entry) (held : Option Entry) : Prop := ∀ x ∈ held, x = t ∨ t.Outranks x

/-- A tombstone is kept as long as its age is less than the whole milliseconds it is to have. -/
theorem Entry.isCollectable_eq_false (ht : t.isTombstone) (hage : age.millis < 2 ^ 64)
    (hnow : now.toInt < t.timestamp.toInt + age.millis) :
    t.isCollectable now age.millisWord = false := by
  rw [Bool.eq_false_iff]
  intro hc
  have hle := add_le_of_isCollectable ht hc
  rw [Span.toNat_millisWord hage] at hle
  omega

section Settle

variable {held : Option Entry} {batch : List Entry}

theorem Entry.Tops.settle (hy : t.Tops held)
    (hb : ∀ e ∈ batch, e.key = t.key → e = t ∨ t.Outranks e) :
    t.Tops (Entry.settle held (batch.filter fun e => e.key = t.key ∧ e.isAdmitted now)) := by
  intro x hx
  rcases mem_of_settle hx with hx | hx
  · exact hy x hx
  · obtain ⟨hx, hk⟩ := List.mem_filter.mp hx
    exact hb x hx (of_decide_eq_true hk).1

theorem Entry.Tops.settle_eq (hy : t.Tops held) (ht : t.isTombstone)
    (hb : ∀ e ∈ batch, e.key = t.key → e = t ∨ t.Outranks e)
    (h : held = some t ∨ t.flaw? = none ∧ t ∈ batch) :
    Entry.settle held (batch.filter fun e => e.key = t.key ∧ e.isAdmitted now) = some t := by
  apply settle_of_outranks
  · refine h.imp_right fun ⟨hf, hmem⟩ => List.mem_filter.mpr ⟨hmem, ?_⟩
    exact decide_eq_true ⟨rfl, isAdmitted_of_isTombstone hf ht⟩
  · exact fun x hx hne => (hy x hx).resolve_left hne
  · intro e he hne
    obtain ⟨he, hk⟩ := List.mem_filter.mp he
    exact (hb e he (of_decide_eq_true hk).1).resolve_left hne

end Settle

namespace Replica

variable {r s : Replica} {o : Operation} {os : List Operation}

/-- The tombstone is what is held for its key, and no reading at any time shows the key. -/
structure Buries (r : Replica) (t : Entry) : Prop where
  held : r.held t.key = some t
  lookup (now : Instant) : (lookup now t.key).run.run r = (.ok none, r)
  live (now : Instant) : ∃ es, (live now).run.run r = (.ok es, r) ∧ ∀ e ∈ es, e.key ≠ t.key

theorem Sound.buries_of_held (h : r.Sound) (ht : t.isTombstone) (hheld : r.held t.key = some t) :
    r.Buries t where
  held := hheld
  lookup now := by
    rw [run_lookup h, hheld, Option.filter_some]
    simp [Entry.isLive, ht]
  live now := by
    obtain ⟨es, hrun, -, hmem⟩ := exists_run_live h now
    refine ⟨es, hrun, fun e he hk => ?_⟩
    obtain ⟨hheld', hlive⟩ := (hmem e).mp he
    rw [hk, hheld] at hheld'
    cases hheld'
    simp [Entry.isLive, ht] at hlive

theorem tops_leaves (hy : t.Tops (r.held t.key)) (ho : o.Spares t age) :
    t.Tops (o.leaves r t.key) := by
  cases o with
  | put now key value maxAge =>
    rw [Operation.leaves, Operation.writes, if_neg ho]
    exact hy
  | delete now key =>
    rw [Operation.leaves, Operation.writes, if_neg ho]
    exact hy
  | merge now batch => exact hy.settle ho
  | absorb now peer pulled => exact hy.settle ho
  | sweep now => exact fun x hx => hy x (Option.filter_eq_some_iff.mp hx).1
  | _ => exact hy

theorem leaves_eq (ht : t.isTombstone) (hage : r.settings.tombstoneMaxAge.millis < 2 ^ 64)
    (hy : t.Tops (r.held t.key)) (ho : o.Spares t r.settings.tombstoneMaxAge)
    (h : r.held t.key = some t ∨ t.flaw? = none ∧ t ∈ o.batch) : o.leaves r t.key = some t := by
  cases o with
  | put now key value maxAge =>
    rw [Operation.leaves, Operation.writes, if_neg ho]
    exact h.resolve_right fun hb => List.not_mem_nil hb.2
  | delete now key =>
    rw [Operation.leaves, Operation.writes, if_neg ho]
    exact h.resolve_right fun hb => List.not_mem_nil hb.2
  | merge now batch => exact hy.settle_eq ht ho h
  | absorb now peer pulled => exact hy.settle_eq ht ho h
  | sweep now =>
    have hheld := h.resolve_right fun hb => List.not_mem_nil hb.2
    rw [Operation.leaves, hheld, Option.filter_some, Entry.isCollectable_eq_false ht hage ho]
    rfl
  | _ => exact h.resolve_right fun hb => List.not_mem_nil hb.2

theorem Trace.tops (h : Trace s os r) (hs : s.Stocked) (hy : t.Tops (s.held t.key))
    (hos : ∀ o ∈ os, o.Spares t age) : t.Tops (r.held t.key) := by
  induction h with
  | nil => exact hy
  | @snoc os r o hr hf ih =>
    have ih' := ih fun o' ho' => hos o' (List.mem_append_left _ ho')
    rw [((hr.stocked hs).1.step hf).held]
    exact tops_leaves ih' (hos o (by simp))

/-- A tombstone that is held, or that comes in well-formed where it outranks what is held, stays
through all that spares it. -/
theorem Trace.buries (h : Trace s os r) (hs : s.Stocked) (ht : t.isTombstone)
    (hage : s.settings.tombstoneMaxAge.millis < 2 ^ 64) (hy : t.Tops (s.held t.key))
    (hos : ∀ o ∈ os, o.Spares t s.settings.tombstoneMaxAge)
    (hb : s.held t.key = some t ∨ t.flaw? = none ∧ ∃ o ∈ os, t ∈ o.batch) : r.Buries t := by
  refine (h.stocked hs).1.buries_of_held ht ?_
  induction h with
  | nil => exact hb.resolve_right (by simp)
  | @snoc os r o hr hf ih =>
    have hos' : ∀ o' ∈ os, o'.Spares t s.settings.tombstoneMaxAge := fun o' ho' =>
      hos o' (List.mem_append_left _ ho')
    have hset := (hr.stocked hs).2.2
    rw [((hr.stocked hs).1.step hf).held]
    apply leaves_eq ht (by rwa [hset]) (hr.tops hs hy hos') (by rw [hset]; exact hos o (by simp))
    -- it came in before or comes in now
    rcases hb with hb | ⟨hflaw, o', ho', hmem⟩
    · exact .inl (ih hos' (.inl hb))
    · rcases List.mem_append.mp ho' with ho' | ho'
      · exact .inl (ih hos' (.inr ⟨hflaw, o', ho', hmem⟩))
      · exact .inr ⟨hflaw, List.mem_singleton.mp ho' ▸ hmem⟩

/-- A value and the delete that followed it; the value is later by its clock, and loses by its
version all the same. -/
def staleValue : Entry :=
  { key := [107], value := some [49], version := 100, origin := "a", timestamp := 300, maxAge := none }

def laterTomb : Entry :=
  { key := [107], value := none, version := 200, origin := "a", timestamp := 200, maxAge := none }

/-- The value comes in before, with and after the tombstone. -/
theorem buries_laterTomb : ∃ r, Trace (infant "b") [.merge 400 [staleValue],
    .merge 400 [staleValue, laterTomb, staleValue], .sweep 500, .put 600 [108] [50] none,
    .merge 700 [staleValue]] r ∧ r.Buries laterTomb := by
  have h₀ : Trace (infant "b") [] (infant "b") := .nil
  have h₁ := h₀.snoc (o := .merge 400 [staleValue]) (by decide)
  have h₂ := h₁.snoc (o := .merge 400 [staleValue, laterTomb, staleValue]) (by decide)
  have h₃ := h₂.snoc (o := .sweep 500) (by decide)
  have h₄ := h₃.snoc (o := .put 600 [108] [50] none) (by decide +kernel)
  have h₅ := h₄.snoc (o := .merge 700 [staleValue]) (by decide)
  refine ⟨_, h₅, h₅.buries (stocked_infant "b") rfl (by decide) (fun x hx => ?_) (by decide) ?_⟩
  · cases hx
  · exact .inr ⟨rfl, .merge 400 [staleValue, laterTomb, staleValue], by simp, by decide⟩

/-- What a delete of the empty key leaves at its node, and an older value elsewhere. -/
def emptyTomb : Entry :=
  { key := [], value := none, version := 200, origin := "a", timestamp := 200, maxAge := none }

def emptyValue : Entry :=
  { key := [], value := some [49], version := 100, origin := "b", timestamp := 100, maxAge := none }

/-- A tombstone for the empty key is held where it was made, but no peer takes it: the value that it
outranks there is shown still. -/
theorem not_buries_emptyTomb :
    (∃ r, Trace (infant "a") [.delete 200 []] r ∧ r.Buries emptyTomb) ∧
    ∃ s r, Trace (infant "b") [.put 100 [] [49] none] s ∧ s.held [] = some emptyValue ∧
      emptyTomb.Outranks emptyValue ∧ Trace s [.merge 200 [emptyTomb]] r ∧
      (lookup 200 []).run.run r = (.ok (some emptyValue), r) ∧ ¬ r.Buries emptyTomb := by
  constructor
  · have h₀ : Trace (infant "a") [] (infant "a") := .nil
    have h := h₀.snoc (o := .delete 200 []) (by decide)
    have hheld : ((Operation.delete 200 []).run (infant "a")).held [] = some emptyTomb := by
      decide +kernel
    exact ⟨_, h, (h.stocked (stocked_infant "a")).1.buries_of_held rfl hheld⟩
  · have h₀ : Trace (infant "b") [] (infant "b") := .nil
    have h := h₀.snoc (o := .put 100 [] [49] none) (by decide)
    have hs := (h.stocked (stocked_infant "b")).1
    have hm₀ : Trace ((Operation.put 100 [] [49] none).run (infant "b")) [] _ := .nil
    have hm := hm₀.snoc (o := .merge 200 [emptyTomb]) (by decide)
    have hr := (hm.stocked hs).1
    have hheld : ((Operation.merge 200 [emptyTomb]).run
        ((Operation.put 100 [] [49] none).run (infant "b"))).held [] = some emptyValue := by
      decide +kernel
    have hread := run_lookup hr.toSound 200 []
    rw [hheld] at hread
    refine ⟨_, _, h, by decide +kernel, by decide, hm, hread, fun hb => ?_⟩
    have hne : some emptyValue ≠ some emptyTomb := by decide
    exact hne (hheld.symm.trans hb.held)

end Replica

end ServiceDirectory
