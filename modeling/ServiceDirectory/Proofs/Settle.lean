import Mathlib.Data.List.Perm.Basic
import Mathlib.Tactic.TFAE
import ServiceDirectory.Proofs.Order

namespace ServiceDirectory.Entry

/-- What a key holds after `es` have come in, one by one. -/
def settle (held : Option Entry) (es : List Entry) : Option Entry :=
  es.foldl (fun held e => some (resolve held e)) held

@[simp] theorem settle_nil (held : Option Entry) : settle held [] = held := rfl

@[simp] theorem settle_cons (held : Option Entry) (e : Entry) (es : List Entry) :
    settle held (e :: es) = settle (some (resolve held e)) es := rfl

theorem settle_append (held : Option Entry) (es es' : List Entry) :
    settle held (es ++ es') = settle (settle held es) es' := List.foldl_append

theorem resolve_eq (held : Option Entry) (e : Entry) :
    held = some (resolve held e) ∨ e = resolve held e := by
  cases held with
  | none => exact .inr rfl
  | some h =>
    rw [resolve, winner_eq]
    split
    · exact .inr rfl
    · exact .inl rfl

/-- What is held stays where the newcomer does not outrank it. -/
theorem eq_resolve_iff {held : Option Entry} {e : Entry} :
    held = some (resolve held e) ↔ ∃ h ∈ held, ¬ e.Outranks h := by
  cases held with
  | none => simp
  | some h =>
    simp only [resolve, winner_eq, Option.mem_some_iff, exists_eq_left', Option.some.injEq]
    split
    · rename_i ho
      refine iff_of_false (fun heq => ?_) (not_not_intro ho)
      exact not_outranks_self e (heq ▸ ho)
    · rename_i ho
      exact iff_of_true rfl ho

/-- Nothing is held that was not held before or came in. -/
theorem mem_of_settle {held : Option Entry} {es : List Entry} {w : Entry}
    (h : settle held es = some w) : held = some w ∨ w ∈ es := by
  induction es generalizing held with
  | nil => exact .inl h
  | cons e es ih =>
    rcases ih h with hw | hw
    · rcases resolve_eq held e with hr | hr
      · exact .inl (hr.trans hw)
      · exact .inr (List.mem_cons.mpr (.inl ((Option.some.inj hw).symm.trans hr.symm)))
    · exact .inr (List.mem_cons_of_mem e hw)

/-- What is held never goes back in time where versions count milliseconds. -/
theorem timestamp_le_of_settle {h w : Entry} {es : List Entry} (hh : h.Stamped)
    (hes : ∀ e ∈ es, e.Stamped) (hw : settle (some h) es = some w) : h.timestamp ≤ w.timestamp := by
  induction es generalizing h with
  | nil =>
    cases hw
    exact Int64.le_refl _
  | cons e es ih =>
    have he := hes e (by simp)
    have ih' := fun x hx => ih (h := x) hx fun e' he' => hes e' (List.mem_cons_of_mem e he')
    rw [settle_cons, resolve, winner_eq] at hw
    split at hw
    · rename_i ho
      exact Int64.le_trans (ho.timestamp_le he hh) (ih' e he hw)
    · exact ih' h hh hw

theorem exists_settle (e : Entry) (es : List Entry) : ∃ w, settle (some e) es = some w := by
  induction es generalizing e with
  | nil => exact ⟨e, rfl⟩
  | cons e' es ih => exact ih (resolve (some e) e')

theorem exists_settle_of_mem {e : Entry} {es : List Entry} (held : Option Entry) (h : e ∈ es) :
    ∃ w, settle held es = some w := by
  cases es with
  | nil => contradiction
  | cons x es => exact exists_settle (resolve held x) es

theorem not_outranks_resolve (held : Option Entry) (e : Entry) : ¬ e.Outranks (resolve held e) := by
  rcases resolve_eq held e with h | h
  · obtain ⟨x, hx, ho⟩ := eq_resolve_iff.mp h
    exact Option.some.inj (hx.symm.trans h) ▸ ho
  · exact h ▸ not_outranks_self e

/-- What does not lose to `e` is replaced only by what does not lose to `e`, where no loser to `e` beats
anything that does not lose to it. -/
theorem not_outranks_of_settle_some {e y w : Entry} {es : List Entry} (hy : ¬ e.Outranks y)
    (htrans : ∀ x ∈ es, ∀ z, z = y ∨ z ∈ es → e.Outranks x → x.Outranks z → e.Outranks z)
    (h : settle (some y) es = some w) : ¬ e.Outranks w := by
  induction es generalizing y with
  | nil => exact Option.some.inj h ▸ hy
  | cons x es ih =>
    rw [settle_cons, resolve, winner_eq] at h
    split at h
    · rename_i hxy
      have hx : ¬ e.Outranks x := fun hex => hy (htrans x (by simp) y (.inl rfl) hex hxy)
      refine ih hx (fun x' hx' z hz => htrans x' (List.mem_cons_of_mem x hx') z (.inr ?_)) h
      exact List.mem_cons.mpr hz
    · exact ih hy (fun x' hx' z hz => htrans x' (List.mem_cons_of_mem x hx') z
        (hz.imp_right (List.mem_cons_of_mem x))) h

/-- An entry that came in loses to what is held in the end, where losers to it beat nothing else. -/
theorem not_outranks_of_settle {held : Option Entry} {e w : Entry} {es : List Entry} (he : e ∈ es)
    (htrans : ∀ x ∈ es, ∀ z, held = some z ∨ z ∈ es → e.Outranks x → x.Outranks z → e.Outranks z)
    (h : settle held es = some w) : ¬ e.Outranks w := by
  induction es generalizing held with
  | nil => contradiction
  | cons x es ih =>
    have htrans' : ∀ x' ∈ es, ∀ z, z = resolve held x ∨ z ∈ es → e.Outranks x' → x'.Outranks z →
        e.Outranks z := by
      intro x' hx' z hz
      refine htrans x' (List.mem_cons_of_mem x hx') z ?_
      rcases hz with rfl | hz
      · exact (resolve_eq held x).imp_right fun hr => List.mem_cons.mpr (.inl hr.symm)
      · exact .inr (List.mem_cons_of_mem x hz)
    rcases List.mem_cons.mp he with rfl | he
    · exact not_outranks_of_settle_some (not_outranks_resolve held e) htrans' h
    · refine ih he (fun x' hx' z hz => htrans' x' hx' z (hz.imp_left fun hz => ?_)) h
      exact (Option.some.inj hz).symm

/-- An entry that nothing outranks stays. -/
theorem settle_of_not_outranked {m : Entry} {es : List Entry} (h : ∀ e ∈ es, ¬ e.Outranks m) :
    settle (some m) es = some m := by
  induction es with
  | nil => rfl
  | cons e es ih =>
    rw [settle_cons, resolve, winner_of_not_outranks (h e (by simp))]
    exact ih fun e' he' => h e' (List.mem_cons_of_mem e he')

theorem resolve_of_outranks {held : Option Entry} {e m : Entry} (hm : held = some m ∨ e = m)
    (hheld : ∀ h ∈ held, h ≠ m → m.Outranks h) (he : e ≠ m → m.Outranks e) :
    resolve held e = m := by
  cases held with
  | none => exact hm.resolve_left (by simp)
  | some h =>
    rw [resolve, winner_eq]
    split
    · rename_i ho
      -- `m` is one of the two, and only `m` can win over it
      apply Classical.byContradiction
      intro hne
      have hh : h = m := by simpa [hne] using hm
      exact (he hne).asymm (hh ▸ ho)
    · rename_i ho
      apply Classical.byContradiction
      intro hne
      have hem : e = m := by simpa [hne] using hm
      exact ho (hem ▸ hheld h rfl hne)

/-- An entry that outranks all others is what is held in the end, wherever it stood. -/
theorem settle_of_outranks {held : Option Entry} {es : List Entry} {m : Entry}
    (hm : held = some m ∨ m ∈ es) (hheld : ∀ h ∈ held, h ≠ m → m.Outranks h)
    (hes : ∀ e ∈ es, e ≠ m → m.Outranks e) : settle held es = some m := by
  induction es generalizing held with
  | nil => exact hm.resolve_right List.not_mem_nil
  | cons e es ih =>
    have he := hes e (by simp)
    apply ih _ _ fun e' he' => hes e' (List.mem_cons_of_mem e he')
    · rcases hm with hm | hm
      · exact .inl (congrArg some (resolve_of_outranks (.inl hm) hheld he))
      · rcases List.mem_cons.mp hm with hm | hm
        · exact .inl (congrArg some (resolve_of_outranks (.inr hm.symm) hheld he))
        · exact .inr hm
    · intro w hw hne
      rcases resolve_eq held e with hr | hr
      · exact hheld w (hr.trans hw) hne
      · have hwe : e = w := hr.trans (Option.some.inj hw)
        exact hwe ▸ he (hwe ▸ hne)

/-- Copies of one key whose versions count milliseconds have a greatest. -/
theorem exists_outranks {es : List Entry} (hne : es ≠ []) (hs : ∀ e ∈ es, e.Stamped)
    (hk : ∀ a ∈ es, ∀ b ∈ es, a.key = b.key) : ∃ m ∈ es, ∀ e ∈ es, e ≠ m → m.Outranks e := by
  induction es with
  | nil => contradiction
  | cons e es ih =>
    by_cases hes : es = []
    · subst hes
      exact ⟨e, by simp, fun e' he' hne' => absurd (List.mem_singleton.mp he') hne'⟩
    obtain ⟨m, hm, hmax⟩ := ih hes (fun e' he' => hs e' (List.mem_cons_of_mem e he'))
      fun a ha b hb => hk a (List.mem_cons_of_mem e ha) b (List.mem_cons_of_mem e hb)
    have hm' := List.mem_cons_of_mem e hm
    by_cases heq : e = m
    · subst heq
      refine ⟨e, by simp, fun e' he' hne' => ?_⟩
      exact hmax e' ((List.mem_cons.mp he').resolve_left hne') hne'
    rcases outranks_or_outranks (hk e (by simp) m hm') heq with ho | ho
    · refine ⟨e, by simp, fun e' he' hne' => ?_⟩
      have he'' := (List.mem_cons.mp he').resolve_left hne'
      by_cases hem : e' = m
      · exact hem ▸ ho
      · exact ho.trans (hs e (by simp)) (hs m hm') (hs e' he') (hmax e' he'' hem)
    · refine ⟨m, hm', fun e' he' hne' => ?_⟩
      rcases List.mem_cons.mp he' with rfl | he''
      · exact ho
      · exact hmax e' he'' hne'

/-- The greatest of them, or none where there are none. -/
theorem exists_greatest {es : List Entry} (hs : ∀ e ∈ es, e.Stamped)
    (hk : ∀ a ∈ es, ∀ b ∈ es, a.key = b.key) : ∃ best : Option Entry, (∀ b ∈ best, b ∈ es) ∧
      ∀ e ∈ es, ∃ b ∈ best, e = b ∨ b.Outranks e := by
  by_cases hes : es = []
  · subst hes
    exact ⟨none, by simp, by simp⟩
  obtain ⟨m, hm, hmax⟩ := exists_outranks hes hs hk
  refine ⟨some m, ?_, ?_⟩
  · intro b hb
    exact Option.some.inj hb ▸ hm
  · intro e he
    exact ⟨m, rfl, Classical.or_iff_not_imp_left.mpr (hmax e he)⟩

/-- Whatever wins a list in every order outranks the rest of it: any other entry could be put before
it and come through. -/
theorem outranks_of_perm {es : List Entry} {w : Entry}
    (h : ∀ es', es'.Perm es → settle none es' = some w) : ∀ e ∈ es, e ≠ w → w.Outranks e := by
  intro e he hne
  apply Classical.byContradiction
  intro ho
  let rest := es.erase e
  have hp : (e :: (rest.filter (· = w) ++ rest.filter (! · = w))).Perm es :=
    ((List.filter_append_perm (· = w) rest).cons e).trans (List.perm_cons_erase he).symm
  -- the copies of `w` come straight after `e`: what wins past them is not `w`
  have hs := h _ hp
  have hfirst : settle (some e) (rest.filter (· = w)) = some e := by
    apply settle_of_not_outranked
    intro x hx hxe
    have hxw : x = w := by simpa using (List.mem_filter.mp hx).2
    exact ho (hxw ▸ hxe)
  rw [settle_cons, resolve, settle_append, hfirst] at hs
  rcases mem_of_settle hs with hew | hin
  · exact hne (Option.some.inj hew)
  · simpa using (List.mem_filter.mp hin).2

/-- The order in which copies of a key come in does not matter exactly if one of them outranks all
others; then repetitions do not matter either. -/
theorem settle_order_tfae (es : List Entry) : List.TFAE [
    ∀ es', es'.Perm es → settle none es' = settle none es,
    ∀ es', (∀ e, e ∈ es' ↔ e ∈ es) → settle none es' = settle none es,
    es = [] ∨ ∃ m ∈ es, ∀ e ∈ es, e ≠ m → m.Outranks e] := by
  tfae_have 2 → 1 := fun h es' hp => h es' fun e => hp.mem_iff
  tfae_have 1 → 3 := by
    intro h
    cases es with
    | nil => exact .inl rfl
    | cons e es =>
      obtain ⟨w, hw⟩ := exists_settle e es
      have hw' : settle none (e :: es) = some w := hw
      have hmem : w ∈ e :: es := (mem_of_settle hw').resolve_left (by simp)
      exact .inr ⟨w, hmem, outranks_of_perm fun es' hp => (h es' hp).trans hw'⟩
  tfae_have 3 → 2 := by
    rintro (rfl | ⟨m, hm, ho⟩) es' hes
    · have : es' = [] := List.eq_nil_iff_forall_not_mem.mpr fun e he => by simpa using (hes e).mp he
      rw [this]
    · have h (l : List Entry) (hl : ∀ e, e ∈ l ↔ e ∈ es) : settle none l = some m :=
        settle_of_outranks (.inr ((hl m).mpr hm)) (by simp) fun e he => ho e ((hl e).mp he)
      rw [h es' hes, h es fun _ => Iff.rfl]
  tfae_finish

/-- Valid copies of one key that outrank each other in turn: the second the first by its version, the
third the second and the first the third by time. -/
def cycle : List Entry := [
  { key := [107], value := some [49], version := 1, origin := "a", timestamp := 300, maxAge := none },
  { key := [107], value := some [50], version := 2, origin := "a", timestamp := 100, maxAge := none },
  { key := [107], value := some [51], version := 1, origin := "b", timestamp := 200, maxAge := none }]

theorem settle_cycle_reverse : (∀ e ∈ cycle, e.key = [107] ∧ e.flaw? = none) ∧
    cycle.reverse.Perm cycle ∧ settle none cycle.reverse ≠ settle none cycle :=
  ⟨by decide, List.reverse_perm cycle, by decide⟩

end ServiceDirectory.Entry
