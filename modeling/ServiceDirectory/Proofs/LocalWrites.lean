import Mathlib.Data.List.Infix
import ServiceDirectory.Config
import ServiceDirectory.Proofs.Replica

namespace ServiceDirectory.Replica

/-- What a node passes through from its start on, what it has written and its last reading of the
clock. A merge passes through the merges of the parts of its batch. -/
inductive Life (r₀ : Replica) : List Replica → List Entry → Instant → Replica → Prop
  | start : Life r₀ [r₀] [] 1 r₀
  | put {past written t r now key value maxAge} : Life r₀ past written t r → t ≤ now →
      (r.built now key (some value) maxAge).timestamp < Int64.maxValue →
      (r.built now key (some value) maxAge).Fits →
      Life r₀ (past ++ [((put now key value maxAge).run.run r).2])
        (written ++ [r.built now key (some value) maxAge]) now
        ((put now key value maxAge).run.run r).2
  | delete {past written t r now key} : Life r₀ past written t r → t ≤ now →
      (r.built now key none none).timestamp < Int64.maxValue → (r.built now key none none).Fits →
      Life r₀ (past ++ [((delete now key).run.run r).2]) (written ++ [r.built now key none none]) now
        ((delete now key).run.run r).2
  | merge {past written t r now batch} : Life r₀ past written t r → t ≤ now →
      (∀ e ∈ batch, e.Stamped ∧ e.timestamp < Int64.maxValue ∧ e.Fits) →
      Life r₀ (past ++ batch.inits.map fun part => ((merge now part).run.run r).2) written now
        ((merge now batch).run.run r).2
  | sweep {past written t r now} : Life r₀ past written t r → t ≤ now →
      Life r₀ (past ++ [r.sweepOnce now]) written now (r.sweepOnce now)
  | drain {past written t r} : Life r₀ past written t r →
      Life r₀ (past ++ [r.drain.2]) written t r.drain.2

variable {r r' : Replica} {past : List Replica} {written : List Entry} {t now : Instant}
  {k key : Bytes} {e new : Entry} {age : Span}

/-- The clock or what is held now has passed `e`. -/
def Covers (r : Replica) (t : Instant) (k : Bytes) (e : Entry) : Prop :=
  e.timestamp < t ∨ ∃ h, r.held k = some h ∧ e.timestamp ≤ h.timestamp

theorem covers_of_held (he : r.held k = some e) : r.Covers t k e := .inr ⟨e, he, Int64.le_refl _⟩

/-- Every entry ever held has been passed by now. -/
structure Traced (age : Span) (past : List Replica) (t : Instant) (r : Replica) : Prop where
  sound : r.Sound
  age : r.settings.tombstoneMaxAge = age
  clock : 1 ≤ t
  last : r ∈ past
  stamped : ∀ s ∈ past, ∀ k e, s.held k = some e → e.Stamped
  timestamp : ∀ s ∈ past, ∀ k e, s.held k = some e → e.timestamp < Int64.maxValue
  covers : ∀ s ∈ past, ∀ k e, s.held k = some e → r.Covers t k e

/-- Every entry written has been held, and the versions of a key have risen. -/
structure Rising (past : List Replica) (written : List Entry) : Prop where
  held : ∀ e ∈ written, ∃ s ∈ past, s.held e.key = some e
  version_lt : written.Pairwise fun a b => a.key = b.key → a.version < b.version

theorem Rising.mono (h : Rising past written) (states : List Replica) :
    Rising (past ++ states) written where
  held e he := by
    obtain ⟨s, hs, hheld⟩ := h.held e he
    exact ⟨s, List.mem_append_left states hs, hheld⟩
  version_lt := h.version_lt

theorem Covers.trans (h : r.Covers t k e) (ht : t ≤ now)
    (hr : ∀ x, r.held k = some x → r'.Covers now k x) : r'.Covers now k e := by
  rcases h with h | ⟨x, hx, hle⟩
  · exact .inl (Int64.lt_of_lt_of_le h ht)
  · rcases hr x hx with hlt | ⟨y, hy, hle'⟩
    · exact .inl (Int64.lt_of_le_of_lt hle hlt)
    · exact .inr ⟨y, hy, Int64.le_trans hle hle'⟩

/-- A step is as good as the states it goes through. -/
theorem Traced.extend {states : List Replica} (h : Traced age past t r) (ht : t ≤ now)
    (hs : r'.Sound) (hset : r'.settings = r.settings) (hlast : r' ∈ states)
    (hr : ∀ k x, r.held k = some x → r'.Covers now k x)
    (hstates : ∀ s ∈ states, ∀ k e, s.held k = some e →
      e.Stamped ∧ e.timestamp < Int64.maxValue ∧ r'.Covers now k e) :
    Traced age (past ++ states) now r' where
  sound := hs
  age := by rw [hset, h.age]
  clock := Int64.le_trans h.clock ht
  last := List.mem_append_right past hlast
  stamped s hs k e he := by
    rcases List.mem_append.mp hs with hs | hs
    · exact h.stamped s hs k e he
    · exact (hstates s hs k e he).1
  timestamp s hs k e he := by
    rcases List.mem_append.mp hs with hs | hs
    · exact h.timestamp s hs k e he
    · exact (hstates s hs k e he).2.1
  covers s hs k e he := by
    rcases List.mem_append.mp hs with hs | hs
    · exact (h.covers s hs k e he).trans ht (hr k)
    · exact (hstates s hs k e he).2.2

section Write

variable {value : Option Bytes} {maxAge : Option UInt64}

theorem Traced.stamped_built (h : Traced age past t r) (ht : t ≤ now)
    (hb : r.built now key value maxAge = new) (hx : new.timestamp < Int64.maxValue) :
    new.Stamped := by
  subst hb
  exact Entry.stamped_over (Int64.le_trans h.clock ht)
    (fun x hx => h.stamped r h.last key x hx) hx

theorem Traced.timestamp_lt_built (h : Traced age past t r) (ht : t ≤ now)
    (hb : r.built now key value maxAge = new) (hx : new.timestamp < Int64.maxValue) :
    ∀ s ∈ past, ∀ e, s.held key = some e → e.timestamp < new.timestamp := by
  intro s hs e he
  rcases h.covers s hs key e he with hlt | ⟨x, hheld, hle⟩
  -- passed by the clock, which no write is behind
  · have hnow : now ≤ new.timestamp := by
      rw [← hb]
      exact Entry.now_le_timestamp_over
    exact Int64.lt_of_lt_of_le hlt (Int64.le_trans ht hnow)
  -- passed by what is held, and every write is later than that
  · rw [built, hheld] at hb
    rw [← hb] at hx ⊢
    exact Int64.lt_of_le_of_lt hle (Entry.timestamp_lt_over hx)

/-- A write outranks all that was ever held. -/
theorem Traced.outranks (h : Traced age past t r) (ht : t ≤ now)
    (hb : r.built now key value maxAge = new) (hx : new.timestamp < Int64.maxValue) :
    ∀ s ∈ past, ∀ e, s.held key = some e → new.Outranks e := fun s hs e he =>
  (h.stamped_built ht hb hx).outranks_of_timestamp_lt (h.stamped s hs key e he)
    (h.timestamp_lt_built ht hb hx s hs e he)

theorem Traced.run_write (h : Traced age past t r) (ht : t ≤ now)
    (hb : r.built now key value maxAge = new) (hx : new.timestamp < Int64.maxValue) :
    (write now key value maxAge).run.run r =
      (.ok (new, r.held key), (r.store new).enqueue new) :=
  run_write_of_outranks h.sound hb fun e he => h.outranks ht hb hx r h.last e he

theorem held_store_enqueue (hb : r.built now key value maxAge = new) (hf : new.Fits) (k : Bytes) :
    ((r.store new).enqueue new).held k = if key = k then some new else r.held k := by
  have hkey : new.key = key := hb ▸ rfl
  rw [held_enqueue, held_store (takes_of_fits r hf), hkey]

theorem Traced.write (h : Traced age past t r) (ht : t ≤ now)
    (hb : r.built now key value maxAge = new) (hx : new.timestamp < Int64.maxValue)
    (hf : new.Fits) :
    Traced age (past ++ [(r.store new).enqueue new]) now ((r.store new).enqueue new) := by
  have hheld := held_store_enqueue hb hf
  have hlt := h.timestamp_lt_built ht hb hx
  have hs := (h.sound.store (takes_of_fits r hf)).enqueue new
  refine h.extend ht hs (settings_enqueue (r.store new) new) (List.mem_singleton.mpr rfl) ?_ ?_
  · intro k x hxk
    by_cases hk : key = k
    · subst hk
      exact .inr ⟨new, (hheld key).trans (if_pos rfl), Int64.le_of_lt (hlt r h.last x hxk)⟩
    · exact covers_of_held ((hheld k).trans ((if_neg hk).trans hxk))
  · intro s hs k e he
    rw [List.mem_singleton.mp hs] at he
    have hc := covers_of_held (t := now) he
    rw [hheld] at he
    split_ifs at he with hk
    · cases he
      exact ⟨h.stamped_built ht hb hx, hx, hc⟩
    · exact ⟨h.stamped r h.last k e he, h.timestamp r h.last k e he, hc⟩

theorem Rising.write {written : List Entry} (hr : Rising past written) (h : Traced age past t r)
    (ht : t ≤ now) (hb : r.built now key value maxAge = new)
    (hx : new.timestamp < Int64.maxValue) (hf : new.Fits) :
    Rising (past ++ [(r.store new).enqueue new]) (written ++ [new]) := by
  have hkey : new.key = key := hb ▸ rfl
  constructor
  · intro e he
    rcases List.mem_append.mp he with he | he
    · exact (hr.mono _).held e he
    · rw [List.mem_singleton.mp he, hkey]
      exact ⟨_, by simp, (held_store_enqueue hb hf key).trans (if_pos rfl)⟩
  · rw [List.pairwise_append]
    refine ⟨hr.version_lt, List.pairwise_singleton _ _, fun a ha b hb' hk => ?_⟩
    obtain ⟨s, hs, hheld⟩ := hr.held a ha
    rw [List.mem_singleton.mp hb'] at hk ⊢
    rw [hk, hkey] at hheld
    exact ((h.stamped s hs key a hheld).version_lt_iff (h.stamped_built ht hb hx)).mpr
      (h.timestamp_lt_built ht hb hx s hs a hheld)

end Write

/-- What is held after a part of a batch is passed by what is held after all of it. -/
theorem Merged.covers {part rest : List Entry} {r₁ r₂ : Replica} {x : Entry}
    (h₁ : Merged now part r r₁) (h₂ : Merged now (part ++ rest) r r₂)
    (hrest : ∀ e ∈ rest, e.Stamped) (hx : x.Stamped) (hheld : r₁.held k = some x) :
    r₂.Covers now k x := by
  have hsettle := h₂.held k
  rw [List.filter_append, Entry.settle_append, ← h₁.held, hheld] at hsettle
  obtain ⟨w, hw⟩ := Entry.exists_settle x (rest.filter fun e => e.key = k ∧ e.isAdmitted now)
  have hle := Entry.timestamp_le_of_settle hx (fun e he => hrest e (List.mem_of_mem_filter he)) hw
  exact .inr ⟨w, hsettle.trans hw, hle⟩

theorem Traced.merge_inits {batch : List Entry} (h : Traced age past t r) (ht : t ≤ now)
    (hb : ∀ e ∈ batch, e.Stamped ∧ e.timestamp < Int64.maxValue ∧ e.Fits) :
    Traced age (past ++ batch.inits.map fun part => ((merge now part).run.run r).2) now
      ((merge now batch).run.run r).2 := by
  have hrun (part : List Entry) (hp : ∀ e ∈ part, e ∈ batch) :
      Merged now part r ((merge now part).run.run r).2 := by
    have htakes : ∀ e ∈ part, r.Takes e := fun e he => takes_of_fits r (hb e (hp e he)).2.2
    obtain ⟨o, r', hrun, hm, -⟩ := exists_run_merge h.sound htakes now
    rwa [hrun]
  have hm := hrun batch fun e he => he
  have hstamped : ∀ e ∈ batch, e.Stamped := fun e he => (hb e he).1
  refine h.extend ht hm.sound hm.frame.settings ?_ ?_ ?_
  · exact List.mem_map.mpr ⟨batch, (List.mem_inits _ _).mpr (List.prefix_refl batch), rfl⟩
  · intro k x hx
    have hm' : Merged now ([] ++ batch) r _ := hm
    exact (Merged.nil h.sound).covers hm' hstamped (h.stamped r h.last k x hx) hx
  · intro s hs k e he
    obtain ⟨part, hpart, rfl⟩ := List.mem_map.mp hs
    obtain ⟨rest, rfl⟩ := (List.mem_inits _ _).mp hpart
    have hm₁ := hrun part fun e he => List.mem_append_left rest he
    have hgood : e.Stamped ∧ e.timestamp < Int64.maxValue := by
      rw [hm₁.held] at he
      rcases Entry.mem_of_settle he with he | he
      · exact ⟨h.stamped r h.last k e he, h.timestamp r h.last k e he⟩
      · have hb' := hb e (List.mem_append_left rest (List.mem_of_mem_filter he))
        exact ⟨hb'.1, hb'.2.1⟩
    refine ⟨hgood.1, hgood.2, hm₁.covers hm (fun e he => ?_) hgood.1 he⟩
    exact hstamped e (List.mem_append_right part he)

theorem Traced.sweepOnce (h : Traced age past t r) (ht : t ≤ now) (hage : age.millisWord ≠ 0) :
    Traced age (past ++ [r.sweepOnce now]) now (r.sweepOnce now) := by
  have hheld (k : Bytes) := held_sweepOnce h.sound now k
  rw [h.age] at hheld
  refine h.extend ht h.sound.sweepOnce (frame_sweepOnce h.sound).settings
    (List.mem_singleton.mpr rfl) ?_ ?_
  · intro k x hx
    cases hc : x.isCollectable now age.millisWord with
    | true =>
      -- what is swept is older than the clock, so nothing it had passed is lost sight of
      exact .inl (Entry.timestamp_lt_of_isCollectable hage (h.timestamp r h.last k x hx) hc)
    | false =>
      apply covers_of_held
      rw [hheld, hx, Option.filter_some, hc]
      rfl
  · intro s hs k e he
    rw [List.mem_singleton.mp hs] at he
    have hc := covers_of_held (t := now) he
    rw [hheld, Option.filter_eq_some_iff] at he
    exact ⟨h.stamped r h.last k e he.1, h.timestamp r h.last k e he.1, hc⟩

theorem Traced.drain (h : Traced age past t r) : Traced age (past ++ [r.drain.2]) t r.drain.2 := by
  have hheld : r.drain.2.held = r.held := by
    funext k
    rw [held, held, engine_drain]
  refine h.extend (Int64.le_refl t) h.sound.drain (settings_drain r) (List.mem_singleton.mpr rfl) ?_ ?_
  · intro k x hx
    exact covers_of_held ((congrFun hheld k).trans hx)
  · intro s hs k e he
    rw [List.mem_singleton.mp hs] at he
    have hc := covers_of_held (t := t) he
    rw [hheld] at he
    exact ⟨h.stamped r h.last k e he, h.timestamp r h.last k e he, hc⟩

theorem traced_start {name nodeId : String} {settings : Settings} {isDurable : Bool} :
    Traced settings.tombstoneMaxAge [start name nodeId settings (Medium.fresh isDurable)] 1
      (start name nodeId settings (Medium.fresh isDurable)) := by
  have hheld (k : Bytes) : (start name nodeId settings (Medium.fresh isDurable)).held k = none :=
    Medium.held_fresh isDurable k
  refine ⟨⟨rfl, Medium.sound_fresh isDurable⟩, rfl, Int64.le_refl 1, List.mem_singleton.mpr rfl, ?_,
    ?_, ?_⟩
  all_goals
    intro s hs k e he
    rw [List.mem_singleton.mp hs, hheld] at he
    contradiction

theorem Life.traced {r₀ : Replica} {written : List Entry} (h₀ : Traced age [r₀] 1 r₀)
    (hage : age.millisWord ≠ 0) (h : Life r₀ past written t r) :
    Traced age past t r ∧ Rising past written := by
  induction h with
  | start => exact ⟨h₀, by simp, .nil⟩
  | put _ ht hx hf ih =>
    have hw := run_put (ih.1.run_write ht rfl hx)
    rw [hw]
    exact ⟨ih.1.write ht rfl hx hf, ih.2.write ih.1 ht rfl hx hf⟩
  | delete _ ht hx hf ih =>
    have hw := run_delete (ih.1.run_write ht rfl hx)
    rw [hw]
    exact ⟨ih.1.write ht rfl hx hf, ih.2.write ih.1 ht rfl hx hf⟩
  | merge _ ht hb ih => exact ⟨ih.1.merge_inits ht hb, ih.2.mono _⟩
  | sweep _ ht ih => exact ⟨ih.1.sweepOnce ht hage, ih.2.mono _⟩
  | drain _ ih => exact ⟨ih.1.drain, ih.2.mono _⟩

/-- After any life of a node that forgets tombstones of this age, the versions that it has written
to a key have risen, and what it puts or deletes outranks all that it ever held for the key, is given
back, queued and held. -/
def WritesOutrank (age : Span) : Prop :=
  ∀ name nodeId settings isDurable past written t r, settings.tombstoneMaxAge = age →
    Life (start name nodeId settings (Medium.fresh isDurable)) past written t r →
    (written.Pairwise fun a b => a.key = b.key → a.version < b.version) ∧
    (∀ now key value maxAge new, t ≤ now → r.built now key (some value) maxAge = new →
      new.timestamp < Int64.maxValue → new.Fits →
      (∀ s ∈ past, ∀ e, s.held key = some e → new.compare e = .gt) ∧
      (put now key value maxAge).run.run r = (.ok new, (r.store new).enqueue new) ∧
      ((r.store new).enqueue new).held key = some new) ∧
    ∀ now key new, t ≤ now → r.built now key none none = new →
      new.timestamp < Int64.maxValue → new.Fits →
      (∀ s ∈ past, ∀ e, s.held key = some e → new.compare e = .gt) ∧
      (∃ wasLive, (delete now key).run.run r = (.ok wasLive, (r.store new).enqueue new)) ∧
      ((r.store new).enqueue new).held key = some new

/-- A node that has just started in memory and forgets tombstones of this age. -/
def newborn (age : Span) : Replica :=
  start "dynamic" "a" { Config.standard.dynamicStore with tombstoneMaxAge := age } (.fresh false)

def tombAtFive : Entry :=
  { key := [107], value := none, version := 5, origin := "a", timestamp := 5, maxAge := none }

/-- The same node after a delete at its fifth millisecond. -/
def bereft (age : Span) : Replica := ((newborn age).store tombAtFive).enqueue tombAtFive

theorem held_sweepOnce_bereft (hage : age.millisWord = 0) :
    ((bereft age).sweepOnce 5).held [107] = none := by
  have hs : (newborn age).Sound := traced_start.sound
  have hs' : (bereft age).Sound := (hs.store trivial).enqueue tombAtFive
  rw [held_sweepOnce hs']
  change Option.filter (fun e => !e.isCollectable 5 age.millisWord) (some tombAtFive) = none
  rw [hage]
  rfl

/-- A tombstone that may be swept at once is forgotten within its own millisecond; a put in what is
left of it loses to the tombstone. -/
theorem not_writesOutrank (hage : age.millisWord = 0) : ¬ WritesOutrank age := by
  intro hall
  have hstart : Life (newborn age) [newborn age] [] 1 (newborn age) := .start
  have hdeleted : Life (newborn age) [newborn age, bereft age] [tombAtFive] 5 (bereft age) :=
    hstart.delete (by decide) (show tombAtFive.timestamp < _ by decide)
      (show tombAtFive.Fits from ⟨by decide, by decide, by decide⟩)
  have hswept := hdeleted.sweep (Int64.le_refl 5)
  have hb : ((bereft age).sweepOnce 5).built 5 [107] (some [49]) none =
      { tombAtFive with value := some [49] } := by
    rw [built, held_sweepOnce_bereft hage]
    rfl
  have hput := ((hall _ _ _ _ _ _ _ _ rfl hswept).2.1 5 [107] [49] none _ (Int64.le_refl 5) hb
    (by decide) ⟨by decide, by decide, by decide⟩).1
  have hgt := hput (bereft age) (by simp) tombAtFive rfl
  exact absurd hgt (by decide)

/-- Local writes outrank the past exactly if the age of tombstones is not zero as a machine word. -/
theorem writesOutrank_iff (age : Span) : WritesOutrank age ↔ age.millisWord ≠ 0 := by
  constructor
  · exact fun h hage => not_writesOutrank hage h
  · intro hage name nodeId settings isDurable past written t r hset hlife
    have hstart : Traced age _ 1 (start name nodeId settings (Medium.fresh isDurable)) :=
      hset ▸ traced_start
    obtain ⟨htraced, hrising⟩ := hlife.traced hstart hage
    refine ⟨hrising.version_lt, ?_, ?_⟩
    · intro now key value maxAge new ht hb hx hf
      have hw := htraced.run_write ht hb hx
      have hheld := (held_store_enqueue hb hf key).trans (if_pos rfl)
      exact ⟨htraced.outranks ht hb hx, run_put hw, hheld⟩
    · intro now key new ht hb hx hf
      have hw := htraced.run_write ht hb hx
      have hheld := (held_store_enqueue hb hf key).trans (if_pos rfl)
      exact ⟨htraced.outranks ht hb hx, ⟨_, run_delete hw⟩, hheld⟩

/-- Tombstones that are to be kept for a whole word of milliseconds may go at once. -/
theorem not_writesOutrank_wordMillis : 1 ≤ (Span.ofMillis (2 ^ 64)).millis ∧
    ¬ WritesOutrank (Span.ofMillis (2 ^ 64)) :=
  ⟨by decide, not_writesOutrank (by decide)⟩

end ServiceDirectory.Replica
