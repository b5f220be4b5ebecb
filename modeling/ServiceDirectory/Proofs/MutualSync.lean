import ServiceDirectory.Proofs.Convergence
import ServiceDirectory.Proofs.Operation

namespace ServiceDirectory

namespace Entry

variable {now : Instant} {a b : Option Entry} {x y : Entry}

/-- An expired value hides a live copy that it outranks: no merge takes the one, and no merge gives
it up for the other. -/
structure Shadows (now : Instant) (x y : Entry) : Prop where
  isTombstone : x.isTombstone = false
  isExpired : x.isExpired now
  isLive : y.isLive now
  outranks : x.Outranks y

/-- Where all values live equally long and versions count milliseconds no copy hides another. -/
theorem not_shadows_of_lives {ttl : Option UInt64} (hx : x.Stamped) (hy : y.Stamped)
    (hlx : x.Lives ttl) (hly : y.Lives ttl) : ¬ Shadows now x y := by
  intro h
  have hdead := isLive_eq_false_of_outranks hx hy hlx hly h.outranks h.isTombstone h.isExpired
  exact Bool.false_ne_true (hdead.symm.trans h.isLive)

theorem isLive_eq_false_of_not_isAdmitted (hf : x.flaw? = none) (h : x.isAdmitted now = false) :
    x.isLive now = false := by
  simp [isLive, ((isAdmitted_eq_false_iff hf).mp h).2]

theorem winner_winner (x y : Entry) : winner y (winner x y) = winner y x := by
  rw [winner_eq x y]
  split
  · rename_i ho
    rw [winner_of_not_outranks (not_outranks_self y), winner_of_not_outranks ho.asymm]
  · rfl

/-- What a key holds once the copy of a peer has been merged. -/
def pulled (now : Instant) (held peer : Option Entry) : Option Entry :=
  settle held (peer.filter (·.isAdmitted now)).toList

@[simp] theorem pulled_none (held : Option Entry) : pulled now held none = held := rfl

theorem pulled_of_isAdmitted (hy : y.isAdmitted now) (held : Option Entry) :
    pulled now held (some y) = some (resolve held y) := by
  rw [pulled, Option.filter_some, if_pos hy]
  rfl

theorem pulled_of_not_isAdmitted (hy : y.isAdmitted now = false) (held : Option Entry) :
    pulled now held (some y) = held := by
  rw [pulled, Option.filter_some, hy]
  rfl

theorem filter_isLive_pulled_none (hf : x.flaw? = none) :
    (pulled now none (some x)).filter (·.isLive now) = (some x).filter (·.isLive now) := by
  cases hx : x.isAdmitted now with
  | true =>
    rw [pulled_of_isAdmitted hx]
    rfl
  | false =>
    rw [pulled_of_not_isAdmitted hx, Option.filter_some, isLive_eq_false_of_not_isAdmitted hf hx]
    rfl

/-- What came over changes nothing where it came from. -/
theorem pulled_pulled_none (x : Entry) :
    pulled now (some x) (pulled now none (some x)) = some x := by
  cases hx : x.isAdmitted now with
  | true =>
    rw [pulled_of_isAdmitted hx]
    rw [resolve, pulled_of_isAdmitted hx, resolve, winner_of_not_outranks (not_outranks_self x)]
  | false => rw [pulled_of_not_isAdmitted hx, pulled_none]

theorem pulled_pulled_of_isAdmitted (hk : x.key = y.key) (hx : x.isAdmitted now)
    (hy : y.isAdmitted now) :
    pulled now (some y) (pulled now (some x) (some y)) = pulled now (some x) (some y) := by
  have hw : (winner x y).isAdmitted now := by
    rw [winner_eq]
    split
    · exact hy
    · exact hx
  rw [pulled_of_isAdmitted hy]
  rw [resolve, pulled_of_isAdmitted hw, resolve, winner_winner, winner_comm hk]

theorem shadows_iff (hf : x.flaw? = none) :
    Shadows now x y ↔ x.isAdmitted now = false ∧ x.Outranks y ∧ y.isLive now := by
  rw [isAdmitted_eq_false_iff hf]
  constructor
  · intro h
    exact ⟨⟨h.isTombstone, h.isExpired⟩, h.outranks, h.isLive⟩
  · rintro ⟨⟨ht, hx⟩, ho, hl⟩
    exact ⟨ht, hx, hl, ho⟩

theorem filter_isLive_eq_iff (hx : x.isLive now = false) :
    (some x).filter (·.isLive now) = (some y).filter (·.isLive now) ↔ y.isLive now = false := by
  rw [Option.filter_some, hx, if_neg Bool.false_ne_true, eq_comm, Option.filter_eq_none_iff]
  simp

/-- Two copies read alike once each has been weighed against the other, unless one hides the other. -/
theorem filter_isLive_pulled_some_iff (hk : x.key = y.key) (hfx : x.flaw? = none)
    (hfy : y.flaw? = none) :
    (pulled now (some x) (some y)).filter (·.isLive now) =
      (pulled now (some y) (pulled now (some x) (some y))).filter (·.isLive now) ↔
    ¬ Shadows now x y ∧ ¬ Shadows now y x := by
  rw [shadows_iff hfx, shadows_iff hfy]
  cases hx : x.isAdmitted now with
  | true =>
    cases hy : y.isAdmitted now with
    -- the winner comes over and back
    | true =>
      rw [pulled_pulled_of_isAdmitted hk hx hy]
      simp
    -- `y` does not come over, `x` does
    | false =>
      have hdead := isLive_eq_false_of_not_isAdmitted hfy hy
      rw [pulled_of_not_isAdmitted hy, pulled_of_isAdmitted hx, resolve, winner_eq]
      split_ifs with ho
      · simp [ho.asymm]
      · have hne : x ≠ y := fun he => by simp [he, hy] at hx
        have hyx := (outranks_or_outranks hk hne).resolve_left ho
        rw [eq_comm, filter_isLive_eq_iff hdead]
        simp [hyx]
  | false =>
    have hdead := isLive_eq_false_of_not_isAdmitted hfx hx
    cases hy : y.isAdmitted now with
    -- `y` comes over; if it replaces `x` it is on both sides, else `x` stays and does not come back
    | true =>
      rw [pulled_of_isAdmitted hy, resolve, winner_eq]
      split_ifs with ho
      · rw [pulled_of_isAdmitted hy, resolve, winner_of_not_outranks (not_outranks_self y)]
        simp [ho.asymm]
      · have hne : x ≠ y := fun he => by simp [he, hy] at hx
        have hxy := (outranks_or_outranks hk hne).resolve_right ho
        rw [pulled_of_not_isAdmitted hx, filter_isLive_eq_iff hdead]
        simp [hxy]
    -- neither moves, and neither is shown
    | false =>
      have hdead' := isLive_eq_false_of_not_isAdmitted hfy hy
      rw [pulled_of_not_isAdmitted hy, pulled_of_not_isAdmitted hx, filter_isLive_eq_iff hdead]
      simp [hdead, hdead']

theorem filter_isLive_pulled_iff (hk : ∀ x ∈ a, ∀ y ∈ b, x.key = y.key)
    (ha : ∀ x ∈ a, x.flaw? = none) (hb : ∀ y ∈ b, y.flaw? = none) :
    (pulled now a b).filter (·.isLive now) =
      (pulled now b (pulled now a b)).filter (·.isLive now) ↔
    ∀ x ∈ a, ∀ y ∈ b, ¬ Shadows now x y ∧ ¬ Shadows now y x := by
  cases a with
  | none =>
    cases b with
    | none => simp
    | some y =>
      rw [pulled_pulled_none, filter_isLive_pulled_none (hb y rfl)]
      simp
  | some x =>
    cases b with
    | none =>
      rw [pulled_none, filter_isLive_pulled_none (ha x rfl)]
      simp
    | some y => simpa using filter_isLive_pulled_some_iff (hk x rfl y rfl) (ha x rfl) (hb y rfl)

end Entry

namespace Replica

open Entry

variable {r r' s : Replica} {now : Instant} {k : Bytes} {es : List Entry}

/-- Pulls all that `s` holds, over a connection that works, and merges it. -/
def pull (now : Instant) (peer : String) (s r : Replica) : Except Failure MergeOutcome × Replica :=
  (absorb now peer (snapshot.run.run s).1).run.run r

/-- A snapshot has one copy of a key at most. -/
theorem filter_snapshot (hsorted : es.Pairwise Medium.keyLt)
    (hmem : ∀ e, e ∈ es ↔ s.held e.key = some e) (hs : s.Sound) (k : Bytes) :
    es.filter (fun e => e.key = k ∧ e.isAdmitted now) =
      ((s.held k).filter (·.isAdmitted now)).toList := by
  rw [← hs.filter_key (hsorted.filter (·.isAdmitted now)) (fun e => by rw [List.mem_filter, hmem]),
    List.filter_filter]
  apply List.filter_congr
  intro e _
  rw [Bool.decide_and, Bool.decide_eq_true]

theorem Stocked.exists_pull (hr : r.Stocked) (hs : s.Stocked) (now : Instant) (peer : String) :
    ∃ o r', pull now peer s r = (.ok o, r') ∧ r'.Stocked ∧
      ∀ k, r'.held k = pulled now (r.held k) (s.held k) := by
  obtain ⟨es, hrun, hsorted, hmem⟩ := exists_run_snapshot hs.toSound
  have hfits : ∀ e ∈ es, e.Fits := fun e he => hs.fits ((hmem e).mp he)
  obtain ⟨o, r', habs, hm, -⟩ := exists_run_absorb hr.toSound
    (fun e he => takes_of_fits r (hfits e he)) now peer
  refine ⟨o, r', ?_, hr.of_merged hm hfits, fun k => ?_⟩
  · rw [pull, hrun, habs]
  · rw [hm.held, filter_snapshot hsorted hmem hs.toSound]
    rfl

/-- Two nodes whose entries are well-formed pull from each other at one reading of the clock. Both
pulls succeed, and then they read a key alike unless one held an expired value that outranked a live
copy at the other. -/
theorem Stocked.reads_alike_iff (hr : r.Stocked) (hs : s.Stocked)
    (hfr : ∀ k, ∀ x ∈ r.held k, x.flaw? = none) (hfs : ∀ k, ∀ y ∈ s.held k, y.flaw? = none)
    (now : Instant) (p q : String) :
    ∃ o r' o' s', pull now p s r = (.ok o, r') ∧ pull now q r' s = (.ok o', s') ∧
      ∀ k, ∃ e e', (lookup now k).run.run r' = (.ok e, r') ∧
        (lookup now k).run.run s' = (.ok e', s') ∧
        (e = e' ↔ ∀ x ∈ r.held k, ∀ y ∈ s.held k, ¬ x.Shadows now y ∧ ¬ y.Shadows now x) := by
  obtain ⟨o, r', hpull, hr', hheld⟩ := hr.exists_pull hs now p
  obtain ⟨o', s', hpull', hs', hheld'⟩ := hs.exists_pull hr' now q
  refine ⟨o, r', o', s', hpull, hpull', fun k => ?_⟩
  refine ⟨_, _, run_lookup hr'.toSound now k, run_lookup hs'.toSound now k, ?_⟩
  rw [hheld', hheld]
  refine filter_isLive_pulled_iff (fun x hx y hy => ?_) (hfr k) (hfs k)
  exact (hr.key_of_held hx).trans (hs.key_of_held hy).symm

/-- A node with a value for good, and one with a later value of the same key for ten milliseconds. -/
def lasting : Replica := (Operation.put 100 [107] [49] none).run (infant "a")

def fleeting : Replica := (Operation.put 200 [107] [50] (some 10)).run (infant "b")

def lastingEntry : Entry :=
  { key := [107], value := some [49], version := 100, origin := "a", timestamp := 100, maxAge := none }

def fleetingEntry : Entry :=
  { key := [107], value := some [50], version := 200, origin := "b", timestamp := 200,
    maxAge := some 10 }

theorem stocked_lasting : lasting.Stocked := ((stocked_infant "a").step (by decide)).stocked

theorem stocked_fleeting : fleeting.Stocked := ((stocked_infant "b").step (by decide)).stocked

theorem held_lasting (k : Bytes) : lasting.held k = if [107] = k then some lastingEntry else none :=
  held_put_infant (by decide) k

theorem held_fleeting (k : Bytes) :
    fleeting.held k = if [107] = k then some fleetingEntry else none :=
  held_put_infant (by decide) k

/-- Before the later value expires both show it. -/
theorem reads_alike_fleeting : ∃ o r' o' s' e,
    pull 205 "b:1" fleeting lasting = (.ok o, r') ∧ pull 205 "a:1" r' fleeting = (.ok o', s') ∧
    (lookup 205 [107]).run.run r' = (.ok e, r') ∧ (lookup 205 [107]).run.run s' = (.ok e, s') := by
  obtain ⟨o, r', o', s', hpull, hpull', hreads⟩ := stocked_lasting.reads_alike_iff stocked_fleeting
    (flaw?_put_infant (by decide) (by decide)) (flaw?_put_infant (by decide) (by decide)) 205 "b:1" "a:1"
  obtain ⟨e, e', hread, hread', hiff⟩ := hreads [107]
  have hshadows : ∀ x ∈ lasting.held [107], ∀ y ∈ fleeting.held [107],
      ¬ x.Shadows 205 y ∧ ¬ y.Shadows 205 x := by
    intro x hx y hy
    rw [held_lasting, if_pos rfl] at hx
    rw [held_fleeting, if_pos rfl] at hy
    cases hx
    cases hy
    exact ⟨fun h => absurd h.isExpired (by decide), fun h => absurd h.isExpired (by decide)⟩
  exact ⟨o, r', o', s', e, hpull, hpull', hread, hiff.mpr hshadows ▸ hread'⟩

/-- Once it has expired one node shows the value from before and the other shows none. -/
theorem not_reads_alike_fleeting : lastingEntry.flaw? = none ∧ fleetingEntry.flaw? = none ∧
    (∀ k, lasting.held k = if [107] = k then some lastingEntry else none) ∧
    (∀ k, fleeting.held k = if [107] = k then some fleetingEntry else none) ∧ ∃ o r' o' s',
    pull 1000 "b:1" fleeting lasting = (.ok o, r') ∧ pull 1000 "a:1" r' fleeting = (.ok o', s') ∧
    (lookup 1000 [107]).run.run r' = (.ok (some lastingEntry), r') ∧
    (lookup 1000 [107]).run.run s' = (.ok none, s') := by
  obtain ⟨o, r', hpull, hr', hheld⟩ := stocked_lasting.exists_pull stocked_fleeting 1000 "b:1"
  obtain ⟨o', s', hpull', hs', hheld'⟩ := stocked_fleeting.exists_pull hr' 1000 "a:1"
  refine ⟨by decide, by decide, held_lasting, held_fleeting, o, r', o', s', hpull, hpull', ?_, ?_⟩
  · rw [run_lookup hr'.toSound, hheld, held_lasting, held_fleeting]
    rfl
  · rw [run_lookup hs'.toSound, hheld', hheld, held_lasting, held_fleeting]
    rfl

end Replica

/-- In a run whose values all live equally long no node's copy of a key hides another's, so that any
two nodes that pull from each other read alike. -/
theorem Network.Run.not_shadows {ι : Type} [DecidableEq ι] {N N₀ : Network ι} {as : List (Action ι)}
    {ttl : Option UInt64} (h₀ : N₀.Fresh) (h : Run N₀ as N) (has : ∀ a ∈ as, a.Lives ttl) (i j : ι)
    (t : Instant) (k : Bytes) :
    ∀ x ∈ (N.replicas i).held k, ∀ y ∈ (N.replicas j).held k, ¬ x.Shadows t y := by
  intro x hx y hy
  have hinv := h.inv h₀
  have hl := h.lives h₀ has
  exact Entry.not_shadows_of_lives (hinv.stamped_of_held hx) (hinv.stamped_of_held hy)
    (hl x ((hinv.within i).held hx)) (hl y ((hinv.within j).held hy))

end ServiceDirectory
