import ServiceDirectory.Proofs.Network

namespace ServiceDirectory

/-- A tombstone, or a value with the lifetime that all values have. -/
def Entry.Lives (ttl : Option UInt64) (e : Entry) : Prop := e.value = none ∨ e.maxAge = ttl

def Action.Lives {ι : Type} (ttl : Option UInt64) : Action ι → Prop
  | .put _ _ _ _ maxAge => maxAge = ttl
  | _ => True

/-- Where all values live equally long none outlives a later one. -/
theorem Entry.isLive_eq_false_of_timestamp_le {ttl : Option UInt64} {now : Instant} {a b : Entry}
    (hla : a.Lives ttl) (hlb : b.Lives ttl) (hle : b.timestamp ≤ a.timestamp)
    (ht : a.isTombstone = false) (hx : a.isExpired now) : b.isLive now = false := by
  rcases hlb with hv | hm
  · simp [isLive, isTombstone, hv]
  · have hma : a.maxAge = ttl := hla.resolve_left fun hv => by simp [isTombstone, hv] at ht
    have hbx := isExpired_of_timestamp_le (hm.trans hma.symm) hle hx
    simp [isLive, hbx]

theorem Entry.isLive_eq_false_of_outranks {ttl : Option UInt64} {now : Instant} {a b : Entry}
    (ha : a.Stamped) (hb : b.Stamped) (hla : a.Lives ttl) (hlb : b.Lives ttl) (ho : a.Outranks b)
    (ht : a.isTombstone = false) (hx : a.isExpired now) : b.isLive now = false :=
  isLive_eq_false_of_timestamp_le hla hlb (ho.timestamp_le ha hb) ht hx

namespace Network

variable {ι : Type}

/-- Pulls in time order bring what `i` holds to `j`, from node to node. -/
inductive Carries : List (ι × ι) → ι → ι → Prop
  | stay (i : ι) : Carries [] i i
  | skip {p : ι × ι} {ps : List (ι × ι)} {i j : ι} : Carries ps i j → Carries (p :: ps) i j
  | hop {ps : List (ι × ι)} {i i' j : ι} : Carries ps i' j → Carries ((i', i) :: ps) i j

/-- The greatest copy of `k` held at any node, if there is one. -/
structure IsBest (N : Network ι) (k : Bytes) (best : Option Entry) : Prop where
  held : ∀ b ∈ best, ∃ i, (N.replicas i).held k = some b
  outranks : ∀ i, ∀ e ∈ (N.replicas i).held k, ∃ b ∈ best, e = b ∨ b.Outranks e

/-- `m` outranks whatever else is held for `k` at any node. -/
def Tops (N : Network ι) (k : Bytes) (m : Entry) : Prop :=
  ∀ i, ∀ e ∈ (N.replicas i).held k, e ≠ m → m.Outranks e

theorem Inv.stamped_of_held {N : Network ι} {i : ι} {k : Bytes} {e : Entry} (h : N.Inv)
    (he : (N.replicas i).held k = some e) : e.Stamped := (h.genuine e ((h.within i).held he)).stamped

/-- Where the greatest copy of a key is an expired value, no copy is live. -/
theorem Inv.isLive_eq_false {N : Network ι} {i n : ι} {t : Instant} {k : Bytes} {e m : Entry}
    {ttl : Option UInt64} (h : N.Inv) (hl : ∀ e ∈ N.written, e.Lives ttl) (hm : N.Tops k m)
    (hi : (N.replicas i).held k = some m) (ht : m.isTombstone = false) (hx : m.isExpired t)
    (he : (N.replicas n).held k = some e) : e.isLive t = false := by
  by_cases hem : e = m
  · simp [hem, Entry.isLive, hx]
  · exact Entry.isLive_eq_false_of_outranks (h.stamped_of_held hi) (h.stamped_of_held he)
      (hl m ((h.within i).held hi)) (hl e ((h.within n).held he)) (hm n e he hem) ht hx

theorem Inv.exists_isBest {N : Network ι} (h : N.Inv) (k : Bytes) : ∃ best, N.IsBest k best := by
  classical
  let es := N.written.filter fun e => ∃ i, (N.replicas i).held k = some e
  have hmem (e : Entry) : e ∈ es ↔ ∃ i, (N.replicas i).held k = some e := by
    rw [List.mem_filter, decide_eq_true_iff]
    exact and_iff_right_of_imp fun ⟨i, hi⟩ => (h.within i).held hi
  have hkey : ∀ a ∈ es, a.key = k := fun a ha =>
    let ⟨i, hi⟩ := (hmem a).mp ha
    (h.within i).sound.key_of_held hi
  obtain ⟨best, hb, hmax⟩ := Entry.exists_greatest
    (fun e he => let ⟨_, hi⟩ := (hmem e).mp he; h.stamped_of_held hi)
    fun a ha b hb => (hkey a ha).trans (hkey b hb).symm
  exact ⟨best, fun b hb' => (hmem b).mp (hb b hb'), fun i e he => hmax e ((hmem e).mpr ⟨i, he⟩)⟩

variable [DecidableEq ι] {N N₀ : Network ι} {i j n : ι} {now t : Instant} {k : Bytes} {e m : Entry}
  {as : List (Action ι)} {ps : List (ι × ι)} {ttl : Option UInt64}

theorem Run.lives (h₀ : N₀.Fresh) (h : Run N₀ as N) (has : ∀ a ∈ as, a.Lives ttl) :
    ∀ e ∈ N.written, e.Lives ttl := by
  induction h with
  | nil =>
    intro e he
    rw [h₀.written] at he
    contradiction
  | @snoc as N a _ _ ih =>
    intro e he
    have ih' := ih fun a' ha' => has a' (List.mem_append_left _ ha')
    have ha := has a (by simp)
    cases a with
    | put i now key value maxAge =>
      rcases List.mem_append.mp he with he | he
      · exact ih' e he
      · exact .inr (List.mem_singleton.mp he ▸ ha)
    | delete i now key =>
      rcases List.mem_append.mp he with he | he
      · exact ih' e he
      · exact .inl (List.mem_singleton.mp he ▸ rfl)
    | _ => exact ih' e he

/-- After pulls one by one, the clock standing still; `p.1` pulls from `p.2`. -/
def pulls (t : Instant) : List (ι × ι) → Network ι → Network ι
  | [], N => N
  | p :: ps, N => pulls t ps (N.step (.sync p.1 p.2 t))

theorem Inv.sync (h : N.Inv) : (N.step (.sync i j now)).Inv := h.step (a := .sync i j now) trivial

theorem Inv.pulls (h : N.Inv) (t : Instant) (ps : List (ι × ι)) : (pulls t ps N).Inv := by
  induction ps generalizing N with
  | nil => exact h
  | cons p ps ih => exact ih h.sync

theorem Inv.exists_held_sync (h : N.Inv) (i j : ι) (now : Instant) (k : Bytes) : ∃ es,
    (∀ e, e ∈ es ↔ (N.replicas j).held k = some e ∧ e.isAdmitted now) ∧
    ∀ n, ((N.step (.sync i j now)).replicas n).held k =
      if n = i then Entry.settle ((N.replicas i).held k) es else (N.replicas n).held k := by
  obtain ⟨es, r', -, hmem, hm, hstep⟩ := h.exists_sync i j now
  refine ⟨es.filter fun e => e.key = k ∧ e.isAdmitted now, fun e => ?_, fun n => ?_⟩
  · rw [List.mem_filter, hmem, decide_eq_true_iff]
    constructor
    · rintro ⟨he, rfl, ha⟩
      exact ⟨he, ha⟩
    · rintro ⟨he, ha⟩
      have hk := (h.within j).sound.key_of_held he
      exact ⟨hk ▸ he, hk, ha⟩
  · rw [hstep, Network.set]
    dsimp only
    split_ifs with hn
    · subst hn
      rw [Function.update_self, hm.held]
    · rw [Function.update_of_ne hn]

theorem Inv.exists_held_of_sync (h : N.Inv)
    (he : ((N.step (.sync i j now)).replicas n).held k = some e) :
    ∃ n', (N.replicas n').held k = some e := by
  obtain ⟨es, hmem, hheld⟩ := h.exists_held_sync i j now k
  rw [hheld] at he
  split_ifs at he with hn
  · rcases Entry.mem_of_settle he with he | he
    · exact ⟨i, he⟩
    · exact ⟨j, ((hmem e).mp he).1⟩
  · exact ⟨n, he⟩

theorem Inv.exists_held_of_pulls (h : N.Inv)
    (he : ((Network.pulls t ps N).replicas n).held k = some e) :
    ∃ n', (N.replicas n').held k = some e := by
  induction ps generalizing N with
  | nil => exact ⟨n, he⟩
  | cons p ps ih =>
    obtain ⟨n', he'⟩ := ih h.sync he
    exact h.exists_held_of_sync he'

theorem Tops.sync (hm : N.Tops k m) (h : N.Inv) : (N.step (.sync i j now)).Tops k m := by
  intro n e he
  obtain ⟨n', he'⟩ := h.exists_held_of_sync he
  exact hm n' e he'

/-- A pull leaves the greatest copy where it is. -/
theorem Tops.held_sync (hm : N.Tops k m) (h : N.Inv) (hn : (N.replicas n).held k = some m) :
    ((N.step (.sync i j now)).replicas n).held k = some m := by
  obtain ⟨es, hmem, hheld⟩ := h.exists_held_sync i j now k
  rw [hheld]
  split_ifs with hni
  · subst hni
    exact Entry.settle_of_outranks (.inl hn) (hm n) fun e he => hm j e ((hmem e).mp he).1
  · exact hn

/-- A pull brings the greatest copy to the puller. -/
theorem Tops.held_sync_self (hm : N.Tops k m) (h : N.Inv) (ha : m.isAdmitted now)
    (hj : (N.replicas j).held k = some m) :
    ((N.step (.sync i j now)).replicas i).held k = some m := by
  obtain ⟨es, hmem, hheld⟩ := h.exists_held_sync i j now k
  rw [hheld, if_pos rfl]
  exact Entry.settle_of_outranks (.inr ((hmem m).mpr ⟨hj, ha⟩)) (hm i) fun e he =>
    hm j e ((hmem e).mp he).1

theorem Tops.held_pulls (hm : N.Tops k m) (h : N.Inv) (ha : m.isAdmitted t)
    (hi : (N.replicas i).held k = some m) (hc : Carries ps i j) :
    ((pulls t ps N).replicas j).held k = some m := by
  induction hc generalizing N with
  | stay i => exact hi
  | skip _ ih => exact ih (hm.sync h) h.sync (hm.held_sync h hi)
  | hop _ ih => exact ih (hm.sync h) h.sync (hm.held_sync_self h ha hi)

theorem Inv.filter_isLive_pulls (h : N.Inv) (hl : ∀ e ∈ N.written, e.Lives ttl)
    {best : Option Entry} (hb : N.IsBest k best) (hc : ∀ i j, Carries ps i j) (n : ι) :
    (((Network.pulls t ps N).replicas n).held k).filter (·.isLive t) = best.filter (·.isLive t) := by
  cases best with
  | none =>
    have hn : ((Network.pulls t ps N).replicas n).held k = none := by
      apply Option.eq_none_iff_forall_ne_some.mpr
      intro e he
      obtain ⟨n', he'⟩ := h.exists_held_of_pulls he
      obtain ⟨b, hb', -⟩ := hb.outranks n' e he'
      contradiction
    rw [hn]
  | some m =>
    obtain ⟨i, hi⟩ := hb.held m rfl
    have hm : N.Tops k m := by
      intro n' e he hne
      obtain ⟨b, hb', ho⟩ := hb.outranks n' e he
      cases hb'
      exact ho.resolve_left hne
    by_cases ha : m.isAdmitted t
    · rw [hm.held_pulls h ha hi (hc i n)]
    -- merges refuse a well-formed entry only as an expired value
    · have hflaw := (h.genuine m ((h.within i).held hi)).flaw?
      have hx : m.isTombstone = false ∧ m.isExpired t := by
        simpa [Entry.isAdmitted, hflaw] using ha
      have hml : m.isLive t = false := by simp [Entry.isLive, hx.2]
      rw [Option.filter_some, hml, if_neg Bool.false_ne_true]
      apply Option.filter_eq_none_iff.mpr
      intro e he
      rw [Bool.not_eq_true]
      obtain ⟨n', he'⟩ := h.exists_held_of_pulls he
      exact h.isLive_eq_false hl hm hi hx.1 hx.2 he'

/-- After the pulls all nodes list the same, each key with what is live of its greatest copy. -/
theorem Inv.exists_listing_pulls (h : N.Inv) (hl : ∀ e ∈ N.written, e.Lives ttl) (t : Instant)
    (hc : ∀ i j, Carries ps i j) :
    ∃ es, (∀ i, ((Replica.live t).run.run ((Network.pulls t ps N).replicas i)).1 = .ok es) ∧
      ∀ k best, N.IsBest k best → es.filter (·.key = k) = (best.filter (·.isLive t)).toList := by
  have hinv := h.pulls t ps
  by_cases hι : Nonempty ι
  · obtain ⟨i⟩ := hι
    obtain ⟨es, hrun, hsorted, hmem⟩ := Replica.exists_run_live (hinv.within i).sound t
    refine ⟨es, fun j => ?_, fun k best hb => ?_⟩
    · obtain ⟨es', hrun', hsorted', hmem'⟩ := Replica.exists_run_live (hinv.within j).sound t
      have hes : es' = es := by
        apply hsorted'.eq_of_mem_iff hsorted
        intro e
        obtain ⟨best, hb⟩ := h.exists_isBest e.key
        have hlive (n : ι) : ((Network.pulls t ps N).replicas n).held e.key = some e ∧ e.isLive t ↔
            best.filter (·.isLive t) = some e := by
          rw [← h.filter_isLive_pulls hl hb hc n, Option.filter_eq_some_iff]
        rw [hmem, hmem', hlive i, hlive j]
      rw [hrun', hes]
    · rw [(hinv.within i).sound.filter_key hsorted hmem, h.filter_isLive_pulls hl hb hc i]
  · refine ⟨[], fun i => absurd ⟨i⟩ hι, fun k best hb => ?_⟩
    have hnone : best = none := by
      rw [Option.eq_none_iff_forall_ne_some]
      rintro b rfl
      obtain ⟨i, -⟩ := hb.held b rfl
      exact hι ⟨i⟩
    rw [hnone]
    rfl

/-- Anti-entropy converges: once pulls at one reading of the clock have brought every node's state to
every other, all nodes answer alike, each key with its greatest copy as long as that is live, and
list just these answers. -/
theorem Run.converges (h₀ : N₀.Fresh) (h : Run N₀ as N) (has : ∀ a ∈ as, a.Lives ttl) (t : Instant)
    (hc : ∀ i j, Carries ps i j) :
    (∀ k, ∃ best, N.IsBest k best) ∧
    ∃ es, (∀ i, ((Replica.live t).run.run ((pulls t ps N).replicas i)).1 = .ok es) ∧
      ∀ k best, N.IsBest k best →
        (∀ i, ((Replica.lookup t k).run.run ((pulls t ps N).replicas i)).1 =
          .ok (best.filter (·.isLive t))) ∧
        es.filter (·.key = k) = (best.filter (·.isLive t)).toList := by
  have hinv := h.inv h₀
  have hl := h.lives h₀ has
  obtain ⟨es, hes, hfilter⟩ := hinv.exists_listing_pulls hl t hc
  refine ⟨hinv.exists_isBest, es, hes, fun k best hb => ⟨fun i => ?_, hfilter k best hb⟩⟩
  rw [Replica.run_lookup ((hinv.pulls t ps).within i).sound, hinv.filter_isLive_pulls hl hb hc i]

theorem carries_pair (i j : Bool) : Carries [(true, false), (false, true)] i j :=
  match i, j with
  | false, false => .skip (.skip (.stay false))
  | false, true => .hop (.skip (.stay true))
  | true, false => .skip (.hop (.stay false))
  | true, true => .skip (.skip (.stay true))

/-- What the node with the later clock writes. -/
def later : Entry :=
  { key := [107], value := some [49], version := 5, origin := "a", timestamp := 5, maxAge := some 100 }

/-- Two nodes when they have written to one key apart from each other. -/
def diverged : Network Bool :=
  (pair.step (.put false 5 [107] [49] (some 100))).step (.put true 3 [107] [50] (some 100))

theorem isBest_later : diverged.IsBest [107] (some later) := by
  refine ⟨fun b hb => ?_, fun i e he => ⟨later, rfl, ?_⟩⟩
  · cases hb
    exact ⟨false, by decide +kernel⟩
  · have hheld : ((diverged.replicas i).held [107]).all fun e => e = later ∨ later.Outranks e := by
      cases i <;> decide +kernel
    simpa using (Option.all_eq_true _ _).mp hheld e he

/-- They pull once each, and then both answer and list the later value. -/
theorem run_pair_converges : ∃ N es, Run pair
    [.put false 5 [107] [49] (some 100), .put true 3 [107] [50] (some 100)] N ∧
    N.IsBest [107] (some later) ∧ (∀ i, ((Replica.lookup 7 [107]).run.run
      ((pulls 7 [(true, false), (false, true)] N).replicas i)).1 = .ok (some later)) ∧
    (∀ i, ((Replica.live 7).run.run
      ((pulls 7 [(true, false), (false, true)] N).replicas i)).1 = .ok es) ∧
    es.filter (·.key = [107]) = [later] := by
  have h₁ : ((pair.replicas false).built 5 [107] (some [49]) (some 100)).Writable 5 :=
    ⟨by decide, by decide, by decide, ⟨by decide, by decide, by decide⟩⟩
  have h₂ : (((pair.step (.put false 5 [107] [49] (some 100))).replicas true).built 3 [107]
      (some [50]) (some 100)).Writable 3 :=
    ⟨by decide, by decide, by decide, ⟨by decide, by decide, by decide⟩⟩
  have h : Run pair _ diverged := (Run.nil.snoc (a := .put false 5 [107] [49] (some 100)) h₁).snoc
    (a := .put true 3 [107] [50] (some 100)) h₂
  have hl : ∀ a ∈ [Action.put false 5 [107] [49] (some 100), .put true 3 [107] [50] (some 100)],
      a.Lives (some 100) := by simp [Action.Lives]
  obtain ⟨-, es, hes, hanswers⟩ := h.converges fresh_pair hl 7 carries_pair
  obtain ⟨hlookup, hfilter⟩ := hanswers [107] (some later) isBest_later
  have hlive : (some later).filter (·.isLive 7) = some later := by decide
  rw [hlive] at hlookup hfilter
  exact ⟨diverged, es, h, isBest_later, hlookup, hes, hfilter⟩

end Network

end ServiceDirectory
