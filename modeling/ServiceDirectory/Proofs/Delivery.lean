import ServiceDirectory.Proofs.Convergence
import ServiceDirectory.Proofs.Operation

namespace ServiceDirectory

/-- The clock stands at `t` at the latest. -/
def Action.By {ι : Type} (t : Instant) : Action ι → Prop
  | .put _ now _ _ _ | .delete _ now _ | .deliver _ now _ | .sync _ _ now | .syncFailed _ now _ _
  | .sweep _ now => now ≤ t
  | .drain _ | .restart _ => True

instance {ι : Type} (t : Instant) (a : Action ι) : Decidable (a.By t) :=
  match a with
  | .put .. | .delete .. | .deliver .. | .sync .. | .syncFailed .. | .sweep .. =>
    inferInstanceAs (Decidable (_ ≤ t))
  | .drain _ | .restart _ => .isTrue trivial

/-- The node that acts. -/
def Action.node {ι : Type} : Action ι → ι
  | .put i .. | .delete i .. | .deliver i .. | .sync i .. | .syncFailed i .. | .sweep i _ | .drain i
  | .restart i => i

/-- Nothing that is held goes but for what outranks it. -/
def Action.Keeps {ι : Type} : Action ι → Prop
  | .sweep .. | .restart _ => False
  | _ => True

namespace Entry

variable {t now : Instant} {held : Option Entry} {es : List Entry} {e : Entry} {k : Bytes}

/-- What is held is `e` or outranks it, unless `e` is a value that has expired by `t`. -/
def AccountsFor (t : Instant) (held : Option Entry) (e : Entry) : Prop :=
  (e.isTombstone = false ∧ e.isExpired t) ∨ ∃ h ∈ held, h = e ∨ h.Outranks e

/-- Merges lose nothing that is held or comes in, but for what outranks it. -/
theorem exists_settle_outranks (hheld : ∀ h ∈ held, h.Stamped ∧ h.key = k)
    (hes : ∀ e ∈ es, e.Stamped ∧ e.key = k) (he : held = some e ∨ e ∈ es) :
    ∃ w, settle held es = some w ∧ (w = e ∨ w.Outranks e) := by
  have hmem (x : Entry) : x ∈ held.toList ++ es ↔ held = some x ∨ x ∈ es := by
    rw [List.mem_append, Option.mem_toList]
  have hall : ∀ x ∈ held.toList ++ es, x.Stamped ∧ x.key = k := by
    intro x hx
    exact ((hmem x).mp hx).elim (hheld x) (hes x)
  -- the greatest of all that is weighed wins, wherever it stands
  obtain ⟨m, hm, hmax⟩ := exists_outranks (List.ne_nil_of_mem ((hmem e).mpr he))
    (fun x hx => (hall x hx).1) fun x hx y hy => (hall x hx).2.trans (hall y hy).2.symm
  refine ⟨m, ?_, ?_⟩
  · apply settle_of_outranks ((hmem m).mp hm)
    · exact fun x hx => hmax x ((hmem x).mpr (.inl hx))
    · exact fun x hx => hmax x ((hmem x).mpr (.inr hx))
  · by_cases hem : e = m
    · exact .inl hem.symm
    · exact .inr (hmax e ((hmem e).mpr he) hem)

theorem AccountsFor.settle (h : AccountsFor t held e) (he : e.Stamped)
    (hheld : ∀ h ∈ held, h.Stamped ∧ h.key = k) (hes : ∀ e ∈ es, e.Stamped ∧ e.key = k) :
    AccountsFor t (settle held es) e := by
  rcases h with h | ⟨x, hx, hxe⟩
  · exact .inl h
  obtain ⟨w, hw, hwx⟩ := exists_settle_outranks hheld hes (.inl hx)
  refine .inr ⟨w, hw, ?_⟩
  -- what took the place of `x` outranks all that `x` did
  rcases hwx with rfl | hwx
  · exact hxe
  rcases hxe with rfl | hxe
  · exact .inr hwx
  · have hws : w.Stamped := by
      rcases mem_of_settle hw with hw | hw
      · exact (hheld w hw).1
      · exact (hes w hw).1
    exact .inr (hwx.trans hws (hheld x hx).1 he hxe)

end Entry

namespace Replica

variable {t now : Instant} {r r' : Replica} {es batch : List Entry} {e new : Entry} {key k : Bytes}

/-- Under each key `r'` has what `r` held and some of `es` come to; among them is all of `bs` that
has not expired by `t`. -/
def Weighs (t : Instant) (es bs : List Entry) (r r' : Replica) : Prop :=
  ∀ k, ∃ l, r'.held k = Entry.settle (r.held k) l ∧ (∀ e ∈ l, e ∈ es ∧ e.key = k) ∧
    ∀ e ∈ bs, e.key = k → e ∈ l ∨ e.isTombstone = false ∧ e.isExpired t

theorem Weighs.of_held_eq (h : r'.held = r.held) : Weighs t es [] r r' := by
  intro k
  exact ⟨[], by rw [h]; rfl, by simp, by simp⟩

theorem Weighs.weaken {bs bs' : List Entry} (h : Weighs t es bs r r') (hbs : bs' ⊆ bs) :
    Weighs t es bs' r r' := by
  intro k
  obtain ⟨l, hheld, hl, hb⟩ := h k
  exact ⟨l, hheld, hl, fun e he => hb e (hbs he)⟩

theorem Weighs.of_merged (hm : Merged now batch r r') (hb : ∀ e ∈ batch, e ∈ es ∧ e.flaw? = none)
    (hnow : now ≤ t) : Weighs t es batch r r' := by
  intro k
  refine ⟨_, hm.held k, ?_, ?_⟩
  · intro e he
    obtain ⟨he, hk⟩ := List.mem_filter.mp he
    exact ⟨(hb e he).1, (of_decide_eq_true hk).1⟩
  · intro e he hk
    cases ha : e.isAdmitted now with
    | true => exact .inl (List.mem_filter.mpr ⟨he, decide_eq_true ⟨hk, ha⟩⟩)
    | false =>
      have hx := (Entry.isAdmitted_eq_false_iff (hb e he).2).mp ha
      exact .inr ⟨hx.1, Entry.isExpired_mono hnow hx.2⟩

theorem Weighs.of_writes (hk : new.key = key) (he : new ∈ es)
    (h : ∀ k, r'.held k = Operation.writes r k key new) : Weighs t es [new] r r' := by
  intro k
  by_cases hkk : key = k
  · refine ⟨[new], ?_, ?_, ?_⟩
    · rw [h, Operation.writes, if_pos hkk]
      rfl
    · intro e he'
      rw [List.mem_singleton.mp he']
      exact ⟨he, hk.trans hkk⟩
    · intro e he' _
      exact .inl he'
  · refine ⟨[], ?_, by simp, ?_⟩
    · rw [h, Operation.writes, if_neg hkk]
      rfl
    · intro e he' hek
      rw [List.mem_singleton.mp he'] at hek
      exact absurd (hk.symm.trans hek) hkk

theorem Weighs.accountsFor {bs : List Entry} (h : Weighs t es bs r r')
    (hheld : ∀ k, ∀ x ∈ r.held k, x.Stamped ∧ x.key = k) (hes : ∀ x ∈ es, x.Stamped) (he : e.Stamped)
    (hacc : Entry.AccountsFor t (r.held e.key) e ∨ e ∈ bs) :
    Entry.AccountsFor t (r'.held e.key) e := by
  obtain ⟨l, hl, hmem, hbs⟩ := h e.key
  have hlk : ∀ x ∈ l, x.Stamped ∧ x.key = e.key := fun x hx =>
    ⟨hes x (hmem x hx).1, (hmem x hx).2⟩
  rw [hl]
  rcases hacc with hacc | hb
  · exact hacc.settle he (hheld e.key) hlk
  · rcases hbs e hb rfl with hb | hx
    · exact .inr (Entry.exists_settle_outranks (hheld e.key) hlk (.inr hb))
    · exact .inl hx

end Replica

namespace Network

variable {ι : Type} {N N₀ : Network ι} {i n : ι} {t : Instant} {r : Replica}
  {a : Action ι} {as : List (Action ι)} {bs : List Entry} {e : Entry} {k : Bytes}
  {ttl : Option UInt64}

theorem Inv.stocked (h : N.Inv) (i : ι) : (N.replicas i).Stocked where
  toSound := (h.within i).sound
  fits he := (h.genuine _ ((h.within i).held he)).fits

/-- The greatest entry ever written for `k`, if there is one. -/
structure IsLatest (N : Network ι) (k : Bytes) (best : Option Entry) : Prop where
  written : ∀ b ∈ best, b ∈ N.written ∧ b.key = k
  outranks : ∀ e ∈ N.written, e.key = k → ∃ b ∈ best, e = b ∨ b.Outranks e

theorem Inv.exists_isLatest (h : N.Inv) (k : Bytes) : ∃ best, N.IsLatest k best := by
  have hmem (e : Entry) : e ∈ N.written.filter (·.key = k) ↔ e ∈ N.written ∧ e.key = k := by
    rw [List.mem_filter, decide_eq_true_iff]
  obtain ⟨best, hb, hmax⟩ := Entry.exists_greatest
    (fun e he => (h.genuine e ((hmem e).mp he).1).stamped)
    fun a ha b hb => ((hmem a).mp ha).2.trans ((hmem b).mp hb).2.symm
  exact ⟨best, fun b hb' => (hmem b).mp (hb b hb'), fun e he hk => hmax e ((hmem e).mpr ⟨he, hk⟩)⟩

/-- A node that accounts for the greatest entry of a key reads it, as long as it is live. -/
theorem IsLatest.filter_isLive_eq {best : Option Entry} (hb : N.IsLatest k best) (h : N.Inv)
    (hl : ∀ e ∈ N.written, e.Lives ttl)
    (hacc : ∀ b ∈ best, Entry.AccountsFor t ((N.replicas n).held k) b) :
    ((N.replicas n).held k).filter (·.isLive t) = best.filter (·.isLive t) := by
  have hheld : ∀ x ∈ (N.replicas n).held k, x ∈ N.written ∧ x.key = k := fun x hx =>
    ⟨(h.within n).held hx, (h.within n).sound.key_of_held hx⟩
  cases best with
  | none =>
    have hnone : (N.replicas n).held k = none := by
      apply Option.eq_none_iff_forall_ne_some.mpr
      intro x hx
      obtain ⟨hw, hkey⟩ := hheld x hx
      obtain ⟨b, hb', -⟩ := hb.outranks x hw hkey
      contradiction
    rw [hnone]
  | some m =>
    have hbest : ∀ x ∈ (N.replicas n).held k, x = m ∨ m.Outranks x := by
      intro x hx
      obtain ⟨hw, hkey⟩ := hheld x hx
      obtain ⟨b, hb', ho⟩ := hb.outranks x hw hkey
      exact Option.some.inj hb' ▸ ho
    rcases hacc m rfl with ⟨hval, hx⟩ | ⟨x, hx, hxm⟩
    -- it was dropped somewhere, but nothing that it outranks is live either
    · have hdead : m.isLive t = false := by simp [Entry.isLive, hx]
      have hm := (hb.written m rfl).1
      rw [Option.filter_some, hdead, if_neg Bool.false_ne_true, Option.filter_eq_none_iff]
      intro x hx'
      rw [Bool.not_eq_true]
      rcases hbest x hx' with rfl | ho
      · exact hdead
      · have hw := (hheld x hx').1
        exact Entry.isLive_eq_false_of_outranks (h.genuine m hm).stamped (h.genuine x hw).stamped
          (hl m hm) (hl x hw) ho hval hx
    · have hxeq : x = m := by
        rcases hxm with hxm | ho
        · exact hxm
        · exact (hbest x hx).resolve_right ho.asymm
      rw [Option.mem_def.mp hx, hxeq]

variable [DecidableEq ι]

/-- What an action brings to its node from outside: what is written there or delivered to it. -/
def brought (N : Network ι) : Action ι → List Entry
  | .put i now key value maxAge => [(N.replicas i).built now key (some value) maxAge]
  | .delete i now key => [(N.replicas i).built now key none none]
  | .deliver _ _ batch => batch
  | _ => []

/-- What an action brings to `n`. -/
def brings (N : Network ι) (n : ι) (a : Action ι) : List Entry :=
  if n = a.node then N.brought a else []

/-- All that comes in at `n`, action by action. -/
def met (N : Network ι) (n : ι) : List (Action ι) → List Entry
  | [] => []
  | a :: as => N.brings n a ++ (N.step a).met n as

theorem met_append (N : Network ι) (n : ι) (as as' : List (Action ι)) :
    N.met n (as ++ as') = N.met n as ++ (as.foldl step N).met n as' := by
  induction as generalizing N with
  | nil => rfl
  | cons a as ih =>
    change N.brings n a ++ (N.step a).met n (as ++ as') = _
    rw [ih, ← List.append_assoc]
    rfl

theorem Run.eq_foldl (h : Run N₀ as N) : N = as.foldl step N₀ := by
  induction h with
  | nil => rfl
  | snoc _ _ ih => rw [List.foldl_append, ← ih]; rfl

theorem Run.met_snoc (h : Run N₀ as N) (n : ι) (a : Action ι) :
    N₀.met n (as ++ [a]) = N₀.met n as ++ N.brings n a := by
  rw [met_append, ← h.eq_foldl]
  exact congrArg _ (List.append_nil _)

theorem Inv.replicas_step_of_ne (h : N.Inv) (hn : n ≠ a.node) :
    (N.step a).replicas n = N.replicas n := by
  cases a with
  | sync i j now =>
    obtain ⟨es, r', -, -, -, hstep⟩ := h.exists_sync i j now
    rw [hstep]
    exact Function.update_of_ne hn _ _
  | _ => exact Function.update_of_ne hn _ _

theorem weighs_set {es : List Entry} (h : (N.replicas i).Weighs t es bs r) :
    (N.replicas i).Weighs t es bs ((N.set i r).replicas i) := by
  rwa [replicas_set, if_pos rfl]

/-- What an action does to what its node holds. -/
theorem Inv.weighs_node (h : N.Inv) (ha : N.Permits a) (hk : a.Keeps) (ht : a.By t) :
    (N.replicas a.node).Weighs t (N.step a).written (N.brought a) ((N.step a).replicas a.node) := by
  cases a with
  | put i now key value maxAge =>
    obtain ⟨w, r', hrun, -, -, -, hheld⟩ := (h.stocked i).write ha.fits
    apply weighs_set
    rw [Replica.run_put hrun]
    apply Replica.Weighs.of_writes rfl _ hheld
    exact List.mem_append_right N.written (List.mem_singleton_self _)
  | delete i now key =>
    obtain ⟨w, r', hrun, -, -, -, hheld⟩ := (h.stocked i).write ha.fits
    apply weighs_set
    rw [Replica.run_delete hrun]
    apply Replica.Weighs.of_writes rfl _ hheld
    exact List.mem_append_right N.written (List.mem_singleton_self _)
  | deliver i now batch =>
    have hb : ∀ e ∈ batch, e ∈ N.written ∧ e.flaw? = none := fun e he =>
      ⟨ha e he, (h.genuine e (ha e he)).flaw?⟩
    have hfits : ∀ e ∈ batch, (N.replicas i).Takes e := fun e he =>
      Replica.takes_of_fits _ (h.genuine e (ha e he)).fits
    obtain ⟨o, r', hrun, hm, -⟩ := Replica.exists_run_merge (h.within i).sound hfits now
    apply weighs_set
    rw [hrun]
    exact .of_merged hm hb ht
  | sync i j now =>
    obtain ⟨es, r', -, hmem, hm, hstep⟩ := h.exists_sync i j now
    -- all that a peer holds was written by someone
    have hb : ∀ e ∈ es, e ∈ N.written ∧ e.flaw? = none := by
      intro e he
      have hw := (h.within j).held ((hmem e).mp he)
      exact ⟨hw, (h.genuine e hw).flaw?⟩
    rw [hstep]
    apply weighs_set
    exact (Replica.Weighs.of_merged hm hb ht).weaken (List.nil_subset es)
  | syncFailed i now peer f =>
    obtain ⟨health, log, hp⟩ := Replica.exists_recordPeer (N.replicas i) peer false
    apply weighs_set
    rw [Replica.run_absorb_error, hp]
    exact .of_held_eq rfl
  | drain i =>
    apply weighs_set
    apply Replica.Weighs.of_held_eq
    funext k
    rw [Replica.held, Replica.engine_drain]
    rfl
  | sweep i now => exact hk.elim
  | restart i => exact hk.elim

theorem Inv.weighs_step (h : N.Inv) (ha : N.Permits a) (hk : a.Keeps) (ht : a.By t) (n : ι) :
    (N.replicas n).Weighs t (N.step a).written (N.brings n a) ((N.step a).replicas n) := by
  by_cases hn : n = a.node
  · rw [brings, if_pos hn, hn]
    exact h.weighs_node ha hk ht
  · rw [brings, if_neg hn, h.replicas_step_of_ne hn]
    exact .of_held_eq rfl

theorem mem_written_step (he : e ∈ N.written) : e ∈ (N.step a).written := by
  cases a with
  | put i now key value maxAge => exact List.mem_append_left _ he
  | delete i now key => exact List.mem_append_left _ he
  | _ => exact he

theorem mem_written_of_brings (ha : N.Permits a) (he : e ∈ N.brings n a) :
    e ∈ (N.step a).written := by
  unfold brings at he
  split_ifs at he
  · cases a with
    | put i now key value maxAge => exact List.mem_append_right _ he
    | delete i now key => exact List.mem_append_right _ he
    | deliver i now batch => exact ha e he
    | _ => exact absurd he List.not_mem_nil
  · exact absurd he List.not_mem_nil

/-- What has come in stays accounted for. -/
theorem Run.accountsFor (h₀ : N₀.Fresh) (h : Run N₀ as N) (hk : ∀ a ∈ as, a.Keeps)
    (ht : ∀ a ∈ as, a.By t) (n : ι) :
    ∀ e ∈ N₀.met n as, e ∈ N.written ∧ Entry.AccountsFor t ((N.replicas n).held e.key) e := by
  induction h with
  | nil =>
    intro e he
    exact absurd he List.not_mem_nil
  | @snoc as N a hr ha ih =>
    have ih' := ih (fun a' ha' => hk a' (List.mem_append_left _ ha')) fun a' ha' =>
      ht a' (List.mem_append_left _ ha')
    have hinv := hr.inv h₀
    have hinv' := hinv.step ha
    have hweighs := hinv.weighs_step ha (hk a (by simp)) (ht a (by simp)) n
    have hheld (k : Bytes) : ∀ x ∈ (N.replicas n).held k, x.Stamped ∧ x.key = k := fun x hx =>
      ⟨hinv.stamped_of_held hx, (hinv.within n).sound.key_of_held hx⟩
    have hes : ∀ x ∈ (N.step a).written, x.Stamped := fun x hx => (hinv'.genuine x hx).stamped
    intro e he
    rw [hr.met_snoc] at he
    -- it came in before, or comes in now
    rcases List.mem_append.mp he with he | he
    · obtain ⟨hw, hacc⟩ := ih' e he
      have hw' := mem_written_step (a := a) hw
      exact ⟨hw', hweighs.accountsFor hheld hes (hes e hw') (.inl hacc)⟩
    · have hw' := mem_written_of_brings ha he
      exact ⟨hw', hweighs.accountsFor hheld hes (hes e hw') (.inr he)⟩

/-- Pushes alone give the same reads everywhere. Once every entry that was written has come in at
every node, in whatever order and however often, by a clock that never read past `t`, and nothing was
swept or forgotten meanwhile, all nodes answer alike at `t`: each key with the greatest entry ever
written for it, as long as that is live. -/
theorem Run.delivered (h₀ : N₀.Fresh) (h : Run N₀ as N) (has : ∀ a ∈ as, a.Lives ttl)
    (hk : ∀ a ∈ as, a.Keeps) (ht : ∀ a ∈ as, a.By t)
    (hmet : ∀ n, ∀ e ∈ N.written, e ∈ N₀.met n as) (k : Bytes) :
    ∃ best, N.IsLatest k best ∧ ∀ n, (Replica.lookup t k).run.run (N.replicas n) =
      (.ok (best.filter (·.isLive t)), N.replicas n) := by
  have hinv := h.inv h₀
  obtain ⟨best, hb⟩ := hinv.exists_isLatest k
  refine ⟨best, hb, fun n => ?_⟩
  rw [Replica.run_lookup (hinv.within n).sound, hb.filter_isLive_eq hinv (h.lives h₀ has)]
  intro b hb'
  obtain ⟨hw, hkey⟩ := hb.written b hb'
  exact hkey ▸ (h.accountsFor h₀ hk ht n b (hmet n b hw)).2

def firstWrite : Entry :=
  { key := [107], value := some [49], version := 5, origin := "a", timestamp := 5, maxAge := some 100 }

def secondWrite : Entry :=
  { key := [107], value := some [50], version := 5, origin := "b", timestamp := 5, maxAge := some 100 }

/-- Two nodes write to one key in the same millisecond, and what they push crosses. -/
def crossing : List (Action Bool) := [
  .put false 5 [107] [49] (some 100),
  .put true 5 [107] [50] (some 100),
  .deliver true 6 [firstWrite],
  .deliver false 7 [secondWrite, firstWrite]]

theorem run_crossing_delivered : ∃ N, Run pair crossing N ∧ ∃ best, N.IsLatest [107] best ∧
    ∀ n, (Replica.lookup 9 [107]).run.run (N.replicas n) =
      (.ok (best.filter (·.isLive 9)), N.replicas n) := by
  have h₀ : Run pair [] pair := .nil
  have h₁ := h₀.snoc (a := .put false 5 [107] [49] (some 100))
    ⟨by decide, by decide, by decide, by decide⟩
  have h₂ := h₁.snoc (a := .put true 5 [107] [50] (some 100))
    ⟨by decide, by decide, by decide +kernel, by decide +kernel⟩
  have hw : ((pair.step (.put false 5 [107] [49] (some 100))).step
      (.put true 5 [107] [50] (some 100))).written = [firstWrite, secondWrite] := by decide +kernel
  have h₃ := h₂.snoc (a := .deliver true 6 [firstWrite]) fun e he => by
    rw [hw]
    exact List.mem_cons.mpr (.inl (List.mem_singleton.mp he))
  have h : Run pair crossing _ := h₃.snoc (a := .deliver false 7 [secondWrite, firstWrite])
    fun e he => by
      apply mem_written_step
      rw [hw]
      exact List.mem_pair.mpr (List.mem_pair.mp he).symm
  have hlives : ∀ a ∈ crossing, a.Lives (some 100) := by simp [crossing, Action.Lives]
  have hkeeps : ∀ a ∈ crossing, a.Keeps := by simp [crossing, Action.Keeps]
  have hby : ∀ a ∈ crossing, a.By 9 := by decide
  exact ⟨_, h, h.delivered fresh_pair hlives hkeeps hby (by decide +kernel) [107]⟩

/-- A write to the empty key. -/
def keylessWrite : Entry :=
  { key := [], value := some [49], version := 5, origin := "a", timestamp := 5, maxAge := none }

/-- A write of a node without a name. -/
def namelessWrite : Entry :=
  { key := [107], value := some [49], version := 5, origin := "", timestamp := 5, maxAge := none }

/-- Two nodes of which the first has an empty id. -/
def namelessPair : Network Bool where
  replicas i :=
    .start "dynamic" (if i then "b" else "") Config.standard.dynamicStore (.fresh i)
  endpoint i := if i then "b:1" else "a:1"
  written := []

/-- No peer takes a write to the empty key or of a node without a name, though the node itself does:
all has been delivered, and the two nodes answer differently. -/
theorem not_delivered_malformed :
    (let as := [Action.put false 5 [] [49] none, .deliver true 6 [keylessWrite]]
      let N := as.foldl step pair
      N.written = [keylessWrite] ∧ (∀ n, ∀ e ∈ N.written, e ∈ pair.met n as) ∧
      ((Replica.lookup 9 []).run.run (N.replicas false)).1 = .ok (some keylessWrite) ∧
      ((Replica.lookup 9 []).run.run (N.replicas true)).1 = .ok none) ∧
    (let as := [Action.put false 5 [107] [49] none, .deliver true 6 [namelessWrite]]
      let N := as.foldl step namelessPair
      N.written = [namelessWrite] ∧ (∀ n, ∀ e ∈ N.written, e ∈ namelessPair.met n as) ∧
      ((Replica.lookup 9 [107]).run.run (N.replicas false)).1 = .ok (some namelessWrite) ∧
      ((Replica.lookup 9 [107]).run.run (N.replicas true)).1 = .ok none) := by
  decide +kernel

end Network

end ServiceDirectory
