import ServiceDirectory.Proofs.Delivery
import ServiceDirectory.Proofs.MutualSync

namespace ServiceDirectory

namespace Entry

variable {t e : Entry} {age : Span} {now : Instant} {held peer : Option Entry}

/-- A tombstone may go once it is as old as tombstones are to become, where ages are counted in words
that do not pass the last instant. -/
theorem isCollectable_of_le (ht : t.isTombstone) (hage : age.millis ≤ Instant.last)
    (hnow : t.timestamp.toInt + age.millis ≤ now.toInt) : t.isCollectable now age.millisWord := by
  have hword := Span.toNat_millisWord (d := age) (by unfold Instant.last at hage; omega)
  rw [isCollectable, if_pos ht]
  simp only [Bool.and_eq_true, decide_eq_true_eq, Int64.le_iff_toInt_le, Instant.since,
    Instant.toInt_clamp, Int64.toInt_zero, hword]
  unfold Instant.first Instant.last at *
  omega

/-- A merge weighs no value that a sweep would take. -/
theorem isCollectable_eq_false_of_isAdmitted {word : UInt64} (ht : t.isTombstone = false)
    (ha : t.isAdmitted now) : t.isCollectable now word = false := by
  rw [isCollectable, ht, if_neg Bool.false_ne_true]
  simp only [isAdmitted, ht, Bool.false_or, Bool.and_eq_true, Bool.not_eq_true'] at ha
  exact ha.2

theorem mem_of_pulled (h : pulled now held peer = some e) : held = some e ∨ peer = some e := by
  rcases mem_of_settle h with h | h
  · exact .inl h
  · exact .inr (Option.filter_eq_some_iff.mp (Option.mem_toList.mp h)).1

/-- A well-formed tombstone comes over from any node that has it. -/
theorem pulled_tombstone (hf : t.flaw? = none) (ht : t.isTombstone) (b c : Bool) :
    pulled now (if b then none else some t) (if c then none else some t) =
      if b && c then none else some t := by
  have ha : t.isAdmitted now := isAdmitted_of_isTombstone hf ht
  have hself : winner t t = t := winner_of_not_outranks (not_outranks_self t)
  cases b <;> cases c <;> simp [pulled_of_isAdmitted ha, resolve, hself]

end Entry

/-- A merge stores no value that a sweep at its reading of the clock would take away again. -/
theorem Replica.Stocked.exists_merge_kept {r : Replica} {batch : List Entry} (h : r.Stocked)
    (hb : ∀ e ∈ batch, e.Fits) (now : Instant) :
    ∃ o r', (merge now batch).run.run r = (.ok o, r') ∧ ∀ k, ∀ e ∈ r'.held k,
      e ∈ r.held k ∨ e.isTombstone ∨ e ∈ (r'.sweepOnce now).held k := by
  obtain ⟨o, r', hrun, hm, -⟩ := exists_run_merge h.toSound (fun e he => takes_of_fits r (hb e he)) now
  refine ⟨o, r', hrun, fun k e he => ?_⟩
  have hsettle := (hm.held k).symm.trans he
  rcases Entry.mem_of_settle hsettle with hheld | hnew
  · exact .inl hheld
  · have ha := (of_decide_eq_true (List.mem_filter.mp hnew).2).2
    cases ht : e.isTombstone with
    | true => exact .inr (.inl rfl)
    | false =>
      have hc : e.isCollectable now r'.settings.tombstoneMaxAge.millisWord = false :=
        Entry.isCollectable_eq_false_of_isAdmitted ht ha
      refine .inr (.inr ?_)
      rw [held_sweepOnce hm.sound, he, Option.filter_some, hc]
      rfl

/-- A sweep or a pull by a clock that has reached `due`. -/
def Action.Tidies {ι : Type} (due : Int) : Action ι → Prop
  | .sync _ _ now | .sweep _ now => due ≤ now.toInt
  | .syncFailed .. | .drain _ => True
  | .put .. | .delete .. | .deliver .. | .restart _ => False

instance {ι : Type} (due : Int) (a : Action ι) : Decidable (a.Tidies due) :=
  match a with
  | .sync .. | .sweep .. => inferInstanceAs (Decidable (_ ≤ _))
  | .syncFailed .. | .drain _ => .isTrue trivial
  | .put .. | .delete .. | .deliver .. | .restart _ => .isFalse id

/-- Whether the node that acts is tidy then: a sweep makes it so, a pull from one that is not undoes
it. -/
def Action.leavesTidy {ι : Type} (tidy : ι → Bool) : Action ι → Bool
  | .sweep .. => true
  | .sync i j _ => tidy i && tidy j
  | a => tidy a.node

namespace Network

variable {ι : Type}

/-- All nodes are sound and keep tombstones for `age`. -/
structure Tended (age : Span) (N : Network ι) : Prop where
  stocked (i : ι) : (N.replicas i).Stocked
  age (i : ι) : (N.replicas i).settings.tombstoneMaxAge = age

/-- What the node that acts then holds for `k`, if it sweeps, drains or pulls. -/
def keeps (N : Network ι) (k : Bytes) : Action ι → Option Entry
  | .sync i j now => Entry.pulled now ((N.replicas i).held k) ((N.replicas j).held k)
  | .sweep i now => ((N.replicas i).held k).filter fun e =>
      !e.isCollectable now (N.replicas i).settings.tombstoneMaxAge.millisWord
  | a => (N.replicas a.node).held k

/-- No node that is tidy holds `t`. -/
def Rid (t : Entry) (tidy : ι → Bool) (N : Network ι) : Prop :=
  ∀ i, tidy i → ∀ k, (N.replicas i).held k ≠ some t

/-- Every node holds `t`, or nothing if it is tidy. -/
def Rife (t : Entry) (tidy : ι → Bool) (N : Network ι) : Prop :=
  ∀ i, (N.replicas i).held t.key = if tidy i then none else some t

variable [DecidableEq ι] {N M : Network ι} {a : Action ι} {as : List (Action ι)} {i j : ι}
  {age : Span} {t : Entry} {due : Int} {tidy : ι → Bool} {r : Replica} {now : Instant}

/-- The nodes that are tidy after an action. -/
def tidies (tidy : ι → Bool) (a : Action ι) : ι → Bool :=
  Function.update tidy a.node (a.leavesTidy tidy)

/-- The nodes that are tidy after all these, if none was before. -/
def tidied (as : List (Action ι)) : ι → Bool := as.foldl tidies fun _ => false

theorem tidied_snoc (as : List (Action ι)) (a : Action ι) :
    tidied (as ++ [a]) = tidies (tidied as) a := List.foldl_append

theorem tidies_of_forall (h : ∀ i, tidy i) (a : Action ι) (i : ι) : tidies tidy a i := by
  rw [tidies, Function.update_apply]
  split
  · cases a <;> simp [Action.leavesTidy, h]
  · exact h i

/-- Once all nodes are tidy they stay so. -/
theorem tidied_append (h : ∀ i, tidied as i) (bs : List (Action ι)) (i : ι) :
    tidied (as ++ bs) i := by
  rw [tidied, List.foldl_append]
  change ∀ i, as.foldl tidies (fun _ => false) i at h
  generalize as.foldl tidies (fun _ => false) = tidy at h ⊢
  -- along what follows, from any nodes as long as all are tidy
  induction bs generalizing tidy with
  | nil => exact h i
  | cons b bs ih => exact ih _ (tidies_of_forall h b)

theorem Run.append {bs : List (Action ι)} {M' : Network ι} (h : Run N as M) (h' : Run M bs M') :
    Run N (as ++ bs) M' := by
  induction h' with
  | nil => simpa using h
  | snoc _ hb ih =>
    rw [← List.append_assoc]
    exact ih.snoc hb

/-- Sweeps and pulls may be made in any order. -/
theorem Run.foldl {bs : List (Action ι)} (h : Run N as M) (hbs : ∀ b ∈ bs, b.Tidies due) :
    Run N (as ++ bs) (bs.foldl Network.step M) := by
  induction bs generalizing as M with
  | nil => simpa using h
  | cons b bs ih =>
    have ht := hbs b (by simp)
    have hb : M.Permits b := by
      cases b with
      | put | delete | deliver | restart => exact ht.elim
      | _ => trivial
    have h' := ih (h.snoc hb) fun b' hb' => hbs b' (List.mem_cons_of_mem b hb')
    rwa [List.append_assoc] at h'

theorem Tended.exists_sync (h : N.Tended age) (i j : ι) (now : Instant) : ∃ r',
    r'.Stocked ∧ r'.settings = (N.replicas i).settings ∧
    (∀ k, r'.held k = Entry.pulled now ((N.replicas i).held k) ((N.replicas j).held k)) ∧
    N.step (.sync i j now) = N.set i r' := by
  obtain ⟨o, r', hpull, hr', hheld⟩ := (h.stocked i).exists_pull (h.stocked j) now (N.endpoint j)
  obtain ⟨es, hrun, -, hmem⟩ := Replica.exists_run_snapshot (h.stocked j).toSound
  have hfits : (Operation.absorb now (N.endpoint j) (.ok es)).Fits (N.replicas i) :=
    fun e he => (h.stocked j).fits ((hmem e).mp he)
  have hset := ((h.stocked i).step hfits).settings
  rw [Replica.pull, hrun] at hpull
  rw [Operation.run, hpull] at hset
  refine ⟨r', hr', hset, hheld, ?_⟩
  rw [step, perform_snapshot (h.stocked j).toSound, perform, hrun, hpull]

theorem Tended.exists_step (h : N.Tended age) (ha : a.Tidies due) : ∃ r',
    r'.Stocked ∧ r'.settings = (N.replicas a.node).settings ∧
    (∀ k, r'.held k = N.keeps k a) ∧ N.step a = N.set a.node r' := by
  cases a with
  | sync i j now => exact h.exists_sync i j now
  | sweep i now =>
    have hs := (h.stocked i).step (o := .sweep now) fun e he => absurd he List.not_mem_nil
    exact ⟨_, hs.stocked, hs.settings, hs.held, rfl⟩
  | syncFailed i now peer f =>
    have hs := (h.stocked i).step (o := .absorb now peer (.error f))
      fun e he => absurd he List.not_mem_nil
    exact ⟨_, hs.stocked, hs.settings, hs.held, rfl⟩
  | drain i =>
    have hs := (h.stocked i).step (o := .drain) fun e he => absurd he List.not_mem_nil
    exact ⟨_, hs.stocked, hs.settings, hs.held, rfl⟩
  | put | delete | deliver | restart => exact ha.elim

theorem Tended.step (h : N.Tended age) (ha : a.Tidies due) : (N.step a).Tended age := by
  obtain ⟨r', hr', hset, -, hstep⟩ := h.exists_step ha
  rw [hstep]
  refine ⟨fun n => ?_, fun n => ?_⟩
  · rw [replicas_set]
    split
    · exact hr'
    · exact h.stocked n
  · rw [replicas_set]
    split
    · rw [hset, h.age]
    · exact h.age n

theorem Tended.held_step (h : N.Tended age) (ha : a.Tidies due) (n : ι) (k : Bytes) :
    ((N.step a).replicas n).held k =
      if n = a.node then N.keeps k a else (N.replicas n).held k := by
  obtain ⟨r', -, -, hheld, hstep⟩ := h.exists_step ha
  rw [hstep, replicas_set]
  split
  · exact hheld k
  · rfl

theorem Tended.run (h : N.Tended age) (hrun : Run N as M) (has : ∀ a ∈ as, a.Tidies due) :
    M.Tended age := by
  induction hrun with
  | nil => exact h
  | @snoc as M a _ _ ih =>
    exact (ih fun a' ha' => has a' (List.mem_append_left _ ha')).step (has a (by simp))

section Due

variable (h : N.Tended age) (ht : t.isTombstone) (hage : age.millis ≤ Instant.last)
  (ha : a.Tidies (t.timestamp.toInt + age.millis))
include h ht hage ha

theorem Rid.step (hr : Rid t tidy N) : Rid t (tidies tidy a) (N.step a) := by
  intro n hn k
  rw [tidies, Function.update_apply] at hn
  rw [h.held_step ha]
  split_ifs at hn ⊢
  · cases a with
    -- whatever was held, `t` is due
    | sweep i now =>
      intro hheld
      obtain ⟨-, hc⟩ := Option.filter_eq_some_iff.mp hheld
      rw [h.age, Entry.isCollectable_of_le ht hage ha] at hc
      contradiction
    -- a pull brings nothing that neither of the two had
    | sync i j now =>
      obtain ⟨hi, hj⟩ := Bool.and_eq_true_iff.mp hn
      intro hheld
      exact (Entry.mem_of_pulled hheld).elim (hr i hi k) (hr j hj k)
    | syncFailed i now peer f => exact hr i hn k
    | drain i => exact hr i hn k
    | put | delete | deliver | restart => exact ha.elim
  · exact hr n hn k

theorem Rife.step (hf : t.flaw? = none) (hr : Rife t tidy N) : Rife t (tidies tidy a) (N.step a) := by
  intro n
  rw [tidies, Function.update_apply, h.held_step ha]
  split
  · cases a with
    | sweep i now =>
      rw [keeps, hr i, h.age]
      have hc := Entry.isCollectable_of_le ht hage ha
      cases tidy i <;> simp [Action.leavesTidy, hc]
    | sync i j now =>
      rw [keeps, hr i, hr j]
      exact Entry.pulled_tombstone hf ht _ _
    | syncFailed i now peer f => exact hr i
    | drain i => exact hr i
    | put | delete | deliver | restart => exact ha.elim
  · exact hr n

end Due

section Run

variable (h : N.Tended age) (hrun : Run N as M) (ht : t.isTombstone)
  (hage : age.millis ≤ Instant.last) (has : ∀ a ∈ as, a.Tidies (t.timestamp.toInt + age.millis))
include h hrun ht hage has

theorem Run.rid : Rid t (tidied as) M := by
  induction hrun with
  | nil => exact fun i hi => absurd hi Bool.false_ne_true
  | @snoc as M a hrun _ ih =>
    have has' : ∀ a ∈ as, a.Tidies (t.timestamp.toInt + age.millis) := fun a ha =>
      has a (List.mem_append_left _ ha)
    rw [tidied_snoc]
    exact (ih has').step (h.run hrun has') ht hage (has a (by simp))

theorem Run.rife (hf : t.flaw? = none) (hheld : ∀ i, (N.replicas i).held t.key = some t) :
    Rife t (tidied as) M := by
  induction hrun with
  | nil => exact hheld
  | @snoc as M a hrun _ ih =>
    have has' : ∀ a ∈ as, a.Tidies (t.timestamp.toInt + age.millis) := fun a ha =>
      has a (List.mem_append_left _ ha)
    rw [tidied_snoc]
    exact (ih has').step (h.run hrun has') ht hage (has a (by simp)) hf

end Run

/-- While nodes only sweep and pull, once a tombstone may be swept, none that is tidy holds it, and it
is gone for good as soon as all are. A node that had a well-formed one keeps it until it is tidy; and
only tombstones come in with a merge that a sweep would take away again. -/
theorem Run.collects {t : Entry} (h : N.Tended age) (hrun : Run N as M) (ht : t.isTombstone)
    (hage : age.millis ≤ Instant.last)
    (has : ∀ a ∈ as, a.Tidies (t.timestamp.toInt + age.millis)) :
    (∀ i, tidied as i → ∀ k, (M.replicas i).held k ≠ some t) ∧
    ((∀ i, tidied as i) → ∀ bs M', Run M bs M' →
      (∀ b ∈ bs, b.Tidies (t.timestamp.toInt + age.millis)) →
      ∀ i k, (M'.replicas i).held k ≠ some t) ∧
    (t.flaw? = none → (∀ i, (N.replicas i).held t.key = some t) →
      ∀ i, (M.replicas i).held t.key = some t ↔ tidied as i = false) ∧
    ∀ i now batch, (∀ e ∈ batch, e.Fits) →
      ∃ o r', (Replica.merge now batch).run.run (M.replicas i) = (.ok o, r') ∧
        ∀ k, ∀ e ∈ r'.held k,
          e ∈ (M.replicas i).held k ∨ e.isTombstone ∨ e ∈ (r'.sweepOnce now).held k := by
  refine ⟨hrun.rid h ht hage has, fun hall bs M' hrun' hbs i k => ?_, fun hf hheld i => ?_,
    fun i now batch hb => ((h.run hrun has).stocked i).exists_merge_kept hb now⟩
  · have hboth : ∀ a ∈ as ++ bs, a.Tidies (t.timestamp.toInt + age.millis) := fun a ha =>
      (List.mem_append.mp ha).elim (has a) (hbs a)
    exact (hrun.append hrun').rid h ht hage hboth i (tidied_append hall bs i) k
  · rw [hrun.rife h ht hage has hf hheld i]
    cases tidied as i <;> simp

/-- A node in memory that keeps tombstones for `age` and has just started. -/
def starter (nodeId : String) (age : Span) : Replica :=
  .start "dynamic" nodeId { Config.standard.dynamicStore with tombstoneMaxAge := age } (.fresh false)

/-- Two such nodes, the second of which has deleted a key. -/
def parted (age : Span) (now : Instant) : Network Bool where
  replicas i := if i then (Operation.delete now [107]).run (starter "b" age) else starter "a" age
  endpoint i := if i then "b:1" else "a:1"
  written := []

theorem tended_parted (age : Span) (now : Instant) : (parted age now).Tended age := by
  have hfits : (Operation.delete now [107]).Fits (starter "b" age) :=
    ⟨show [107].length < 2 ^ 64 by decide, nofun, show (Utf8.encode "b").length < 2 ^ 64 by decide⟩
  have hstart (nodeId : String) : (starter nodeId age).Stocked := Replica.stocked_start ..
  have hstep := (hstart "b").step hfits
  refine ⟨Bool.rec (hstart "a") hstep.stocked, Bool.rec rfl ?_⟩
  exact congrArg Settings.tombstoneMaxAge hstep.settings

/-- What that delete leaves. -/
def tombOf (version : UInt64) (now : Instant) : Entry :=
  { key := [107], value := none, version, origin := "b", timestamp := now, maxAge := none }

/-- The tombstone comes over before both nodes sweep. -/
theorem collects_parted : ∃ M, Run (parted (.ofMillis 50) 100)
    [.sync false true 200, .sweep true 200, .sweep false 200] M ∧
    ∀ i k, (M.replicas i).held k ≠ some (tombOf 100 100) := by
  have has : ∀ a ∈ [Action.sync false true 200, .sweep true 200, .sweep false 200],
    a.Tidies 150 := by decide
  have hrun : Run (parted (.ofMillis 50) 100) _ _ := Run.nil.foldl has
  have hall := (hrun.collects (t := tombOf 100 100) (tended_parted _ _) rfl (by decide) has).1
  exact ⟨_, hrun, fun i => hall i (by cases i <;> decide)⟩

/-- The first node sweeps before it pulls, the second after that. -/
def crossed : List (Action Bool) := [.sweep false 200, .sync false true 200, .sweep true 200]

def longAge : Span := .ofMillis 9300000000000000000

def bothSweep : List (Action Bool) := [.sweep false 300000000000000000, .sweep true 300000000000000000]

/-- Both nodes sweep once the tombstone may go, and one of them holds it still. It had swept before it
pulled, and its own sweep would take what came in. And where tombstones are to be kept for longer than
there are instants after the epoch, one from before the epoch stays: its age is never counted that
far. -/
theorem not_collects_parted :
    ((parted (.ofMillis 50) 100).Tended (.ofMillis 50) ∧ (∀ a ∈ crossed, a.Tidies (100 + 50)) ∧
      ∃ M, Run (parted (.ofMillis 50) 100) crossed M ∧
        (M.replicas false).held [107] = some (tombOf 100 100) ∧
        ((M.replicas false).sweepOnce 200).held [107] = none) ∧
    (parted longAge (-9000000000000000000)).Tended longAge ∧
      (∀ a ∈ bothSweep, a.Tidies (-9000000000000000000 + longAge.millis)) ∧
      ∃ M, Run (parted longAge (-9000000000000000000)) bothSweep M ∧
        (M.replicas true).held [107] = some (tombOf 1 (-9000000000000000000)) := by
  constructor
  · have has : ∀ a ∈ crossed, a.Tidies (100 + 50) := by decide
    exact ⟨tended_parted _ _, has, _, Run.nil.foldl has, by decide +kernel, by decide +kernel⟩
  · have has : ∀ a ∈ bothSweep, a.Tidies (-9000000000000000000 + longAge.millis) := by decide
    exact ⟨tended_parted _ _, has, _, Run.nil.foldl has, by decide +kernel⟩

end Network

end ServiceDirectory
