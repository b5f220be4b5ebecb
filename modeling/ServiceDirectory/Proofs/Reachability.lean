import Mathlib.Data.List.Destutter
import ServiceDirectory.Proofs.Preserved

namespace ServiceDirectory

/-! What a store's log says of its peers. -/

/-- The outcomes that differ from the one before, where `b` comes before the first. -/
def changes (b : Bool) (os : List Bool) : List Bool := ((b :: os).destutter (· ≠ ·)).tail

section Changes

variable {b o : Bool} {os os' l : List Bool}

theorem cons_changes (b : Bool) (os : List Bool) :
    b :: changes b os = (b :: os).destutter (· ≠ ·) := by
  induction os generalizing b with
  | nil => rfl
  | cons o os ih =>
    by_cases h : b = o
    · subst h
      rw [changes, List.destutter_cons', List.destutter'_cons_neg _ (not_not.mpr rfl)]
      exact ih b
    · rw [changes, List.destutter_cons', List.destutter'_cons_pos _ h]
      rfl

theorem changes_cons_self (b : Bool) (os : List Bool) : changes b (b :: os) = changes b os := by
  rw [changes, List.destutter_cons', List.destutter'_cons_neg _ (not_not.mpr rfl)]
  rfl

theorem changes_cons_of_ne (h : o ≠ b) (os : List Bool) :
    changes b (o :: os) = o :: changes o os := by
  rw [changes, List.destutter_cons', List.destutter'_cons_pos _ h.symm, cons_changes]
  rfl

theorem changes_append (b : Bool) (os os' : List Bool) :
    changes b (os ++ os') = changes b os ++ changes (os.getLast?.getD b) os' := by
  induction os generalizing b with
  | nil => rfl
  | cons o os ih =>
    rw [List.cons_append, List.getLast?_cons, Option.getD_some]
    by_cases h : o = b
    · subst h
      rw [changes_cons_self, changes_cons_self, ih]
    · rw [changes_cons_of_ne h, changes_cons_of_ne h, ih, List.cons_append]

/-- What changed last is how it is now. -/
theorem getLast?_changes (b : Bool) (os : List Bool) :
    (changes b os).getLast?.getD b = os.getLast?.getD b := by
  induction os generalizing b with
  | nil => rfl
  | cons o os ih =>
    rw [List.getLast?_cons, Option.getD_some]
    by_cases h : o = b
    · subst h
      rw [changes_cons_self, ih]
    · rw [changes_cons_of_ne h, List.getLast?_cons, Option.getD_some, ih]

theorem getElem_of_isChain (h : (b :: l).IsChain (· ≠ ·)) (i : Nat) (hi : i < l.length) :
    l[i] = if i % 2 = 0 then !b else b := by
  induction l generalizing b i with
  | nil => contradiction
  | cons o l ih =>
    obtain ⟨hne, hl⟩ := List.isChain_cons_cons.mp h
    have ho : o = !b := by
      cases b <;> cases o <;> simp_all
    cases i with
    | zero => exact ho
    | succ i =>
      rw [List.getElem_cons_succ, ih hl i (Nat.lt_of_succ_lt_succ hi), ho, Bool.not_not]
      split_ifs <;> first | rfl | omega

theorem getElem_changes (b : Bool) (os : List Bool) (i : Nat) (hi : i < (changes b os).length) :
    (changes b os)[i] = if i % 2 = 0 then !b else b := by
  apply getElem_of_isChain
  rw [cons_changes]
  exact List.isChain_destutter _ _

end Changes

namespace Event

def concerns (peer : String) (e : Event) : Bool := e.fields.contains ("peer", peer)

def tellsOf (peer : String) (e : Event) : Bool := e.isTiding && e.concerns peer

def tiding (store peer : String) (reachable : Bool) : Event :=
  if reachable then .peerReachable store peer else .peerUnreachable store peer

theorem isTiding_of_tellsOf {peer : String} {e : Event} (h : e.tellsOf peer) : e.isTiding :=
  (Bool.and_eq_true_iff.mp h).1

theorem tellsOf_tiding (store peer p : String) (reachable : Bool) :
    (tiding store peer reachable).tellsOf p ↔ peer = p := by
  cases reachable <;> simp [tiding, tellsOf, concerns, isTiding, message, fields, eq_comm]

theorem filter_tellsOf_tidings (store peer p : String) (os : List Bool) :
    (os.map (tiding store peer)).filter (·.tellsOf p) =
      if peer = p then os.map (tiding store peer) else [] := by
  split_ifs with h
  · refine List.filter_eq_self.mpr fun e he => ?_
    obtain ⟨o, -, rfl⟩ := List.mem_map.mp he
    exact (tellsOf_tiding store peer p o).mpr h
  · refine List.filter_eq_nil_iff.mpr fun e he => ?_
    obtain ⟨o, -, rfl⟩ := List.mem_map.mp he
    exact fun ht => h ((tellsOf_tiding store peer p o).mp ht)

theorem tiding_eq_iff {store peer : String} {reachable : Bool} :
    tiding store peer reachable = .peerUnreachable store peer ↔ reachable = false := by
  cases reachable <;> simp [tiding]

end Event

/-- What is said of a peer whose calls ended with these outcomes: it is unreachable, reachable again
and so on in turn, a line for each change, and what was said last is how the last call ended. -/
structure TellsTruly (store peer : String) (outcomes : List Bool) (lines : List Event) : Prop where
  alternate (i : Nat) (h : i < lines.length) :
    lines[i] = if i % 2 = 0 then .peerUnreachable store peer else .peerReachable store peer
  last : lines.getLast? = some (.peerUnreachable store peer) ↔ outcomes.getLast? = some false
  change : lines = (changes true outcomes).map (Event.tiding store peer)

theorem tellsTruly_changes (store peer : String) (outcomes : List Bool) :
    TellsTruly store peer outcomes ((changes true outcomes).map (Event.tiding store peer)) where
  alternate i h := by
    rw [List.getElem_map, getElem_changes]
    split_ifs <;> rfl
  last := by
    have hlast := getLast?_changes true outcomes
    rw [List.getLast?_map, Option.map_eq_some_iff]
    simp only [Event.tiding_eq_iff, exists_eq_right]
    cases h : (changes true outcomes).getLast? <;> cases h' : outcomes.getLast? <;> simp_all
  change := rfl

/-- All that is known of the peers of a store, and has been said of them. -/
structure Outlook where
  name : String
  health : Table String Reach
  tidings : List Event

namespace Replica

variable {r r' r'' : Replica} {p : String} {ends ends' : List (String × Bool)}

def outlook (r : Replica) : Outlook := ⟨r.name, r.health, r.log.filter (·.isTiding)⟩

theorem outlook_emit (r : Replica) {e : Event} (he : e.isTiding = false) :
    (r.emit e).outlook = r.outlook := by
  simp only [outlook, emit, List.filter_append, List.filter_singleton, he, cond_false, List.append_nil]

theorem outlook_enqueue (r : Replica) (e : Entry) : (r.enqueue e).outlook = r.outlook := by
  unfold enqueue
  split_ifs
  · exact outlook_emit r rfl
  · rfl
  · exact outlook_emit r rfl

theorem aloof_outlook : Aloof outlook := ⟨⟨fun _ _ => rfl, fun r _ => outlook_emit r⟩, outlook_enqueue⟩

theorem outlook_drain (r : Replica) : r.drain.2.outlook = r.outlook := by
  unfold drain
  split_ifs <;> rfl

theorem outlook_stop (r : Replica) : r.stop.outlook = r.outlook := outlook_emit _ rfl

def linesOf (r : Replica) (peer : String) : List Event := r.log.filter (·.tellsOf peer)

/-- Nothing has been heard of the peer, or it was well the last time. -/
def trusts (r : Replica) (peer : String) : Bool := r.health.get? peer ≠ some .unreachable

theorem linesOf_eq (r : Replica) (peer : String) :
    r.linesOf peer = r.outlook.tidings.filter (·.tellsOf peer) := by
  rw [linesOf, outlook, List.filter_filter]
  apply List.filter_congr
  intro e _
  cases h : e.tellsOf peer with
  | false => rfl
  | true => rw [Event.isTiding_of_tellsOf h, Bool.true_and]

/-- Only what changes is reported. -/
theorem toList_tiding? (r : Replica) (peer : String) (ok : Bool) : (r.tiding? peer ok).toList =
    (changes (r.trusts peer) [ok]).map (Event.tiding r.name peer) := by
  unfold tiding? trusts
  rcases r.health.get? peer with _ | _ | _ <;> cases ok <;> rfl

theorem trusts_note (r : Replica) (peer : String) (ok : Bool) (p : String) :
    (r.note peer ok).trusts p = if peer = p then ok else r.trusts p := by
  rw [trusts, note, Table.get?_insert]
  by_cases hp : peer = p
  · cases ok <;> simp [hp]
  · simp [hp, trusts]

/-- The outcomes of the calls to one peer. -/
def outcomesOf (peer : String) (ends : List (String × Bool)) : List Bool :=
  (ends.filter (·.1 = peer)).map (·.2)

theorem outcomesOf_append (peer : String) (ends ends' : List (String × Bool)) :
    outcomesOf peer (ends ++ ends') = outcomesOf peer ends ++ outcomesOf peer ends' := by
  rw [outcomesOf, List.filter_append, List.map_append]
  rfl

/-- While calls ended as `ends` tells, of each peer what changed was said. -/
structure Told (ends : List (String × Bool)) (r r' : Replica) : Prop where
  name : r'.name = r.name
  trusts (p : String) : r'.trusts p = (outcomesOf p ends).getLast?.getD (r.trusts p)
  lines (p : String) : r'.linesOf p = r.linesOf p ++
    (changes (r.trusts p) (outcomesOf p ends)).map (Event.tiding r.name p)

theorem told_of_outlook_eq (h : r'.outlook = r.outlook) : Told [] r r' where
  name := congrArg Outlook.name h
  trusts p := congrArg (fun o : Outlook => decide (o.health.get? p ≠ some .unreachable)) h
  lines p := by
    rw [linesOf_eq, h, ← linesOf_eq]
    exact (List.append_nil _).symm

theorem Told.trans (h : Told ends r r') (h' : Told ends' r' r'') : Told (ends ++ ends') r r'' where
  name := h'.name.trans h.name
  trusts p := by
    rw [h'.trusts, h.trusts, outcomesOf_append, List.getLast?_append]
    cases (outcomesOf p ends').getLast? <;> rfl
  lines p := by
    rw [h'.lines, h.lines, h.name, h.trusts, outcomesOf_append, changes_append, List.map_append,
      List.append_assoc]

/-- What falls due with a call to one peer, of another peer is nothing. -/
theorem filter_tellsOf_tiding? (r : Replica) (peer : String) (ok : Bool) (p : String) :
    (r.tiding? peer ok).toList.filter (·.tellsOf p) =
      (changes (r.trusts p) (outcomesOf p [(peer, ok)])).map (Event.tiding r.name p) := by
  rw [toList_tiding?, Event.filter_tellsOf_tidings, outcomesOf, List.filter_singleton]
  by_cases hp : peer = p
  · subst hp
    simp
  · simp [hp, changes]

theorem getLast?_outcomesOf_singleton (peer : String) (ok : Bool) (p : String) (b : Bool) :
    (outcomesOf p [(peer, ok)]).getLast?.getD b = if peer = p then ok else b := by
  rw [outcomesOf, List.filter_singleton]
  by_cases hp : peer = p <;> simp [hp]

theorem told_recordPeer (r : Replica) (peer : String) (ok : Bool) :
    Told [(peer, ok)] r (r.recordPeer peer ok) where
  name := rfl
  trusts p := (trusts_note r peer ok p).trans (getLast?_outcomesOf_singleton peer ok p _).symm
  lines p := by
    rw [← filter_tellsOf_tiding?]
    exact List.filter_append ..

theorem told_absorb (now : Instant) (peer : String) (pulled : Except Failure (List Entry))
    (r : Replica) : Told [(peer, pulled.isOk)] r ((absorb now peer pulled).run.run r).2 := by
  have hrecord := told_recordPeer r peer pulled.isOk
  exact hrecord.trans (told_of_outlook_eq (aloof_outlook.absorb now peer pulled r))

theorem told_absorbRound (now : Instant) (peer : String) (pulled : Except Failure (List Entry))
    (r : Replica) : Told [(peer, pulled.isOk)] r (absorbRound now peer pulled r).2 := by
  have habsorb := told_absorb now peer pulled r
  rw [absorbRound]
  rcases hrun : (absorb now peer pulled).run.run r with ⟨_ | o, r'⟩ <;> rw [hrun] at habsorb
  · exact habsorb.trans (told_of_outlook_eq (outlook_emit r' rfl))
  · exact habsorb.trans (told_of_outlook_eq (outlook_emit r' rfl))

theorem told_settlePush (peer : String) (entries : Nat) (result : Except Failure Unit)
    (r : Replica) : Told [(peer, result.isOk)] r (r.settlePush peer entries result) := by
  cases result with
  | ok _ => exact told_recordPeer r peer true
  | error f =>
    have hemit := told_of_outlook_eq (outlook_emit r (e := .pushFailed r.name peer entries f) rfl)
    exact hemit.trans (told_recordPeer _ peer false)

end Replica

open Replica

/-! Tasks that deal with calls side by side. -/

/-- The call to a peer that it deals with, and whether that went well. -/
def Operation.call? : Operation → Option (String × Bool)
  | absorb _ peer pulled => some (peer, pulled.isOk)
  | _ => none

theorem Operation.outlook_run {o : Operation} (ho : o.call? = none) (r : Replica) :
    (o.run r).outlook = r.outlook := by
  have haloof := aloof_outlook.pervasive
  cases o with
  | put now key value maxAge => exact haloof.put now key value maxAge r
  | delete now key => exact haloof.delete now key r
  | lookup now key => exact haloof.lookup now key r
  | live now => exact haloof.live now r
  | snapshot => exact haloof.engineGetAll r
  | merge now batch => exact haloof.mergeFrom now {} batch r
  | absorb now peer pulled => contradiction
  | sweep now => exact aloof_outlook.sweepOnce now r
  | drain => exact outlook_drain r

/-- A store and the lines that its tasks have still to write about calls they have noted, in the
order of the notes. -/
structure Chorus where
  store : Replica
  unsaid : List Event := []

/-- The next thing that one of the tasks does. -/
inductive Incident
  /-- A call has ended, and how it went is noted. -/
  | notes (peer : String) (ok : Bool)
  /-- The task of one of the lines that are to be written writes it. -/
  | writes (i : Nat)
  /-- Something else is reported. -/
  | remarks (e : Event) (he : e.isTiding = false)
  | does (o : Operation) (ho : o.call? = none)
  /-- Something befalls the engine. -/
  | upset (f : Engine → Engine)
  | stops

namespace Incident

def run (s : Chorus) : Incident → Chorus
  | notes peer ok => ⟨s.store.note peer ok, s.unsaid ++ (s.store.tiding? peer ok).toList⟩
  | writes i => ⟨s.store.emitAll s.unsaid[i]?.toList, s.unsaid.eraseIdx i⟩
  | remarks e _ => { s with store := s.store.emit e }
  | does o _ => { s with store := o.run s.store }
  | upset f => { s with store := { s.store with engine := f s.store.engine } }
  | stops => { s with store := s.store.stop }

/-- The call that is noted, with its peer and whether it went well. -/
def noted : Incident → List (String × Bool)
  | notes peer ok => [(peer, ok)]
  | _ => []

/-- No line about the peer is written while an earlier one is still to be written. -/
def inTurn (p : String) (s : Chorus) : Incident → Bool
  | writes i => (s.unsaid[i]?.toList.filter (·.tellsOf p)).isEmpty ||
      ((s.unsaid.take i).filter (·.tellsOf p)).isEmpty
  | _ => true

end Incident

namespace Chorus

variable {s : Chorus} {p : String} {i : Incident} {is : List Incident}

/-- After all of that in turn. -/
def after (s : Chorus) (is : List Incident) : Chorus := is.foldl Incident.run s

def inTurn (p : String) (s : Chorus) : List Incident → Bool
  | [] => true
  | i :: is => i.inTurn p s && inTurn p (i.run s) is

/-- The lines about the peer that are still to be written. -/
def due (s : Chorus) (p : String) : List Event := s.unsaid.filter (·.tellsOf p)

/-- What has been said of the peer, and what is to be said. -/
def account (s : Chorus) (p : String) : List Event := s.store.linesOf p ++ s.due p

theorem name_run (s : Chorus) (i : Incident) : (i.run s).store.name = s.store.name := by
  cases i with
  | does o ho => exact congrArg Outlook.name (Operation.outlook_run ho s.store)
  | _ => rfl

theorem trusts_run (s : Chorus) (i : Incident) (p : String) : (i.run s).store.trusts p =
    (outcomesOf p i.noted).getLast?.getD (s.store.trusts p) := by
  cases i with
  | notes peer ok =>
    exact (trusts_note s.store peer ok p).trans (getLast?_outcomesOf_singleton peer ok p _).symm
  | does o ho => exact (told_of_outlook_eq (Operation.outlook_run ho s.store)).trusts p
  | _ => rfl

/-- What a line leaves of those that are to be written, and where it was taken from. -/
theorem account_writes (s : Chorus) (j : Nat) (p : String) :
    ((Incident.writes j).run s).account p = s.store.linesOf p ++
      (s.unsaid[j]?.toList.filter (·.tellsOf p) ++
        ((s.unsaid.take j).filter (·.tellsOf p) ++ (s.unsaid.drop (j + 1)).filter (·.tellsOf p))) ∧
    s.account p = s.store.linesOf p ++
      ((s.unsaid.take j).filter (·.tellsOf p) ++ (s.unsaid[j]?.toList.filter (·.tellsOf p) ++
        (s.unsaid.drop (j + 1)).filter (·.tellsOf p))) := by
  constructor
  · rw [account, due, Incident.run, linesOf, emitAll, List.filter_append, List.append_assoc,
      List.eraseIdx_eq_take_drop_succ, List.filter_append]
    rfl
  · rw [account, due, ← List.filter_append, ← List.filter_append, ← List.append_assoc,
      ← List.take_add_one, List.take_append_drop]

theorem account_run (h : i.inTurn p s) : (i.run s).account p = s.account p ++
    (changes (s.store.trusts p) (outcomesOf p i.noted)).map (Event.tiding s.store.name p) := by
  have hquiet (f : Replica → Replica) (hf : (f s.store).outlook = s.store.outlook) :
      account { s with store := f s.store } p = s.account p ++ [] := by
    rw [account, due, (told_of_outlook_eq hf).lines p]
    simp only [outcomesOf, changes, List.append_nil, List.filter_nil, List.map_nil,
      List.destutter_singleton, List.tail_cons]
    rfl
  cases i with
  | notes peer ok =>
    rw [Incident.noted, ← filter_tellsOf_tiding?, account, account, due, due, Incident.run,
      List.filter_append, List.append_assoc]
    rfl
  | writes j =>
    obtain ⟨hafter, hbefore⟩ := s.account_writes j p
    rw [hafter, hbefore]
    -- of the peer this is no line at all, or the one that comes next
    rcases Bool.or_eq_true_iff.mp h with hnone | hfirst
    · rw [List.isEmpty_iff.mp hnone]
      simp [Incident.noted, outcomesOf, changes]
    · rw [List.isEmpty_iff.mp hfirst]
      simp [Incident.noted, outcomesOf, changes]
  | remarks e he => exact hquiet (·.emit e) (outlook_emit s.store he)
  | does o ho => exact hquiet o.run (Operation.outlook_run ho s.store)
  | upset f => exact hquiet (fun r => { r with engine := f r.engine }) rfl
  | stops => exact hquiet Replica.stop (outlook_stop s.store)

/-- In whatever order lines are written, none is lost and none comes to be. -/
theorem perm_account_run (s : Chorus) (i : Incident) (p : String) :
    ((i.run s).account p).Perm (s.account p ++
      (changes (s.store.trusts p) (outcomesOf p i.noted)).map (Event.tiding s.store.name p)) := by
  cases i with
  | writes j =>
    obtain ⟨hafter, hbefore⟩ := s.account_writes j p
    have hnone : (changes (s.store.trusts p) (outcomesOf p (Incident.writes j).noted)).map
        (Event.tiding s.store.name p) = [] := rfl
    rw [hafter, hbefore, hnone, List.append_nil, ← List.append_assoc (List.filter _ _),
      ← List.append_assoc (List.filter _ _)]
    exact (List.perm_append_comm.append_right _).append_left _
  | _ => exact .of_eq (account_run rfl)

theorem account_after (s : Chorus) (is : List Incident) (p : String) :
    let said := s.account p ++ (changes (s.store.trusts p) (outcomesOf p (is.flatMap Incident.noted))).map
      (Event.tiding s.store.name p)
    ((s.after is).account p).Perm said ∧ (s.inTurn p is → (s.after is).account p = said) := by
  induction is generalizing s with
  | nil => exact ⟨.of_eq (List.append_nil _).symm, fun _ => (List.append_nil _).symm⟩
  | cons i is ih =>
    have hrest := ih (i.run s)
    dsimp only at hrest ⊢
    rw [name_run, trusts_run] at hrest
    rw [List.flatMap_cons, outcomesOf_append, changes_append, List.map_append, ← List.append_assoc]
    refine ⟨hrest.1.trans ((s.perm_account_run i p).append_right _), fun h => ?_⟩
    obtain ⟨hi, his⟩ := Bool.and_eq_true_iff.mp h
    rw [← account_run hi]
    exact hrest.2 his

/-! Tasks that are not come between. -/

/-- A call is noted and its line written at once. -/
theorem after_record (r : Replica) (peer : String) (ok : Bool) :
    (Chorus.mk r []).after [.notes peer ok, .writes 0] = ⟨r.recordPeer peer ok, []⟩ := by
  change Incident.run ⟨r.note peer ok, [] ++ (r.tiding? peer ok).toList⟩ (.writes 0) = _
  rw [List.nil_append, recordPeer]
  cases r.tiding? peer ok <;> rfl

/-- What the task of a push does once it has ended. -/
def ofPush (store peer : String) (entries : Nat) : Except Failure Unit → List Incident
  | .ok () => [.notes peer true, .writes 0]
  | .error f => [.remarks (.pushFailed store peer entries f) rfl, .notes peer false, .writes 0]

theorem after_ofPush (r : Replica) (peer : String) (entries : Nat) (result : Except Failure Unit) :
    (Chorus.mk r []).after (ofPush r.name peer entries result) =
      ⟨r.settlePush peer entries result, []⟩ := by
  cases result with
  | ok _ => exact after_record r peer true
  | error f => exact after_record (r.emit (.pushFailed r.name peer entries f)) peer false

/-- What comes of a pull once it has ended. -/
def ofPull (now : Instant) (peer : String) : Except Failure (List Entry) → List Incident
  | .ok batch => [.notes peer true, .writes 0, .does (.merge now batch) rfl]
  | .error _ => [.notes peer false, .writes 0]

theorem after_ofPull (r : Replica) (now : Instant) (peer : String)
    (pulled : Except Failure (List Entry)) : (Chorus.mk r []).after (ofPull now peer pulled) =
      ⟨((absorb now peer pulled).run.run r).2, []⟩ := by
  cases pulled with
  | ok batch =>
    have hrecord := after_record r peer true
    change (Incident.does (.merge now batch) rfl).run
      ((Chorus.mk r []).after [.notes peer true, .writes 0]) = _
    rw [hrecord]
    rfl
  | error f => exact after_record r peer false

/-- Tasks that deal with calls may come between each other in any way. What a store has said of a
peer since its start and what it has still to say are together the lines that tell the truth of it;
and where no line about the peer overtakes another they are so in this order. What has been said
then alternates, and is true whenever nothing is still to be said. -/
theorem tells_truly (name nodeId : String) (settings : Settings) (medium : Medium) (is : List Incident)
    (p : String) :
    let s := (Chorus.mk (start name nodeId settings medium) []).after is
    let outcomes := outcomesOf p (is.flatMap Incident.noted)
    (∃ lines, TellsTruly name p outcomes lines ∧ (s.store.linesOf p ++ s.due p).Perm lines) ∧
    ((Chorus.mk (start name nodeId settings medium) []).inTurn p is →
      TellsTruly name p outcomes (s.store.linesOf p ++ s.due p) ∧
      (∀ i (h : i < (s.store.linesOf p).length), (s.store.linesOf p)[i] =
        if i % 2 = 0 then .peerUnreachable name p else .peerReachable name p) ∧
      (s.due p = [] → TellsTruly name p outcomes (s.store.linesOf p))) := by
  intro s outcomes
  obtain ⟨hperm, hturn⟩ := account_after ⟨start name nodeId settings medium, []⟩ is p
  have htruly := tellsTruly_changes name p outcomes
  refine ⟨⟨_, htruly, hperm⟩, fun h => ?_⟩
  have hall : TellsTruly name p outcomes (s.store.linesOf p ++ s.due p) := by
    have hs : s.account p = _ := hturn h
    rw [account] at hs
    rw [hs]
    exact htruly
  refine ⟨hall, fun i hi => ?_, fun hdue => ?_⟩
  · rw [← hall.alternate i (by rw [List.length_append]; omega), List.getElem_append_left hi]
  · rwa [hdue, List.append_nil] at hall

/-- A store that has just started. -/
def fresh : Chorus := ⟨infant "a", []⟩

/-- While one peer goes and comes back another one goes, and its line comes before an older one. -/
def jostled : List Incident :=
  [.notes "b" false, .notes "c" false, .writes 1, .writes 0, .notes "b" true, .notes "b" true, .writes 0]

theorem tells_truly_jostled : fresh.inTurn "b" jostled ∧ (fresh.after jostled).due "b" = [] ∧
    TellsTruly "dynamic" "b" [false, true, true] ((fresh.after jostled).store.linesOf "b") ∧
    (fresh.after jostled).store.log.filter (·.isTiding) = [.peerUnreachable "dynamic" "c",
      .peerUnreachable "dynamic" "b", .peerReachable "dynamic" "b"] := by
  have hturn : fresh.inTurn "b" jostled := by decide +kernel
  have hdue : (fresh.after jostled).due "b" = [] := by decide +kernel
  have htruly := (tells_truly "dynamic" "a" Config.standard.dynamicStore (.fresh false) jostled "b").2 hturn
  exact ⟨hturn, hdue, htruly.2.2 hdue, by decide +kernel⟩

/-- Of two calls that end together the first fails and is noted first, and the second has its line
first. -/
def crossed : List Incident := [.notes "b" false, .notes "b" true, .writes 1, .writes 0]

/-- Lines that cross leave the peer for unreachable when it is not, with nothing more to be said. And
single calls have lines of their own, which do not take part in the turns. -/
theorem not_tells_truly_crossed : (fresh.after crossed).unsaid = [] ∧
    ¬ TellsTruly "dynamic" "b" (outcomesOf "b" (crossed.flatMap Incident.noted))
      ((fresh.after crossed).store.linesOf "b") ∧
    ¬ TellsTruly "dynamic" "b" [false] ((fresh.after (ofPush "dynamic" "b" 1 (.error .timeout))).store.log.filter
      (·.concerns "b")) := by
  refine ⟨by decide +kernel, fun h => ?_, fun h => ?_⟩
  · have hlast : ((fresh.after crossed).store.linesOf "b").getLast? =
        some (.peerUnreachable "dynamic" "b") := by decide +kernel
    exact absurd (h.last.mp hlast) (by decide)
  · have hlines : (fresh.after (ofPush "dynamic" "b" 1 (.error .timeout))).store.log.filter
        (·.concerns "b") = [.pushFailed "dynamic" "b" 1 .timeout, .peerUnreachable "dynamic" "b"] := by
      decide +kernel
    have hfirst := h.alternate 0
    rw [hlines] at hfirst
    exact absurd (hfirst Nat.two_pos) (by decide)

end Chorus

end ServiceDirectory
