import ServiceDirectory.Proofs.Listing
import ServiceDirectory.Proofs.Operation

namespace ServiceDirectory

namespace Entry

variable {x : Entry} {origin : String} {now : Instant} {key : Bytes} {value : Option Bytes}
  {maxAge : Option UInt64} {held : Option Entry}

/-- Not even at the end of time a value stays where it is deleted. -/
theorem over_outranks_of_value (hx : x.isTombstone = false) :
    (Entry.over (some x) origin now key none maxAge).Outranks x := by
  by_cases ht : x.timestamp = Int64.maxValue
  · generalize hn : Entry.over (some x) origin now key none maxAge = new
    have hv : x.version ≤ new.version := hn ▸ version_le_over
    have htime : new.timestamp = x.timestamp := by
      rw [← hn]
      change now.latest x.timestamp.succ = x.timestamp
      rw [ht, Instant.succ_maxValue, Instant.latest, if_pos (Int64.le_maxValue now)]
    have htomb : new.isTombstone = true := by
      rw [← hn]
      rfl
    rw [Outranks, compare_eq]
    split
    · rename_i hne
      exact Std.compare_eq_gt.mpr (UInt64.lt_of_le_of_ne hv fun he => hne.2 he.symm)
    · have hc : Ord.compare x.timestamp x.timestamp = .eq := Std.ReflCmp.compare_self
      change (Ord.compare new.timestamp x.timestamp).then
        ((Ord.compare new.isTombstone x.isTombstone).then _) = .gt
      rw [htime, hc, htomb, hx]
      rfl
  · exact over_outranks_of_timestamp_ne ht

/-- At least `n` writes can still be made over `held`, by the clock as it is, before time ends. -/
structure Room (n : Nat) (now : Instant) (held : Option Entry) : Prop where
  clock : now.toInt + n < Instant.last
  held : ∀ x ∈ held, x.timestamp.toInt + n < Instant.last

theorem Room.mono {m n : Nat} (h : Room n now held) (hm : m ≤ n) : Room m now held where
  clock := by
    have := h.clock
    omega
  held x hx := by
    have := h.held x hx
    omega

theorem Room.over {n : Nat} (h : Room (n + 1) now held) :
    Room n now (some (Entry.over held origin now key value maxAge)) where
  clock := (h.mono (Nat.le_succ n)).clock
  held := by
    rintro _ ⟨⟩
    have hc := h.clock
    cases held with
    | none =>
      change now.toInt + n < _
      omega
    | some x =>
      have hx := h.held x rfl
      change (now.latest x.timestamp.succ).toInt + n < _
      rw [Instant.toInt_latest, Instant.toInt_succ (by omega)]
      omega

theorem Room.resolve_over {n : Nat} (h : Room n now held) :
    resolve held (Entry.over held origin now key value maxAge) =
      Entry.over held origin now key value maxAge := by
  cases held with
  | none => rfl
  | some x =>
    have hx := h.held x rfl
    refine winner_of_outranks (over_outranks_of_timestamp_ne fun he => ?_)
    rw [he, Int64.toInt_maxValue, Instant.last] at hx
    omega

end Entry

theorem Uuid.length_encode_text_lt (id : Uuid) : (Utf8.encode id.text).length < 2 ^ 64 := by
  have hc (cs : List Char) : (cs.flatMap Utf8.encodeChar).length ≤ 4 * cs.length := by
    induction cs with
    | nil => exact Nat.le_refl _
    | cons c cs ih =>
      have : (Utf8.encodeChar c).length ≤ 4 := by
        unfold Utf8.encodeChar
        dsimp only
        split_ifs <;> simp
      rw [List.flatMap_cons, List.length_append, List.length_cons]
      omega
  have hl := hc id.chars
  rw [id.length_chars] at hl
  rw [Utf8.encode, Uuid.text, String.toList_ofList]
  omega

theorem Service.length_key_lt (s : Service) : s.key.length < 2 ^ 64 := s.id.length_encode_text_lt

/-- What is to be written to a key. -/
structure Draft where
  key : Bytes
  value : Option Bytes
  maxAge : Option UInt64

/-- The record of a service, to be kept for a while. -/
def Service.draft (maxAge : Span) (s : Service) : Draft :=
  ⟨s.key, some s.encode, some maxAge.millisWord⟩

def Service.erasure (s : Service) : Draft := ⟨s.key, none, none⟩

/-- The entry that `origin` makes of a draft. -/
def Draft.over (d : Draft) (origin : String) (now : Instant) (held : Option Entry) : Entry :=
  Entry.over held origin now d.key d.value d.maxAge

namespace Draft

variable {d : Draft} {ds : List Draft} {origin : String} {now : Instant} {k : Bytes}
  {held : Option Entry}

/-- What a key holds once it has been written. -/
def leaves (origin : String) (now : Instant) (k : Bytes) (held : Option Entry) (d : Draft) :
    Option Entry :=
  if d.key = k then some (Entry.resolve held (d.over origin now held)) else held

/-- Its entry can be noted in a row. -/
structure Fits (d : Draft) (origin : String) : Prop where
  key : d.key.length < 2 ^ 64
  value : ∀ v ∈ d.value, v.length < 2 ^ 64
  origin : (Utf8.encode origin).length < 2 ^ 64

theorem Fits.over (h : d.Fits origin) (now : Instant) (held : Option Entry) :
    (d.over origin now held).Fits := ⟨h.key, h.value, h.origin⟩

theorem fits_erasure (hid : (Utf8.encode origin).length < 2 ^ 64) (s : Service) :
    s.erasure.Fits origin := ⟨s.length_key_lt, by rintro _ ⟨⟩, hid⟩

theorem fits_draft (hid : (Utf8.encode origin).length < 2 ^ 64) {s : Service}
    (hs : s.encode.length < 2 ^ 64) (maxAge : Span) : (s.draft maxAge).Fits origin :=
  ⟨s.length_key_lt, by rintro _ ⟨⟩; exact hs, hid⟩

theorem isTombstone_resolve (hd : d.value = none) (held : Option Entry) :
    (Entry.resolve held (d.over origin now held)).isTombstone := by
  have hnew : (d.over origin now held).isTombstone := by
    rw [Draft.over, hd]
    rfl
  cases held with
  | none => exact hnew
  | some x =>
    cases hx : x.isTombstone with
    -- at the end of time the new tombstone may lose, but only to another one
    | true =>
      rcases Entry.resolve_eq (some x) (d.over origin now (some x)) with he | he
      · exact Option.some.inj he ▸ hx
      · exact he ▸ hnew
    | false =>
      have ho : (d.over origin now (some x)).Outranks x := by
        rw [Draft.over, hd]
        exact Entry.over_outranks_of_value hx
      rw [Entry.resolve, Entry.winner_of_outranks ho]
      exact hnew

theorem foldl_leaves_of_forall_ne (hk : ∀ d ∈ ds, d.key ≠ k) (held : Option Entry) :
    ds.foldl (leaves origin now k) held = held := by
  induction ds with
  | nil => rfl
  | cons d ds ih =>
    rw [List.foldl_cons, leaves, if_neg (hk d (by simp))]
    exact ih fun d hd => hk d (List.mem_cons_of_mem _ hd)

/-- After deletes alone a key that was among them holds a tombstone. -/
theorem exists_foldl_leaves_of_value_eq_none (hds : ∀ d ∈ ds, d.value = none)
    (hk : (∃ d ∈ ds, d.key = k) ∨ ∃ t ∈ held, t.isTombstone) :
    ∃ t, ds.foldl (leaves origin now k) held = some t ∧ t.isTombstone := by
  induction ds generalizing held with
  | nil =>
    obtain ⟨t, ht, htomb⟩ := hk.resolve_left (by simp)
    exact ⟨t, ht, htomb⟩
  | cons d ds ih =>
    have ih' := @ih (leaves origin now k held d) fun d hd => hds d (List.mem_cons_of_mem _ hd)
    rw [List.foldl_cons]
    by_cases hd : d.key = k
    · refine ih' (.inr ⟨_, if_pos hd, isTombstone_resolve (hds d (by simp)) held⟩)
    · rw [leaves, if_neg hd] at ih' ⊢
      refine ih' (hk.imp_left ?_)
      rintro ⟨d', hd', hk'⟩
      rcases List.mem_cons.mp hd' with rfl | hd'
      · exact absurd hk' hd
      · exact ⟨d', hd', hk'⟩

/-- Deletes leave a tombstone under each of their keys, and all else as it is. -/
theorem exists_foldl_erasures {ss : List Service} (hk : ∃ s ∈ ss, s.key = k) :
    ∃ t, (ss.map Service.erasure).foldl (leaves origin now k) held = some t ∧ t.isTombstone := by
  refine exists_foldl_leaves_of_value_eq_none (fun d hd => ?_) (.inl ?_)
  · obtain ⟨s, -, rfl⟩ := List.mem_map.mp hd
    rfl
  · obtain ⟨s, hs, hk⟩ := hk
    exact ⟨_, List.mem_map_of_mem hs, hk⟩

theorem foldl_erasures_of_forall_ne {ss : List Service} (hk : ∀ s ∈ ss, s.key ≠ k) :
    (ss.map Service.erasure).foldl (leaves origin now k) held = held := by
  refine foldl_leaves_of_forall_ne (fun d hd => ?_) held
  obtain ⟨s, hs, rfl⟩ := List.mem_map.mp hd
  exact hk s hs

/-- Where no key is written twice the one write to a key makes what it holds. -/
theorem foldl_leaves_of_nodup (hds : (ds.map (·.key)).Nodup) (hd : d ∈ ds) (hk : d.key = k)
    (held : Option Entry) : ds.foldl (leaves origin now k) held = d.leaves origin now k held := by
  induction ds generalizing held with
  | nil => contradiction
  | cons x ds ih =>
    obtain ⟨hx, hds'⟩ := List.nodup_cons.mp hds
    rw [List.foldl_cons]
    rcases List.mem_cons.mp hd with rfl | hd
    · exact foldl_leaves_of_forall_ne (fun d' hd' hk' =>
        hx (List.mem_map.mpr ⟨d', hd', hk'.trans hk.symm⟩)) _
    · have hne : x.key ≠ k := fun hxk => hx (List.mem_map.mpr ⟨d, hd, hk.trans hxk.symm⟩)
      rw [leaves, if_neg hne]
      exact ih hds' hd held

theorem Room.leaves {n : Nat} (h : Entry.Room (n + 1) now held) (d : Draft) :
    Entry.Room n now (d.leaves origin now k held) := by
  rw [Draft.leaves]
  split
  · rw [Draft.over, h.resolve_over]
    exact h.over
  · exact h.mono (Nat.le_succ n)

/-- Where there is room the last write to a key makes what the key holds. -/
theorem exists_foldl_leaves (h : Entry.Room ds.length now held)
    (hd : (ds.filter (·.key = k)).getLast? = some d) :
    ∃ before, Entry.Room 1 now before ∧
      ds.foldl (leaves origin now k) held = some (d.over origin now before) := by
  induction ds generalizing held with
  | nil => simp at hd
  | cons x ds ih =>
    rw [List.foldl_cons]
    cases hl : (ds.filter (·.key = k)).getLast? with
    | some y =>
      refine ih (Room.leaves h x) ?_
      rw [List.filter_cons] at hd
      split at hd
      · rwa [List.getLast?_cons, hl, Option.getD_some, ← hl] at hd
      · exact hd
    | none =>
      have hnone := List.getLast?_eq_none_iff.mp hl
      have hx : x.key = k ∧ x = d := by
        rw [List.filter_cons, hnone] at hd
        split at hd
        · exact ⟨of_decide_eq_true ‹_›, by simpa using hd⟩
        · simp at hd
      obtain ⟨hk, rfl⟩ := hx
      have hne : ∀ d ∈ ds, d.key ≠ k := fun d hd hk' => by
        have := List.filter_eq_nil_iff.mp hnone d hd
        simp [hk'] at this
      have hroom := h.mono (Nat.succ_le_succ (Nat.zero_le _))
      refine ⟨held, hroom, ?_⟩
      rw [foldl_leaves_of_forall_ne hne, leaves, if_pos hk, Draft.over, hroom.resolve_over]

end Draft

namespace Replica

variable {r r' : Replica} {now : Instant} {d : Draft} {ds : List Draft}

/-- The node after it has written one draft after another at one reading of the clock. -/
inductive Writes (now : Instant) : List Draft → Replica → Replica → Prop
  | nil (r : Replica) : Writes now [] r r
  | cons {d : Draft} {ds : List Draft} {r r₁ r' : Replica} {w : Entry × Option Entry} :
      (write now d.key d.value d.maxAge).run.run r = (.ok w, r₁) → Writes now ds r₁ r' →
      Writes now (d :: ds) r r'

theorem Writes.append {ds' : List Draft} {r₁ : Replica} (h : Writes now ds r r₁)
    (h' : Writes now ds' r₁ r') : Writes now (ds ++ ds') r r' := by
  induction h with
  | nil => exact h'
  | cons hw _ ih => exact .cons hw (ih h')

/-- What a write does where nothing fails. -/
structure Wrote (d : Draft) (now : Instant) (r r' : Replica) : Prop where
  stocked : r'.Stocked
  nodeId : r'.nodeId = r.nodeId
  held (k : Bytes) : r'.held k = d.leaves r.nodeId now k (r.held k)

theorem Stocked.exists_wrote (h : r.Stocked) (hf : d.Fits r.nodeId) (now : Instant) :
    ∃ e r', (Replica.write now d.key d.value d.maxAge).run.run r = (.ok (e, r.held d.key), r') ∧
      Wrote d now r r' := by
  have hfits : (r.built now d.key d.value d.maxAge).Fits := hf.over now (r.held d.key)
  obtain ⟨w, r', hrun, hs, hid, -, hheld⟩ := h.write hfits
  have hw := (run_write h.toSound (rfl : r.built now d.key d.value d.maxAge = _)).symm.trans hrun
  refine ⟨w.1, r', ?_, hs, hid, fun k => ?_⟩
  · rw [hrun, ← Except.ok.inj (congrArg Prod.fst hw)]
  · rw [hheld, Operation.writes, Draft.leaves]
    split
    · rename_i hk
      rw [built, hk, Draft.over, hk]
    · rfl

theorem Wrote.fits {d' : Draft} (h : Wrote d now r r') (hf : d'.Fits r.nodeId) :
    d'.Fits r'.nodeId := by
  rw [h.nodeId]
  exact hf

theorem Stocked.wrote {w : Entry × Option Entry} (h : r.Stocked) (hf : d.Fits r.nodeId)
    (hw : (Replica.write now d.key d.value d.maxAge).run.run r = (.ok w, r')) : Wrote d now r r' := by
  obtain ⟨e, r₁, hrun, hwrote⟩ := h.exists_wrote hf now
  have hr : r₁ = r' := congrArg Prod.snd (hrun.symm.trans hw)
  exact hr ▸ hwrote

/-- Whether a key has a live entry. -/
def isLiveAt (r : Replica) (now : Instant) (k : Bytes) : Bool := (r.held k).any (·.isLive now)

theorem isLiveAt_iff {k : Bytes} : r.isLiveAt now k ↔ ∃ e, r.held k = some e ∧ e.isLive now :=
  Option.any_eq_true _ _

theorem Wrote.isLiveAt_erasure {s : Service} (h : Wrote s.erasure now r r') (k : Bytes) :
    r'.isLiveAt now k = if s.key = k then false else r.isLiveAt now k := by
  rw [isLiveAt, h.held, Draft.leaves]
  change (if s.key = k then _ else _ : Option Entry).any _ = _
  split
  · have ht : (Entry.resolve (r.held k) (s.erasure.over r.nodeId now (r.held k))).isTombstone :=
      Draft.isTombstone_resolve rfl _
    simp [Entry.isLive, ht]
  · rfl

/-- What a key holds after all the writes. -/
theorem Writes.held (hw : Writes now ds r r') (h : r.Stocked) (hf : ∀ d ∈ ds, d.Fits r.nodeId) :
    r'.Stocked ∧ r'.nodeId = r.nodeId ∧
      ∀ k, r'.held k = ds.foldl (Draft.leaves r.nodeId now k) (r.held k) := by
  induction hw with
  | nil => exact ⟨h, rfl, fun _ => rfl⟩
  | @cons d ds r r₁ r' w hrun _ ih =>
    have hd := h.wrote (hf d (by simp)) hrun
    obtain ⟨hs, hid, hheld⟩ := ih hd.stocked fun d' hd' =>
      hd.fits (hf d' (List.mem_cons_of_mem _ hd'))
    refine ⟨hs, hid.trans hd.nodeId, fun k => ?_⟩
    rw [hheld, hd.nodeId, hd.held, List.foldl_cons]

end Replica

namespace DynamicView

open Replica

variable {r r' : Replica} {now : Instant} {maxAge : Span} {node : Uuid} {a : NodeAnnouncement}
  {ss before : List Service}

/-- What the node offered before and does not offer now. -/
def stale (node : Uuid) (a : NodeAnnouncement) (listed : List Service) : List Service :=
  (listed.filter (·.nodeId = some node)).filter fun s => !(a.toServices node).any (·.id = s.id)

theorem run_putBy_of_flaw {a : NodeAnnouncement} {flaw : Announcement.Flaw} (h : a.flaw? = some flaw)
    (clock : Readings) (maxAge : Span) (node : Uuid) (r : Replica) :
    (putBy clock maxAge node a).run.run r = (.error flaw.toFailure, r) := by
  rw [putBy, h]
  rfl

theorem run_put_of_flaw {a : NodeAnnouncement} {flaw : Announcement.Flaw} (h : a.flaw? = some flaw)
    (now : Instant) (maxAge : Span) (node : Uuid) (r : Replica) :
    (put now maxAge node a).run.run r = (.error flaw.toFailure, r) :=
  run_putBy_of_flaw h (.still now) maxAge node r

theorem put_of_valid {a : NodeAnnouncement} (h : a.flaw? = none) (now : Instant) (maxAge : Span)
    (node : Uuid) : put now maxAge node a = (do
      discard <| deleteAll now (stale node a (← all now))
      putAll now maxAge (a.toServices node)
      Replica.report (.announced node a.services.length)
      return a.toServices node) := by
  rw [put, putBy, h]
  simp [ofNode, stale, NodeAnnouncement.toServices, deleteAll, putAll]

theorem endures_put (now : Instant) (maxAge : Span) (node : Uuid) (a : NodeAnnouncement) :
    Endures (put now maxAge node a) := by
  refine inherits_putBy pervasive_endures (.still now) maxAge node fun flaw h => ?_
  intro r ss r' hrun
  rw [run_putBy_of_flaw h] at hrun
  injection congrArg Prod.fst hrun

/-- Services are deleted one by one; the answer tells whether any key of theirs was live before. -/
theorem exists_run_deleteAll (h : r.Stocked) (ss : List Service)
    (hf : ∀ s ∈ ss, s.erasure.Fits r.nodeId) (now : Instant) :
    ∃ r', (deleteAll now ss).run.run r = (.ok (ss.any fun s => r.isLiveAt now s.key), r') ∧
      Writes now (ss.map Service.erasure) r r' := by
  induction ss generalizing r with
  | nil => exact ⟨r, rfl, .nil r⟩
  | cons s ss ih =>
    obtain ⟨e, r₁, hrun, hwrote⟩ := h.exists_wrote (hf s (by simp)) now
    obtain ⟨r', hrun', hws⟩ := ih hwrote.stocked fun s' hs' =>
      hwrote.fits (hf s' (List.mem_cons_of_mem _ hs'))
    refine ⟨r', ?_, .cons hrun hws⟩
    have hone : (Replica.delete now s.key).run.run r = (.ok (r.isLiveAt now s.key), r₁) :=
      run_delete hrun
    rw [deleteAll_cons, run_bind hone, run_bind hrun', List.any_cons]
    cases hl : r.isLiveAt now s.key with
    | true => rfl
    -- a second delete of the key would find its tombstone, and finds nothing live without one
    | false =>
      have hany : (ss.any fun s => r₁.isLiveAt now s.key) = ss.any fun s => r.isLiveAt now s.key := by
        congr 1
        funext s'
        rw [hwrote.isLiveAt_erasure]
        split
        · rename_i hk
          rw [← hk, hl]
        · rfl
      rw [hany]
      rfl

theorem exists_run_putAll (h : r.Stocked) (ss : List Service)
    (hf : ∀ s ∈ ss, (s.draft maxAge).Fits r.nodeId) (now : Instant) :
    ∃ r', (putAll now maxAge ss).run.run r = (.ok (), r') ∧
      Writes now (ss.map (Service.draft maxAge)) r r' := by
  induction ss generalizing r with
  | nil => exact ⟨r, rfl, .nil r⟩
  | cons s ss ih =>
    obtain ⟨e, r₁, hrun, hwrote⟩ := h.exists_wrote (hf s (by simp)) now
    obtain ⟨r', hrun', hws⟩ := ih hwrote.stocked fun s' hs' =>
      hwrote.fits (hf s' (List.mem_cons_of_mem _ hs'))
    refine ⟨r', ?_, .cons hrun hws⟩
    have hput : (discard (Replica.put now s.key s.encode (some maxAge.millisWord)) :
        Op Replica Unit).run.run r = (.ok (), r₁) := by
      have hput := run_put hrun
      exact run_discard hput
    rw [putAll_cons, run_bind hput, hrun']

/-- All that an announcement writes, over a listing. -/
def changes (maxAge : Span) (node : Uuid) (a : NodeAnnouncement) (listed : List Service) : List Draft :=
  (stale node a listed).map Service.erasure ++ (a.toServices node).map (Service.draft maxAge)

/-- An announcement of which all records can be stored succeeds. -/
theorem exists_run_put (h : r.Stocked) (hv : a.flaw? = none)
    (hid : (Utf8.encode r.nodeId).length < 2 ^ 64)
    (hs : ∀ s ∈ a.toServices node, s.encode.length < 2 ^ 64) (hl : r.Lists now before) :
    ∃ evs r', (put now maxAge node a).run.run r =
        (.ok (a.toServices node), r'.emit (.announced node a.services.length)) ∧
      Writes now (changes maxAge node a before) (r.emitAll evs) r' := by
  obtain ⟨evs, hall⟩ := h.toSound.run_all hl
  have h₁ : (r.emitAll evs).Stocked := h.of_engine_eq rfl
  obtain ⟨r₁, hdelete, hw₁⟩ := exists_run_deleteAll h₁ (stale node a before)
    (fun s _ => Draft.fits_erasure hid s) now
  obtain ⟨h₂, hid₂, -⟩ := hw₁.held h₁ (by
    rintro _ hd
    obtain ⟨s, -, rfl⟩ := List.mem_map.mp hd
    exact Draft.fits_erasure hid s)
  obtain ⟨r₂, hput, hw₂⟩ := exists_run_putAll h₂ (a.toServices node)
    (fun s hs' => Draft.fits_draft (hid₂ ▸ hid) (hs s hs') maxAge) now
  refine ⟨evs, r₂, ?_, hw₁.append hw₂⟩
  rw [put_of_valid hv, run_bind hall]
  have hdiscard : (discard (deleteAll now (stale node a before))).run.run (r.emitAll evs) =
      (.ok (), r₁) := run_discard hdelete
  rw [run_bind hdiscard, run_bind hput]
  rfl

theorem exists_run_delete (h : r.Stocked) (hid : (Utf8.encode r.nodeId).length < 2 ^ 64)
    (hl : r.Lists now before) :
    ∃ evs r', (delete now node).run.run r =
        (.ok ((before.filter (·.nodeId = some node)).any fun s => r.isLiveAt now s.key), r') ∧
      Writes now ((before.filter (·.nodeId = some node)).map Service.erasure) (r.emitAll evs) r' := by
  obtain ⟨evs, hall⟩ := h.toSound.run_all hl
  have h₁ : (r.emitAll evs).Stocked := h.of_engine_eq rfl
  obtain ⟨r', hdelete, hw⟩ := exists_run_deleteAll h₁ (before.filter (·.nodeId = some node))
    (fun s _ => Draft.fits_erasure hid s) now
  refine ⟨evs, r', ?_, hw⟩
  rw [delete_eq, ofNode, bind_assoc, run_bind hall, pure_bind, hdelete]
  rfl

end DynamicView

end ServiceDirectory
