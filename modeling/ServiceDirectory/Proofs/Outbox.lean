import ServiceDirectory.Proofs.Preserved

namespace ServiceDirectory

/-! What goes into the outbox of a store and comes out of it. -/

/-- All that the pushes of a store depend on. -/
structure Outlet where
  name : String
  nodeId : String
  settings : Settings
  outbox : Outbox

namespace Replica

section Batches

variable {α : Type} {n : Nat} {l b : List α}

theorem flatten_batches (hn : 0 < n) (l : List α) : (batches n l).flatten = l := by
  fun_induction batches n l with
  | case1 l h =>
    rcases h with h | h
    · exact h.symm
    · omega
  | case2 l h ih => rw [List.flatten_cons, ih, List.take_append_drop]

theorem of_mem_batches (h : b ∈ batches n l) : b ≠ [] ∧ b.length ≤ n := by
  fun_induction batches n l with
  | case1 l _ => contradiction
  | case2 l hl ih =>
    rcases List.mem_cons.mp h with rfl | h
    · refine ⟨fun h0 => ?_, List.length_take_le n l⟩
      rw [List.take_eq_nil_iff] at h0
      exact hl h0.symm
    · exact ih h

end Batches

variable {r r' : Replica} {α β : Type} {now : Instant} {key : Bytes} {value : Option Bytes}
  {maxAge : Option UInt64} {e : Entry}

def outlet (r : Replica) : Outlet where
  name := r.name
  nodeId := r.nodeId
  settings := r.settings
  outbox := r.outbox

/-- Nothing that it does has to do with pushes. -/
def Silent (op : Op Replica α) : Prop := ∀ r, (op.run.run r).2.outlet = r.outlet

theorem blind_outlet : Blind outlet := ⟨fun _ _ => rfl, fun _ _ _ => rfl⟩

theorem outlet_recordPeer (r : Replica) (peer : String) (ok : Bool) :
    (r.recordPeer peer ok).outlet = r.outlet := by
  obtain ⟨health, log, h⟩ := exists_recordPeer r peer ok
  rw [h]
  rfl

theorem silent_absorb (now : Instant) (peer : String) (pulled : Except Failure (List Entry)) :
    Silent (absorb now peer pulled) := fun r =>
  (blind_outlet.absorb now peer pulled r).trans (outlet_recordPeer r peer pulled.isOk)

theorem outlet_settlePush (peer : String) (entries : Nat) (result : Except Failure Unit)
    (r : Replica) : (r.settlePush peer entries result).outlet = r.outlet := by
  cases result with
  | ok _ => exact outlet_recordPeer r peer true
  | error f => exact outlet_recordPeer (r.emit (.pushFailed r.name peer entries f)) peer false

/-! A local write. -/

/-- The entry of a write that has won. -/
def won? (r : Replica) (now : Instant) (key : Bytes) (value : Option Bytes)
    (maxAge : Option UInt64) : Option Entry :=
  match ((write now key value maxAge).run.run r).1 with
  | .ok (winner, held) =>
    if winner = Entry.over held r.nodeId now key value maxAge then some winner else none
  | .error _ => none

theorem origin_of_won? (h : r.won? now key value maxAge = some e) : e.origin = r.nodeId := by
  unfold won? at h
  split at h
  · split at h
    · rename_i hw
      rw [← Option.some.inj h, hw]
      rfl
    · contradiction
  · contradiction

theorem run_write_cases (r : Replica) (now : Instant) (key : Bytes) (value : Option Bytes)
    (maxAge : Option UInt64) :
    (∃ f r', (write now key value maxAge).run.run r = (.error f, r') ∧ r'.outlet = r.outlet) ∨
    ∃ held new r', new = Entry.over held r.nodeId now key value maxAge ∧ r'.outlet = r.outlet ∧
      (write now key value maxAge).run.run r = (.ok (Entry.resolve held new, held),
        if Entry.resolve held new = new then r'.enqueue new else r') := by
  have hget := blind_outlet.onEngine (Engine.get key) r
  rw [write]
  rcases hx : (onEngine (Engine.get key)).run.run r with ⟨x, r₁⟩
  rw [hx] at hget
  cases x with
  | error f => exact .inl ⟨f, r₁, run_bind_error hx, hget⟩
  | ok held =>
    have hid : r₁.nodeId = r.nodeId := congrArg Outlet.nodeId hget
    rw [run_bind hx, run_bind (run_get r₁), hid]
    generalize hnew : Entry.over held r.nodeId now key value maxAge = new
    dsimp only
    have hput := (blind_outlet.onEngine (Engine.put (Entry.resolve held new)) r₁).trans hget
    rcases hy : (onEngine (Engine.put (Entry.resolve held new))).run.run r₁ with ⟨y, r₂⟩
    rw [hy] at hput
    cases y with
    | error f => exact .inl ⟨f, r₂, run_bind_error hy, hput⟩
    | ok _ =>
      refine .inr ⟨held, new, r₂, hnew.symm, hput, ?_⟩
      rw [run_bind hy]
      by_cases hw : Entry.resolve held new = new
      · rw [if_pos hw, if_pos hw]
        rfl
      · rw [if_neg hw, if_neg hw]
        rfl

/-- A write queues what has won, and has to do with pushes in nothing else. -/
theorem exists_write (r : Replica) (now : Instant) (key : Bytes) (value : Option Bytes)
    (maxAge : Option UInt64) : ∃ r', r'.outlet = r.outlet ∧
      ((write now key value maxAge).run.run r).2 = (r.won? now key value maxAge).elim r' r'.enqueue := by
  unfold won?
  rcases run_write_cases r now key value maxAge with
    ⟨f, r', hrun, hq⟩ | ⟨held, new, r', hnew, hq, hrun⟩
  · rw [hrun]
    exact ⟨r', hq, rfl⟩
  · rw [hrun]
    refine ⟨r', hq, ?_⟩
    dsimp only
    rw [← hnew]
    by_cases hw : Entry.resolve held new = new
    · rw [if_pos hw, if_pos hw, hw]
      rfl
    · rw [if_neg hw, if_neg hw]
      rfl

theorem run_put_snd (r : Replica) (now : Instant) (key value : Bytes) (maxAge : Option UInt64) :
    ((put now key value maxAge).run.run r).2 = ((write now key (some value) maxAge).run.run r).2 := by
  rcases hx : (write now key (some value) maxAge).run.run r with ⟨x, r'⟩
  cases x with
  | error f => rw [put, run_bind_error hx]
  | ok w => rw [run_put hx]

theorem run_delete_snd (r : Replica) (now : Instant) (key : Bytes) :
    ((delete now key).run.run r).2 = ((write now key none none).run.run r).2 := by
  rcases hx : (write now key none none).run.run r with ⟨x, r'⟩
  cases x with
  | error f => rw [delete, deleteBy, run_bind_error hx]
  | ok w => rw [run_delete hx]

end Replica

/-- With so much waiting in its open outbox. -/
def Outlet.holding (u : Outlet) (waiting : List Entry) : Outlet := { u with outbox := { waiting } }

namespace Replica

variable {r r' : Replica} {u : Outlet} {w : List Entry}

/-- What a write adds to the queue: what has won, unless the queue is full. -/
def queues (r : Replica) (won : Option Entry) : List Entry :=
  if r.outbox.waiting.length = r.settings.queueCapacity then [] else won.toList

theorem outlet_enqueue (h : r.outlet = u.holding w) (hw : w.length ≤ u.settings.queueCapacity)
    (e : Entry) : (r.enqueue e).outlet =
      u.holding (if w.length = u.settings.queueCapacity then w else w ++ [e]) := by
  have hbox : r.outbox = { waiting := w } := congrArg Outlet.outbox h
  have hset : r.settings = u.settings := congrArg Outlet.settings h
  have hopen : ¬ !r.outbox.isOpen := by simp [hbox]
  have hroom : r.outbox.waiting.length < r.settings.queueCapacity ↔
      w.length ≠ u.settings.queueCapacity := by
    rw [hbox, hset]
    change w.length < _ ↔ _
    omega
  unfold enqueue
  rw [if_neg hopen]
  by_cases hfull : w.length = u.settings.queueCapacity
  · rw [if_neg (by simp [hroom, hfull]), if_pos hfull]
    exact h
  · rw [if_pos (hroom.mpr hfull), if_neg hfull, hbox]
    exact congrArg (fun o : Outlet => { o with outbox := { waiting := w ++ [e] } }) h

theorem outlet_write (h : r.outlet = u.holding w) (hw : w.length ≤ u.settings.queueCapacity)
    (now : Instant) (key : Bytes) (value : Option Bytes) (maxAge : Option UInt64) :
    ((write now key value maxAge).run.run r).2.outlet =
      u.holding (w ++ r.queues (r.won? now key value maxAge)) := by
  obtain ⟨r', hr', hrun⟩ := exists_write r now key value maxAge
  have hbox : r.outbox = { waiting := w } := congrArg Outlet.outbox h
  have hset : r.settings = u.settings := congrArg Outlet.settings h
  rw [hrun, queues, hbox, hset]
  cases r.won? now key value maxAge with
  | none =>
    rw [Option.toList_none, ite_self, List.append_nil]
    exact hr'.trans h
  | some e =>
    rw [Option.elim_some, outlet_enqueue (hr'.trans h) hw]
    split_ifs
    · rw [List.append_nil]
    · rfl

theorem length_queues_le (h : r.outlet = u.holding w) (hw : w.length ≤ u.settings.queueCapacity)
    (won : Option Entry) : (w ++ r.queues won).length ≤ u.settings.queueCapacity := by
  have hbox : r.outbox = { waiting := w } := congrArg Outlet.outbox h
  have hset : r.settings = u.settings := congrArg Outlet.settings h
  have hlen : won.toList.length ≤ 1 := Option.length_toList_le
  rw [queues, hbox, hset]
  split_ifs with hfull
  · rw [List.append_nil]
    exact hw
  · change w.length ≠ _ at hfull
    rw [List.length_append]
    omega

theorem origin_of_mem_queues {now : Instant} {key : Bytes} {value : Option Bytes}
    {maxAge : Option UInt64} {e : Entry} (h : e ∈ r.queues (r.won? now key value maxAge)) :
    e.origin = r.nodeId := by
  unfold queues at h
  split_ifs at h
  · contradiction
  · exact origin_of_won? (Option.mem_toList.mp h)

theorem drain_of_holding (h : r.outlet = u.holding w) (hk : u.settings.keepsRunning .replicator) :
    r.drain.1 = batches u.settings.batchLimit w ∧ r.drain.2.outlet = u.holding [] := by
  have hbox : r.outbox = { waiting := w } := congrArg Outlet.outbox h
  have hset : r.settings = u.settings := congrArg Outlet.settings h
  have hopen : ¬ !r.outbox.isOpen := by simp [hbox]
  have hruns : r.settings.keepsRunning .replicator := hset ▸ hk
  unfold drain
  rw [if_neg hopen, if_pos hruns]
  refine ⟨by rw [hset, hbox], ?_⟩
  change { r.outlet with outbox := { r.outbox with waiting := [] } } = _
  rw [h, hbox]
  rfl

end Replica

end ServiceDirectory
