import ServiceDirectory.Proofs.DistinctServices
import ServiceDirectory.Proofs.Exchange

namespace ServiceDirectory

namespace Replica

open DynamicView

variable {maxAge : Span} {node : Uuid} {A₁ A₂ : NodeAnnouncement} {t₁ t₂ t : Instant}
  {a₀ a b₀ b a' b' r : Replica} {before known : List Service} {s u : Service} {k : Bytes} {x y : Entry}

theorem Regular.exists_upshot {a : NodeAnnouncement} {ss : List Service} {now : Instant} {r' : Replica}
    (h : r.Regular maxAge) (hnodup : (a.services.map (·.id)).Nodup)
    (hsize : ∀ s ∈ a.toServices node, s.encode.length < 2 ^ 64)
    (hrun : (DynamicView.put now maxAge node a).run.run r = (.ok ss, r')) :
    ∃ before, r.Lists now before ∧ ∀ k, Upshot now maxAge node a before r r' k :=
  DynamicView.exists_upshot h.spared h.length_nodeId (h.placed now) hnodup hsize hrun

/-- What an announcement of distinct services leaves under the id of one of them. -/
theorem Regular.held_put {a : NodeAnnouncement} {ss : List Service} {now : Instant} {r' : Replica}
    (h : r.Regular maxAge) (hnodup : (a.services.map (·.id)).Nodup)
    (hsize : ∀ s ∈ a.toServices node, s.encode.length < 2 ^ 64)
    (hrun : (DynamicView.put now maxAge node a).run.run r = (.ok ss, r'))
    (hs : s ∈ a.toServices node) (hfree : ∀ x ∈ r.held s.key, x.timestamp ≠ Int64.maxValue) :
    r'.held s.key = some ((s.draft maxAge).over r.nodeId now (r.held s.key)) := by
  obtain ⟨before, -, hup⟩ := h.exists_upshot hnodup hsize hrun
  rw [(hup s.key).held_of_offered hnodup hs, Draft.resolve_over_of_ne _ hfree]

/-- A node is announced at one node of a registry, and later on otherwise at another. -/
structure Reannounced (maxAge : Span) (node : Uuid) (A₁ A₂ : NodeAnnouncement) (t₁ t₂ : Instant)
    (a₀ a b₀ b : Replica) : Prop where
  enrolled₁ : Enrolled maxAge a₀
  enrolled₂ : Enrolled maxAge b₀
  nodup₁ : (A₁.services.map (·.id)).Nodup
  nodup₂ : (A₂.services.map (·.id)).Nodup
  size₁ : ∀ s ∈ A₁.toServices node, s.encode.length < 2 ^ 64
  size₂ : ∀ s ∈ A₂.toServices node, s.encode.length < 2 ^ 64
  clock : 0 ≤ t₁
  lt : t₁ < t₂
  put₁ : (DynamicView.put t₁ maxAge node A₁).run.run a₀ = (.ok (A₁.toServices node), a)
  put₂ : (DynamicView.put t₂ maxAge node A₂).run.run b₀ = (.ok (A₂.toServices node), b)
  /-- Where the first node keeps what is announced, no row is dated as late as the second call. -/
  dated : ∀ s ∈ A₁.toServices node ++ A₂.toServices node, ∀ e ∈ a.held s.key, e.timestamp < t₂
  /-- Nor has the second come to the end of time there. -/
  unended : ∀ s ∈ A₂.toServices node, ∀ e ∈ b₀.held s.key, e.timestamp ≠ Int64.maxValue

/-- A service that the second announcement left out, and that the second node did not know of: its
row stands at the first one, and outranks what the second holds in its place. -/
structure Lingers (node : Uuid) (A₁ A₂ : NodeAnnouncement) (known : List Service) (a b₀ : Replica)
    (t : Instant) (s : Service) : Prop where
  announced : s ∈ A₁.toServices node
  leftOut : ∀ o ∈ A₂.services, o.id ≠ s.id
  unknown : ∀ u ∈ known, u.nodeId = some node → u.id ≠ s.id
  row : ∃ e, a.held s.key = some e ∧ e.isLive t ∧ ∀ x ∈ b₀.held s.key, e.Outranks x

namespace Reannounced

variable (h : Reannounced maxAge node A₁ A₂ t₁ t₂ a₀ a b₀ b)
include h

theorem regular₁ : a.Regular maxAge := h.enrolled₁.regular.put h.clock h.size₁ h.put₁

theorem regular₂ : b.Regular maxAge :=
  h.enrolled₂.regular.put (Int64.le_trans h.clock (Int64.le_of_lt h.lt)) h.size₂ h.put₂

/-- The first node has the record of what was announced there. -/
theorem service?_first (hs : s ∈ A₁.toServices node) (hx : a.held s.key = some x)
    (hup : ∀ k, Upshot t₁ maxAge node A₁ before a₀ a k) : x.service? = some s := by
  have hheld := (hup s.key).held_of_offered h.nodup₁ hs
  have hxe := Option.some.inj (hx.symm.trans hheld)
  have hne : x.timestamp ≠ Int64.maxValue :=
    Instant.ne_maxValue_of_lt (h.dated s (List.mem_append_left _ hs) x hx)
  rw [hxe, Draft.resolve_over_of_ne _ (Draft.ne_maxValue_of_resolve (hxe ▸ hne))]
  exact Entry.service?_of_value rfl

/-- What the first node still shows of the announced node is what was announced there. -/
theorem mem_of_first (ht : t₁ ≤ t) (hl : a₀.Lists t₁ before)
    (hup : ∀ k, Upshot t₁ maxAge node A₁ before a₀ a k) (hx : a.held k = some x) (hlive : x.isLive t)
    (hs : x.service? = some s) (hn : s.nodeId = some node) :
    s ∈ A₁.toServices node ∧ s.key = k := by
  cases hup k with
  | @offered u hu _ =>
    cases hs.symm.trans (h.service?_first hu hx hup)
    exact ⟨hu, rfl⟩
  | @stale u hu hheld =>
    have htomb : x.isTombstone := by
      rw [Option.some.inj (hx.symm.trans hheld)]
      exact Draft.isTombstone_resolve rfl _
    simp [Entry.isLive, htomb] at hlive
  -- it was shown there before, and would have been deleted
  | untouched ho hst hheld =>
    have hr := h.enrolled₁.regular
    have hlive₁ : x.isLive t₁ := by
      rw [← Bool.not_eq_false]
      intro hdead
      exact Bool.false_ne_true ((Entry.isLive_eq_false_mono ht hdead).symm.trans hlive)
    have hat := serviceAt_eq_some_iff.mpr ⟨x, hheld.symm.trans hx, hlive₁, hs⟩
    obtain ⟨hmem, hk⟩ := mem_stale_of_serviceAt hr.spared (hr.placed t₁) hl ho hat hn
    exact absurd hk (hst s hmem)

/-- The second node has the records of what is announced there. -/
theorem held_second (hs : s ∈ A₂.toServices node) :
    b.held s.key = some ((s.draft maxAge).over b₀.nodeId t₂ (b₀.held s.key)) :=
  h.enrolled₂.regular.held_put h.nodup₂ h.size₂ h.put₂ hs (h.unended s hs)

/-- And a tombstone for what it knew of besides. -/
theorem held_stale (hl : b₀.Lists t₂ known) (hu : u ∈ stale node A₂ known)
    (hheld : b.held u.key = some (Entry.resolve (b₀.held u.key)
      (u.erasure.over b₀.nodeId t₂ (b₀.held u.key)))) :
    b.held u.key = some (u.erasure.over b₀.nodeId t₂ (b₀.held u.key)) := by
  have hr := h.enrolled₂.regular
  obtain ⟨hat, -⟩ := serviceAt_of_mem_stale hr.spared (hr.placed t₂) hl hu
  obtain ⟨e, he, hlive, -⟩ := serviceAt_eq_some_iff.mp hat
  have hvalue : e.isTombstone = false := by
    cases ht : e.isTombstone with
    | true => simp [Entry.isLive, ht] at hlive
    | false => rfl
  rw [hheld, he]
  exact congrArg some (Entry.winner_of_outranks (Entry.over_outranks_of_value hvalue))

/-- The later record replaces what the first node has in its place. -/
theorem met_second (hs : s ∈ A₂.toServices node) :
    Entry.met (a.held s.key) (b.held s.key) =
      some ((s.draft maxAge).over b₀.nodeId t₂ (b₀.held s.key)) := by
  have hy := h.held_second hs
  rw [hy]
  refine Entry.met_of_timestamp_lt (fun x hx => (h.regular₁.held hx).timed)
    (h.regular₂.held hy).timed fun x hx => ?_
  exact Int64.lt_of_lt_of_le (h.dated s (List.mem_append_right _ hs) x hx) (Draft.now_le_timestamp _)

section Between

variable (ht : t₁ ≤ t) (hl₁ : a₀.Lists t₁ before) (hup₁ : ∀ k, Upshot t₁ maxAge node A₁ before a₀ a k)
include ht hl₁ hup₁

/-- What the second node has deleted is shown nowhere. -/
theorem nodeId_ne_of_stale
    (hy : b.held u.key = some (u.erasure.over b₀.nodeId t₂ (b₀.held u.key)))
    (hx : Entry.met (a.held u.key) (b.held u.key) = some x) (hlive : x.isLive t)
    (hs : x.service? = some s) : s.nodeId ≠ some node := by
  intro hn
  have hdead : (u.erasure.over b₀.nodeId t₂ (b₀.held u.key)).isLive t = false := rfl
  rcases Entry.met_eq_or (a.held u.key) (b.held u.key) with hm | hm
  -- then it would have been announced at the first node, before it was deleted at the second
  · have hxa : a.held u.key = some x := hm.symm.trans hx
    obtain ⟨hmem, hk⟩ := h.mem_of_first ht hl₁ hup₁ hxa hlive hs hn
    have hlt := h.dated s (List.mem_append_left _ hmem) x (hk ▸ hxa)
    have hmet := Entry.met_of_timestamp_lt (fun x hx => (h.regular₁.held hx).timed)
      (h.regular₂.held hy).timed fun x' hx' => by
        cases hxa.symm.trans hx'
        exact Int64.lt_of_lt_of_le hlt (Draft.now_le_timestamp _)
    rw [← hy, hx] at hmet
    rw [Option.some.inj (hmet.trans hy)] at hlive
    exact Bool.false_ne_true (hdead.symm.trans hlive)
  · rw [Option.some.inj (hx.symm.trans (hm.trans hy))] at hlive
    exact Bool.false_ne_true (hdead.symm.trans hlive)

variable (ht₂ : t₂ ≤ t) (hl₂ : b₀.Lists t₂ known) (ho : ∀ o ∈ A₂.toServices node, o.key ≠ k)
  (hst : ∀ s ∈ stale node A₂ known, s.key ≠ k) (hheld : b.held k = b₀.held k)
include ht₂ hl₂ ho hst hheld

omit ht hl₁ hup₁ in
/-- Where the second node changed nothing it showed nothing of the announced node. -/
theorem nodeId_ne_of_untouched (hy : b.held k = some y) (hlive : y.isLive t)
    (hs : y.service? = some s) : s.nodeId ≠ some node := by
  intro hn
  have hr := h.enrolled₂.regular
  have hlive₂ : y.isLive t₂ := by
    rw [← Bool.not_eq_false]
    intro hdead
    exact Bool.false_ne_true ((Entry.isLive_eq_false_mono ht₂ hdead).symm.trans hlive)
  have hat := serviceAt_eq_some_iff.mpr ⟨y, hheld.symm.trans hy, hlive₂, hs⟩
  obtain ⟨hmem, hk⟩ := mem_stale_of_serviceAt hr.spared (hr.placed t₂) hl₂ ho hat hn
  exact hst s hmem hk

/-- So what is shown there of the announced node has been left over from the first announcement. -/
theorem lingers_of_met (hx : Entry.met (a.held k) (b.held k) = some x) (hlive : x.isLive t)
    (hs : x.service? = some s) (hn : s.nodeId = some node) :
    k = s.key ∧ Lingers node A₁ A₂ known a b₀ t s := by
  have hne {y : Entry} (hy : b.held k = some y) (hxy : y = x) : False :=
    h.nodeId_ne_of_untouched ht₂ hl₂ ho hst hheld hy (hxy ▸ hlive) (hxy ▸ hs) hn
  have hxa : a.held k = some x :=
    ((Entry.met_eq_or _ _).resolve_right fun hm => hne (hm.symm.trans hx) rfl).symm.trans hx
  obtain ⟨hmem, rfl⟩ := h.mem_of_first ht hl₁ hup₁ hxa hlive hs hn
  refine ⟨rfl, hmem, fun o hoff hid => ?_, fun u hu hun hid => ?_, x, hxa, hlive, fun y hy => ?_⟩
  · obtain ⟨u, hu, huo⟩ : ∃ u ∈ A₂.toServices node, u.id = o.id := exists_mem_toServices hoff
    exact ho u hu (Service.key_eq_key_iff.mpr (huo.trans hid))
  · have hk : u.key = s.key := Service.key_eq_key_iff.mpr hid
    exact hst u (mem_stale.mpr ⟨hu, hun, hk ▸ ho⟩) hk
  · have hyb := hheld.trans hy
    rw [hxa, hyb, Entry.met_some_some] at hx
    have hkey := key_eq_key h.regular₁ h.regular₂ s.key x hxa y hyb
    refine (Entry.outranks_or_outranks hkey fun hxy => hne hyb hxy.symm).resolve_right fun hyx => ?_
    rw [Entry.winner_of_outranks hyx] at hx
    exact hne hyb (Option.some.inj hx)

end Between

/-- And all that has been left over is shown. -/
theorem exists_met_of_lingers (hup₁ : ∀ k, Upshot t₁ maxAge node A₁ before a₀ a k)
    (hup₂ : ∀ k, Upshot t₂ maxAge node A₂ known b₀ b k) (hs : Lingers node A₁ A₂ known a b₀ t s) :
    ∃ e, Entry.met (a.held s.key) (b.held s.key) = some e ∧ e.isLive t ∧ e.service? = some s := by
  obtain ⟨e, he, hlive, hout⟩ := hs.row
  refine ⟨e, ?_, hlive, h.service?_first hs.announced he hup₁⟩
  generalize hk : s.key = k at he hout ⊢
  cases hup₂ k with
  | @offered u hu _ =>
    obtain ⟨-, o, ho, hou⟩ := exists_mem_services hu
    exact absurd (hou.trans (Service.key_eq_key_iff.mp hk).symm) (hs.leftOut o ho)
  | @stale u hu _ =>
    obtain ⟨hmem, hn, -⟩ := mem_stale.mp hu
    exact absurd (Service.key_eq_key_iff.mp hk).symm (hs.unknown u hmem hn)
  | untouched _ _ hheld =>
    rw [he, hheld]
    cases hb : b₀.held k with
    | none => rfl
    | some y => rw [Entry.met_some_some, Entry.winner_of_not_outranks (hout y hb).asymm]

/-- What a node shows of the announced node after the exchange, key by key. -/
theorem serviceAt_iff (hr : ShowsMet maxAge t a b r) (ht : t₂ ≤ t)
    (hlasts : maxAge.millisWord = 0 ∨ t < t₂.after maxAge.millisWord)
    (hl₁ : a₀.Lists t₁ before) (hup₁ : ∀ k, Upshot t₁ maxAge node A₁ before a₀ a k)
    (hl₂ : b₀.Lists t₂ known) (hup₂ : ∀ k, Upshot t₂ maxAge node A₂ known b₀ b k) (k : Bytes)
    (s : Service) : r.serviceAt t k = some s ∧ s.nodeId = some node ↔
      k = s.key ∧ (s ∈ A₂.toServices node ∨ Lingers node A₁ A₂ known a b₀ t s) := by
  have ht₁ : t₁ ≤ t := Int64.le_trans (Int64.le_of_lt h.lt) ht
  rw [hr.serviceAt_eq_some_iff]
  constructor
  · rintro ⟨⟨e, he, hlive, hs⟩, hn⟩
    cases hup₂ k with
    | @offered u hu _ =>
      rw [h.met_second hu] at he
      cases Option.some.inj he
      have hus : u = s := Option.some.inj ((Entry.service?_of_value rfl).symm.trans hs)
      exact hus ▸ ⟨rfl, .inl hu⟩
    | @stale u hu hheld =>
      exact absurd hn (h.nodeId_ne_of_stale ht₁ hl₁ hup₁ (h.held_stale hl₂ hu hheld) he hlive hs)
    | untouched ho hst hheld =>
      obtain ⟨hk, hling⟩ := h.lingers_of_met ht₁ hl₁ hup₁ ht hl₂ ho hst hheld he hlive hs hn
      exact ⟨hk, .inr hling⟩
  · rintro ⟨rfl, hs | hs⟩
    · refine ⟨⟨_, h.met_second hs, Draft.isLive_draft hlasts s, Entry.service?_of_value rfl⟩, ?_⟩
      exact (exists_mem_services hs).1
    · exact ⟨h.exists_met_of_lingers hup₁ hup₂ hs, (exists_mem_services hs.announced).1⟩

end Reannounced

/-- What a node lists in the end of a node that has been announced at two: all of the later
announcement, and of the earlier one what has been left over; exactly the later one, if the node
that it was made at listed all that it left out. -/
structure Settled (node : Uuid) (A₁ A₂ : NodeAnnouncement) (known : List Service) (a b₀ : Replica)
    (t : Instant) (ss : List Service) : Prop where
  nodup : (ss.filter (·.nodeId = some node)).Nodup
  mem_iff (s : Service) : s ∈ ss.filter (·.nodeId = some node) ↔
    s ∈ A₂.toServices node ∨ Lingers node A₁ A₂ known a b₀ t s
  perm : (∀ s ∈ A₁.toServices node, (∀ o ∈ A₂.services, o.id ≠ s.id) →
      ∃ u ∈ known, u.nodeId = some node ∧ u.id = s.id) →
    (ss.filter (·.nodeId = some node)).Perm (A₂.toServices node)

/-- Two nodes at which a node has been announced one after the other, and which then have pulled from
each other within the lifetime of the later announcement, both list of it the services announced
last, and those announced first that were left out where nobody knew of them. -/
theorem Reannounced.settled (h : Reannounced maxAge node A₁ A₂ t₁ t₂ a₀ a b₀ b)
    (hx : Exchanged t₂ t a b a' b')
    (hlasts : maxAge.millisWord = 0 ∨ t < t₂.after maxAge.millisWord) :
    ∃ known, b₀.Lists t₂ known ∧ ∀ r, r = a' ∨ r = b' →
      ∃ ss, r.Lists t ss ∧ Settled node A₁ A₂ known a b₀ t ss := by
  obtain ⟨before, hl₁, hup₁⟩ := h.enrolled₁.regular.exists_upshot h.nodup₁ h.size₁ h.put₁
  obtain ⟨known, hl₂, hup₂⟩ := h.enrolled₂.regular.exists_upshot h.nodup₂ h.size₂ h.put₂
  refine ⟨known, hl₂, fun r hr => ?_⟩
  have hr := hx.showsMet h.regular₁ h.regular₂ r hr
  have hs : r.spared.Sound := hr.regular.spared.toSound
  obtain ⟨ss, hl⟩ := exists_lists hs t
  have hnodup : (ss.filter (·.nodeId = some node)).Nodup :=
    (List.Nodup.of_map _ ((hr.regular.placed t).nodup_map_key hs hl)).filter _
  have hmem (s : Service) : s ∈ ss.filter (·.nodeId = some node) ↔
      s ∈ A₂.toServices node ∨ Lingers node A₁ A₂ known a b₀ t s := by
    have hat := fun k => h.serviceAt_iff hr hx.le hlasts hl₁ hup₁ hl₂ hup₂ k s
    rw [List.mem_filter, hl.mem_iff hs, decide_eq_true_iff, ← exists_and_right]
    constructor
    · rintro ⟨k, hk⟩
      exact ((hat k).mp hk).2
    · exact fun hs => ⟨s.key, (hat s.key).mpr ⟨rfl, hs⟩⟩
  refine ⟨ss, hl, hnodup, hmem, fun hknown => ?_⟩
  have hnodup₂ : (A₂.toServices node).Nodup := List.Nodup.of_map _ (nodup_map_key_toServices h.nodup₂)
  rw [List.perm_ext_iff_of_nodup hnodup hnodup₂]
  intro s
  refine (hmem s).trans (or_iff_left fun hling => ?_)
  obtain ⟨u, hu, hn, hid⟩ := hknown s hling.announced hling.leftOut
  exact hling.unknown u hu hn hid

/-! Nodes that have just started. -/

theorem enrolled_infant {id : String} (hid : id ≠ "") (hlen : (Utf8.encode id).length < 2 ^ 64) :
    Enrolled maxAge (infant id) := .start hid hlen "dynamic" Config.standard.dynamicStore false

theorem Regular.exists_put {A : NodeAnnouncement} (h : r.Regular maxAge) (hv : A.flaw? = none)
    (hsize : ∀ s ∈ A.toServices node, s.encode.length < 2 ^ 64) (now : Instant) :
    ∃ r', (DynamicView.put now maxAge node A).run.run r = (.ok (A.toServices node), r') := by
  obtain ⟨before, hl⟩ := exists_lists h.spared.toSound now
  obtain ⟨r', hrun, -⟩ : ∃ r', (DynamicView.put now maxAge node A).run.run r = _ ∧ _ :=
    DynamicView.exists_put h.stocked hv h.length_nodeId hsize hl
  exact ⟨r', hrun⟩

theorem exists_exchanged (ha : a.Regular maxAge) (hb : b.Regular maxAge) (ht : t₁ ≤ t) :
    ∃ a' b', Exchanged t₁ t a b a' b' := by
  obtain ⟨o, a', hp, -⟩ := ha.stocked.exists_pull hb.stocked t "b"
  obtain ⟨ha', -⟩ := ha.pull hb hp
  obtain ⟨o', b', hq, -⟩ := hb.stocked.exists_pull ha'.stocked t "a"
  exact ⟨a', b', .first ht (Int64.le_refl t) (Int64.le_refl t) hp hq⟩

theorem timestamp_put_infant {id : String} {A : NodeAnnouncement} {now : Instant} {ss : List Service}
    (h : Enrolled maxAge (infant id)) (hnodup : (A.services.map (·.id)).Nodup)
    (hsize : ∀ s ∈ A.toServices node, s.encode.length < 2 ^ 64)
    (hrun : (DynamicView.put now maxAge node A).run.run (infant id) = (.ok ss, r)) :
    ∀ k, ∀ e ∈ r.held k, e.timestamp = now := by
  intro k e he
  obtain ⟨before, -, hup⟩ := h.regular.exists_upshot hnodup hsize hrun
  cases hup k with
  | offered _ hheld =>
    rw [held_infant] at hheld
    exact Option.some.inj (he.symm.trans hheld) ▸ rfl
  | stale _ hheld =>
    rw [held_infant] at hheld
    exact Option.some.inj (he.symm.trans hheld) ▸ rfl
  | untouched _ _ hheld =>
    rw [held_infant] at hheld
    exact absurd (hheld.symm.trans he) (by simp)

theorem exists_reannounced_infants (hv₁ : A₁.flaw? = none) (hv₂ : A₂.flaw? = none)
    (hnodup₁ : (A₁.services.map (·.id)).Nodup) (hnodup₂ : (A₂.services.map (·.id)).Nodup)
    (hsize₁ : ∀ s ∈ A₁.toServices node, s.encode.length < 2 ^ 64)
    (hsize₂ : ∀ s ∈ A₂.toServices node, s.encode.length < 2 ^ 64) (hclock : 0 ≤ t₁) (hlt : t₁ < t₂) :
    ∃ a b, Reannounced maxAge node A₁ A₂ t₁ t₂ (infant "a") a (infant "b") b := by
  have ha : Enrolled maxAge (infant "a") := enrolled_infant (by decide) (by decide)
  have hb : Enrolled maxAge (infant "b") := enrolled_infant (by decide) (by decide)
  obtain ⟨a, hrun₁⟩ := ha.regular.exists_put hv₁ hsize₁ t₁
  obtain ⟨b, hrun₂⟩ := hb.regular.exists_put hv₂ hsize₂ t₂
  refine ⟨a, b, ha, hb, hnodup₁, hnodup₂, hsize₁, hsize₂, hclock, hlt, hrun₁, hrun₂,
    fun s _ e he => ?_, fun s _ e he => ?_⟩
  · exact timestamp_put_infant ha hnodup₁ hsize₁ hrun₁ s.key e he ▸ hlt
  · exact absurd (held_infant "b" s.key ▸ he) (by simp)

/-- How long announcements last unless configured otherwise. -/
def halfMinute : Span := .ofMillis 30000

/-- An API is announced at the one node, and a web service in its stead at the other. -/
theorem settled_infants : ∃ a b a' b', Reannounced halfMinute (uniform 9)
      (offering [(1, "api")]) (offering [(1, "web")]) 1000 1001 (infant "a") a (infant "b") b ∧
    Exchanged 1001 1002 a b a' b' ∧ ∀ r, r = a' ∨ r = b' → ∃ ss, r.Lists 1002 ss ∧
      (ss.filter (·.nodeId = some (uniform 9))).Perm ((offering [(1, "web")]).toServices (uniform 9)) := by
  obtain ⟨a, b, h⟩ : ∃ a b, Reannounced halfMinute (uniform 9) (offering [(1, "api")])
      (offering [(1, "web")]) 1000 1001 (infant "a") a (infant "b") b :=
    exists_reannounced_infants (by decide) (by decide) (by decide) (by decide)
      (length_encode_offering (by decide)) (length_encode_offering (by decide)) (by decide) (by decide)
  obtain ⟨a', b', hx⟩ := exists_exchanged h.regular₁ h.regular₂ (by decide : (1001 : Instant) ≤ 1002)
  obtain ⟨known, -, hall⟩ := h.settled hx (.inr (by decide))
  refine ⟨a, b, a', b', h, hx, fun r hr => ?_⟩
  obtain ⟨ss, hl, hs⟩ := hall r hr
  refine ⟨ss, hl, hs.perm fun s hs hleft => ?_⟩
  -- nothing is left out
  have hid : s.id = uniform 1 := by revert s; decide
  exact absurd hid.symm (hleft _ (List.mem_singleton_self _))

/-- Whoever announces a node at `a₀` and then, otherwise, at `b₀` has both list exactly the services
announced last, once they have pulled from each other. -/
def ReplacesAcross (maxAge : Span) (node : Uuid) (A₁ A₂ : NodeAnnouncement) (t₁ t₂ t : Instant)
    (a₀ b₀ : Replica) : Prop :=
  ∀ ⦃a b a' b' : Replica⦄,
    (DynamicView.put t₁ maxAge node A₁).run.run a₀ = (.ok (A₁.toServices node), a) →
    (DynamicView.put t₂ maxAge node A₂).run.run b₀ = (.ok (A₂.toServices node), b) →
    Exchanged t₂ t a b a' b' → ∀ r, r = a' ∨ r = b' → ∀ ss, r.Lists t ss →
      (ss.filter (·.nodeId = some node)).Perm (A₂.toServices node)

/-- It fails where a node shows a service of a kind that was not announced last. -/
theorem not_replacesAcross_of_shown
    (h₁ : (DynamicView.put t₁ maxAge node A₁).run.run a₀ = (.ok (A₁.toServices node), a))
    (h₂ : (DynamicView.put t₂ maxAge node A₂).run.run b₀ = (.ok (A₂.toServices node), b))
    (hx : Exchanged t₂ t a b a' b') (hr : r = a' ∨ r = b') (hs : r.spared.Sound)
    (hat : r.serviceAt t k = some s) (hn : s.nodeId = some node)
    (hkind : ∀ o ∈ A₂.services, o.kind ≠ s.kind) : ¬ ReplacesAcross maxAge node A₁ A₂ t₁ t₂ t a₀ b₀ := by
  intro hall
  obtain ⟨ss, hl⟩ := exists_lists hs t
  have hmem : s ∈ ss.filter (·.nodeId = some node) :=
    List.mem_filter.mpr ⟨(hl.mem_iff hs).mpr ⟨k, hat⟩, decide_eq_true hn⟩
  obtain ⟨o, ho, rfl⟩ := List.mem_map.mp ((hall h₁ h₂ hx r hr ss hl).mem_iff.mp hmem)
  exact hkind o ho rfl

/-- A service that is left out stays where the second node has not heard of it. -/
theorem not_replacesAcross_left_out : ¬ ReplacesAcross halfMinute (uniform 9)
    (offering [(1, "api"), (2, "web")]) (offering [(1, "api")]) 1000 1001 1001
    (infant "a") (infant "b") := by
  obtain ⟨a, b, h⟩ : ∃ a b, Reannounced halfMinute (uniform 9) (offering [(1, "api"), (2, "web")])
      (offering [(1, "api")]) 1000 1001 (infant "a") a (infant "b") b :=
    exists_reannounced_infants (by decide) (by decide) (by decide) (by decide)
      (length_encode_offering (by decide)) (length_encode_offering (by decide)) (by decide) (by decide)
  obtain ⟨a', b', hx⟩ := exists_exchanged h.regular₁ h.regular₂ (Int64.le_refl 1001)
  have hmet := hx.showsMet h.regular₁ h.regular₂ a' (.inl rfl)
  obtain ⟨before, hl₁, hup₁⟩ := h.enrolled₁.regular.exists_upshot h.nodup₁ h.size₁ h.put₁
  obtain ⟨known, hl₂, hup₂⟩ := h.enrolled₂.regular.exists_upshot h.nodup₂ h.size₂ h.put₂
  obtain ⟨s, hs, hid, hkind⟩ : ∃ s ∈ (offering [(1, "api"), (2, "web")]).toServices (uniform 9),
      s.id = uniform 2 ∧ s.kind = "web" :=
    ⟨_, List.mem_cons_of_mem _ (List.mem_singleton_self _), rfl, rfl⟩
  have hrow := h.enrolled₁.regular.held_put h.nodup₁ h.size₁ h.put₁ hs (by simp [held_infant])
  have hling : Lingers (uniform 9) (offering [(1, "api"), (2, "web")]) (offering [(1, "api")]) known a
      (infant "b") 1001 s := by
    refine ⟨hs, ?_, ?_, _, hrow, Draft.isLive_draft (.inr (by decide)) s, by simp [held_infant]⟩
    · rw [hid]
      decide
    · intro u hu
      exact absurd hu (hl₂.unique (lists_infant "b" 1001) ▸ List.not_mem_nil)
  have hat := hmet.serviceAt_eq_some_iff.mpr (h.exists_met_of_lingers hup₁ hup₂ hling)
  refine not_replacesAcross_of_shown h.put₁ h.put₂ hx (.inl rfl) hmet.regular.spared.toSound hat
    (exists_mem_services hs).1 ?_
  rw [hkind]
  decide

/-- The last of three announcements within a millisecond is dated past the next one. -/
theorem exists_burst : ∃ r a s x, Enrolled halfMinute r ∧
    (DynamicView.put 1000 halfMinute (uniform 9) (offering [(1, "api")])).run.run r =
      (.ok ((offering [(1, "api")]).toServices (uniform 9)), a) ∧
    s ∈ (offering [(1, "api")]).toServices (uniform 9) ∧ s.kind = "api" ∧
    a.held s.key = some x ∧ x.service? = some s ∧ x.isLive 1001 ∧ x.timestamp = 1002 := by
  have hv : (offering [(1, "api")]).flaw? = none := by decide
  have hnodup : ((offering [(1, "api")]).services.map (·.id)).Nodup := by decide
  have hsize : ∀ s ∈ (offering [(1, "api")]).toServices (uniform 9), s.encode.length < 2 ^ 64 :=
    length_encode_offering (by decide)
  have e₀ : Enrolled halfMinute (infant "a") := enrolled_infant (by decide) (by decide)
  obtain ⟨r₁, hput₁⟩ := e₀.regular.exists_put hv hsize 1000
  have e₁ := e₀.announce (by decide) hsize hput₁
  obtain ⟨r₂, hput₂⟩ := e₁.regular.exists_put hv hsize 1000
  have e₂ := e₁.announce (by decide) hsize hput₂
  obtain ⟨a, hput₃⟩ := e₂.regular.exists_put hv hsize 1000
  obtain ⟨s, hs, hkind⟩ : ∃ s ∈ (offering [(1, "api")]).toServices (uniform 9), s.kind = "api" :=
    ⟨_, List.mem_singleton_self _, rfl⟩
  -- each announcement is dated one past the one before, by a clock that stands still
  have h₁ := e₀.regular.held_put hnodup hsize hput₁ hs (by simp [held_infant])
  rw [held_infant] at h₁
  have h₂ := e₁.regular.held_put hnodup hsize hput₂ hs fun x hx => by
    cases h₁.symm.trans hx
    exact (by decide : (1000 : Instant) ≠ Int64.maxValue)
  rw [h₁] at h₂
  have h₃ := e₂.regular.held_put hnodup hsize hput₃ hs fun x hx => by
    cases h₂.symm.trans hx
    exact (by decide : Instant.latest 1000 (Instant.succ 1000) ≠ Int64.maxValue)
  rw [h₂] at h₃
  refine ⟨r₂, a, s, _, e₂, hput₃, hs, hkind, h₃, Entry.service?_of_value rfl,
    Draft.isLive_draft (.inr (by decide)) s, ?_⟩
  exact (by decide : Instant.latest 1000 (Instant.latest 1000 (Instant.succ 1000)).succ = 1002)

/-- Three announcements within a millisecond take the rows of the first node past the clock by which
the second makes its own. -/
theorem not_replacesAcross_burst : ∃ a₀, Enrolled halfMinute a₀ ∧ ¬ ReplacesAcross halfMinute
    (uniform 9) (offering [(1, "api")]) (offering [(1, "web")]) 1000 1001 1001 a₀ (infant "b") := by
  obtain ⟨r, a, s, x, er, hput, hs, hkind, hrow, hsvc, hlive, htime⟩ := exists_burst
  have ha := (er.announce (by decide) (length_encode_offering (by decide)) hput).regular
  have hsize : ∀ s ∈ (offering [(1, "web")]).toServices (uniform 9), s.encode.length < 2 ^ 64 :=
    length_encode_offering (by decide)
  have eb : Enrolled halfMinute (infant "b") := enrolled_infant (by decide) (by decide)
  obtain ⟨b, hput'⟩ := eb.regular.exists_put (by decide : (offering [(1, "web")]).flaw? = none) hsize 1001
  have hb := (eb.announce (by decide) hsize hput').regular
  obtain ⟨a', b', hx⟩ := exists_exchanged ha hb (Int64.le_refl 1001)
  have hmet : Entry.met (a.held s.key) (b.held s.key) = some x := by
    rw [Entry.met_comm (key_eq_key ha hb s.key), hrow]
    refine Entry.met_of_timestamp_lt (fun y hy => (hb.held hy).timed) (ha.held hrow).timed fun y hy => ?_
    rw [timestamp_put_infant eb (by decide) hsize hput' s.key y hy, htime]
    decide
  have hr := hx.showsMet ha hb a' (.inl rfl)
  refine ⟨r, er, not_replacesAcross_of_shown hput hput' hx (.inl rfl) hr.regular.spared.toSound
    (hr.serviceAt_eq_some_iff.mpr ⟨x, hmet, hlive, hsvc⟩) (exists_mem_services hs).1 ?_⟩
  rw [hkind]
  decide

/-- No merge takes what was written before the epoch. -/
theorem not_replacesAcross_before_epoch : ¬ ReplacesAcross halfMinute (uniform 9)
    (offering [(1, "api")]) (offering [(1, "web")]) (-5) (-4) (-4) (infant "a") (infant "b") := by
  have hsize : ∀ s ∈ (offering [(1, "api")]).toServices (uniform 9), s.encode.length < 2 ^ 64 :=
    length_encode_offering (by decide)
  have hsize' : ∀ s ∈ (offering [(1, "web")]).toServices (uniform 9), s.encode.length < 2 ^ 64 :=
    length_encode_offering (by decide)
  have ea : Enrolled halfMinute (infant "a") := enrolled_infant (by decide) (by decide)
  have eb : Enrolled halfMinute (infant "b") := enrolled_infant (by decide) (by decide)
  obtain ⟨a, hput₁, ha, -⟩ : ∃ a, (DynamicView.put (-5) _ (uniform 9) _).run.run (infant "a") = _ ∧ _ :=
    DynamicView.exists_put (stocked_infant "a") (by decide : (offering [(1, "api")]).flaw? = none)
      ea.regular.length_nodeId hsize (lists_infant "a" (-5))
  obtain ⟨b, hput₂, hb, -⟩ : ∃ b, (DynamicView.put (-4) _ (uniform 9) _).run.run (infant "b") = _ ∧ _ :=
    DynamicView.exists_put (stocked_infant "b") (by decide : (offering [(1, "web")]).flaw? = none)
      eb.regular.length_nodeId hsize' (lists_infant "b" (-4))
  obtain ⟨o, a', hp, ha', hheld⟩ := ha.exists_pull hb (-4) "b"
  obtain ⟨o', b', hq, -⟩ := hb.exists_pull ha (-4) "a"
  have hx : Exchanged (-4) (-4) a b a' b' :=
    .abreast (Int64.le_refl _) (Int64.le_refl _) (Int64.le_refl _) (Int64.le_refl _) hp hq
  obtain ⟨s, hs, hkind⟩ : ∃ s ∈ (offering [(1, "api")]).toServices (uniform 9), s.kind = "api" :=
    ⟨_, List.mem_singleton_self _, rfl⟩
  have hrow := ea.regular.held_put (by decide) hsize hput₁ hs (by simp [held_infant])
  -- what the second node has is dated before the epoch too, and is not admitted
  have hstays : a'.held s.key = a.held s.key := by
    rw [hheld]
    cases hy : b.held s.key with
    | none => rfl
    | some y =>
      have htime := timestamp_put_infant eb (by decide) hsize' hput₂ s.key y hy
      have hflaw : y.flaw? ≠ none := fun hf =>
        (Entry.flaw?_eq_none_iff.mp hf).2.2.2 (htime ▸ by decide)
      exact Entry.pulled_of_not_isAdmitted (by simp [Entry.isAdmitted, hflaw]) _
  have hat : a'.serviceAt (-4) s.key = some s := serviceAt_eq_some_iff.mpr
    ⟨_, hstays.trans hrow, Draft.isLive_draft (.inr (by decide)) s, Entry.service?_of_value rfl⟩
  refine not_replacesAcross_of_shown hput₁ hput₂ hx (.inl rfl)
    (ha'.toSound.spared_eq.symm ▸ ha'.toSound) hat (exists_mem_services hs).1 ?_
  rw [hkind]
  decide

/-- Without these conditions the later announcement does not replace the earlier one across nodes. -/
theorem not_replacesAcross : Enrolled halfMinute (infant "a") ∧ Enrolled halfMinute (infant "b") ∧
    ¬ ReplacesAcross halfMinute (uniform 9) (offering [(1, "api"), (2, "web")])
      (offering [(1, "api")]) 1000 1001 1001 (infant "a") (infant "b") ∧
    (∃ a₀, Enrolled halfMinute a₀ ∧ ¬ ReplacesAcross halfMinute (uniform 9)
      (offering [(1, "api")]) (offering [(1, "web")]) 1000 1001 1001 a₀ (infant "b")) ∧
    ¬ ReplacesAcross halfMinute (uniform 9) (offering [(1, "api")]) (offering [(1, "web")])
      (-5) (-4) (-4) (infant "a") (infant "b") :=
  ⟨enrolled_infant (by decide) (by decide), enrolled_infant (by decide) (by decide),
    not_replacesAcross_left_out, not_replacesAcross_burst, not_replacesAcross_before_epoch⟩

end Replica

end ServiceDirectory
