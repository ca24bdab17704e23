import ActivityGraph.Proofs.Life
import ActivityGraph.Proofs.Slot

namespace ActivityGraph

theorem Policy.rule_state (p : Policy) (r : Outcome) : (p.rule r).record.state = r.state := by
  unfold Policy.rule
  split
  · rfl
  · rfl
  · split <;> rfl

/-- Who could still start a node or report for it. -/
def Stage.due (a : Stage) (k : Key) : Nat := a.before k + a.during k

/-- A stride that writes the record of a node is the last that has the say about the node. -/
structure Stride.Writes (a b : Stage) (k : Key) : Prop where
  before : 0 < a.due k
  after : b.due k = 0
  cause : 0 < abandonings k b.machine.journal ∨ 0 < reportings k b.machine.journal

structure Stride.Keeps (a b : Stage) (k : Key) (n p : Node) : Prop where
  policy : p.policy = n.policy
  place : p.collector = n.collector ∧ p.activity = n.activity
  job : p.job = n.job ∨ p.job = none
  record : p.record = n.record ∨ Stride.Writes a b k
  signal : ∀ g, n.signal = some g → p.signal = some g
  /-- Only the last stride of a call makes something final. -/
  same : a.call = none ∨ b.call ≠ none → p.signal = n.signal
  told : p.signal = n.signal ∨ ∃ g, a.call = some (.announce k g)
  listeners : (n.signal.isSome → n.listeners = []) → p.signal.isSome → p.listeners = []

theorem Stride.Keeps.of_eq {a b : Stage} {k : Key} {n p : Node} (hp : p.policy = n.policy)
    (hc : p.collector = n.collector ∧ p.activity = n.activity) (hj : p.job = n.job ∨ p.job = none)
    (hr : p.record = n.record ∨ Stride.Writes a b k) (hs : p.signal = n.signal)
    (hl : p.listeners = n.listeners) : Stride.Keeps a b k n p :=
  ⟨hp, hc, hj, hr, fun _ hg ↦ hs.trans hg, fun _ ↦ hs, .inl hs, fun h hg ↦ hl.trans (h (hs ▸ hg))⟩

theorem Stride.Keeps.refl (a b : Stage) (k : Key) (n : Node) : Stride.Keeps a b k n n :=
  .of_eq rfl ⟨rfl, rfl⟩ (.inl rfl) (.inl rfl) rfl rfl

theorem Stage.Reached.rests_eq_zero {a : Stage} (h : a.Reached) {k : Key}
    (hc : 0 < a.due k + a.call.elim 0 (Call.settles k)) :
    a.machine.world.rests k = 0 := by
  have hs := h.say_le_one k
  unfold Stage.due at hc
  unfold Stage.after at hs
  omega

theorem World.signal_of_rests {w : World} {k : Key} {n : Node} (hn : w.nodes.get? k = some n)
    (hw : w.rests k = 0) : n.signal = none := by
  rw [rests, hn] at hw
  cases hs : n.signal with
  | none => rfl
  | some g => simp [hs] at hw

theorem Stage.Reached.writes_of_complete {m n : Machine} {c : Option Call} {k : Key} {r : Except Payload Payload}
    (h : Stage.Reached ⟨some (.complete k r), m⟩) (hw : n.world.waits k = m.world.waits k)
    (hs : n.stack = m.stack) (hd : n.desk = m.desk) (ht : n.timers = m.timers)
    (hp : c.elim 0 (Call.prepares k) = 0) (hr : c.elim 0 (Call.reports k) = 0) (hj : .reported k r ∈ n.journal) :
    Stride.Writes ⟨some (.complete k r), m⟩ ⟨c, n⟩ k := by
  have hle := h.say_le_one k
  refine ⟨?_, ?_, .inr (reportings_pos.2 ⟨r, hj⟩)⟩ <;>
    simp only [Stage.due, Stage.before_mk, Stage.during_mk, hw, hs, hd, ht, hp, hr, Option.elim_some, Call.reports,
      Call.prepares, if_true] at hle ⊢ <;>
    omega

theorem World.exists_modifyNode {w : World} {k : Key} {n : Node} (hn : w.nodes.get? k = some n) (l : Key)
    (f : Node → Node) {P : Node → Prop} (hk : l = k → P (f n)) (hl : P n) :
    ∃ p, (w.modifyNode l f).nodes.get? k = some p ∧ P p := by
  by_cases h : l = k
  · subst h
    exact ⟨f n, get?_modifyNode_self hn f, hk rfl⟩
  · exact ⟨n, (get?_modifyNode_of_ne h f).trans hn, hl⟩

theorem Stride.node {a b : Stage} (hs : Stride a b) (ha : a.Reached) {k : Key} {n : Node}
    (hn : a.machine.world.nodes.get? k = some n) :
    ∃ p, b.machine.world.nodes.get? k = some p ∧ Stride.Keeps a b k n p := by
  have hb := (ha.stride hs).say_le_one k
  cases hs with
  | insert hw | stored _ hw =>
    obtain ⟨t, -, rfl⟩ := World.store_eq hw
    exact ⟨n, hn, .refl ..⟩
  | @addNode m _ a c deps i s work =>
    obtain ⟨t, -, he⟩ := m.addNode_eq i a c deps s work
    rw [he]
    refine ⟨n, ?_, .refl ..⟩
    exact (Table.get?_insert ..).trans (by rw [hn, Option.some_or])
  | @addTerminal m c deps i body =>
    obtain ⟨t, -, he⟩ := m.placeTerminal_eq i c deps body
    rw [he]
    exact ⟨n, hn, .refl ..⟩
  | @addRoot m c i body =>
    obtain ⟨t, -, he⟩ := m.placeTerminal_eq i c [] body
    rw [he]
    exact ⟨n, hn, .refl ..⟩
  | @depend m l s b d =>
    obtain ⟨t, -, he⟩ := (m.world.setBarrier (.node l) d).drawEdge_eq s (.node l)
    rw [he]
    exact ⟨n, hn, .refl ..⟩
  | begin => exact World.exists_modifyNode hn _ _ (fun _ ↦ .of_eq rfl ⟨rfl, rfl⟩ (.inr rfl) (.inl rfl) rfl rfl) (.refl ..)
  | listed hl hg =>
    refine World.exists_modifyNode hn _ _
      (fun hk ↦ ⟨rfl, ⟨rfl, rfl⟩, .inl rfl, .inl rfl, fun _ ↦ id, fun _ ↦ rfl, .inl rfl, fun _ hi ↦ ?_⟩) (.refl ..)
    obtain rfl := Option.some.inj ((hk ▸ hl).symm.trans hn)
    simp [hg] at hi
  | @abandon m l =>
    refine World.exists_modifyNode hn _ _ (fun hk ↦ .of_eq rfl ⟨rfl, rfl⟩ (.inr rfl) (.inr ?_) rfl rfl) (.refl ..)
    subst hk
    have hw : m.world.waits l = 1 := ha.waits_of_enters rfl
    refine ⟨?_, ?_, .inl (by simp [abandonings, Event.abandons])⟩
    · rw [Stage.due, Stage.before_mk, hw]
      omega
    · simp only [Stage.after_mk, Option.elim_some, Call.settles, if_true] at hb
      unfold Stage.due
      omega
  | broken | completed =>
    refine World.exists_modifyNode hn _ _ (fun hk ↦ .of_eq rfl ⟨rfl, rfl⟩ (.inl rfl) (.inr ?_) rfl rfl) (.refl ..)
    subst hk
    exact ha.writes_of_complete (World.waits_modifyNode rfl (by intro _; rfl)) rfl rfl rfl rfl rfl (by simp)
  | @announce m l n' g =>
    refine World.exists_modifyNode hn _ _
      (fun hk ↦ ⟨rfl, ⟨rfl, rfl⟩, .inl rfl, .inl rfl, fun g hg ↦ ?_, by simp, .inr ⟨g, by rw [hk]⟩, fun _ _ ↦ rfl⟩) (.refl ..)
    subst hk
    have hr := World.signal_of_rests hn (ha.rests_eq_zero (by simp [Call.settles]))
    exact absurd (hg.symm.trans hr) (by simp)
  | _ => exact ⟨n, hn, .refl ..⟩

def Stage.Settles (a : Stage) (k : Key) (n : Node) (g : Signal) : Prop :=
  n.signal = some g ∨ a.call = some (.resolve k g) ∨ a.call = some (.announce k g)

theorem Stage.Settles.signal_eq {m : Machine} {k : Key} {n : Node} {g : Signal} (h : Stage.Settles ⟨none, m⟩ k n g) :
    n.signal = some g := by
  simpa [Stage.Settles] using h

theorem Stage.Settles.due {a : Stage} {k : Key} {n : Node} {g : Signal} (h : a.Settles k n g)
    (hn : a.machine.world.nodes.get? k = some n) (ha : a.Reached) : a.due k = 0 := by
  have hs := ha.say_le_one k
  have hp : 0 < a.after k := by
    rcases h with h | h | h
    · have hr : a.machine.world.rests k = 1 := by simp [World.rests, hn, h]
      unfold Stage.after
      omega
    · simp [Stage.after, h, Call.settles]
    · simp [Stage.after, h, Call.settles]
  unfold Stage.due
  omega

theorem Stride.due {a b : Stage} (hs : Stride a b) (ha : a.Reached) {k : Key} {n : Node}
    (hn : a.machine.world.nodes.get? k = some n) (h : a.due k = 0) : b.due k = 0 := by
  have hk := hs.say_le ha k
  have hb := b.machine.world.knows_le k
  have hw : a.machine.world.knows k = 1 := by simp [World.knows, hn]
  unfold Stage.due at h ⊢
  omega

theorem Stride.settles {a b : Stage} (hs : Stride a b) (ha : a.Reached) {k : Key} {n : Node} {g : Signal}
    (hn : a.machine.world.nodes.get? k = some n) (h : a.Settles k n g) {p : Node}
    (hp : b.machine.world.nodes.get? k = some p) (hb : Stride.Keeps a b k n p) : b.Settles k p g := by
  rcases h with h | h | h
  · exact .inl (hb.signal g h)
  · cases hs with
    | relinquish => exact .inr (.inl h)
    | lost hc =>
      obtain rfl := Option.some.inj h
      exact absurd (hn.symm.trans hc) (by simp)
    | stored | unstored =>
      simp only [Option.some.injEq, Call.resolve.injEq] at h
      obtain ⟨rfl, rfl⟩ := h
      exact .inr (.inr rfl)
    | _ => simp at h
  · cases hs with
    | relinquish => exact .inr (.inr h)
    | lost hc =>
      obtain rfl := Option.some.inj h
      exact absurd (hn.symm.trans hc) (by simp)
    | announce =>
      simp only [Option.some.injEq, Call.announce.injEq] at h
      obtain ⟨rfl, rfl⟩ := h
      rw [World.get?_modifyNode_self hn] at hp
      exact .inl (Option.some.inj hp ▸ rfl)
    | _ => simp at h

theorem Stride.born {a b : Stage} (hs : Stride a b) {k : Key} {p : Node}
    (ha : a.machine.world.nodes.get? k = none) (hb : b.machine.world.nodes.get? k = some p) :
    p.record = {} ∧ p.signal = none ∧ p.listeners = [] ∧
      b.machine.world.Declares p.collector p.activity := by
  have old {v : World} (hv : v.nodes.get? k = none) : v.nodes.get? k ≠ some p := by simp [hv]
  have modified {l : Key} {f : Node → Node} : (a.machine.world.modifyNode l f).nodes.get? k = none := by
    rw [World.get?_modifyNode, ha]
    split <;> rfl
  cases hs with
  | insert hw | stored _ hw =>
    obtain ⟨t, -, rfl⟩ := World.store_eq hw
    exact absurd hb (old ha)
  | @addNode m _ a c deps i s work hc hd =>
    have hw := ((World.declares_iff hc).2 hd).of_slots (m.slots?_addNode c i a c deps s work)
    obtain ⟨t, -, he⟩ := m.addNode_eq i a c deps s work
    rw [he] at hb
    replace hb := (Table.get?_insert ..).symm.trans hb
    rw [ha, Option.none_or] at hb
    split at hb
    · exact Option.some.inj hb ▸ ⟨rfl, rfl, rfl, hw⟩
    · exact absurd hb (by simp)
  | @addTerminal m c deps i body =>
    obtain ⟨t, -, he⟩ := m.placeTerminal_eq i c deps body
    rw [he] at hb
    exact absurd hb (old ha)
  | @addRoot m c i body =>
    obtain ⟨t, -, he⟩ := m.placeTerminal_eq i c [] body
    rw [he] at hb
    exact absurd hb (old ha)
  | @depend m l s b d =>
    obtain ⟨t, -, he⟩ := (m.world.setBarrier (.node l) d).drawEdge_eq s (.node l)
    rw [he] at hb
    exact absurd hb (old ha)
  | listed | begin | abandon | broken | completed | announce => exact absurd hb (old modified)
  | _ => exact absurd hb (old ha)

theorem Stage.Reached.untouched {a : Stage} (h : a.Reached) {k : Key} {n : Node}
    (hn : a.machine.world.nodes.get? k = some n) (hd : 0 < a.due k) : n.record = {} := by
  refine h.invariant (P := fun a ↦ ∀ n, a.machine.world.nodes.get? k = some n → 0 < a.due k → n.record = {})
    (fun _ n hn ↦ by simp [Table.get?] at hn) (fun a b h ih hs p hp hd ↦ ?_) n hn hd
  cases hn : a.machine.world.nodes.get? k with
  | none => exact (hs.born hn hp).1
  | some n =>
    obtain ⟨q, hq, hk⟩ := hs.node h hn
    obtain rfl := Option.some.inj (hp.symm.trans hq)
    rcases hk.record with hr | hr
    · exact hr.trans (ih n hn (Nat.pos_of_ne_zero fun hz ↦ by simp [hs.due h hn hz] at hd))
    · exact absurd hr.after (Nat.ne_of_gt hd)

theorem Stride.settled {a b : Stage} (hs : Stride a b) (ha : a.Reached) {k : Key} {n : Node}
    (hn : a.machine.world.nodes.get? k = some n) (hd : a.due k = 0) :
    ∃ p, b.machine.world.nodes.get? k = some p ∧ b.due k = 0 ∧ p.policy = n.policy ∧ p.record = n.record ∧
      ∀ g, a.Settles k n g → b.Settles k p g := by
  obtain ⟨p, hp, hk⟩ := hs.node ha hn
  exact ⟨p, hp, hs.due ha hn hd, hk.policy, hk.record.resolve_right fun h ↦ Nat.ne_of_gt h.before hd,
    fun g hg ↦ hs.settles ha hn hg hp hk⟩

theorem Stage.Before.settled {a b : Stage} (h : a.Before b) (ha : a.Reached) {k : Key} {n : Node}
    (hn : a.machine.world.nodes.get? k = some n) (hd : a.due k = 0) :
    ∃ p, b.machine.world.nodes.get? k = some p ∧ b.due k = 0 ∧ p.policy = n.policy ∧ p.record = n.record ∧
      ∀ g, a.Settles k n g → b.Settles k p g := by
  induction h with
  | refl => exact ⟨n, hn, hd, rfl, rfl, fun _ ↦ id⟩
  | tail hb hs ih =>
    obtain ⟨p, hp, hd', hq, hr, hg⟩ := ih
    obtain ⟨q, hq', hd'', hq'', hr', hg'⟩ := hs.settled (ha.before hb) hp hd'
    exact ⟨q, hq', hd'', hq''.trans hq, hr'.trans hr, fun g ↦ hg' g ∘ hg g⟩

theorem Stage.Reached.abandoned {a : Stage} (h : a.Reached) {k : Key} (hk : 0 < abandonings k a.machine.journal) :
    ∃ n, a.machine.world.nodes.get? k = some n ∧ a.due k = 0 ∧ n.record = { canceled := true } ∧
      a.Settles k n .cancel := by
  refine h.invariant (P := fun a ↦ 0 < abandonings k a.machine.journal →
    ∃ n, a.machine.world.nodes.get? k = some n ∧ a.due k = 0 ∧ n.record = { canceled := true } ∧
      a.Settles k n .cancel) (fun _ hk ↦ by simp [abandonings] at hk) (fun a b h ih hs hk ↦ ?_) hk
  by_cases ha : 0 < abandonings k a.machine.journal
  · obtain ⟨n, hn, hd, hr, hg⟩ := ih ha
    obtain ⟨p, hp, hd', -, hr', hg'⟩ := hs.settled h hn hd
    exact ⟨p, hp, hd', hr'.trans hr, hg' _ hg⟩
  · obtain ⟨n, hn, hc, hb, hw⟩ := hs.of_abandonings (k := k) (by omega)
    have hs' : b.Settles k { n with job := none, record := n.record.cancel } .cancel := .inr (.inl hb)
    have hn' := World.get?_modifyNode_self hn fun n ↦ { n with job := none, record := n.record.cancel }
    rw [← hw] at hn'
    refine ⟨_, hn', hs'.due hn' (h.stride hs), ?_, hs'⟩
    have hwt := h.waits_of_enters hc
    have hz : n.record = {} := h.untouched hn (by unfold Stage.due Stage.before; omega)
    rw [hz]
    rfl

theorem Stage.Reached.reported {a : Stage} (h : a.Reached) {k : Key} {r : Except Payload Payload}
    (hk : .reported k r ∈ a.machine.journal) :
    ∃ n, a.machine.world.nodes.get? k = some n ∧ a.due k = 0 ∧
      n.record = (n.policy.rule { state := .ofResult r }).record ∧
      ∀ g, (n.policy.rule { state := .ofResult r }).signal = .ok g → a.Settles k n g := by
  refine h.invariant (P := fun a ↦ .reported k r ∈ a.machine.journal →
    ∃ n, a.machine.world.nodes.get? k = some n ∧ a.due k = 0 ∧
      n.record = (n.policy.rule { state := .ofResult r }).record ∧
      ∀ g, (n.policy.rule { state := .ofResult r }).signal = .ok g → a.Settles k n g)
    (fun _ hk ↦ by simp at hk) (fun a b h ih hs hk ↦ ?_) hk
  by_cases ha : .reported k r ∈ a.machine.journal
  · obtain ⟨n, hn, hd, hr, hg⟩ := ih ha
    obtain ⟨p, hp, hd', hq, hr', hg'⟩ := hs.settled h hn hd
    rw [← hq] at hr hg
    exact ⟨p, hp, hd', hr'.trans hr, fun g he ↦ hg' g (hg g he)⟩
  · obtain ⟨n, o, hn, hc, ho, hb, hg⟩ := hs.marks_of_new hk ha
    have hz : n.record = {} := h.untouched hn (by
      simp only [Stage.due, Stage.during, hc, Option.elim_some, Call.reports, if_true]
      omega)
    have hos : o = { state := .ofResult r } := by
      rw [hz] at ho
      exact (Except.ok.inj ho).symm
    subst hos
    obtain ⟨p, hp, hkeep⟩ := hs.node h hn
    obtain rfl := Option.some.inj (hb.symm.trans hp)
    -- a pending record does not take a report and stay as it is
    rcases hkeep.record with he | he
    · have hst := congrArg Record.state he
      rw [hz, Policy.rule_state] at hst
      cases r <;> simp [State.ofResult] at hst
    · exact ⟨_, hb, he.after, rfl, fun g he ↦ .inr (.inl (hg g he))⟩

end ActivityGraph
