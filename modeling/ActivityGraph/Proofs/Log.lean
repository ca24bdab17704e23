import ActivityGraph.Proofs.Cell
import ActivityGraph.Proofs.Completion
import ActivityGraph.Proofs.Decision
import ActivityGraph.Proofs.Stall

namespace ActivityGraph

def Entry.resolves (k : Key) : Entry → Bool
  | .completed l .. => l = k
  | .abandoned l .. => l = k
  | _ => false

def Event.resolves (k : Key) : Event → Bool
  | .logged e => e.resolves k
  | _ => false

/-- The work of a node: its script runs, or the timer is up that was set in its place. -/
def Event.executes (k : Key) : Event → Bool
  | .ran l _ => l = k
  | .logged (.deadlineElapsed l _) => l = k
  | _ => false

def resolutions (k : Key) (j : List Event) : Nat := j.countP (Event.resolves k)

/-- How often the work of a node was begun. A timer counts from when it was set. -/
def Machine.executions (m : Machine) (k : Key) : Nat :=
  m.journal.countP (Event.executes k) + m.timers.countP fun t ↦ t.node = k

structure Logged (k : Key) (a b : Stage) : Prop where
  started : b.machine.executions k + startings k a.machine.journal =
    a.machine.executions k + startings k b.machine.journal
  resolved : b.after k + resolutions k a.machine.journal = a.after k + resolutions k b.machine.journal

namespace Logged

variable {k l : Key} {a b : Stage}

theorem of_eq (he : b.machine.executions k = a.machine.executions k)
    (hs : startings k b.machine.journal = startings k a.machine.journal) (ha : b.after k = a.after k)
    (hr : resolutions k b.machine.journal = resolutions k a.machine.journal) : Logged k a b :=
  ⟨by rw [he, hs], by rw [ha, hr]⟩

theorem of_resolved {e : Event} {g : Signal} {j : List Event} (ht : b.machine.timers = a.machine.timers)
    (hw : b.machine.world.rests k = a.machine.world.rests k) (ha : a.call.elim 0 (Call.settles k) = 0)
    (hb : b.call = some (.resolve l g)) (hj : b.machine.journal = e :: j) (he : e.resolves k = decide (l = k))
    (hstarts : e.starts k = false) (hexecutes : e.executes k = false)
    (hsame : ∀ p : Event → Bool, (p = Event.starts k ∨ p = Event.executes k ∨ p = Event.resolves k) →
      j.countP p = a.machine.journal.countP p) : Logged k a b where
  started := by
    have hs : startings k b.machine.journal = startings k a.machine.journal := by
      rw [startings, hj, List.countP_cons_of_neg (by simp [hstarts])]
      exact hsame _ (.inl rfl)
    have he : b.machine.executions k = a.machine.executions k := by
      rw [Machine.executions, hj, List.countP_cons_of_neg (by simp [hexecutes]), ht, hsame _ (.inr (.inl rfl)),
        Machine.executions]
    rw [hs, he]
  resolved := by
    rw [Stage.after, Stage.after, hw, ha, hb, resolutions, resolutions, hj, List.countP_cons, he,
      hsame _ (.inr (.inr rfl)), Option.elim_some, Call.settles]
    simp only [decide_eq_true_eq]
    omega

end Logged

theorem countP_reported {p : Event → Bool} (l : Key) (r : Except Payload Payload) (as : List Asked) (j : List Event)
    (ha : ∀ a, p (.asked l a) = false) (hr : p (.reported l r) = false) :
    ((as.map (Event.asked l)).reverse ++ .reported l r :: j).countP p = j.countP p := by
  rw [countP_asked l _ ha, List.countP_cons_of_neg (by simp [hr])]

theorem Stride.logged {a b : Stage} (hs : Stride a b) (ha : a.Reached) (k : Key) : Logged k a b := by
  have hsay := ha.say_le_one k
  cases hs with
  | @note m e he =>
    cases e with
    | described | replied => exact .of_eq rfl rfl rfl rfl
    | _ => simp [Event.mute] at he
  | insert hw | stored _ hw =>
    obtain ⟨t, -, rfl⟩ := World.store_eq hw
    exact .of_eq rfl rfl rfl rfl
  | @addNode m _ a c deps i s work =>
    obtain ⟨t, -, he⟩ := m.addNode_eq i a c deps s work
    rw [he]
    refine .of_eq ?_ (countP_wired _ _ (fun _ ↦ rfl) _) ?_ (countP_wired _ _ (fun _ ↦ rfl) _)
    · exact congrArg (· + _) (countP_wired _ _ (fun _ ↦ rfl) _)
    · exact World.rests_insert rfl (ha.sound.nodes.get?_fresh i) rfl k
  | @addTerminal m c deps i body =>
    obtain ⟨t, -, he⟩ := m.placeTerminal_eq i c deps body
    rw [he]
    refine .of_eq ?_ (countP_wired _ _ (fun _ ↦ rfl) _) rfl (countP_wired _ _ (fun _ ↦ rfl) _)
    exact congrArg (· + _) (countP_wired _ _ (fun _ ↦ rfl) _)
  | @addRoot m c i body =>
    obtain ⟨t, -, he⟩ := m.placeTerminal_eq i c [] body
    rw [he]
    exact .of_eq rfl rfl rfl rfl
  | @depend m l s b d =>
    obtain ⟨t, -, he⟩ := (m.world.setBarrier (.node l) d).drawEdge_eq s (.node l)
    rw [he]
    exact .of_eq rfl rfl rfl rfl
  | @timer m t i ht =>
    rw [Stage.during_mk] at hsay
    have hcount := Machine.countP_timers_eq ht (k := k) (by omega)
    refine ⟨?_, rfl⟩
    have hst : startings k (.logged (.deadlineElapsed t.node t.after) :: m.journal) = startings k m.journal := rfl
    simp only [Machine.executions, hst, List.countP_cons, Event.executes, decide_eq_true_eq]
    omega
  | @lost m c hc =>
    cases c with
    | resolve l g | announce l g =>
      -- only a node that is there is made final
      have hknows := ha.say_le k
      rw [Stage.after_mk] at hknows
      refine .of_eq rfl rfl (congrArg (m.world.rests k + ·) ?_) rfl
      by_cases hl : l = k
      · have hk : m.world.knows k = 0 := by rw [← hl, World.knows, show m.world.nodes.get? l = none from hc]; rfl
        simp only [Option.elim, Call.settles, if_pos hl] at hknows
        omega
      · simp [Call.settles, hl]
    | _ => exact .of_eq rfl rfl rfl rfl
  | @astray m x s | @refused m x s | @arrived m x s | @closed m x s => cases s <;> exact .of_eq rfl rfl rfl rfl
  | listed | begin => exact .of_eq rfl rfl (World.rests_modifyNode rfl (by intro _; rfl)) rfl
  | @abandon m l n =>
    refine .of_resolved (j := m.journal) rfl (World.rests_modifyNode rfl (by intro _; rfl)) rfl rfl rfl rfl rfl rfl ?_
    exact fun _ _ ↦ rfl
  | @start m l body hold r =>
    refine ⟨?_, rfl⟩
    have hst : startings k (.ran l r :: .logged (.started l (m.world.label (.node l))) :: m.journal) = _ :=
      startings_started k m.journal l _
    simp only [Machine.executions, hst, List.countP_cons, Event.executes, decide_eq_true_eq, Bool.false_eq_true, if_false]
    omega
  | @timed m l after =>
    refine ⟨?_, rfl⟩
    have hst : startings k (.timed l after :: .logged (.started l (m.world.label (.node l))) :: m.journal) = _ :=
      startings_started k m.journal l _
    simp only [Machine.executions, hst, List.countP_cons, List.countP_append, List.countP_nil,
      Event.executes, decide_eq_true_eq, Bool.false_eq_true, if_false]
    omega
  | @broken m l n r o =>
    have hsame {p : Event → Bool} := countP_reported (p := p) l r (n.policy.rule o).asked m.journal
    refine .of_eq ?_ (hsame (fun _ ↦ rfl) rfl) ?_ (hsame (fun _ ↦ rfl) rfl)
    · exact congrArg (· + _) (hsame (fun _ ↦ rfl) rfl)
    · exact World.rests_modifyNode rfl (by intro _; rfl)
  | @completed m l n r =>
    refine .of_resolved rfl (World.rests_modifyNode rfl (by intro _; rfl)) rfl rfl rfl rfl rfl rfl ?_
    rintro p (rfl | rfl | rfl) <;> exact countP_reported l r _ _ (fun _ ↦ rfl) rfl
  | @announce m l n g hl =>
    have hafter : Stage.after ⟨none, { m with
        world := m.world.modifyNode l fun n ↦ { n with signal := some g, listeners := [] } }⟩ k =
        Stage.after ⟨some (.announce l g), m⟩ k := by
      rw [Stage.after_mk, Stage.after_mk]
      by_cases hk : l = k
      · subst hk
        simp only [Stage.after_mk, Option.elim, Call.settles, if_true] at hsay ⊢
        have hrests : (m.world.modifyNode l fun n ↦ { n with signal := some g, listeners := [] }).rests l = 1 := by
          simp [World.rests, World.get?_modifyNode_self hl]
        omega
      · simp only [Option.elim, Call.settles, if_neg hk, World.rests, World.get?_modifyNode_of_ne hk]
    cases g <;> exact .of_eq rfl rfl hafter rfl
  | @unwound m f t => cases t.scope? <;> exact .of_eq rfl rfl rfl rfl
  | _ => exact .of_eq rfl rfl rfl rfl

namespace Stage.Reached

variable {a : Stage} {k : Key}

theorem startings_eq (h : a.Reached) (k : Key) : startings k a.machine.journal = a.machine.executions k := by
  refine h.invariant (P := fun a ↦ startings k a.machine.journal = a.machine.executions k) (fun _ ↦ rfl) ?_
  intro a b h ih hs
  have hl := (hs.logged h k).started
  omega

theorem resolutions_eq (h : a.Reached) (k : Key) : resolutions k a.machine.journal = a.after k := by
  refine h.invariant (P := fun a ↦ resolutions k a.machine.journal = a.after k) (fun _ ↦ rfl) ?_
  intro a b h ih hs
  have hl := (hs.logged h k).resolved
  omega

/-- Each event was written by a stride, after all that stands behind it in the journal. -/
theorem written_by (h : a.Reached) {i t : List Event} {e : Event} (hj : a.machine.journal = i ++ e :: t) :
    ∃ p q : Stage, p.Reached ∧ Stride p q ∧ q.Before a ∧ e.Marks p q ∧ p.machine.journal <:+ t := by
  revert i t
  refine h.invariant (P := fun a ↦ ∀ {i t}, a.machine.journal = i ++ e :: t →
    ∃ p q : Stage, p.Reached ∧ Stride p q ∧ q.Before a ∧ e.Marks p q ∧ p.machine.journal <:+ t) ?_ ?_
  · intro _ i t hj
    simp at hj
  · intro a b h ih hs i t hj
    obtain ⟨es, hes, hm⟩ := hs.emits
    have old (i' : List Event) (hj : a.machine.journal = i' ++ e :: t) :
        ∃ p q : Stage, p.Reached ∧ Stride p q ∧ q.Before b ∧ e.Marks p q ∧ p.machine.journal <:+ t := by
      obtain ⟨p, q, hp, hpq, hq, hmark, hsuf⟩ := ih hj
      exact ⟨p, q, hp, hpq, hq.tail hs, hmark, hsuf⟩
    rcases List.append_eq_append_iff.1 (hes.symm.trans hj) with ⟨i', -, ha⟩ | ⟨new, he, ha⟩
    · exact old i' ha
    · cases new with
      | nil => exact old [] ha.symm
      | cons e' new =>
        obtain ⟨rfl, rfl⟩ := List.cons.inj ha
        exact ⟨a, b, h, hs, .refl, hm e (by simp [he]), List.suffix_append _ _⟩

end Stage.Reached

/-- What the log says of the end of a node, as it is shown. -/
structure Entry.Tells (e : Entry) (w : World) (n : Node) : Prop where
  level : e.level = .debug
  fields : e.fields = [("collector", w.collectorName n.collector), ("activity", n.activity.label)]
  abandoned : e.message = "canceled" ↔ n.record = { canceled := true }
  canceled : e.message = "succeeded, canceled by predicate" ↔ n.record.errored
  succeeded : e.message = "succeeded" ↔ n.record.okay ∧ ¬ n.record.canceled
  failed : e.message = "failed" ↔ n.record.failed

theorem Entry.tells_abandoned (k : Key) {w : World} {n : Node} (h : n.record = { canceled := true }) :
    (Entry.abandoned k (w.collectorName n.collector) n.activity.label).Tells w n := by
  constructor <;> simp [level, fields, message, h, Record.errored, Record.okay, Record.failed, State.ending?]

theorem Entry.tells_completed (k : Key) {w : World} {n : Node} {ending : Ending}
    (h : n.record.state.ending? = some ending) :
    (Entry.completed k (w.collectorName n.collector) n.activity.label ending n.record.canceled).Tells w n := by
  have hne : n.record ≠ { canceled := true } := by
    intro he
    simp [he, State.ending?] at h
  cases ending <;> cases hc : n.record.canceled <;>
    constructor <;> simp [level, fields, message, hne, hc, Record.errored, Record.okay, Record.failed, h]

namespace Stage.Reached

variable {a p : Stage} {k : Key} {n : Node}

theorem collectorName_eq (h : p.Reached) (ha : p.Before a) (hn : p.machine.world.nodes.get? k = some n) :
    a.machine.world.collectorName n.collector = p.machine.world.collectorName n.collector := by
  obtain ⟨t, ht, -⟩ := h.declares hn
  obtain ⟨c, hc, -⟩ := Option.map_eq_some_iff.1 ht
  obtain ⟨d, hd, hr⟩ := ha.remains h hc
  rw [World.collectorName, World.collectorName, hc, hd]
  exact hr.name

theorem marked (h : a.Reached) {e : Entry} (he : .logged e ∈ a.machine.journal) (hk : e.resolves k) :
    ∃ n, a.machine.world.nodes.get? k = some n ∧
      ((e = .abandoned k (a.machine.world.collectorName n.collector) n.activity.label ∧
        n.record = { canceled := true }) ∨
      ∃ ending, e = .completed k (a.machine.world.collectorName n.collector) n.activity.label ending n.record.canceled) := by
  obtain ⟨i, t, hj⟩ := List.append_of_mem he
  obtain ⟨p, q, hp, hs, hq, hm, -⟩ := h.written_by hj
  have hpa : p.Before a := .head hs hq
  cases e with
  | abandoned l name label =>
    obtain rfl : l = k := of_decide_eq_true hk
    obtain ⟨n, hn, -, -, -, rfl, rfl⟩ := hm
    obtain ⟨o, ho, -, hrec, -⟩ := h.abandoned (k := l) (List.countP_pos_iff.2 ⟨_, he, Event.abandons_iff.2 ⟨_, _, rfl⟩⟩)
    obtain ⟨o', ho', -, hcol, hact⟩ := hpa.keeps_policy hp hn
    obtain rfl := Option.some.inj (ho.symm.trans ho')
    refine ⟨o, ho, .inl ⟨?_, hrec⟩⟩
    rw [hcol, hact, collectorName_eq hp hpa hn]
  | completed l name label ending canceled =>
    obtain rfl : l = k := of_decide_eq_true hk
    obtain ⟨n, r, o, hn, hc, ho, hqn, rfl, rfl, rfl⟩ := hm
    obtain ⟨n', hn', htake⟩ := hp.takes hc
    obtain rfl := Option.some.inj (hn.symm.trans hn')
    obtain rfl := Except.ok.inj (ho.symm.trans htake)
    have hne : (n.policy.rule { state := .ofResult r }).record ≠ {} := fun he ↦ by
      have hstate := congrArg Record.state he
      rw [Policy.rule_state] at hstate
      cases r <;> simp [State.ofResult] at hstate
    obtain ⟨o, ho, hrec⟩ := hq.keeps_record (hp.stride hs) hqn
    obtain ⟨o', ho', -, hcol, hact⟩ := hpa.keeps_policy hp hn
    obtain rfl := Option.some.inj (ho.symm.trans ho')
    refine ⟨o, ho, .inr ⟨ending, ?_⟩⟩
    rw [hrec hne, hcol, hact, collectorName_eq hp hpa hn]
  | _ => simp [Entry.resolves] at hk

theorem resolutions_of_shut (h : p.Reached) (ha : p.Before a) {x : Waiter} {c : Bool} (hx : x.bare = false)
    (hs : p.machine.world.Shut x c) {d : Key} (hd : .node d ∈ accepted x a.machine.journal) :
    resolutions d p.machine.journal = 1 := by
  rw [(ha.shut h hs).2] at hd
  obtain ⟨b, hb, -⟩ := h.resolved hx hs hd
  obtain ⟨n, hn, hg⟩ := Option.bind_eq_some_iff.1 hb
  have hrests : 0 < p.machine.world.rests d := World.rests_pos_iff.2 ⟨n, hn, _, hg⟩
  have hle := h.say_le_one d
  rw [h.resolutions_eq]
  unfold Stage.after at hle ⊢
  omega

end Stage.Reached

namespace Machine

/-- What the log says of a node, next to what has become of the node. -/
structure Chronicles (m : Machine) (k : Key) (n : Node) : Prop where
  started : startings k m.journal = m.executions k ∧ m.executions k ≤ 1
  start : ∀ e : Entry, .logged e ∈ m.journal → (Event.logged e).starts k →
    e.level = .debug ∧ e.message = "started" ∧ e.fields = [("activity", n.activity.label)]
  resolved : resolutions k m.journal = if n.signal.isSome then 1 else 0
  told : ∀ e : Entry, .logged e ∈ m.journal → e.resolves k → e.Tells m.world n
  /-- A start comes before the end, and there is none of a node that is abandoned. -/
  order : ∀ i e t, m.journal = i ++ .logged e :: t → e.resolves k →
    startings k i = 0 ∧ startings k t = if n.record = { canceled := true } then 0 else 1
  /-- Before a node is started or abandoned, all that it depends on has come to its end. -/
  behind : ∀ i e t, m.journal = i ++ .logged e :: t → (Event.logged e).starts k ∨ (Event.logged e).abandons k →
    ∀ d, .node d ∈ accepted (.node k) m.journal → resolutions d t = 1

variable {m : Machine} {k : Key} {n : Node}

theorem Reachable.resolutions_le (hm : m.Reachable) (k : Key) : resolutions k m.journal ≤ 1 := by
  have hle := hm.reached.say_le_one k
  have heq : resolutions k m.journal = Stage.after ⟨none, m⟩ k := hm.reached.resolutions_eq k
  omega

theorem Reachable.resolutions_of_suffix (hm : m.Reachable) {p : Stage} {i t : List Event} {e : Event}
    (hj : m.journal = i ++ e :: t) (ht : p.machine.journal <:+ t) (hp : resolutions k p.machine.journal = 1) :
    resolutions k t = 1 := by
  have hle := hm.resolutions_le k
  have hpt : resolutions k p.machine.journal ≤ resolutions k t := ht.sublist.countP_le
  have htm : resolutions k t ≤ resolutions k m.journal := by
    refine List.Sublist.countP_le ?_
    rw [hj]
    exact (List.sublist_cons_self e t).trans (List.sublist_append_right i _)
  omega

theorem Reachable.tells (hm : m.Reachable) (hn : m.world.nodes.get? k = some n) {e : Entry}
    (he : .logged e ∈ m.journal) (hk : e.resolves k) : e.Tells m.world n := by
  obtain ⟨n', hn', ⟨rfl, hrec⟩ | ⟨ending, rfl⟩⟩ := hm.reached.marked he hk
  · obtain rfl := Option.some.inj (hn.symm.trans hn')
    exact Entry.tells_abandoned k hrec
  · obtain rfl := Option.some.inj (hn.symm.trans hn')
    obtain ⟨r, hr, hend⟩ := hm.attested _ _ _ _ _ he
    obtain ⟨o, ho, -, hrec, -⟩ := hm.reached.reported hr
    obtain rfl := Option.some.inj (hn.symm.trans ho)
    refine Entry.tells_completed k ?_
    rw [hrec, Policy.rule_state, hend]

theorem Reachable.started_before (hm : m.Reachable) (hn : m.world.nodes.get? k = some n) {i t : List Event} {e : Entry}
    (hj : m.journal = i ++ .logged e :: t) (hk : e.resolves k) :
    startings k i = 0 ∧ startings k t = if n.record = { canceled := true } then 0 else 1 := by
  have h := hm.reached
  have hmem : .logged e ∈ m.journal := by simp [hj]
  have hdec : decisions k m.journal ≤ 1 := h.decisions_le k
  have hsum : startings k m.journal = startings k i + startings k t := by
    have he : (Event.logged e).starts k = false := by
      cases e with
      | started => simp [Entry.resolves] at hk
      | _ => rfl
    rw [hj, startings, List.countP_append, List.countP_cons_of_neg (by simp [he])]
    rfl
  unfold decisions at hdec
  obtain ⟨p, q, hp, hs, hq, hmark, hsuf⟩ := h.written_by hj
  have htold := hm.tells hn hmem hk
  cases e with
  | abandoned l name label =>
    have hrec := htold.abandoned.1 rfl
    obtain rfl : l = k := of_decide_eq_true hk
    have hab : 0 < abandonings l m.journal := List.countP_pos_iff.2 ⟨_, hmem, Event.abandons_iff.2 ⟨_, _, rfl⟩⟩
    rw [if_pos hrec]
    omega
  | completed l name label ending canceled =>
    have hrec : n.record ≠ { canceled := true } := fun hrec ↦ by
      have hmessage := htold.abandoned.2 hrec
      cases ending <;> cases canceled <;> simp [Entry.message] at hmessage
    obtain rfl : l = k := of_decide_eq_true hk
    obtain ⟨-, r, -, -, hc, -⟩ := hmark
    -- whoever completes a node does it for the start of the node
    have hdur := hp.during_le l
    have hone : 1 ≤ p.during l := by
      rw [Stage.during, hc]
      simp [Call.reports]
    have hle : startings l p.machine.journal ≤ startings l t := hsuf.sublist.countP_le
    rw [if_neg hrec]
    omega
  | _ => simp [Entry.resolves] at hk

theorem Reachable.resolved_before (hm : m.Reachable) {i t : List Event} {e : Entry}
    (hj : m.journal = i ++ .logged e :: t) (hk : (Event.logged e).starts k ∨ (Event.logged e).abandons k) {d : Key}
    (hd : .node d ∈ accepted (.node k) m.journal) : resolutions d t = 1 := by
  obtain ⟨p, q, hp, hs, hq, hmark, hsuf⟩ := hm.reached.written_by hj
  have hshut : ∃ c, p.machine.world.Shut (.node k) c := by
    rcases hk with hk | hk
    · obtain ⟨label, he⟩ := Event.starts_iff.1 hk
      obtain rfl := Event.logged.inj he
      obtain ⟨⟨j, hc⟩, -⟩ := hmark
      exact ⟨_, (hp.launched k).1 j hc⟩
    · obtain ⟨name, label, he⟩ := Event.abandons_iff.1 hk
      obtain rfl := Event.logged.inj he
      obtain ⟨-, -, hc, -⟩ := hmark
      exact ⟨_, hp.entered rfl hc⟩
  obtain ⟨c, hshut⟩ := hshut
  exact hm.resolutions_of_suffix hj hsuf (hp.resolutions_of_shut (.head hs hq) rfl hshut hd)

/-- The log tells the truth. It tells of the start of a node once if the work of the node was begun, and of the end
of a node once if the node is final, in the words that fit its record. It tells of a start before the end, and of the
ends of all dependencies before it tells that a node is started or abandoned or that a terminal has joined them. -/
theorem Reachable.log_truthful (hm : m.Reachable) :
    (∀ k n, m.world.nodes.get? k = some n → m.Chronicles k n) ∧
    ∀ i u name t, m.journal = i ++ .logged (.joined u name) :: t →
      ∀ d, .node d ∈ accepted (.terminal u) m.journal → resolutions d t = 1 := by
  have h := hm.reached
  constructor
  · intro k n hn
    refine ⟨⟨h.startings_eq k, ?_⟩, ?_, ?_, fun e he hk ↦ hm.tells hn he hk, fun i e t ↦ hm.started_before hn,
      fun i e t hj hk d hd ↦ hm.resolved_before hj hk hd⟩
    · have hdec := h.decisions_le k
      rw [← h.startings_eq]
      unfold decisions at hdec
      omega
    · intro e he hk
      obtain ⟨label, hl⟩ := Event.starts_iff.1 hk
      obtain rfl := Event.logged.inj hl
      obtain ⟨i, t, hj⟩ := List.append_of_mem he
      obtain ⟨p, q, hp, hs, hq, ⟨⟨j, hc⟩, -, rfl⟩, -⟩ := h.written_by hj
      obtain ⟨o, ho⟩ : ∃ o, p.machine.world.nodes.get? k = some o := by
        obtain ⟨b, hb, -⟩ := (hp.launched k).1 j hc
        exact Option.isSome_iff_exists.1 ((hp.sound.isSome_node k).symm.trans (Option.isSome_of_eq_some hb))
      obtain ⟨n', hn', -, -, hact⟩ := Stage.Before.keeps_policy (.head hs hq) hp ho
      obtain rfl := Option.some.inj (hn.symm.trans hn')
      refine ⟨rfl, rfl, ?_⟩
      rw [Entry.fields, World.label_node ho, hact]
    · have heq : resolutions k m.journal = Stage.after ⟨none, m⟩ k := h.resolutions_eq k
      rw [heq, Stage.after_mk, World.rests, hn]
      cases hg : n.signal <;> simp [hg]
  · intro i u name t hj d hd
    obtain ⟨p, q, hp, hs, hq, ⟨c, hc⟩, hsuf⟩ := h.written_by hj
    exact hm.resolutions_of_suffix hj hsuf (hp.resolutions_of_shut (.head hs hq) rfl (hp.entered rfl hc) hd)

end Machine

/-- The log tells that the third node is canceled after it has told of the ends of both nodes before it, and that the
terminal has joined them after all three. -/
theorem Sample.log_of_abandoned :
    ∃ n, (machine 8).world.nodes.get? ⟨"c", 0⟩ = some n ∧ (machine 8).Chronicles ⟨"c", 0⟩ n ∧
      resolutions ⟨"c", 0⟩ (machine 8).journal = 1 ∧ startings ⟨"c", 0⟩ (machine 8).journal = 0 ∧
      (∃ i e t, (machine 8).journal = i ++ .logged e :: t ∧ e.message = "canceled" ∧
        resolutions ⟨"a", 0⟩ t = 1 ∧ resolutions ⟨"b", 0⟩ t = 1) ∧
      ∃ i name t, (machine 8).journal = i ++ .logged (.joined ⟨"t", 0⟩ name) :: t ∧ resolutions ⟨"c", 0⟩ t = 1 := by
  obtain ⟨hnodes, hterminals⟩ := (reachable 8).log_truthful
  have hsome : ((machine 8).world.nodes.get? ⟨"c", 0⟩).isSome := by decide +kernel
  obtain ⟨n, hn⟩ := Option.isSome_iff_exists.1 hsome
  have hlog := hnodes _ n hn
  refine ⟨n, hn, hlog, by decide +kernel, by decide +kernel, ?_, ?_⟩
  · have hab : 0 < abandonings ⟨"c", 0⟩ (machine 8).journal := by decide +kernel
    obtain ⟨e, he, hk⟩ := List.countP_pos_iff.1 hab
    obtain ⟨name, label, rfl⟩ := Event.abandons_iff.1 hk
    obtain ⟨i, t, hj⟩ := List.append_of_mem he
    have hbehind := hlog.behind i _ t hj (.inr hk)
    exact ⟨i, _, t, hj, rfl, hbehind _ (by decide +kernel), hbehind _ (by decide +kernel)⟩
  · have he : .logged (.joined ⟨"t", 0⟩ "g") ∈ (machine 8).journal :=
      List.mem_of_getElem? (rfl : (machine 8).journal[1]? = some (.logged (.joined ⟨"t", 0⟩ "g")))
    obtain ⟨i, t, hj⟩ := List.append_of_mem he
    exact ⟨i, "g", t, hj, hterminals i _ _ t hj _ (by decide +kernel)⟩

end ActivityGraph
