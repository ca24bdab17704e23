import ActivityGraph.Proofs.Cell
import ActivityGraph.Proofs.Declared
import ActivityGraph.Proofs.Once

namespace ActivityGraph

/-- A predicate breaks down over a report, with what the record has got by then. -/
inductive Policy.Breaks (p : Policy) (text : String) : Except Payload Payload → Outcome → Prop
  | cancelIf {j : Judge} {s : Payload} (hj : p.cancelIf = some j) (hb : j.test s = .broken text) :
      Breaks p text (.ok s) ⟨.success s, false⟩
  | ifErrored {j i : Judge} {s : Payload} (hj : p.cancelIf = some j) (ht : j.test s = .holds true)
      (hi : p.ifErrored = some i) (hb : i.test s = .broken text) : Breaks p text (.ok s) ⟨.success s, true⟩
  | ifFailed {i : Judge} {f : Payload} (hr : p.required) (hi : p.ifFailed = some i) (hb : i.test f = .broken text) :
      Breaks p text (.error f) ⟨.failure f, true⟩

namespace Policy

variable {p : Policy} {text : String} {r : Except Payload Payload} {o : Outcome}

theorem Breaks.rule (h : p.Breaks text r o) :
    (p.rule { state := .ofResult r }).signal = .error text ∧ (p.rule { state := .ofResult r }).record = o := by
  cases h with
  | cancelIf hj hb => simp [Policy.rule, rejects, consult, State.ofResult, hj, hb]
  | ifErrored hj ht hi hb => simp [Policy.rule, rejects, cascades, consult, State.ofResult, hj, ht, hi, hb, Record.cancel]
  | ifFailed hr hi hb => simp [Policy.rule, rejects, cascades, consult, State.ofResult, hr, hi, hb, Record.cancel]

theorem exists_judge {judge : Option Judge} {absent : Bool} {v : Payload} {d : Verdict}
    (h : (consult judge absent v).2 = d) (hd : d ≠ .holds absent) : ∃ j, judge = some j ∧ j.test v = d := by
  cases judge with
  | none => exact absurd h.symm hd
  | some j => exact ⟨j, rfl, h⟩

/-- A ruling breaks off at the first question or, with the record canceled by then, at the second. -/
theorem rule_broken {o : Outcome} (h : (p.rule o).signal = .error text) :
    (p.rejects o.state).2 = .broken text ∧ (p.rule o).record = o ∨
    (p.rejects o.state).2 = .holds true ∧ (p.cascades o.state).2 = .broken text ∧ (p.rule o).record = o.cancel := by
  unfold rule at h ⊢
  generalize p.rejects o.state = first, p.cascades o.state = second at h ⊢
  obtain ⟨asked, d⟩ := first
  obtain ⟨more, e⟩ := second
  cases d with
  | broken t => exact .inl ⟨congrArg _ (Except.error.inj h), rfl⟩
  | holds b =>
    cases b with
    | false => simp at h
    | true =>
      cases e with
      | holds b => simp at h
      | broken t => exact .inr ⟨rfl, congrArg _ (Except.error.inj h), rfl⟩

theorem breaks_of_rule (h : (p.rule { state := .ofResult r }).signal = .error text) :
    p.Breaks text r (p.rule { state := .ofResult r }).record := by
  cases r with
  | ok s =>
    rcases rule_broken h with ⟨hb, ho⟩ | ⟨ht, hb, ho⟩
    · obtain ⟨j, hj, hb⟩ := exists_judge hb (by simp)
      rw [ho]
      exact .cancelIf hj hb
    · obtain ⟨j, hj, ht⟩ := exists_judge ht (by simp)
      obtain ⟨i, hi, hb⟩ := exists_judge hb (by simp)
      rw [ho]
      exact .ifErrored hj ht hi hb
  | error f =>
    rcases rule_broken h with ⟨hb, -⟩ | ⟨hr, hb, ho⟩
    · simp [rejects, State.ofResult] at hb
    · obtain ⟨i, hi, hb⟩ := exists_judge hb (by simp)
      rw [ho]
      exact .ifFailed (Verdict.holds.inj hr) hi hb

end Policy

namespace Machine

variable {m : Machine} {k : Key} {n : Node} {r : Except Payload Payload}

theorem complete_broken {text : String} {o : Outcome} (hn : m.world.nodes.get? k = some n) (hz : n.record = {})
    (hb : n.policy.Breaks text r o) :
    (m.complete k r).world = m.world.modifyNode k (fun n ↦ { n with record := o }) ∧
      .reported k r ∈ (m.complete k r).journal := by
  obtain ⟨hsignal, hrecord⟩ := hb.rule
  have hreport : n.record.report r = .ok { state := .ofResult r } := by rw [hz]; rfl
  let asked := (n.policy.rule { state := .ofResult r }).asked.map (Event.asked k)
  let q := ((m.modifyNode k fun n ↦ { n with record := o }).noteAll (.reported k r :: asked)).note
    (.unwound (.broken text) (.ruling k))
  have hq : m.complete k r = q.raise (.broken text) := by
    simp only [complete, hn, hreport, hsignal, hrecord]
    rfl
  have hspares : Spares q (q.raise (.broken text)) := spares_unwind _ q.stack q
  obtain ⟨es, hj, -⟩ := hspares.journal
  rw [hq, hspares.world, hj]
  simp only [q, noteAll_eq]
  exact ⟨rfl, by simp [note]⟩

theorem resolve_stored {g : Signal} {w : World} (hn : m.world.nodes.get? k = some n)
    (hw : m.world.store n.collector n.activity n.record = .ok w) :
    (m.resolve k g).world = w.modifyNode k (fun n ↦ { n with signal := some g, listeners := [] }) ∧
      (m.resolve k g).stack = .deliver (.node k) (g = .cancel) n.listeners :: m.stack := by
  simp only [resolve, hn, Machine.store, hw]
  cases g <;> exact ⟨rfl, rfl⟩

theorem complete_whole {g : Signal} (hn : m.world.nodes.get? k = some n) (hz : n.record = {})
    (hg : (n.policy.rule { state := .ofResult r }).signal = .ok g)
    (hd : m.world.Declares n.collector n.activity) :
    (m.complete k r).world.nodes.get? k =
        some { n with record := (n.policy.rule { state := .ofResult r }).record, signal := some g, listeners := [] } ∧
      (∀ d x, (m.complete k r).world.slot? d x =
        if n.collector = d ∧ n.activity = x then some (n.policy.rule { state := .ofResult r }).record
        else m.world.slot? d x) ∧
      (m.complete k r).stack = .deliver (.node k) (g = .cancel) n.listeners :: m.stack := by
  have hreport : n.record.report r = .ok { state := .ofResult r } := by rw [hz]; rfl
  generalize hruling : n.policy.rule { state := .ofResult r } = ruling at hg ⊢
  let p : Node := { n with record := ruling.record }
  obtain ⟨q, hq, hworld, hstack⟩ : ∃ q : Machine, m.complete k r = q.resolve k g ∧
      q.world = m.world.modifyNode k (fun n ↦ { n with record := ruling.record }) ∧ q.stack = m.stack := by
    simp only [complete, hn, hreport, hruling, hg, noteAll_eq]
    exact ⟨_, rfl, rfl, rfl⟩
  have hp : q.world.nodes.get? k = some p := by
    rw [hworld]
    exact World.get?_modifyNode_self hn _
  have hslot (d : Key) (x : Activity) : q.world.slot? d x = m.world.slot? d x := by rw [hworld]; rfl
  obtain ⟨w, hw⟩ := World.exists_store (w := q.world) (c := p.collector) (x := p.activity)
    (hd.of_slots (by rw [hworld]; rfl)) p.record
  obtain ⟨hresolve, htold⟩ := resolve_stored (g := g) hp hw
  have hwn : w.nodes.get? k = some p := by
    obtain ⟨t, -, rfl⟩ := World.store_eq hw
    exact hp
  rw [hq, hresolve, htold, hstack]
  refine ⟨World.get?_modifyNode_self hwn _, ?_, rfl⟩
  intro d x
  rw [← hslot]
  exact World.slot?_store hw d x

end Machine

theorem Stride.undue {a b : Stage} (hs : Stride a b) (ha : a.Reached) {k : Key} {n : Node}
    (hn : a.machine.world.nodes.get? k = some n) (h : a.due k + a.after k = 0) : b.due k + b.after k = 0 := by
  obtain ⟨loss, -, hl⟩ := hs.handed ha k
  have hc := (hs.carried ha k).after
  have hb := b.machine.world.knows_le k
  have hk : a.machine.world.knows k = 1 := by simp [World.knows, hn]
  unfold Stage.due at h ⊢
  unfold Handed at hl
  omega

/-- A node that is not final and never will be, although its record is complete. -/
structure Stage.Torn (a : Stage) (k : Key) (o : Outcome) : Prop where
  node : ∃ n, a.machine.world.nodes.get? k = some n ∧ n.record = o ∧ n.signal = none
  undue : a.due k + a.after k = 0

namespace Stage.Torn

variable {a b : Stage} {k : Key} {o : Outcome}

theorem stride (h : a.Torn k o) (ha : a.Reached) (hs : Stride a b) : b.Torn k o := by
  obtain ⟨⟨n, hn, hr, hg⟩, hz⟩ := h
  have hundue := hs.undue ha hn hz
  obtain ⟨p, hp, -, -, hr', -⟩ := hs.settled ha hn (Nat.eq_zero_of_add_eq_zero_right hz)
  refine ⟨⟨p, hp, hr'.trans hr, ?_⟩, hundue⟩
  exact World.signal_of_rests hp (Nat.eq_zero_of_add_eq_zero_right (Nat.eq_zero_of_add_eq_zero_left hundue))

theorem before (h : a.Torn k o) (ha : a.Reached) (hb : a.Before b) : b.Torn k o := by
  induction hb with
  | refl => exact h
  | tail hb hs ih => exact ih.stride (ha.before hb) hs

theorem unwritten (h : a.Torn k o) (ha : a.Reached) (c : Key) (x : Activity) (r : Outcome) :
    .wrote (some k) c x r ∉ a.machine.journal := by
  intro hw
  obtain ⟨⟨n, hn, -, hg⟩, hz⟩ := h
  have hmem : (c, x, r) ∈ a.machine.journal.filterMap (Event.stored? k) :=
    List.mem_filterMap.2 ⟨_, hw, by simp [Event.stored?]⟩
  have hcall : a.call.any (Call.announces k) = false := by
    cases hc : a.call with
    | none => rfl
    | some d =>
      cases d with
      | announce l g =>
        have hl : l ≠ k := by
          rintro rfl
          simp [Stage.after, hc, Call.settles] at hz
        simp [Call.announces, hl]
      | _ => rfl
  rw [ha.filterMap_stored, Stage.stored?, hn] at hmem
  simp [hg, hcall] at hmem

theorem untold (h : a.Torn k o) (ha : a.Reached) (x : Waiter) (c : Bool) : .told x (.node k) c ∉ a.machine.journal := by
  intro ht
  obtain ⟨⟨n, hn, -, hg⟩, -⟩ := h
  have hsays := ha.honest.heard x (.node k) c ht
  rw [World.Says, World.final?_node hn, hg] at hsays
  simp at hsays

end Stage.Torn

theorem Stage.Before.within {m : Machine} {a : Stage} (h : Stage.Before ⟨none, m⟩ a) :
    ∃ p, Stage.Before ⟨none, m⟩ ⟨none, p⟩ ∧ Within p a := by
  induction h with
  | refl => exact ⟨m, .refl, .here⟩
  | @tail b c hb hs ih =>
    obtain ⟨p, hp, hw⟩ := ih
    by_cases hc : b.call = none ∨ c.call ≠ none
    · exact ⟨p, hp, hw.next hs hc⟩
    · obtain ⟨-, hc⟩ := not_or.1 hc
      obtain ⟨call, q⟩ := c
      obtain rfl : call = none := not_not.1 hc
      exact ⟨q, hb.tail hs, .here⟩

namespace Machine

/-- A report finds a node that is pending. If no predicate breaks down over it, the completion makes the record
final, stores it and then tells the listeners; record and signal stay. If one does, the record is complete all
the same, while the slots, the signal and the listeners are what they were; the node never stores its record, has
no signal and tells nobody, whatever comes. -/
theorem Reachable.completion_whole_or_torn {m : Machine} (hm : m.Reachable) {a : Stage}
    (ha : Stage.Before ⟨none, m⟩ a) {k : Key} {r : Except Payload Payload} (hc : a.call = some (.complete k r)) :
    ∃ n, a.machine.world.nodes.get? k = some n ∧ n.record = {} ∧ n.signal = none ∧
      ((∀ text o, ¬ n.policy.Breaks text r o) → ∃ o asked g,
        n.policy.rule { state := .ofResult r } = ⟨o, asked, .ok g⟩ ∧ o.state = .ofResult r ∧
        (a.machine.complete k r).world.nodes.get? k = some { n with record := o, signal := some g, listeners := [] } ∧
        (∀ c x, (a.machine.complete k r).world.slot? c x =
          if n.collector = c ∧ n.activity = x then some o else a.machine.world.slot? c x) ∧
        (a.machine.complete k r).stack = .deliver (.node k) (g = .cancel) n.listeners :: a.machine.stack ∧
        ∀ b : Stage, Stage.Before ⟨none, a.machine.complete k r⟩ b →
          ∃ p, b.machine.world.nodes.get? k = some p ∧ p.record = o ∧ p.signal = some g) ∧
      ∀ text o, n.policy.Breaks text r o →
        (a.machine.complete k r).world.nodes.get? k = some { n with record := o } ∧
        (∀ c x, (a.machine.complete k r).world.slot? c x = a.machine.world.slot? c x) ∧
        ∀ b : Stage, Stage.Before ⟨none, a.machine.complete k r⟩ b →
          (∃ p, b.machine.world.nodes.get? k = some p ∧ p.record = o ∧ p.signal = none) ∧
          (∀ c x e, .wrote (some k) c x e ∉ b.machine.journal) ∧ ∀ y e, .told y (.node k) e ∉ b.machine.journal := by
  have hr := hm.reached.before ha
  obtain ⟨p, hp, hw⟩ := ha.within
  obtain ⟨c, q⟩ := a
  obtain rfl : c = some (.complete k r) := hc
  have hdone : Stage.Reached ⟨none, q.complete k r⟩ := (hm.reached.before hp).before hw.complete.before
  obtain ⟨n, hn, -⟩ := hr.takes rfl
  have hdue : 0 < Stage.due ⟨some (.complete k r), q⟩ k := by
    simp only [Stage.due, Stage.during, Option.elim_some, Call.reports, if_true]
    omega
  have hz : n.record = {} := hr.untouched hn hdue
  have hsignal : n.signal = none := World.signal_of_rests hn (hr.rests_eq_zero (Nat.add_pos_left hdue _))
  refine ⟨n, hn, hz, hsignal, ?_, ?_⟩
  · intro hwhole
    cases hg : (n.policy.rule { state := .ofResult r }).signal with
    | error text => exact absurd (Policy.breaks_of_rule hg) (hwhole text _)
    | ok g =>
      obtain ⟨hnode, hslot, hstack⟩ := complete_whole hn hz hg (hr.declares hn)
      refine ⟨_, _, g, by rw [← hg], Policy.rule_state _ _, hnode, hslot, hstack, ?_⟩
      intro b hb
      have hundue := Stage.Settles.due (a := ⟨none, q.complete k r⟩) (g := g) (.inl rfl) hnode hdone
      obtain ⟨p, hp, -, -, hrecord, -⟩ := hb.settled hdone hnode hundue
      have hfinal := hb.final hdone (World.final?_node hnode)
      exact ⟨p, hp, hrecord, (World.final?_node hp).symm.trans hfinal⟩
  · intro text o hbreaks
    obtain ⟨hworld, hj⟩ := complete_broken hn hz hbreaks
    have hnode : (q.complete k r).world.nodes.get? k = some { n with record := o } := by
      rw [hworld]
      exact World.get?_modifyNode_self hn _
    have htorn : Stage.Torn ⟨none, q.complete k r⟩ k o := by
      obtain ⟨-, -, hundue, -⟩ := hdone.reported hj
      have hrests : (q.complete k r).world.rests k = 0 := by simp [World.rests, hnode, hsignal]
      exact ⟨⟨_, hnode, rfl, hsignal⟩, by rw [hundue, Stage.after_mk, hrests]; rfl⟩
    refine ⟨hnode, fun c x ↦ by rw [hworld]; rfl, ?_⟩
    intro b hb
    have hlater := htorn.before hdone hb
    have hrb := hdone.before hb
    exact ⟨hlater.node, hlater.unwritten hrb, hlater.untold hrb⟩

end Machine

namespace Sample

/-- A node whose policy breaks down over every success, and a node behind it. -/
def fragile : Machine := Machine.play { catalogue := [("alpha", alpha), ("beta", beta)] } [
  ⟨"start", false, .start "s" "s" ["alpha", "beta"] .null⟩,
  ⟨"perform", false, .perform "a" "alpha" "s" ["s"] (some [.cancelIf fun _ ↦ .broken "boom"])
    (.script [] true .null)⟩,
  ⟨"perform", false, .perform "b" "beta" "s" ["a"] none (.script [] true .null)⟩,
  ⟨"run", false, .run "s"⟩]

theorem fragile_reachable : fragile.Reachable := ⟨_, .play rfl _⟩

def success : Line Action := ⟨"success", false, .report (some "a") ⟨.success, some (.int 7)⟩⟩

def torn : Machine := (Scenario.report fragile {} success).2

/-- The record of the first node is complete, but its slot is empty, it has no signal, and the second node, which
waits for it, was not told. -/
theorem torn_half_done :
    fragile.stack = [] ∧ (fragile.world.nodes.get? ⟨"a", 0⟩).map Node.record = some {} ∧ torn.stack = [] ∧
    (torn.world.nodes.get? ⟨"a", 0⟩).map (fun n ↦ (n.record, n.signal, n.listeners)) =
      some (⟨.success (.int 7), false⟩, none, [.node ⟨"b", 0⟩]) ∧
    torn.world.slot? ⟨"s", 0⟩ alpha = none ∧
    accepted (.node ⟨"b", 0⟩) torn.journal = [.node ⟨"a", 0⟩] ∧ heard (.node ⟨"b", 0⟩) torn.journal = [] := by
  refine ⟨Machine.stack_play rfl _, by decide +kernel, Machine.stack_finish _, ?_⟩
  decide +kernel

def reporting : Machine :=
  (Machine.takeCompletion { fragile with stack := [.guard ⟨none, "success"⟩] } "a").push
    (.answer ⟨none, "success"⟩ (.now .nothing))

theorem reporting_before :
    Stage.Before ⟨none, fragile⟩ ⟨some (.complete ⟨"a", 0⟩ (.ok (.int 7))), reporting⟩ := by
  have hs : fragile.stack = [] := Machine.stack_play rfl _
  have hk : fragile.desk.completions.get? "a" = some ⟨"a", 0⟩ := by decide +kernel
  let guarded : Machine := { fragile with stack := [.guard ⟨none, "success"⟩] }
  have hguard : Stride ⟨none, fragile⟩ ⟨none, fragile.push (.guard ⟨none, "success"⟩)⟩ :=
    .push rfl (by simp [Machine.Free, hs])
  have hpush : fragile.push (.guard ⟨none, "success"⟩) = guarded := by rw [Machine.push, hs]
  have hanswer : Stride ⟨none, guarded⟩ ⟨none, guarded.push (.answer ⟨none, "success"⟩ (.now .nothing))⟩ :=
    .push rfl (by simp [Machine.Free, guarded])
  have hreport : Stride ⟨none, guarded.push (.answer ⟨none, "success"⟩ (.now .nothing))⟩
      ⟨some (.complete ⟨"a", 0⟩ (.ok (.int 7))), reporting⟩ :=
    .report (.ok (.int 7)) hk (by simp [Machine.Free, guarded, Machine.push])
  rw [hpush] at hguard
  exact ((Relation.ReflTransGen.single hguard).tail hanswer).tail hreport

theorem torn_for_good :
    torn.Reachable ∧ ∀ n, Machine.Later torn n →
      (∃ p, n.world.nodes.get? ⟨"a", 0⟩ = some p ∧ p.record = ⟨.success (.int 7), false⟩ ∧ p.signal = none) ∧
      (∀ c x e, .wrote (some ⟨"a", 0⟩) c x e ∉ n.journal) ∧ ∀ y e, .told y (.node ⟨"a", 0⟩) e ∉ n.journal := by
  have hs : fragile.stack = [] := Machine.stack_play rfl _
  have hstart : Scenario.start fragile {} success = reporting.complete ⟨"a", 0⟩ (.ok (.int 7)) := rfl
  have htorn : Machine.Later (Scenario.start fragile {} success) torn := Machine.Later.run _ _
  obtain ⟨n, hn, -, -, -, hbroken⟩ := fragile_reachable.completion_whole_or_torn reporting_before rfl
  have hpolicy : n.policy.Breaks "boom" (.ok (.int 7)) ⟨.success (.int 7), false⟩ := by
    have htest : ((fragile.world.nodes.get? ⟨"a", 0⟩).bind fun n ↦ n.policy.cancelIf).map (fun j ↦ j.test (.int 7)) =
        some (.broken "boom") := by decide +kernel
    have hn : fragile.world.nodes.get? ⟨"a", 0⟩ = some n := hn
    obtain ⟨j, hj, hb⟩ := Option.map_eq_some_iff.1 htest
    rw [hn, Option.bind_some] at hj
    exact .cancelIf hj hb
  obtain ⟨-, -, hlater⟩ := hbroken _ _ hpolicy
  refine ⟨?_, ?_⟩
  · obtain ⟨catalogue, h⟩ := fragile_reachable
    exact ⟨catalogue, h.trans (Machine.Later.report hs {} success)⟩
  · intro m hm
    rw [hstart] at htorn
    exact hlater _ (Machine.Later.before (htorn.trans hm))

end Sample

end ActivityGraph
