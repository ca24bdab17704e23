import ActivityGraph.Proofs.Course.Step
import ActivityGraph.Proofs.Gating

namespace ActivityGraph

/-- The completions of a node that a script or a timer can still make. -/
def Machine.held (m : Machine) (k : Key) : Nat :=
  m.desk.completions.values.count k + m.timers.countP fun t ↦ t.node = k

/-- What has become of the record of a node, next to what the journal says of the node. -/
inductive Fate (j : List Event) (k : Key) (n : Node) : Prop
  | untouched (record : n.record = {}) (reported : reportings k j = 0) (abandoned : abandonings k j = 0)
  | reported (r : Except Payload Payload) (report : .reported k r ∈ j) (state : n.record.state = .ofResult r)
      (record : n.record = (n.policy.rule { state := .ofResult r }).record) (reported : reportings k j = 1)
      (started : startings k j = 1) (abandoned : abandonings k j = 0)
  | abandoned (record : n.record = { canceled := true }) (abandoned : abandonings k j = 1)
      (started : startings k j = 0) (reported : reportings k j = 0)

theorem Stride.of_reportings {a b : Stage} {k : Key} (hs : Stride a b)
    (h : reportings k a.machine.journal < reportings k b.machine.journal) : ∃ r, a.call = some (.complete k r) := by
  obtain ⟨e, he, hm⟩ := hs.marks_of_countP h
  obtain ⟨r, rfl⟩ := Event.reports_iff.1 he
  obtain ⟨n, o, -, hc, -⟩ := hm
  exact ⟨r, hc⟩

theorem Stride.reportings_le {a b : Stage} (hs : Stride a b) (k : Key) :
    reportings k b.machine.journal ≤ reportings k a.machine.journal + 1 := by
  by_contra hlt
  obtain ⟨r, hc⟩ := hs.of_reportings (k := k) (by omega)
  have asked (as : List Asked) (j : List Event) :
      reportings k ((as.map (Event.asked k)).reverse ++ .reported k r :: j) = reportings k j + 1 := by
    rw [reportings, countP_asked k _ (fun _ ↦ rfl), List.countP_cons]
    simp [reportings, Event.reports]
  obtain ⟨c, m⟩ := a
  obtain rfl := hc
  cases hs with
  | lost | repeated | relinquish => exact hlt (Nat.le_succ _)
  | broken | completed => exact hlt (Nat.le_of_eq (asked ..))

namespace Stage.Reached

variable {a : Stage} {k : Key} {n : Node}

theorem due_of_reportings (h : a.Reached) (hr : 0 < reportings k a.machine.journal) : a.due k = 0 := by
  obtain ⟨r, hr⟩ := reportings_pos.1 hr
  obtain ⟨p, -, hd, -⟩ := h.reported hr
  exact hd

theorem unstarted (h : a.Reached) (hk : startings k a.machine.journal = 0) : a.during k = 0 := by
  revert hk
  refine h.invariant (P := fun a ↦ startings k a.machine.journal = 0 → a.during k = 0) (fun _ _ ↦ rfl) ?_
  intro a b h ih hs hb
  have ha : startings k a.machine.journal ≤ startings k b.machine.journal := hs.countP_le _
  by_cases hab : 0 < abandonings k b.machine.journal
  · obtain ⟨p, -, hd, -⟩ := (h.stride hs).abandoned hab
    unfold Stage.due at hd
    omega
  · have hc := (hs.carried h k).during
    have := ih (by omega)
    unfold decisions at hc
    omega

theorem during_le (h : a.Reached) (k : Key) :
    a.during k + reportings k a.machine.journal ≤ startings k a.machine.journal := by
  refine h.invariant (P := fun a ↦ a.during k + reportings k a.machine.journal ≤ startings k a.machine.journal)
    (fun _ ↦ Nat.le_refl 0) ?_
  intro a b h ih hs
  have hb := h.stride hs
  have hone := hb.say_le_one k
  have hst : startings k a.machine.journal ≤ startings k b.machine.journal := hs.countP_le _
  by_cases hr : 0 < reportings k b.machine.journal
  · have hdue := hb.due_of_reportings hr
    unfold Stage.due at hdue
    by_cases hlt : reportings k a.machine.journal < reportings k b.machine.journal
    · -- the report comes from a completion, so the node was started and nothing was reported before
      obtain ⟨r, hc⟩ := hs.of_reportings hlt
      have hle := hs.reportings_le k
      have hpos : 0 < a.during k := by
        rw [Stage.during, hc]
        simp [Call.reports]
      omega
    · omega
  · by_cases hz : startings k b.machine.journal = 0
    · have := hb.unstarted hz
      omega
    · omega

theorem written (h : a.Reached) (hn : a.machine.world.nodes.get? k = some n) :
    n.record = {} ∨ 0 < abandonings k a.machine.journal ∨ 0 < reportings k a.machine.journal := by
  revert n
  refine h.invariant (P := fun a ↦ ∀ {n}, a.machine.world.nodes.get? k = some n →
    n.record = {} ∨ 0 < abandonings k a.machine.journal ∨ 0 < reportings k a.machine.journal) ?_ ?_
  · intro _ n hn
    simp [Table.get?] at hn
  · intro a b h ih hs p hp
    cases hn : a.machine.world.nodes.get? k with
    | none => exact .inl (hs.born hn hp).1
    | some n =>
      obtain ⟨q, hq, hk⟩ := hs.node h hn
      obtain rfl := Option.some.inj (hp.symm.trans hq)
      rcases hk.record with hr | hw
      · rw [hr]
        refine (ih hn).imp_right ?_
        rintro (ha | ha)
        · exact .inl (Nat.lt_of_lt_of_le ha (hs.countP_le _))
        · exact .inr (Nat.lt_of_lt_of_le ha (hs.countP_le _))
      · exact .inr hw.cause

theorem fate (h : a.Reached) (hn : a.machine.world.nodes.get? k = some n) : Fate a.machine.journal k n := by
  have hd := h.decisions_le k
  have hr := h.during_le k
  unfold decisions at hd
  by_cases hab : 0 < abandonings k a.machine.journal
  · obtain ⟨p, hp, -, hrec, -⟩ := h.abandoned hab
    obtain rfl := Option.some.inj (hn.symm.trans hp)
    exact .abandoned hrec (by omega) (by omega) (by omega)
  · by_cases hrep : 0 < reportings k a.machine.journal
    · obtain ⟨r, hmem⟩ := reportings_pos.1 hrep
      obtain ⟨p, hp, -, hrec, -⟩ := h.reported hmem
      obtain rfl := Option.some.inj (hn.symm.trans hp)
      refine .reported r hmem ?_ hrec (by omega) (by omega) (by omega)
      rw [hrec, Policy.rule_state]
    · refine .untouched ?_ (by omega) (by omega)
      exact (h.written hn).resolve_right (not_or.2 ⟨hab, hrep⟩)

theorem takes (h : a.Reached) {r : Except Payload Payload} (hc : a.call = some (.complete k r)) :
    ∃ o, a.machine.world.nodes.get? k = some o ∧ o.record.report r = .ok { state := .ofResult r } := by
  have hpos : 0 < a.during k := by
    rw [Stage.during, hc]
    simp [Call.reports]
  have hle := h.say_le k
  cases ho : a.machine.world.nodes.get? k with
  | none =>
    rw [World.knows, ho, Option.isSome_none, Bool.toNat_false] at hle
    omega
  | some o =>
    refine ⟨o, rfl, ?_⟩
    rw [h.untouched ho (by unfold Stage.due; omega)]
    rfl

theorem begins (h : a.Reached) (hc : a.call = some (.enter (.node k) false)) :
    ∃ o j, a.machine.world.nodes.get? k = some o ∧ o.job = some j := by
  have hw := h.waits_of_enters hc
  cases ho : a.machine.world.nodes.get? k with
  | none => simp [World.waits, ho] at hw
  | some o =>
    cases hj : o.job with
    | none => simp [World.waits, ho, hj] at hw
    | some j => exact ⟨o, j, rfl, hj⟩

end Stage.Reached

theorem Stage.Before.keeps_record {a b : Stage} (h : a.Before b) (ha : a.Reached) {k : Key} {n : Node}
    (hn : a.machine.world.nodes.get? k = some n) :
    ∃ p, b.machine.world.nodes.get? k = some p ∧ (n.record ≠ {} → p.record = n.record) := by
  by_cases hd : 0 < a.due k
  · have hz := ha.untouched hn hd
    suffices ∃ p, b.machine.world.nodes.get? k = some p by
      obtain ⟨p, hp⟩ := this
      exact ⟨p, hp, fun hne ↦ absurd hz hne⟩
    induction h with
    | refl => exact ⟨n, hn⟩
    | tail hb hs ih =>
      obtain ⟨p, hp⟩ := ih
      obtain ⟨q, hq, -⟩ := hs.node (ha.before hb) hp
      exact ⟨q, hq⟩
  · obtain ⟨p, hp, -, -, hr, -⟩ := h.settled ha hn (Nat.eq_zero_of_not_pos hd)
    exact ⟨p, hp, fun _ ↦ hr⟩

namespace Machine

/-- The record of a node changes once at most: when the completion that its start handed out reports, to
exactly what is reported, or when the node is abandoned, and then there never is a completion. Whoever
asks is told the record as it is. In the middle of a step too, a record that is asked to take a report
takes it, and a node that is asked to begin has its job; no fault of a second report is ever shown. -/
theorem Reachable.record_written_once {m n : Machine} (hm : m.Reachable) (hn : Later m n) {k : Key} {p : Node}
    (hp : m.world.nodes.get? k = some p) :
    (∃ q, n.world.nodes.get? k = some q ∧ (p.record ≠ {} → q.record = p.record) ∧ Fate n.journal k q ∧
      ∀ f id, n.desk.nodes.get? id = some k → n.ask f (.result id) = .ok (.record q.activity q.record)) ∧
    startings k n.journal + abandonings k n.journal ≤ 1 ∧
    m.held k ≤ startings k n.journal ∧ n.held k + reportings k n.journal ≤ startings k n.journal ∧
    (∀ a : Stage, Stage.Before ⟨none, m⟩ a →
      (∀ r, a.call = some (.complete k r) →
        ∃ o, a.machine.world.nodes.get? k = some o ∧ o.record.report r = .ok { state := .ofResult r }) ∧
      (a.call = some (.enter (.node k) false) →
        ∃ o j, a.machine.world.nodes.get? k = some o ∧ o.job = some j)) ∧
    ∀ r, ¬ n.Shows (.repeated r) := by
  have hr := hm.reached
  have hrn := hr.before hn.before
  have held (q : Machine) : Stage.during ⟨none, q⟩ k = q.held k := Nat.add_zero _
  refine ⟨?_, hrn.decisions_le k, ?_, ?_, ?_, ?_⟩
  · obtain ⟨q, hq, hrec⟩ := hn.before.keeps_record hr hp
    exact ⟨q, hq, hrec, hrn.fate hq, fun f _ hid ↦ ask_result f hid hq⟩
  · have hle := hr.during_le k
    rw [held] at hle
    have hst : startings k m.journal ≤ startings k n.journal := hn.before.countP_le _
    exact (Nat.le_add_right _ _).trans (hle.trans hst)
  · have hle := hrn.during_le k
    rwa [held] at hle
  · intro a ha
    exact ⟨fun r hc ↦ (hr.before ha).takes hc, (hr.before ha).begins⟩
  · obtain ⟨catalogue, hm⟩ := hm
    exact (Reachable.course ⟨catalogue, hm.trans hn⟩).1.not_shows

end Machine

/-- The success of the second node is written once, with the mark that its policy sets. -/
theorem Sample.success_written_once :
    ∃ p q, (machine 7).world.nodes.get? ⟨"b", 0⟩ = some p ∧ p.record = ⟨.success (.int 0), true⟩ ∧
      (machine 8).world.nodes.get? ⟨"b", 0⟩ = some q ∧ q.record = p.record ∧
      (machine 8).ask {} (.result "b") = .ok (.record q.activity q.record) ∧
      startings ⟨"b", 0⟩ (machine 8).journal = 1 ∧ (machine 8).held ⟨"b", 0⟩ = 0 := by
  have hr : ((machine 7).world.nodes.get? ⟨"b", 0⟩).map Node.record = some ⟨.success (.int 0), true⟩ := by
    decide +kernel
  obtain ⟨p, hp, hrec⟩ := Option.map_eq_some_iff.1 hr
  have hl : Machine.Later (machine 7) (machine 8) :=
    .report (Machine.stack_play rfl _) {} ⟨"failure", false, .report (some "a") ⟨.failure, some .null⟩⟩
  obtain ⟨⟨q, hq, hrq, -, hask⟩, -⟩ := (reachable 7).record_written_once hl hp
  refine ⟨p, q, hp, hrec, hq, hrq ?_, hask _ _ (by decide +kernel), by decide +kernel, by decide +kernel⟩
  simp [hrec]

end ActivityGraph
