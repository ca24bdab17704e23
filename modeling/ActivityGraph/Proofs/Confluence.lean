import ActivityGraph.Proofs.Accounting
import ActivityGraph.Proofs.Gating
import ActivityGraph.Proofs.Meaning

namespace ActivityGraph

theorem Stage.Reached.accepted_has {a : Stage} (h : a.Reached) {x : Waiter} {s : Source}
    (hs : s ∈ accepted x a.machine.journal) : a.machine.world.Has s := by
  rw [mem_accepted] at hs
  refine h.invariant (P := fun a ↦ .wired x s ∈ a.machine.journal → a.machine.world.Has s)
    (fun _ hs ↦ by simp at hs) (fun a b h ih hs hb ↦ hs.has ?_) hs
  by_cases ha : .wired x s ∈ a.machine.journal
  · exact ih ha
  · exact h.grounded.named s (hs.marks_of_new hb ha)

namespace Machine

/-- A run of a graph is over: the nodes are wired and set up as the graph says, those with no
dependencies were released, the starts are fired, and each activity that was started has reported. -/
structure Completes (m : Machine) (g : Graph) : Prop where
  rest : m.stack = []
  wiring : ∀ k, (m.world.nodes.get? k).isSome → (accepted (.node k) m.journal).Perm (g.dependencies k)
  policy : ∀ k n, m.world.nodes.get? k = some n → n.policy = g.policy k
  released : ∀ k, (m.world.nodes.get? k).isSome → accepted (.node k) m.journal = [] →
    0 < openings (.node k) m.journal
  fired : ∀ k s, m.world.starts.get? k = some s → s.fired
  reported : ∀ k, (m.world.nodes.get? k).isSome → 0 < startings k m.journal → .reported k (g.result k) ∈ m.journal

end Machine

theorem Stage.Reached.decided {m : Machine} (h : Stage.Reached ⟨none, m⟩) (hc : m.Calm) (hs : m.stack = []) {k : Key}
    {c : Bool} (hk : m.world.Shut (.node k) c) : 0 < startings k m.journal ∨ 0 < abandonings k m.journal := by
  have hd := h.decisions_eq hk hs fun f ↦ hc f _
  unfold decisions at hd
  omega

namespace Machine

theorem Completes.final {m : Machine} {g : Graph} (hg : m.Completes g) (h : Stage.Reached ⟨none, m⟩) {k : Key}
    (hk : (m.world.nodes.get? k).isSome)
    (ih : ∀ d, g.Before d k → ∀ n, m.world.nodes.get? d = some n → n.signal = some (g.meaning d).signal) :
    ∀ s ∈ accepted (.node k) m.journal, m.world.final? s = some (g.signal s) := by
  intro s hs
  have hhas := h.accepted_has hs
  cases s with
  | node d =>
    obtain ⟨n, hn⟩ := Option.isSome_iff_exists.1 hhas
    rw [World.final?_node hn]
    exact ih d ((hg.wiring k hk).mem_iff.1 hs) n hn
  | start q =>
    obtain ⟨t, ht⟩ := Option.isSome_iff_exists.1 hhas
    exact (World.final?_start ht).trans (if_pos (hg.fired q t ht))

section

variable {m : Machine} {g : Graph} (hg : m.Completes g) (h : Stage.Reached ⟨none, m⟩) {k : Key} {n : Node}
  (hn : m.world.nodes.get? k = some n)
  (hfinal : ∀ s ∈ accepted (.node k) m.journal, m.world.final? s = some (g.signal s))

include hg h hn hfinal

theorem Completes.of_started (hs : 0 < startings k m.journal) :
    n.record = (g.meaning k).record ∧ n.signal = some (g.meaning k).signal := by
  have hk : (m.world.nodes.get? k).isSome := Option.isSome_of_eq_some hn
  have hdone : ∀ d, .node d ∈ g.dependencies k → (g.meaning d).signal = .done := by
    intro d hd
    have hm := (hg.wiring k hk).mem_iff.2 hd
    rcases h.started hs with ⟨he, -⟩ | ⟨-, hall⟩
    · simp [he] at hm
    · exact Option.some.inj ((hfinal _ hm).symm.trans (hall _ hm))
  obtain ⟨p, hp, -, hr, hsignal⟩ := h.reported (hg.reported k hk hs)
  obtain rfl := Option.some.inj (hn.symm.trans hp)
  obtain ⟨hrecord, hok⟩ := Policy.rule_eq (g.tame k) (g.result k)
  rw [hg.policy k n hn] at hr hsignal
  rw [Graph.meaning_of_done hdone]
  exact ⟨hr.trans hrecord, (hsignal _ hok).signal_eq⟩

theorem Completes.of_abandoned (ha : 0 < abandonings k m.journal) :
    n.record = (g.meaning k).record ∧ n.signal = some (g.meaning k).signal := by
  obtain ⟨p, hp, -, hr, hsignal⟩ := h.abandoned ha
  obtain rfl := Option.some.inj (hn.symm.trans hp)
  obtain ⟨s, hs, hcancel⟩ := h.resolved_cancel rfl (h.abandoned_shut ha)
  have hg' : g.signal s = .cancel := Option.some.inj ((hfinal s hs).symm.trans hcancel)
  cases s with
  | node d =>
    have hd := (hg.wiring k (Option.isSome_of_eq_some hn)).mem_iff.1 hs
    rw [Graph.meaning_of_cancel hd hg']
    exact ⟨hr, hsignal.signal_eq⟩
  | start q => simp [Graph.signal] at hg'

end

/-- Whatever the order of the steps, a run that is over and in which no fault left work undone gives
each node the record and the signal that the graph means. -/
theorem Reachable.node_meaning {m : Machine} (hm : m.Reachable) (hc : m.Calm) {g : Graph} (hg : m.Completes g)
    {k : Key} {n : Node} (hn : m.world.nodes.get? k = some n) :
    n.record = (g.meaning k).record ∧ n.signal = some (g.meaning k).signal := by
  have h := hm.reached
  induction k using g.wellFounded.induction generalizing n with
  | _ k ih =>
    have hk : (m.world.nodes.get? k).isSome := Option.isSome_of_eq_some hn
    have hfinal := hg.final h hk fun d hd p hp ↦ (ih d hd hp).2
    obtain ⟨b, hb⟩ := Option.isSome_iff_exists.1 ((h.sound.isSome_node k).trans hk)
    have hclosed : b.closed := by
      refine (h.closed_iff hc.unbroken hg.rest rfl hb).2 ?_
      by_cases ha : accepted (.node k) m.journal = []
      · exact .inl ⟨ha, hg.released k hk ha⟩
      · exact .inr ⟨ha, fun s hs ↦ Option.isSome_of_eq_some (hfinal s hs)⟩
    -- which of the two it is, the dependencies decide, and these have their meaning
    rcases h.decided hc hg.rest ⟨b, hb, hclosed, rfl⟩ with hs | ha
    · exact hg.of_started h hn hfinal hs
    · exact hg.of_abandoned h hn hfinal ha

end Machine

namespace Sample

def graph : Graph where
  nodes := [⟨"a", 0⟩, ⟨"b", 0⟩, ⟨"c", 0⟩]
  dependencies k :=
    if k = ⟨"c", 0⟩ then [.node ⟨"a", 0⟩, .node ⟨"b", 0⟩, .node ⟨"a", 0⟩] else [.start ⟨"g", 0⟩]
  policy k :=
    if k = ⟨"b", 0⟩ then { cancelIf := some ⟨.cancelIf, always true⟩, ifErrored := some ⟨.ifErrored, always false⟩ }
    else {}
  result k := if k = ⟨"a", 0⟩ then .error (.int 0) else .ok (.int 0)
  finite d k h := by
    split at h
    · next hk =>
      simp only [List.mem_cons, Source.node.injEq, List.not_mem_nil, or_false] at h
      rcases h with rfl | rfl | rfl <;> simp [hk]
    · simp at h
  acyclic := not_transGen_of_rank (fun k ↦ if k = ⟨"c", 0⟩ then 1 else 0) fun d k h ↦ by
    split at h
    · next hk =>
      simp only [List.mem_cons, Source.node.injEq, List.not_mem_nil, or_false] at h
      rcases h with rfl | rfl | rfl <;> simp [hk]
    · simp at h
  tame k j hj v := by
    split at hj
    · simp only [Option.some.injEq, reduceCtorEq, or_false] at hj
      rcases hj with rfl | rfl <;> exact ⟨_, rfl⟩
    · simp at hj

theorem known {k : Key} (h : ((machine 8).world.nodes.get? k).isSome) :
    k = ⟨"a", 0⟩ ∨ k = ⟨"b", 0⟩ ∨ k = ⟨"c", 0⟩ := by
  have hk : (machine 8).world.nodes.keys = [⟨"a", 0⟩, ⟨"b", 0⟩, ⟨"c", 0⟩] := by decide +kernel
  simpa [hk] using Table.isSome_get?_iff.1 h

theorem completes : (machine 8).Completes graph where
  rest := Machine.stack_play rfl _
  wiring k h := by
    rcases known h with rfl | rfl | rfl <;> decide +kernel
  policy k n h := by
    have hp : ((machine 8).world.nodes.get? k).map Node.policy = some (graph.policy k) := by
      rcases known (Option.isSome_of_eq_some h) with rfl | rfl | rfl <;> rfl
    rw [h] at hp
    exact Option.some.inj hp
  released k h := by
    rcases known h with rfl | rfl | rfl <;> decide +kernel
  fired k s h := (by decide +kernel : ∀ e ∈ (machine 8).world.starts.entries, e.2.fired) _ (Table.mem_of_get? h)
  reported k h hs := by
    rcases known h with rfl | rfl | rfl
    · exact List.mem_of_getElem? (rfl : (machine 8).journal[15]? = some (.reported ⟨"a", 0⟩ (.error (.int 0))))
    · exact List.mem_of_getElem? (rfl : (machine 8).journal[21]? = some (.reported ⟨"b", 0⟩ (.ok (.int 0))))
    · exact absurd hs (by decide +kernel)

end Sample

/-- The graph means that the node behind a failure is abandoned, and so it was. -/
theorem Sample.meaning_behind_failure :
    (machine 8).Calm ∧ (machine 8).Completes graph ∧ graph.meaning ⟨"c", 0⟩ = .abandoned ∧
    ∃ n, (machine 8).world.nodes.get? ⟨"c", 0⟩ = some n ∧
      n.record = (graph.meaning ⟨"c", 0⟩).record ∧ n.signal = some (graph.meaning ⟨"c", 0⟩).signal := by
  have hc : (machine 8).Calm := by decide +kernel
  have ha : (graph.meaning ⟨"a", 0⟩).signal = .cancel := by
    rw [Graph.meaning_of_done fun d hd ↦ by simp [graph] at hd]
    rfl
  obtain ⟨n, hn⟩ := Option.isSome_iff_exists.1 (by decide +kernel : ((machine 8).world.nodes.get? ⟨"c", 0⟩).isSome)
  exact ⟨hc, completes, Graph.meaning_of_cancel (by simp [graph]) ha, n, hn,
    (reachable 8).node_meaning hc completes hn⟩

end ActivityGraph
