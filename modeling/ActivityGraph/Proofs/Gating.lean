import ActivityGraph.Proofs.Resolution

namespace ActivityGraph

theorem Stage.Reached.launched {a : Stage} (h : a.Reached) (k : Key) :
    (∀ j, a.call = some (.launch k j) → a.machine.world.Shut (.node k) false) ∧
    ∀ f ls j, .script f ls (.job k j) ∈ a.machine.stack → a.machine.world.Shut (.node k) false := by
  refine h.invariant (P := fun a ↦ (∀ j, a.call = some (.launch k j) → a.machine.world.Shut (.node k) false) ∧
    ∀ f ls j, .script f ls (.job k j) ∈ a.machine.stack → a.machine.world.Shut (.node k) false)
    (fun _ ↦ ⟨by simp, by simp⟩) fun a b h ih hs ↦ ⟨fun j hj ↦ ?_, fun f ls j ht ↦ ?_⟩
  · refine hs.shut ?_
    cases hs with
    | resume hm =>
      simp only [Option.some.injEq, Call.launch.injEq] at hj
      obtain ⟨rfl, -⟩ := hj
      exact ih.2 _ _ _ (hm ▸ List.mem_cons_self)
    | begin =>
      simp only [Option.some.injEq, Call.launch.injEq] at hj
      obtain ⟨rfl, -⟩ := hj
      exact h.entered rfl rfl
    | relinquish => exact ih.1 j hj
    | _ => simp at hj
  · rcases hs.stacks _ ht with ho | ⟨⟨p, hc⟩, -⟩ | ⟨f, ls, hf⟩
    · exact hs.shut (ih.2 f ls j ho)
    · exact hs.shut (ih.1 _ hc)
    · exact hs.shut (ih.2 f ls j hf)

theorem Stage.Reached.started_shut {a : Stage} (h : a.Reached) {k : Key} (hk : 0 < startings k a.machine.journal) :
    a.machine.world.Shut (.node k) false := by
  refine h.invariant (P := fun a ↦ 0 < startings k a.machine.journal → a.machine.world.Shut (.node k) false)
    (fun _ hk ↦ by simp [startings] at hk) (fun a b h ih hs hk ↦ ?_) hk
  by_cases ha : 0 < startings k a.machine.journal
  · exact hs.shut (ih ha)
  · obtain ⟨⟨j, hj⟩, -⟩ := hs.of_startings (k := k) (by omega)
    exact hs.shut ((h.launched k).1 j hj)

theorem Stage.Reached.abandoned_shut {a : Stage} (h : a.Reached) {k : Key}
    (hk : 0 < abandonings k a.machine.journal) : a.machine.world.Shut (.node k) true := by
  refine h.invariant (P := fun a ↦ 0 < abandonings k a.machine.journal → a.machine.world.Shut (.node k) true)
    (fun _ hk ↦ by simp [abandonings] at hk) (fun a b h ih hs hk ↦ ?_) hk
  by_cases ha : 0 < abandonings k a.machine.journal
  · exact hs.shut (ih ha)
  · obtain ⟨n, -, hc, -⟩ := hs.of_abandonings (k := k) (by omega)
    exact hs.shut (h.entered rfl hc)

theorem Stage.Reached.passed {a : Stage} (h : a.Reached) {k : Key} (hs : a.machine.world.Shut (.node k) false) :
    accepted (.node k) a.machine.journal = [] ∧ 0 < openings (.node k) a.machine.journal ∨
    accepted (.node k) a.machine.journal ≠ [] ∧
      ∀ s ∈ accepted (.node k) a.machine.journal, a.machine.world.final? s = some .done := by
  by_cases he : accepted (.node k) a.machine.journal = []
  · obtain ⟨b, hb, hc, -⟩ := hs
    exact .inl ⟨he, ((h.gated rfl).fits hb).opened.2 ⟨hc, he⟩⟩
  · refine .inr ⟨he, fun s ha ↦ ?_⟩
    obtain ⟨d, hd, hf⟩ := h.resolved rfl hs ha
    cases d with
    | false => exact hd
    | true => exact absurd (hf rfl) (by simp)

theorem Stage.Reached.started {a : Stage} (h : a.Reached) {k : Key} (hk : 0 < startings k a.machine.journal) :
    accepted (.node k) a.machine.journal = [] ∧ 0 < openings (.node k) a.machine.journal ∨
    accepted (.node k) a.machine.journal ≠ [] ∧
      ∀ s ∈ accepted (.node k) a.machine.journal, a.machine.world.final? s = some .done :=
  h.passed (h.started_shut hk)

theorem Stage.Reached.decisions_le {a : Stage} (h : a.Reached) (k : Key) : decisions k a.machine.journal ≤ 1 := by
  have hb := h.before_le k
  have hk := a.machine.world.knows_le k
  omega

namespace Machine

theorem startings_marks (k : Key) (a b : Stage) (e : Event) (he : Event.starts k e) (hm : e.Marks a b) :
    a.call ≠ none ∧ ∀ s, b.machine.world.final? s = a.machine.world.final? s := by
  obtain ⟨label, rfl⟩ := Event.starts_iff.1 he
  obtain ⟨⟨j, hj⟩, hw, -⟩ := hm
  exact ⟨by simp [hj], fun s ↦ by rw [hw]⟩

theorem abandonings_marks (k : Key) (a b : Stage) (e : Event) (he : Event.abandons k e) (hm : e.Marks a b) :
    a.call ≠ none ∧ ∀ s, b.machine.world.final? s = a.machine.world.final? s := by
  obtain ⟨name, label, rfl⟩ := Event.abandons_iff.1 he
  obtain ⟨n, -, hc, -, hw, -⟩ := hm
  refine ⟨by simp [hc], fun s ↦ ?_⟩
  rw [hw]
  cases s with
  | node l => exact World.bind_modifyNode (g := Node.signal) _ _ _ (by intro _; rfl) l
  | start l => rfl

/-- A node starts in some step only if it was released with no dependencies, or if all that it ever
takes on was done before the step. It is abandoned only if all that it ever takes on was final before
the step, and some of it canceled. Only one of the two happens, and only once. -/
theorem Reachable.node_gating {m n p : Machine} (hm : m.Reachable) (hn : Next m n) (hp : Later n p) (k : Key) :
    (startings k m.journal < startings k n.journal →
      accepted (.node k) p.journal = [] ∧ 0 < openings (.node k) n.journal ∨
      accepted (.node k) p.journal ≠ [] ∧ ∀ s ∈ accepted (.node k) p.journal, m.world.final? s = some .done) ∧
    (abandonings k m.journal < abandonings k n.journal →
      (∀ s ∈ accepted (.node k) p.journal, (m.world.final? s).isSome) ∧
      ∃ s ∈ accepted (.node k) p.journal, m.world.final? s = some .cancel) ∧
    startings k p.journal + abandonings k p.journal ≤ 1 := by
  have hr := hm.reached
  refine ⟨fun hk ↦ ?_, fun hk ↦ ?_, ((hr.before hn.ends.before).before hp.before).decisions_le k⟩
  · obtain ⟨a, ha, hb, hf, hc⟩ := hn.ends.exists_stage hr (startings_marks k)
    have hpos : 0 < startings k a.machine.journal := by
      unfold startings at hk ⊢
      omega
    obtain ⟨-, hacc⟩ := Stage.Before.shut (hb.trans hp.before) ha (ha.started_shut hpos)
    simp only [hacc, ← hf]
    rcases ha.started hpos with ⟨he, ho⟩ | hd
    · exact .inl ⟨he, Nat.lt_of_lt_of_le ho (hb.countP_le _)⟩
    · exact .inr hd
  · obtain ⟨a, ha, hb, hf, hc⟩ := hn.ends.exists_stage hr (abandonings_marks k)
    have hpos : 0 < abandonings k a.machine.journal := by
      unfold abandonings at hk ⊢
      omega
    have hs := ha.abandoned_shut hpos
    obtain ⟨-, hacc⟩ := Stage.Before.shut (hb.trans hp.before) ha hs
    simp only [hacc, ← hf]
    refine ⟨fun s h ↦ ?_, ?_⟩
    · obtain ⟨d, hd, -⟩ := ha.resolved rfl hs h
      exact Option.isSome_of_eq_some hd
    · exact ha.resolved_cancel rfl hs

end Machine

/-- The node behind a failure is abandoned in the step in which its last dependency arrives. -/
theorem Sample.abandoned_behind_failure :
    abandonings ⟨"c", 0⟩ (during 1).journal < abandonings ⟨"c", 0⟩ (during 1).step.journal ∧
    (∀ s ∈ accepted (.node ⟨"c", 0⟩) (during 1).step.finish.journal, ((during 1).world.final? s).isSome) ∧
    (∃ s ∈ accepted (.node ⟨"c", 0⟩) (during 1).step.finish.journal, (during 1).world.final? s = some .cancel) ∧
    startings ⟨"c", 0⟩ (during 1).step.finish.journal + abandonings ⟨"c", 0⟩ (during 1).step.finish.journal ≤ 1 := by
  have hlt : abandonings ⟨"c", 0⟩ (during 1).journal < abandonings ⟨"c", 0⟩ (during 1).step.journal := by
    decide +kernel
  obtain ⟨-, ha, hle⟩ := (during_reachable 1).node_gating (next (by decide +kernel)) (.run _ _) ⟨"c", 0⟩
  exact ⟨hlt, (ha hlt).1, (ha hlt).2, hle⟩

end ActivityGraph
