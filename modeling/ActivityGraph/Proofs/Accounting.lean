import ActivityGraph.Proofs.Resolution

namespace ActivityGraph

theorem Stage.Reached.owes_le_remaining {a : Stage} (h : a.Reached) {x : Waiter} (hx : x.bare = false) {b : Barrier}
    (hb : a.machine.world.barriers.get? x = some b) : (a.owes x).card ≤ b.remaining := by
  have hle := Multiset.card_le_card (h.owes_le hx)
  have hc := ((h.gated hx).fits hb).count
  simp only [told, Multiset.card_add, Multiset.coe_card, List.length_map] at hle
  omega

theorem Machine.owes_of_idle {m : Machine} (hs : m.stack = []) (x : Waiter) : m.owes x = m.world.owes x := by
  simp [owes, hs]

theorem Stage.Reached.remaining_eq {m : Machine} (h : Stage.Reached ⟨none, m⟩) (hu : m.Unbroken) (hs : m.stack = [])
    {x : Waiter} (hx : x.bare = false) {b : Barrier} (hb : m.world.barriers.get? x = some b) :
    b.remaining = (accepted x m.journal).countP fun s ↦ m.world.final? s = none := by
  have he : told x m.journal + m.world.owes x = accepted x m.journal := by
    have := h.owes_eq hx hu
    rwa [Stage.owes, Machine.owes_of_idle hs, Option.elim_none, add_zero] at this
  have ht : (told x m.journal).countP (fun s ↦ m.world.final? s = none) = 0 := by
    refine Multiset.countP_eq_zero.2 fun s hm hn ↦ ?_
    obtain ⟨⟨s, c⟩, hc, rfl⟩ := List.mem_map.1 (Multiset.mem_coe.1 hm)
    exact absurd (hn.symm.trans (h.honest.heard x s c (mem_heard.1 hc))) (by simp)
  have ho : (m.world.owes x).countP (fun s ↦ m.world.final? s = none) = (m.world.owes x).card :=
    Multiset.countP_eq_card.2 fun s hm ↦ h.final?_of_owes hm
  have hc := congrArg Multiset.card he
  have hp := congrArg (Multiset.countP fun s ↦ m.world.final? s = none) he
  have hn : b.remaining + (heard x m.journal).length = (accepted x m.journal).length :=
    ((h.gated hx).fits hb).count
  rw [Multiset.countP_add, ht, ho, Multiset.coe_countP] at hp
  simp only [told, Multiset.card_add, Multiset.coe_card, List.length_map] at hc
  omega

theorem Stage.Reached.closed_iff {m : Machine} (h : Stage.Reached ⟨none, m⟩) (hu : m.Unbroken) (hs : m.stack = [])
    {x : Waiter} (hx : x.bare = false) {b : Barrier} (hb : m.world.barriers.get? x = some b) :
    b.closed ↔ (accepted x m.journal = [] ∧ 0 < openings x m.journal) ∨
      (accepted x m.journal ≠ [] ∧ ∀ s ∈ accepted x m.journal, (m.world.final? s).isSome) := by
  have hf := (h.gated hx).fits hb
  constructor
  · intro hc
    by_cases ha : accepted x m.journal = []
    · exact .inl ⟨ha, hf.opened.2 ⟨hc, ha⟩⟩
    · refine .inr ⟨ha, fun s hm ↦ ?_⟩
      obtain ⟨d, hd, -⟩ := h.resolved hx ⟨b, hb, hc, rfl⟩ hm
      exact Option.isSome_of_eq_some hd
  · rintro (⟨-, ho⟩ | ⟨ha, hall⟩)
    · exact (hf.opened.1 ho).1
    · have hr : b.remaining = 0 := by
        rw [h.remaining_eq hu hs hx hb, List.countP_eq_zero]
        intro s hm
        simpa [Option.isSome_iff_ne_none] using hall s hm
      by_contra hc
      exact ha (hf.idle (Bool.eq_false_iff.2 hc) hr)

/-- A barrier waits for at least as many signals as are owed to it, also in the middle of a step, so it
takes each signal that comes. Unless a fault breaks off the telling of waiters, between two lines it
waits for exactly the dependencies that are not final, and is closed if and only if it was released
with no dependencies or has some and all are final. -/
theorem Machine.Reachable.signal_accounting {m : Machine} (hm : m.Reachable) {x : Waiter} (hx : x.bare = false)
    {b : Barrier} (hb : m.world.barriers.get? x = some b) :
    (m.owes x).card ≤ b.remaining ∧
    (m.owes x ≠ 0 → ∀ c, (b.arrive? c).isSome) ∧
    (∀ a : Stage, Stage.Before ⟨none, m⟩ a →
      (∀ d, a.machine.world.barriers.get? x = some d → (a.owes x).card ≤ d.remaining) ∧
      ∀ s c, a.call = some (.arrive x s c) →
        ∃ d, a.machine.world.barriers.get? x = some d ∧ (d.arrive? c).isSome) ∧
    (m.Unbroken → m.stack = [] →
      (b.remaining = (accepted x m.journal).countP fun s ↦ m.world.final? s = none) ∧
      (b.closed ↔ (accepted x m.journal = [] ∧ 0 < openings x m.journal) ∨
        (accepted x m.journal ≠ [] ∧ ∀ s ∈ accepted x m.journal, (m.world.final? s).isSome))) := by
  have h := hm.reached
  have ho : Stage.owes ⟨none, m⟩ x = m.owes x := add_zero _
  refine ⟨ho ▸ h.owes_le_remaining hx hb, fun hne c ↦ ?_, fun a ha ↦ ⟨fun d hd ↦ ?_, fun s c hc ↦ ?_⟩, fun hu hs ↦ ?_⟩
  · exact ((h.gated hx).fits hb).arrives (h.heard_lt hx (ho ▸ hne)) c
  · exact (h.before ha).owes_le_remaining hx hd
  · obtain ⟨c', n⟩ := a
    obtain rfl := hc
    have hr := h.before ha
    obtain ⟨-, d, -, hd⟩ := hr.arrives hx (hr.gated hx)
    exact ⟨d, hd⟩
  · exact ⟨h.remaining_eq hu hs hx hb, h.closed_iff hu hs hx hb⟩

/-- A node that took on one dependency twice waits for it twice. -/
theorem Sample.waits_twice :
    (machine 7).world.barriers.get? (.node ⟨"c", 0⟩) = some { remaining := 2 } ∧
    accepted (.node ⟨"c", 0⟩) (machine 7).journal = [.node ⟨"a", 0⟩, .node ⟨"b", 0⟩, .node ⟨"a", 0⟩] ∧
    ((machine 7).owes (.node ⟨"c", 0⟩)).card ≤ 2 ∧ (machine 7).Calm ∧
    2 = (accepted (.node ⟨"c", 0⟩) (machine 7).journal).countP fun s ↦ (machine 7).world.final? s = none := by
  have hb : (machine 7).world.barriers.get? (.node ⟨"c", 0⟩) = some { remaining := 2 } := by decide +kernel
  have hc : (machine 7).Calm := by decide +kernel
  obtain ⟨hle, -, -, he⟩ := (reachable 7).signal_accounting (by rfl : (Waiter.node ⟨"c", 0⟩).bare = false) hb
  exact ⟨hb, by decide +kernel, hle, hc, (he hc.unbroken (Machine.stack_play rfl _)).1⟩

end ActivityGraph
