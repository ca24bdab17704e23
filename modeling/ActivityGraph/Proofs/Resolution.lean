import ActivityGraph.Proofs.Signal

namespace ActivityGraph

theorem Stage.Reached.told_eq {a : Stage} (h : a.Reached) {x : Waiter} (hx : x.bare = false) {c : Bool}
    (hs : a.machine.world.Shut x c) : told x a.machine.journal = accepted x a.machine.journal := by
  obtain ⟨b, hb, hc, -⟩ := hs
  refine Multiset.eq_of_le_of_card_le ((Multiset.le_add_right _ _).trans (h.owes_le hx)) ?_
  simpa [told] using Nat.le_of_eq (((h.gated hx).fits hb).length_eq hc).symm

theorem Stage.Reached.resolved {a : Stage} (h : a.Reached) {x : Waiter} (hx : x.bare = false) {c : Bool}
    (hs : a.machine.world.Shut x c) {s : Source} (ha : s ∈ accepted x a.machine.journal) :
    ∃ d, a.machine.world.Says s d ∧ (d → c) := by
  have ht : s ∈ told x a.machine.journal := h.told_eq hx hs ▸ Multiset.mem_coe.2 ha
  obtain ⟨⟨s, d⟩, hd, rfl⟩ := List.mem_map.1 (Multiset.mem_coe.1 ht)
  obtain ⟨b, hb, -, hc⟩ := hs
  refine ⟨d, h.honest.heard x s d (mem_heard.1 hd), ?_⟩
  rw [← hc, ((h.gated hx).fits hb).canceled, List.any_eq_true]
  exact fun h ↦ ⟨_, hd, h⟩

theorem Stage.Reached.resolved_cancel {a : Stage} (h : a.Reached) {x : Waiter} (hx : x.bare = false)
    (hs : a.machine.world.Shut x true) : ∃ s ∈ accepted x a.machine.journal, a.machine.world.Says s true := by
  have ht := h.told_eq hx hs
  obtain ⟨b, hb, -, hc⟩ := hs
  rw [((h.gated hx).fits hb).canceled, List.any_eq_true] at hc
  obtain ⟨⟨s, d⟩, hd, rfl⟩ := hc
  refine ⟨s, ?_, h.honest.heard x s true (mem_heard.1 hd)⟩
  exact Multiset.mem_coe.1 (ht ▸ Multiset.mem_coe.2 (List.mem_map_of_mem hd))

theorem Within.final_eq {m : Machine} {a : Stage} (h : Within m a) (hm : Stage.Reached ⟨none, m⟩) (s : Source) :
    a.machine.world.final? s = m.world.final? s := by
  induction h with
  | here => rfl
  | next hw hs hc ih => exact (hs.final_eq (hm.before hw.before) hc s).trans ih

/-- If what marks some events makes nothing final, then before anything became final in a step there
was a stage that had seen all these events. -/
theorem Ends.exists_stage {m n : Machine} (h : Ends m n) (hm : Stage.Reached ⟨none, m⟩) {p : Event → Bool}
    (hp : ∀ a b e, p e → e.Marks a b → a.call ≠ none ∧ ∀ s, b.machine.world.final? s = a.machine.world.final? s) :
    ∃ a : Stage, a.Reached ∧ a.Before ⟨none, n⟩ ∧ (∀ s, a.machine.world.final? s = m.world.final? s) ∧
      n.journal.countP p ≤ a.machine.journal.countP p := by
  induction h with
  | here hw => exact ⟨_, hm.before hw.before, .refl, hw.final_eq hm, Nat.le_refl _⟩
  | @last a n hw hs =>
    have ha := hm.before hw.before
    -- only the last stride of a call can make something final, and not if it writes such an event
    by_cases hc : a.machine.journal.countP p < n.journal.countP p
    · obtain ⟨e, he, hmark⟩ := hs.marks_of_countP hc
      refine ⟨⟨none, n⟩, ha.stride hs, .refl, fun s ↦ ?_, Nat.le_refl _⟩
      exact ((hp _ _ e he hmark).2 s).trans (hw.final_eq hm s)
    · exact ⟨a, ha, .single hs, hw.final_eq hm, Nat.not_lt.1 hc⟩
  | @more q n hq hs _ ih =>
    obtain ⟨a, ha, hb, hf, hc⟩ := ih
    refine ⟨a, ha, hb.tail hs, hf, Nat.le_trans (Nat.not_lt.1 fun hlt ↦ ?_) hc⟩
    obtain ⟨e, he, hmark⟩ := hs.marks_of_countP hlt
    exact (hp _ _ e he hmark).1 rfl

theorem Stage.Before.shut {a b : Stage} (h : a.Before b) (ha : a.Reached) {x : Waiter} {c : Bool}
    (hx : a.machine.world.Shut x c) :
    b.machine.world.Shut x c ∧ accepted x b.machine.journal = accepted x a.machine.journal := by
  induction h with
  | refl => exact ⟨hx, rfl⟩
  | tail hb hs ih => exact ⟨hs.shut ih.1, ((ha.before hb).accepted_eq hs ih.1).trans ih.2⟩

theorem Stage.Before.countP_le {a b : Stage} (h : a.Before b) (p : Event → Bool) :
    a.machine.journal.countP p ≤ b.machine.journal.countP p := by
  induction h with
  | refl => exact Nat.le_refl _
  | tail _ hs ih => exact ih.trans (hs.countP_le p)

end ActivityGraph
