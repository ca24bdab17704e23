import ActivityGraph.Proofs.Standstill

namespace ActivityGraph

/-- A registration with a source is gone: it was not delivered, and nothing holds it any longer. -/
def Stage.Misses (a : Stage) (x : Waiter) (s : Source) : Prop :=
  (told x a.machine.journal + a.owes x).count s < (accepted x a.machine.journal).count s

theorem Stride.misses {a b : Stage} (hs : Stride a b) {x : Waiter} (hx : x.bare = false) {s : Source}
    (h : a.Misses x s) : b.Misses x s := by
  obtain ⟨loss, -, hb⟩ := hs.balanced hx
  have he := congrArg (Multiset.count s) hb
  unfold Stage.Misses at h ⊢
  simp only [Multiset.count_add, Multiset.coe_count] at he h ⊢
  omega

theorem Stage.Before.misses {a b : Stage} (h : a.Before b) {x : Waiter} (hx : x.bare = false) {s : Source}
    (ha : a.Misses x s) : b.Misses x s := by
  induction h with
  | refl => exact ha
  | tail _ hs ih => exact hs.misses hx ih

namespace Stage.Misses

variable {a : Stage} {x : Waiter} {s : Source}

theorem told_lt (hm : a.Misses x s) :
    (told x a.machine.journal).count s < (accepted x a.machine.journal).count s := by
  unfold Stage.Misses at hm
  rw [Multiset.count_add] at hm
  omega

theorem not_shut (hm : a.Misses x s) (h : a.Reached) (hx : x.bare = false) (c : Bool) :
    ¬ a.machine.world.Shut x c := by
  intro hs
  have hlt := hm.told_lt
  rw [h.told_eq hx hs, Multiset.coe_count] at hlt
  exact Nat.lt_irrefl _ hlt

theorem node {k : Key} (hm : a.Misses (.node k) s) (h : a.Reached) :
    startings k a.machine.journal = 0 ∧ abandonings k a.machine.journal = 0 ∧
      a.machine.world.final? (.node k) = none := by
  obtain ⟨hst, hab, -, hf⟩ := h.still_node (hm.not_shut h rfl)
  exact ⟨hst, hab, hf⟩

theorem terminal {t : Key} (hm : a.Misses (.terminal t) s) (h : a.Reached) :
    callings t a.machine.journal = 0 ∧ a.machine.world.fired t = false :=
  h.still_terminal (hm.not_shut h rfl)

end Stage.Misses

namespace Machine

/-- Between two lines, a waiter was told of a source that is final as often as it took it on, unless a
fault broke off the telling about that source. Where it was told less often, it is never told any more:
whatever comes, its barrier stays open, a node is neither started nor abandoned nor final, and a
terminal is not called. -/
theorem Reachable.told_or_lost {m n : Machine} (hm : m.Reachable) (hs : m.stack = []) (hn : Later m n) {x : Waiter}
    (hx : x.bare = false) {s : Source} (hf : (m.world.final? s).isSome) :
    (told x m.journal).count s ≤ (accepted x m.journal).count s ∧
    ((∀ f, .unwound f (.delivery s) ∉ m.journal) →
      (told x m.journal).count s = (accepted x m.journal).count s) ∧
    ((told x m.journal).count s < (accepted x m.journal).count s →
      (∃ f, .unwound f (.delivery s) ∈ m.journal) ∧
      (told x n.journal).count s < (accepted x n.journal).count s ∧
      (∀ c, ¬ n.world.Shut x c) ∧
      (∀ k, x = .node k →
        startings k n.journal = 0 ∧ abandonings k n.journal = 0 ∧ n.world.final? (.node k) = none) ∧
      ∀ t, x = .terminal t → callings t n.journal = 0 ∧ n.world.fired t = false) := by
  have hr := hm.reached
  have hrn := hr.before hn.before
  -- nothing is left of the registrations with a source that is final
  have hz : (Stage.owes ⟨none, m⟩ x).count s = 0 := by
    refine Multiset.count_eq_zero_of_notMem fun hmem ↦ ?_
    rw [Stage.owes, Machine.owes_of_idle hs, Option.elim_none, add_zero] at hmem
    rw [hr.final?_of_owes hmem] at hf
    exact absurd hf (by simp)
  have hall : (∀ f, .unwound f (.delivery s) ∉ m.journal) →
      (told x m.journal).count s = (accepted x m.journal).count s := by
    intro hd
    have he := hr.count_owes hx hd
    rwa [Multiset.count_add, hz, Nat.add_zero] at he
  refine ⟨?_, hall, fun hlt ↦ ?_⟩
  · have hle := Multiset.count_le_of_le s (hr.owes_le hx)
    rwa [Multiset.count_add, hz, Nat.add_zero, Multiset.coe_count] at hle
  · have hmiss : Stage.Misses ⟨none, m⟩ x s := by
      rwa [Stage.Misses, Multiset.count_add, hz, Nat.add_zero]
    have hlater := hn.before.misses hx hmiss
    refine ⟨?_, hlater.told_lt, hlater.not_shut hrn hx, ?_, ?_⟩
    · by_contra hno
      exact absurd (hall fun f hd ↦ hno ⟨f, hd⟩) (Nat.ne_of_lt hlt)
    · rintro k rfl
      exact hlater.node hrn
    · rintro t rfl
      exact hlater.terminal hrn

end Machine

namespace Sample

def wedged : Machine := pairMachine [⟨"panic", false, .panic "boom"⟩] "s"

theorem wedged_reachable : wedged.Reachable := pair_reachable _ _

/-- The start is run and the fault is over, but the second node was never told, and the terminal behind
it never fires. -/
theorem sibling_wedged :
    wedged.Reachable ∧ wedged.stack = [] ∧ wedged.world.final? (.start ⟨"s", 0⟩) = some .done ∧
    accepted (.node ⟨"a", 0⟩) wedged.journal = [.start ⟨"s", 0⟩] ∧
    heard (.node ⟨"a", 0⟩) wedged.journal = [(.start ⟨"s", 0⟩, false)] ∧
    accepted (.node ⟨"b", 0⟩) wedged.journal = [.start ⟨"s", 0⟩] ∧
    heard (.node ⟨"b", 0⟩) wedged.journal = [] ∧
    accepted (.terminal ⟨"f", 0⟩) wedged.journal = [.node ⟨"b", 0⟩] ∧
    callings ⟨"f", 0⟩ wedged.journal = 0 ∧ wedged.world.fired ⟨"f", 0⟩ = false := by
  refine ⟨wedged_reachable, Machine.stack_play rfl _, ?_⟩
  decide +kernel

theorem wedged_for_good :
    ∃ n, Machine.Later wedged n ∧ n.stack = [] ∧
      (told (.node ⟨"b", 0⟩) n.journal).count (.start ⟨"s", 0⟩) <
        (accepted (.node ⟨"b", 0⟩) n.journal).count (.start ⟨"s", 0⟩) ∧
      startings ⟨"b", 0⟩ n.journal = 0 ∧ abandonings ⟨"b", 0⟩ n.journal = 0 := by
  have hs : wedged.stack = [] := Machine.stack_play rfl _
  have hn : Machine.Later wedged (Scenario.report wedged {} ⟨"run", false, .run "s"⟩).2 := .report hs _ _
  have hlt : (told (.node ⟨"b", 0⟩) wedged.journal).count (.start ⟨"s", 0⟩) <
      (accepted (.node ⟨"b", 0⟩) wedged.journal).count (.start ⟨"s", 0⟩) := by decide +kernel
  obtain ⟨-, -, hlost⟩ := wedged_reachable.told_or_lost hs hn (by rfl : (Waiter.node ⟨"b", 0⟩).bare = false)
    (by decide +kernel : (wedged.world.final? (.start ⟨"s", 0⟩)).isSome)
  obtain ⟨-, htold, -, hnode, -⟩ := hlost hlt
  obtain ⟨hst, hab, -⟩ := hnode _ rfl
  exact ⟨_, hn, Machine.stack_finish _, htold, hst, hab⟩

end Sample

end ActivityGraph
