import ActivityGraph.Proofs.Once
import ActivityGraph.Proofs.Terminal

namespace ActivityGraph

def Feeds (j : List Event) (k l : Key) : Prop := .node k ∈ accepted (.node l) j

/-- A waiter is downstream of a node: it waits for the node, or for another one that is downstream of it. -/
def Behind (j : List Event) (k : Key) (x : Waiter) : Prop :=
  ∃ l, Relation.ReflTransGen (Feeds j) k l ∧ .node l ∈ accepted x j

section

variable {i j : List Event} {k l : Key} {x : Waiter}

theorem Behind.direct (h : .node k ∈ accepted x j) : Behind j k x := ⟨k, .refl, h⟩

theorem behind_self_iff : Behind j k (.node k) ↔ Relation.TransGen (Feeds j) k k := by
  constructor
  · rintro ⟨l, hl, hk⟩
    exact .tail' hl hk
  · intro h
    obtain ⟨l, hl, hk⟩ := Relation.TransGen.tail'_iff.1 h
    exact ⟨l, hl, hk⟩

theorem Behind.accepted_ne (h : Behind j k x) : accepted x j ≠ [] := by
  obtain ⟨l, -, hl⟩ := h
  exact List.ne_nil_of_mem hl

theorem accepted_mono (h : j <:+ i) {s : Source} (hs : s ∈ accepted x j) : s ∈ accepted x i :=
  mem_accepted.2 (h.subset (mem_accepted.1 hs))

theorem Behind.mono (h : Behind j k x) (hi : j <:+ i) : Behind i k x := by
  obtain ⟨l, hl, hx⟩ := h
  have hle : Feeds j ≤ Feeds i := fun _ _ ↦ accepted_mono hi
  exact ⟨l, Relation.ReflTransGen.mono hle _ _ hl, accepted_mono hi hx⟩

end

theorem World.Shut.canceled_eq {w : World} {x : Waiter} {c d : Bool} (h : w.Shut x c) (h' : w.Shut x d) : c = d := by
  obtain ⟨b, hb, -, rfl⟩ := h
  obtain ⟨b', hb', -, rfl⟩ := h'
  rw [Option.some.inj (hb.symm.trans hb')]

namespace Stage.Reached

variable {a : Stage} {k : Key} {x : Waiter}

theorem final_shut (h : a.Reached) (hf : (a.machine.world.final? (.node k)).isSome) :
    ∃ c, a.machine.world.Shut (.node k) c := by
  cases hn : a.machine.world.nodes.get? k with
  | none => simp [World.final?, hn] at hf
  | some n =>
    obtain ⟨b, hb⟩ := Option.isSome_iff_exists.1 ((h.sound.isSome_node k).trans (Option.isSome_of_eq_some hn))
    refine ⟨_, b, hb, ?_, rfl⟩
    by_contra ho
    -- the barrier is open, so the job still waits and the node has no signal
    have hw := (h.waits k b hb).2 (.inl (Bool.eq_false_iff.2 ho))
    have hsay := h.say_le_one k
    rw [World.final?_node hn, World.signal_of_rests hn] at hf
    · simp at hf
    · simp only [Stage.before, Stage.after] at hsay
      omega

theorem still_node (h : a.Reached) (ho : ∀ c, ¬ a.machine.world.Shut (.node k) c) :
    startings k a.machine.journal = 0 ∧ abandonings k a.machine.journal = 0 ∧
      reportings k a.machine.journal = 0 ∧ a.machine.world.final? (.node k) = none := by
  have hst : startings k a.machine.journal = 0 := Nat.eq_zero_of_not_pos fun hk ↦ ho _ (h.started_shut hk)
  have hle := h.during_le k
  refine ⟨hst, Nat.eq_zero_of_not_pos fun hk ↦ ho _ (h.abandoned_shut hk), by omega, ?_⟩
  by_contra hf
  obtain ⟨c, hc⟩ := h.final_shut (Option.isSome_iff_ne_none.2 hf)
  exact ho c hc

theorem still_record (h : a.Reached) (ho : ∀ c, ¬ a.machine.world.Shut (.node k) c) {n : Node}
    (hn : a.machine.world.nodes.get? k = some n) : n.record = {} := by
  obtain ⟨-, hab, hrep, -⟩ := h.still_node ho
  refine (h.written hn).resolve_right (not_or.2 ⟨?_, ?_⟩)
  · exact Nat.not_lt.2 (Nat.le_of_eq hab)
  · exact Nat.not_lt.2 (Nat.le_of_eq hrep)

theorem still_terminal (h : a.Reached) (ho : ∀ c, ¬ a.machine.world.Shut (.terminal k) c) :
    callings k a.machine.journal = 0 ∧ a.machine.world.fired k = false := by
  have hc : callings k a.machine.journal = 0 := Nat.eq_zero_of_not_pos fun hk ↦ by
    obtain ⟨c, hc⟩ := h.called_shut hk
    exact ho c hc
  refine ⟨hc, ?_⟩
  have he := h.ends_eq k
  rw [hc, Machine.ends] at he
  cases hf : a.machine.world.fired k with
  | false => rfl
  | true =>
    rw [hf, Bool.toNat_true] at he
    omega

theorem upstream_final (h : a.Reached) {l : Key} (hl : Relation.ReflTransGen (Feeds a.machine.journal) k l)
    (hf : (a.machine.world.final? (.node l)).isSome) : (a.machine.world.final? (.node k)).isSome := by
  induction hl with
  | refl => exact hf
  | tail _ hfeeds ih =>
    obtain ⟨c, hc⟩ := h.final_shut hf
    obtain ⟨d, hd, -⟩ := h.resolved rfl hc hfeeds
    exact ih (Option.isSome_of_eq_some hd)

theorem behind_open (h : a.Reached) (hk : a.machine.world.final? (.node k) = none)
    (hx : Behind a.machine.journal k x) (hb : x.bare = false) (c : Bool) : ¬ a.machine.world.Shut x c := by
  obtain ⟨l, hl, hacc⟩ := hx
  intro hc
  obtain ⟨d, hd, -⟩ := h.resolved hb hc hacc
  simpa [hk] using h.upstream_final hl (Option.isSome_of_eq_some hd)

end Stage.Reached

end ActivityGraph
