import ActivityGraph.Proofs.Gating

namespace ActivityGraph

namespace Event

/-- A node goes on to one of its preparators or to its work. -/
def invokes (k : Key) : Event → Bool
  | .prepared l _ _ => l = k
  | .logged (.started l _) => l = k
  | _ => false

def runs (k : Key) : Event → Bool
  | .logged (.run l _ _) => l = k
  | _ => false

variable {k : Key} {e : Event}

theorem invokes_iff :
    e.invokes k ↔ (∃ place r, e = .prepared k place r) ∨ ∃ label, e = .logged (.started k label) := by
  constructor
  · intro h
    cases e with
    | prepared l place r => exact .inl ⟨place, r, by rw [of_decide_eq_true h]⟩
    | logged e =>
      cases e with
      | started l label => exact .inr ⟨label, by rw [of_decide_eq_true h]⟩
      | _ => simp [invokes] at h
    | _ => simp [invokes] at h
  · rintro (⟨place, r, rfl⟩ | ⟨label, rfl⟩) <;> simp [invokes]

theorem runs_iff : e.runs k ↔ ∃ name count, e = .logged (.run k name count) := by
  constructor
  · intro h
    cases e with
    | logged e =>
      cases e with
      | run l name count => exact ⟨name, count, by rw [of_decide_eq_true h]⟩
      | _ => simp [runs] at h
    | _ => simp [runs] at h
  · rintro ⟨name, count, rfl⟩
    simp [runs]

end Event

def invocations (k : Key) (j : List Event) : Nat := j.countP (Event.invokes k)

def runnings (k : Key) (j : List Event) : Nat := j.countP (Event.runs k)

theorem invocations_pos {k : Key} {j : List Event} {place : Nat} {r : Json} (h : .prepared k place r ∈ j) :
    0 < invocations k j := List.countP_pos_iff.2 ⟨_, h, Event.invokes_iff.2 (.inl ⟨place, r, rfl⟩)⟩

theorem startings_le_invocations (k : Key) (j : List Event) : startings k j ≤ invocations k j := by
  refine List.countP_mono_left fun e _ he ↦ ?_
  obtain ⟨label, rfl⟩ := Event.starts_iff.1 he
  exact Event.invokes_iff.2 (.inr ⟨label, rfl⟩)

namespace Stage.Reached

variable {a : Stage} {k : Key}

theorem prepared (h : a.Reached) {f : Frame} {ls : Script} {j : Job}
    (ht : .script f ls (.job k j) ∈ a.machine.stack) : 0 < invocations k a.machine.journal := by
  refine h.invariant (P := fun a ↦ ∀ f ls j, .script f ls (.job k j) ∈ a.machine.stack →
    0 < invocations k a.machine.journal) (fun _ f ls j ht ↦ by simp at ht) (fun a b h ih hs f ls j ht ↦ ?_) f ls j ht
  have hle : invocations k a.machine.journal ≤ invocations k b.machine.journal := hs.countP_le _
  rcases hs.stacks _ ht with ho | ⟨-, place, r, hp⟩ | ⟨g, ls', ho⟩
  · exact Nat.lt_of_lt_of_le (ih _ _ _ ho) hle
  · exact invocations_pos hp
  · exact Nat.lt_of_lt_of_le (ih _ _ _ ho) hle

theorem invoked_of_unwound (h : a.Reached) {f : Fault} (hf : .unwound f (.preparation k) ∈ a.machine.journal) :
    0 < invocations k a.machine.journal := by
  refine h.invariant (P := fun a ↦ .unwound f (.preparation k) ∈ a.machine.journal →
    0 < invocations k a.machine.journal) (fun _ hf ↦ by simp at hf) (fun a b h ih hs hf ↦ ?_) hf
  have hle : invocations k a.machine.journal ≤ invocations k b.machine.journal := hs.countP_le _
  by_cases ha : .unwound f (.preparation k) ∈ a.machine.journal
  · exact Nat.lt_of_lt_of_le (ih ha) hle
  · obtain ⟨g, ls, j, ts, ht, -⟩ := hs.marks_of_new hf ha
    exact Nat.lt_of_lt_of_le (h.prepared (ht ▸ List.mem_cons_self)) hle

theorem invoked_shut (h : a.Reached) (hk : 0 < invocations k a.machine.journal) :
    a.machine.world.Shut (.node k) false := by
  refine h.invariant (P := fun a ↦ 0 < invocations k a.machine.journal → a.machine.world.Shut (.node k) false)
    (fun _ hk ↦ by simp [invocations] at hk) (fun a b h ih hs hk ↦ ?_) hk
  by_cases ha : 0 < invocations k a.machine.journal
  · exact hs.shut (ih ha)
  · obtain ⟨e, he, hm⟩ := hs.marks_of_countP (p := Event.invokes k) (by unfold invocations at ha hk; omega)
    rcases Event.invokes_iff.1 he with ⟨place, r, rfl⟩ | ⟨label, rfl⟩
    · obtain ⟨j, hj⟩ := hm
      exact hs.shut ((h.launched k).1 j hj)
    · obtain ⟨⟨j, hj⟩, -⟩ := hm
      exact hs.shut ((h.launched k).1 j hj)

/-- Between two steps the barrier of a node is closed if and only if the node was invoked, even if a
fault left one of its preparators since, or abandoned. -/
theorem shut_iff {m : Machine} (h : Stage.Reached ⟨none, m⟩) :
    (∃ c, m.world.Shut (.node k) c) ↔ 0 < invocations k m.journal ∨ 0 < abandonings k m.journal := by
  constructor
  · rintro ⟨c, hc⟩
    by_cases hu : ∃ f, .unwound f (.preparation k) ∈ m.journal
    · obtain ⟨f, hf⟩ := hu
      exact .inl (h.invoked_of_unwound hf)
    · -- the job does not wait any longer, so it is with a preparator or was decided on
      have he : Stage.before ⟨none, m⟩ k + (startings k m.journal + abandonings k m.journal) = 1 :=
        (h.before_eq fun f hf ↦ hu ⟨f, hf⟩).trans (h.knows_of_shut hc)
      rw [Stage.before_mk, h.waits_of_shut hc, Option.elim_none] at he
      by_cases hs : (m.stack.map (Task.prepares k)).sum = 0
      · have hle := startings_le_invocations k m.journal
        omega
      · obtain ⟨n, hn, hpos⟩ := List.exists_mem_ne_zero_of_sum_ne_zero hs
        obtain ⟨t, ht, rfl⟩ := List.mem_map.1 hn
        cases t with
        | script f ls e =>
          cases e with
          | nowhere => simp [Task.prepares] at hpos
          | job l j =>
            obtain rfl : l = k := by simpa [Task.prepares] using hpos
            exact .inl (h.prepared ht)
        | _ => simp [Task.prepares] at hpos
  · rintro (hi | ha)
    · exact ⟨_, h.invoked_shut hi⟩
    · exact ⟨_, h.abandoned_shut ha⟩

theorem run_fired (h : a.Reached) (hk : 0 < runnings k a.machine.journal) :
    a.machine.world.final? (.start k) = some .done := by
  refine h.invariant (P := fun a ↦ 0 < runnings k a.machine.journal →
    a.machine.world.final? (.start k) = some .done) (fun _ hk ↦ by simp [runnings] at hk) (fun a b h ih hs hk ↦ ?_) hk
  by_cases ha : 0 < runnings k a.machine.journal
  · exact hs.final h (ih ha)
  · obtain ⟨e, he, hm⟩ := hs.marks_of_countP (p := Event.runs k) (by unfold runnings at ha hk; omega)
    obtain ⟨name, count, rfl⟩ := Event.runs_iff.1 he
    exact hm

theorem fired_run (h : a.Reached) {s : Start} (hk : a.machine.world.starts.get? k = some s) (hf : s.fired) :
    0 < runnings k a.machine.journal := by
  refine h.invariant (P := fun a ↦ ∀ s, a.machine.world.starts.get? k = some s → s.fired →
    0 < runnings k a.machine.journal) (fun _ s hk ↦ by simp [Table.get?] at hk) (fun a b h ih hs t ht hf ↦ ?_) s hk hf
  have hle : runnings k a.machine.journal ≤ runnings k b.machine.journal := hs.countP_le _
  cases ho : a.machine.world.starts.get? k with
  | none => exact absurd hf (by simp [hs.start_born ho ht])
  | some s =>
    obtain ⟨u, hu, hl⟩ := hs.leaves ho
    obtain rfl := Option.some.inj (ht.symm.trans hu)
    rcases hl.cause hf with hs | ⟨name, count, he⟩
    · exact Nat.lt_of_lt_of_le (ih s ho hs) hle
    · exact List.countP_pos_iff.2 ⟨_, he, Event.runs_iff.2 ⟨name, count, rfl⟩⟩

theorem fired_iff_run (h : a.Reached) : (a.machine.world.final? (.start k)).isSome ↔ 0 < runnings k a.machine.journal := by
  constructor
  · intro hf
    cases hk : a.machine.world.starts.get? k with
    | none => simp [World.final?, hk] at hf
    | some s =>
      refine h.fired_run hk ?_
      rw [World.final?_start hk] at hf
      by_contra hs
      simp [hs] at hf
  · intro hr
    exact Option.isSome_of_eq_some (h.run_fired hr)

end Stage.Reached

end ActivityGraph
