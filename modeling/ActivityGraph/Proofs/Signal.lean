import ActivityGraph.Proofs.Outcome

namespace ActivityGraph

theorem World.final?_node {w : World} {k : Key} {n : Node} (h : w.nodes.get? k = some n) :
    w.final? (.node k) = n.signal := by rw [final?, h, Option.bind_some]

theorem World.final?_start {w : World} {k : Key} {s : Start} (h : w.starts.get? k = some s) :
    w.final? (.start k) = if s.fired then some .done else none := by rw [final?, h, Option.bind_some]

structure Stride.Leaves (a b : Stage) (k : Key) (s t : Start) : Prop where
  fired : s.fired → t.fired
  cause : t.fired → s.fired ∨ ∃ name count, .logged (.run k name count) ∈ b.machine.journal
  same : a.call = none ∨ b.call ≠ none → t.fired = s.fired
  listeners : (s.fired → s.listeners = []) → t.fired → t.listeners = []

theorem Stride.leaves {a b : Stage} (hs : Stride a b) {k : Key} {s : Start}
    (h : a.machine.world.starts.get? k = some s) :
    ∃ t, b.machine.world.starts.get? k = some t ∧ Stride.Leaves a b k s t := by
  have refl : Stride.Leaves a b k s s := ⟨id, .inl, fun _ ↦ rfl, id⟩
  have modified {l : Key} {f : Start → Start} (hk : l = k → Stride.Leaves a b k s (f s)) :
      ∃ t, (a.machine.world.modifyStart l f).starts.get? k = some t ∧ Stride.Leaves a b k s t := by
    rw [World.modifyStart, Table.get?_modify, h]
    split
    · next he => exact ⟨f s, rfl, hk he⟩
    · exact ⟨s, rfl, refl⟩
  cases hs with
  | insert hw | stored _ hw =>
    obtain ⟨t, -, rfl⟩ := World.store_eq hw
    exact ⟨s, h, refl⟩
  | @addStart m c i =>
    exact ⟨s, (Table.get?_insert ..).trans ((congrArg (Option.or · _) h).trans Option.some_or), refl⟩
  | @addNode m _ a c deps i st work =>
    obtain ⟨t, -, he⟩ := m.addNode_eq i a c deps st work
    rw [he] at refl ⊢
    exact ⟨s, h, refl⟩
  | @addTerminal m c deps i body =>
    obtain ⟨t, -, he⟩ := m.placeTerminal_eq i c deps body
    rw [he] at refl ⊢
    exact ⟨s, h, refl⟩
  | @addRoot m c i body =>
    obtain ⟨t, -, he⟩ := m.placeTerminal_eq i c [] body
    rw [he] at refl ⊢
    exact ⟨s, h, refl⟩
  | @depend m l r b d =>
    obtain ⟨t, -, he⟩ := (m.world.setBarrier (.node l) d).drawEdge_eq r (.node l)
    rw [he] at refl ⊢
    exact ⟨s, h, refl⟩
  | waiting hl hf =>
    refine modified fun hk ↦ ⟨id, .inl, fun _ ↦ rfl, fun _ hi ↦ ?_⟩
    obtain rfl := Option.some.inj ((hk ▸ hl).symm.trans h)
    simp [hf] at hi
  | ran =>
    refine modified fun hk ↦ ?_
    subst hk
    exact ⟨fun _ ↦ rfl, fun _ ↦ .inr ⟨_, _, List.mem_cons_self⟩, by simp, fun _ _ ↦ rfl⟩
  | _ => exact ⟨s, h, refl⟩

theorem Stride.start_born {a b : Stage} (hs : Stride a b) {k : Key} {t : Start}
    (ha : a.machine.world.starts.get? k = none) (hb : b.machine.world.starts.get? k = some t) : t.fired = false := by
  have old {v : World} (hv : v.starts.get? k = none) : v.starts.get? k ≠ some t := by simp [hv]
  have modified {l : Key} {f : Start → Start} : (a.machine.world.modifyStart l f).starts.get? k = none := by
    rw [World.modifyStart, Table.get?_modify, ha]
    split <;> rfl
  cases hs with
  | insert hw | stored _ hw =>
    obtain ⟨t, -, rfl⟩ := World.store_eq hw
    exact absurd hb (old ha)
  | @addStart m c i =>
    replace hb := (congrArg (Option.or · _) ha).symm.trans ((Table.get?_insert ..).symm.trans hb)
    rw [Option.none_or] at hb
    split at hb
    · exact Option.some.inj hb ▸ rfl
    · exact absurd hb (by simp)
  | @addNode m _ a c deps i s work =>
    obtain ⟨t, -, he⟩ := m.addNode_eq i a c deps s work
    rw [he] at hb
    exact absurd hb (old ha)
  | @addTerminal m c deps i body =>
    obtain ⟨t, -, he⟩ := m.placeTerminal_eq i c deps body
    rw [he] at hb
    exact absurd hb (old ha)
  | @addRoot m c i body =>
    obtain ⟨t, -, he⟩ := m.placeTerminal_eq i c [] body
    rw [he] at hb
    exact absurd hb (old ha)
  | @depend m l s b d =>
    obtain ⟨t, -, he⟩ := (m.world.setBarrier (.node l) d).drawEdge_eq s (.node l)
    rw [he] at hb
    exact absurd hb (old ha)
  | waiting | ran => exact absurd hb (old modified)
  | _ => exact absurd hb (old ha)

theorem Stride.final {a b : Stage} (hs : Stride a b) (ha : a.Reached) {s : Source} {g : Signal}
    (h : a.machine.world.final? s = some g) : b.machine.world.final? s = some g := by
  cases s with
  | node k =>
    obtain ⟨n, hn, hg⟩ := Option.bind_eq_some_iff.1 h
    obtain ⟨p, hp, hk⟩ := hs.node ha hn
    exact (World.final?_node hp).trans (hk.signal g hg)
  | start k =>
    obtain ⟨s, hn, hg⟩ := Option.bind_eq_some_iff.1 h
    split at hg
    · next hf =>
      obtain ⟨t, ht, hl⟩ := hs.leaves hn
      rw [World.final?_start ht, if_pos (hl.fired hf)]
      exact hg
    · simp at hg

theorem Stage.Before.final {a b : Stage} (h : a.Before b) (ha : a.Reached) {s : Source} {g : Signal}
    (hs : a.machine.world.final? s = some g) : b.machine.world.final? s = some g := by
  induction h with
  | refl => exact hs
  | tail hb hs ih => exact hs.final (ha.before hb) ih

/-- Nothing becomes final before the end of a call. -/
theorem Stride.final_eq {a b : Stage} (hs : Stride a b) (ha : a.Reached) (hc : a.call = none ∨ b.call ≠ none)
    (s : Source) : b.machine.world.final? s = a.machine.world.final? s := by
  cases s with
  | node k =>
    cases hn : a.machine.world.nodes.get? k with
    | some n =>
      obtain ⟨p, hp, hk⟩ := hs.node ha hn
      rw [World.final?_node hp, World.final?_node hn, hk.same hc]
    | none =>
      cases hp : b.machine.world.nodes.get? k with
      | some p => simp [World.final?, hn, hp, (hs.born hn hp).2.1]
      | none => simp [World.final?, hn, hp]
  | start k =>
    cases hn : a.machine.world.starts.get? k with
    | some n =>
      obtain ⟨p, hp, hk⟩ := hs.leaves hn
      rw [World.final?_start hp, World.final?_start hn, hk.same hc]
    | none =>
      cases hp : b.machine.world.starts.get? k with
      | some p => simp [World.final?, hn, hp, hs.start_born hn hp]
      | none => simp [World.final?, hn, hp]

theorem Stride.says {a b : Stage} (hs : Stride a b) (ha : a.Reached) {s : Source} {c : Bool}
    (h : a.machine.world.Says s c) : b.machine.world.Says s c := hs.final ha h

/-- Waiters are told of sources that are final, and the truth about them. -/
structure Stage.Honest (a : Stage) : Prop where
  heard : ∀ x s c, .told x s c ∈ a.machine.journal → a.machine.world.Says s c
  stack : ∀ s c x xs, .deliver s c (x :: xs) ∈ a.machine.stack → a.machine.world.Says s c
  call : ∀ x s c, a.call = some (.arrive x (some s) c) → a.machine.world.Says s c

theorem Stride.honest_call {a b : Stage} (hs : Stride a b) (h : a.Honest) (x : Waiter) (s : Source) (c : Bool)
    (hc : b.call = some (.arrive x (some s) c)) : b.machine.world.Says s c := by
  cases hs with
  | deliver hm =>
    simp only [Option.some.injEq, Call.arrive.injEq] at hc
    obtain ⟨-, rfl, rfl⟩ := hc
    exact h.stack _ _ _ _ (hm ▸ List.mem_cons_self)
  | @replayed m k n y g hk hg =>
    simp only [Option.some.injEq, Call.arrive.injEq] at hc
    obtain ⟨-, rfl, rfl⟩ := hc
    refine (World.final?_node hk).trans (hg.trans ?_)
    cases g <;> rfl
  | passed hk hf =>
    simp only [Option.some.injEq, Call.arrive.injEq] at hc
    obtain ⟨-, rfl, rfl⟩ := hc
    exact (World.final?_start hk).trans (by rw [hf]; rfl)
  | relinquish hd =>
    rcases hd _ hc with ⟨f, hf⟩ | ⟨k, body, hold, r, hf⟩ <;> simp at hf
  | _ => simp at hc

theorem Stage.Reached.honest {a : Stage} (h : a.Reached) : a.Honest := by
  refine h.invariant (fun _ ↦ ⟨by simp, by simp, by simp⟩) fun a b h ih hs ↦ ⟨?_, ?_, hs.honest_call ih⟩
  · intro x s c hb
    by_cases ha : .told x s c ∈ a.machine.journal
    · exact hs.says h (ih.heard x s c ha)
    · exact hs.says h (ih.call x s c (hs.marks_of_new hb ha))
  · intro s c x xs hb
    rcases hs.stacks _ hb with ho | hn | ⟨y, ys, hn⟩
    · exact hs.says h (ih.stack s c x xs ho)
    · exact hn
    · exact hs.says h (ih.stack s c y ys hn)

theorem Stage.Reached.node_listeners {a : Stage} (h : a.Reached) {k : Key} {n : Node}
    (hn : a.machine.world.nodes.get? k = some n) (hg : n.signal.isSome) : n.listeners = [] := by
  refine h.invariant (P := fun a ↦ ∀ n, a.machine.world.nodes.get? k = some n → n.signal.isSome → n.listeners = [])
    (fun _ n hn ↦ by simp [Table.get?] at hn) (fun a b h ih hs p hp hg ↦ ?_) n hn hg
  cases hn : a.machine.world.nodes.get? k with
  | none => simp [(hs.born hn hp).2.1] at hg
  | some n =>
    obtain ⟨q, hq, hk⟩ := hs.node h hn
    obtain rfl := Option.some.inj (hp.symm.trans hq)
    exact hk.listeners (ih n hn) hg

theorem Stage.Reached.start_listeners {a : Stage} (h : a.Reached) {k : Key} {s : Start}
    (hn : a.machine.world.starts.get? k = some s) (hf : s.fired) : s.listeners = [] := by
  refine h.invariant (P := fun a ↦ ∀ s, a.machine.world.starts.get? k = some s → s.fired → s.listeners = [])
    (fun _ n hn ↦ by simp [Table.get?] at hn) (fun a b h ih hs p hp hg ↦ ?_) s hn hf
  cases hn : a.machine.world.starts.get? k with
  | none => simp [hs.start_born hn hp] at hg
  | some n =>
    obtain ⟨q, hq, hk⟩ := hs.leaves hn
    obtain rfl := Option.some.inj (hp.symm.trans hq)
    exact hk.listeners (ih n hn) hg

theorem exists_of_mem_sum {α β : Type} {g : α → Multiset β} {b : β} {l : List α} (h : b ∈ (l.map g).sum) :
    ∃ a ∈ l, b ∈ g a := by
  induction l with
  | nil => simp at h
  | cons a l ih =>
    rw [List.map_cons, List.sum_cons, Multiset.mem_add] at h
    rcases h with h | h
    · exact ⟨a, List.mem_cons_self, h⟩
    · obtain ⟨c, hc, hb⟩ := ih h
      exact ⟨c, List.mem_cons_of_mem _ hc, hb⟩

theorem Stage.Reached.final?_of_owes {a : Stage} (h : a.Reached) {x : Waiter} {s : Source}
    (hs : s ∈ a.machine.world.owes x) : a.machine.world.final? s = none := by
  rcases Multiset.mem_add.1 hs with hs | hs
  · obtain ⟨⟨k, n⟩, he, hm⟩ := exists_of_mem_sum hs
    obtain ⟨hc, rfl⟩ := Multiset.mem_replicate.1 hm
    have hn : a.machine.world.nodes.get? k = some n := Table.get?_of_mem h.sound.nodes.nodup he
    rw [World.final?_node hn]
    cases hg : n.signal with
    | none => rfl
    | some g => exact absurd (congrArg (List.count x) (h.node_listeners hn (by simp [hg]))) hc
  · obtain ⟨⟨k, t⟩, he, hm⟩ := exists_of_mem_sum hs
    obtain ⟨hc, rfl⟩ := Multiset.mem_replicate.1 hm
    have ht : a.machine.world.starts.get? k = some t := Table.get?_of_mem h.sound.starts.nodup he
    rw [World.final?_start ht]
    split
    · next hf => exact absurd (congrArg (List.count x) (h.start_listeners ht hf)) hc
    · rfl

end ActivityGraph
