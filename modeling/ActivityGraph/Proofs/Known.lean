import ActivityGraph.Proofs.Stride.Marks

namespace ActivityGraph

theorem World.Has.of_keys {v w : World} {s : Source} (h : v.Has s)
    (hn : ∀ k, (v.nodes.get? k).isSome → (w.nodes.get? k).isSome)
    (hs : ∀ k, (v.starts.get? k).isSome → (w.starts.get? k).isSome) : w.Has s := by
  cases s with
  | node k => exact hn k h
  | start k => exact hs k h

theorem Stride.has {a b : Stage} (hs : Stride a b) {s : Source} (h : a.machine.world.Has s) :
    b.machine.world.Has s := by
  cases hs with
  | insert hw | stored _ hw =>
    obtain ⟨t, -, rfl⟩ := World.store_eq hw
    exact h
  | addStart => exact h.of_keys (fun _ ↦ id) (by simp +contextual [Machine.addStart, Machine.mapWorld,
      Machine.note, World.addStart, World.addVertex, World.modifyCollector])
  | @addNode m _ a c deps i s work =>
    obtain ⟨t, -, he⟩ := m.addNode_eq i a c deps s work
    rw [he]
    exact h.of_keys (by simp +contextual) fun _ ↦ id
  | @addTerminal m c deps id body =>
    obtain ⟨t, -, he⟩ := m.placeTerminal_eq id c deps body
    rw [he]
    exact h
  | @addRoot m c id body =>
    obtain ⟨t, -, he⟩ := m.placeTerminal_eq id c [] body
    rw [he]
    exact h
  | @depend m k s b c =>
    obtain ⟨t, -, he⟩ := (m.world.setBarrier (.node k) c).drawEdge_eq s (.node k)
    rw [he]
    exact h
  | listed | abandon | begin | broken | completed | announce =>
    exact h.of_keys (by simp [World.modifyNode]) fun _ ↦ id
  | waiting | ran => exact h.of_keys (fun _ ↦ id) (by simp [World.modifyStart])
  | _ => exact h

def Task.Grounded (w : World) : Task → Prop
  | .keep _ h => ∀ s ∈ h.source?, w.Has s
  | .attach x ss => ∀ s ∈ ss, x.bare = false ∧ w.Has s
  | _ => True

def Call.Grounded (w : World) : Call → Prop
  | .enlist s _ => w.Has s
  | _ => True

theorem Task.Grounded.mono {t : Task} {v w : World} (h : t.Grounded v) (hw : ∀ s, v.Has s → w.Has s) :
    t.Grounded w := by
  cases t with
  | keep id k => exact fun s hs ↦ hw s (h s hs)
  | attach x ss => exact fun s hs ↦ ⟨(h s hs).1, hw s (h s hs).2⟩
  | _ => trivial

namespace Machine

theorem Names.of_keep {m n : Machine} {i : String} {h : Handle} {s : Source} (hs : n.Names s)
    (hn : n.desk = m.desk.keep i h) : m.Names s ∨ h.source? = some s := by
  cases s with
  | node k =>
    obtain ⟨j, hj⟩ := hs
    rw [hn] at hj
    cases h with
    | node l =>
      simp only [Desk.keep, Table.get?_put] at hj
      split at hj
      · exact .inr (by rw [Handle.source?, Option.some.inj hj])
      · exact .inl ⟨j, hj⟩
    | _ => exact .inl ⟨j, hj⟩
  | start k =>
    obtain ⟨j, hj⟩ := hs
    rw [hn] at hj
    cases h with
    | start l =>
      simp only [Desk.keep, Table.get?_put] at hj
      split at hj
      · exact .inr (by rw [Handle.source?, Option.some.inj hj])
      · exact .inl ⟨j, hj⟩
    | _ => exact .inl ⟨j, hj⟩

end Machine

/-- Handles, tasks and calls only refer to sources that exist. -/
structure Stage.Grounded (a : Stage) : Prop where
  named : ∀ s, a.machine.Names s → a.machine.world.Has s
  stack : ∀ t ∈ a.machine.stack, t.Grounded a.machine.world
  call : ∀ c ∈ a.call, c.Grounded a.machine.world

theorem Stride.named {a b : Stage} (hs : Stride a b) (h : a.Grounded) (s : Source)
    (hb : b.machine.Names s) : b.machine.world.Has s := by
  have hw := hs.has (s := s)
  cases hs with
  | @keep m k i hh =>
    rcases hb.of_keep (m := m) rfl with hb | hb
    · exact h.named s hb
    · cases k with
      | node k => exact Option.some.inj hb ▸ h.named (.node k) hh
      | start k => exact Option.some.inj hb ▸ hh
      | _ => exact absurd hb (by simp [Handle.source?])
  | @kept m i k ts hm =>
    rcases hb.of_keep (m := m) rfl with hb | hb
    · exact h.named s hb
    · exact h.stack (.keep i k) (hm ▸ List.mem_cons_self) s hb
  | @join m k t body c =>
    rcases hb.of_keep (m := m) (h := .view ⟨t.collector, c.declared⟩) rfl with hb | hb
    · exact hw (h.named s hb)
    · exact absurd hb (by simp [Handle.source?])
  | @addProbe m i =>
    rcases hb.of_keep (m := m) (h := .probe (m.world.probes.fresh i)) rfl with hb | hb
    · exact hw (h.named s hb)
    · exact absurd hb (by simp [Handle.source?])
  | addNode =>
    simp only [Machine.Names, Machine.desk_addNode] at hb
    exact hw (h.named _ hb)
  | addTerminal | addRoot =>
    simp only [Machine.Names, Machine.push, Machine.desk_placeTerminal] at hb
    exact hw (h.named _ hb)
  | _ => exact hw (h.named s hb)

theorem Stride.stacked {a b : Stage} (hs : Stride a b) (h : a.Grounded) :
    ∀ t ∈ b.machine.stack, t.Grounded b.machine.world := by
  intro t ht
  rcases hs.stacks t ht with ho | hn
  · exact (h.stack t ho).mono fun s ↦ hs.has
  · cases t with
    | keep => exact hn
    | attach x ss =>
      rcases hn with ⟨s, ha⟩ | hn
      · exact fun r hr ↦
          ⟨(h.stack _ ha r (List.mem_cons_of_mem _ hr)).1, hs.has (h.stack _ ha r (List.mem_cons_of_mem _ hr)).2⟩
      · exact fun r hr ↦ ⟨(hn r hr).1, hs.has (h.named r (hn r hr).2)⟩
    | _ => trivial

theorem Stride.called {a b : Stage} (hs : Stride a b) (h : a.Grounded) :
    ∀ c ∈ b.call, c.Grounded b.machine.world := by
  have hw {s : Source} : a.machine.world.Has s → b.machine.world.Has s := hs.has
  cases hs with
  | attach hm =>
    have ha := h.stack _ (hm ▸ List.mem_cons_self)
    simpa [Call.Grounded] using (ha _ List.mem_cons_self).2
  | depend _ _ hd | listen hd => simpa [Call.Grounded] using hw (h.named _ hd)
  | relinquish => exact fun c hc ↦ h.call c hc
  | _ => simp [Call.Grounded]

theorem Stage.Reached.grounded {a : Stage} (h : a.Reached) : a.Grounded := by
  refine h.invariant (fun catalogue ↦ ⟨?_, by simp, by simp⟩) fun a b _ ih hs ↦
    ⟨hs.named ih, hs.stacked ih, hs.called ih⟩
  intro s hs
  cases s <;> exact absurd hs (by simp [Machine.Names, Table.get?])

end ActivityGraph
