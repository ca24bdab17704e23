import ActivityGraph.Proofs.Stride.Step

namespace ActivityGraph

namespace World

theorem drawEdge_eq (w : World) (s : Source) (x : Waiter) :
    ∃ t, t.keys = w.collectors.keys ∧ w.drawEdge s x = { w with collectors := t } := by
  unfold drawEdge
  split
  · split
    · exact ⟨_, Table.keys_modify _ _ _, rfl⟩
    · exact ⟨w.collectors, rfl, rfl⟩
  · exact ⟨w.collectors, rfl, rfl⟩

theorem store_eq {w v : World} {k : Key} {a : Activity} {r : Outcome} (h : w.store k a r = .ok v) :
    ∃ t, t.keys = w.collectors.keys ∧ v = { w with collectors := t } := by
  obtain ⟨f, rfl⟩ := store_ok h
  exact ⟨_, Table.keys_modify _ _ _, rfl⟩

theorem label_node {w : World} {k : Key} {n : Node} (hn : w.nodes.get? k = some n) :
    w.label (.node k) = n.activity.label := by
  rw [label, hn]
  rfl

end World

namespace Machine

theorem wireAll_eq (m : Machine) (x : Waiter) (ss : List Source) :
    ∃ t, t.keys = m.world.collectors.keys ∧ m.wireAll x ss = { m with
      world := { m.world with collectors := t },
      journal := (ss.map (.wired x)).reverse ++ m.journal } := by
  induction ss generalizing m with
  | nil => exact ⟨m.world.collectors, rfl, rfl⟩
  | cons s ss ih =>
    obtain ⟨t, ht, hw⟩ := m.world.drawEdge_eq s x
    obtain ⟨u, hu, he⟩ := ih (m.wire x s)
    have hm : m.wire x s = { m with
        world := { m.world with collectors := t }, journal := .wired x s :: m.journal } := by
      simp only [wire, mapWorld, note, hw]
    rw [hm] at he hu
    refine ⟨u, hu.trans ht, ?_⟩
    have : m.wireAll x (s :: ss) = (m.wire x s).wireAll x ss := rfl
    rw [this, hm, he]
    simp

def newNode (m : Machine) (a : Activity) (c : Key) (s : Setup Script) (work : Work Script) : Node :=
  { activity := a, collector := c, vertex := m.world.nextVertex c, policy := s.policy,
    job := some ⟨s.preparators, work⟩ }

def newTerminal (m : Machine) (c : Key) (body : Script) : Terminal :=
  { collector := c, vertex := m.world.nextVertex c, callback := some body }

theorem addNode_eq (m : Machine) (id : String) (a : Activity) (c : Key) (deps : List Source)
    (s : Setup Script) (work : Work Script) :
    ∃ t, t.keys = m.world.collectors.keys ∧ m.addNode id a c deps s work = { m with
      world := { m.world with
        collectors := t,
        nodes := m.world.nodes.insert (m.world.nodes.fresh id) (m.newNode a c s work),
        barriers := m.world.barriers.insert (.node (m.world.nodes.fresh id))
          { remaining := deps.length } },
      stack := .attach (.node (m.world.nodes.fresh id)) deps ::
        .keep id (.node (m.world.nodes.fresh id)) :: m.stack,
      journal := (deps.map (.wired (.node (m.world.nodes.fresh id)))).reverse ++
        .placed (.node (m.world.nodes.fresh id)) :: m.journal } := by
  obtain ⟨t, ht, he⟩ := wireAll_eq ((m.mapWorld fun w ↦ (w.addVertex c ⟨a.label, .activity⟩).addNode
    (m.world.nodes.fresh id) (m.newNode a c s work) deps.length).note
      (.placed (.node (m.world.nodes.fresh id)))) (.node (m.world.nodes.fresh id)) deps
  exact ⟨t, ht.trans (Table.keys_modify _ _ _),
    congrArg (fun m : Machine ↦ (m.push (.keep id (.node _))).push (.attach (.node _) deps)) he⟩

theorem placeTerminal_eq (m : Machine) (id : String) (c : Key) (deps : List Source) (body : Script) :
    ∃ t, t.keys = m.world.collectors.keys ∧ m.placeTerminal id c deps body = { m with
      world := { m.world with
        collectors := t,
        terminals := m.world.terminals.insert (m.world.terminals.fresh id) (m.newTerminal c body),
        barriers := m.world.barriers.insert (.terminal (m.world.terminals.fresh id))
          { remaining := deps.length } },
      stack := .keep id (.terminal (m.world.terminals.fresh id)) :: m.stack,
      journal := (deps.map (.wired (.terminal (m.world.terminals.fresh id)))).reverse ++
        .placed (.terminal (m.world.terminals.fresh id)) :: m.journal } := by
  obtain ⟨t, ht, he⟩ := wireAll_eq ((m.mapWorld fun w ↦ (w.addVertex c ⟨"joined", .joined⟩).addTerminal
    (m.world.terminals.fresh id) (m.newTerminal c body) deps.length).note
      (.placed (.terminal (m.world.terminals.fresh id)))) (.terminal (m.world.terminals.fresh id)) deps
  exact ⟨t, ht.trans (Table.keys_modify _ _ _),
    congrArg (fun m : Machine ↦ m.push (.keep id (.terminal _))) he⟩

section

variable (m : Machine) (id : String) (a : Activity) (c : Key) (deps : List Source) (s : Setup Script)
  (work : Work Script) (body : Script)

theorem journal_addNode : (m.addNode id a c deps s work).journal =
    (deps.map (.wired (.node (m.world.nodes.fresh id)))).reverse ++
      .placed (.node (m.world.nodes.fresh id)) :: m.journal := by
  obtain ⟨t, -, he⟩ := m.addNode_eq id a c deps s work
  rw [he]

theorem desk_addNode : (m.addNode id a c deps s work).desk = m.desk := by
  obtain ⟨t, -, he⟩ := m.addNode_eq id a c deps s work
  rw [he]

theorem timers_addNode : (m.addNode id a c deps s work).timers = m.timers := by
  obtain ⟨t, -, he⟩ := m.addNode_eq id a c deps s work
  rw [he]

theorem clock_addNode : (m.addNode id a c deps s work).clock = m.clock := by
  obtain ⟨t, -, he⟩ := m.addNode_eq id a c deps s work
  rw [he]

theorem journal_placeTerminal : (m.placeTerminal id c deps body).journal =
    (deps.map (.wired (.terminal (m.world.terminals.fresh id)))).reverse ++
      .placed (.terminal (m.world.terminals.fresh id)) :: m.journal := by
  obtain ⟨t, -, he⟩ := m.placeTerminal_eq id c deps body
  rw [he]

theorem desk_placeTerminal : (m.placeTerminal id c deps body).desk = m.desk := by
  obtain ⟨t, -, he⟩ := m.placeTerminal_eq id c deps body
  rw [he]

theorem timers_placeTerminal : (m.placeTerminal id c deps body).timers = m.timers := by
  obtain ⟨t, -, he⟩ := m.placeTerminal_eq id c deps body
  rw [he]

theorem clock_placeTerminal : (m.placeTerminal id c deps body).clock = m.clock := by
  obtain ⟨t, -, he⟩ := m.placeTerminal_eq id c deps body
  rw [he]

end

end Machine

namespace World

/-- Keys are never used twice, and every waiter has a barrier, in some collector if it is a
terminal. -/
structure Sound (w : World) : Prop where
  collectors : w.collectors.Numbered
  starts : w.starts.Numbered
  nodes : w.nodes.Numbered
  terminals : w.terminals.Numbered
  probes : w.probes.Numbered
  node : ∀ k, .node k ∈ w.barriers.keys ↔ k ∈ w.nodes.keys
  terminal : ∀ k, .terminal k ∈ w.barriers.keys ↔ k ∈ w.terminals.keys
  probe : ∀ k, .probe k ∈ w.barriers.keys ↔ k ∈ w.probes.keys
  housed : ∀ k t, w.terminals.get? k = some t → t.collector ∈ w.collectors.keys

namespace Sound

variable {w : World}

theorem empty : Sound {} where
  collectors := .empty
  starts := .empty
  nodes := .empty
  terminals := .empty
  probes := .empty
  node := by simp [Table.keys]
  terminal := by simp [Table.keys]
  probe := by simp [Table.keys]
  housed := by simp [Table.get?]

theorem withCollectors (h : w.Sound) {t : Table Key Collector} (ht : t.keys = w.collectors.keys) :
    Sound { w with collectors := t } :=
  { h with collectors := h.collectors.of_keys ht, housed := fun k u hu ↦ ht ▸ h.housed k u hu }

theorem modifyStart (h : w.Sound) (k : Key) (f : Start → Start) : (w.modifyStart k f).Sound :=
  { h with starts := h.starts.of_keys (Table.keys_modify _ _ _) }

theorem modifyNode (h : w.Sound) (k : Key) (f : Node → Node) : (w.modifyNode k f).Sound :=
  { h with
    nodes := h.nodes.of_keys (Table.keys_modify _ _ _),
    node := fun l ↦ (h.node l).trans (by simp [World.modifyNode]) }

theorem modifyTerminal (h : w.Sound) (k : Key) (f : Terminal → Terminal)
    (hf : ∀ t, (f t).collector = t.collector) : (w.modifyTerminal k f).Sound :=
  { h with
    terminals := h.terminals.of_keys (Table.keys_modify _ _ _),
    terminal := fun l ↦ (h.terminal l).trans (by simp [World.modifyTerminal]),
    housed := by
      intro l t ht
      simp only [World.modifyTerminal, Table.get?_modify] at ht
      split at ht
      · obtain ⟨u, hu, rfl⟩ := Option.map_eq_some_iff.1 ht
        exact hf u ▸ h.housed l u hu
      · exact h.housed l t ht }

theorem modifyProbe (h : w.Sound) (k : Key) (f : Probe → Probe) : (w.modifyProbe k f).Sound :=
  { h with
    probes := h.probes.of_keys (Table.keys_modify _ _ _),
    probe := fun l ↦ (h.probe l).trans (by simp [World.modifyProbe]) }

theorem setBarrier (h : w.Sound) (x : Waiter) (b : Barrier) : (w.setBarrier x b).Sound :=
  { h with
    node := fun l ↦ by simpa [World.setBarrier] using h.node l,
    terminal := fun l ↦ by simpa [World.setBarrier] using h.terminal l,
    probe := fun l ↦ by simpa [World.setBarrier] using h.probe l }

theorem addCollector (h : w.Sound) (id : String) (c : Collector) :
    (w.addCollector (w.collectors.fresh id) c).Sound :=
  { h with
    collectors := h.collectors.insert id c,
    housed := fun k t ht ↦ by simp [World.addCollector, h.housed k t ht] }

theorem addStart (h : w.Sound) (id : String) (s : Start) :
    (w.addStart (w.starts.fresh id) s).Sound :=
  { h with starts := h.starts.insert id s }

theorem addNode (h : w.Sound) (id : String) (n : Node) (count : Nat) :
    (w.addNode (w.nodes.fresh id) n count).Sound :=
  { h with
    nodes := h.nodes.insert id n,
    node := fun l ↦ by simp [World.addNode, h.node l],
    terminal := fun l ↦ by simp [World.addNode, h.terminal l],
    probe := fun l ↦ by simp [World.addNode, h.probe l] }

theorem addTerminal (h : w.Sound) (id : String) (t : Terminal) (count : Nat)
    (hc : t.collector ∈ w.collectors.keys) : (w.addTerminal (w.terminals.fresh id) t count).Sound :=
  { h with
    terminals := h.terminals.insert id t,
    node := fun l ↦ by simp [World.addTerminal, h.node l],
    terminal := fun l ↦ by simp [World.addTerminal, h.terminal l],
    probe := fun l ↦ by simp [World.addTerminal, h.probe l],
    housed := by
      intro l u hu
      simp only [World.addTerminal, Table.get?_insert_of_new (h.terminals.get?_fresh id)] at hu
      split at hu
      · exact Option.some.inj hu ▸ hc
      · exact h.housed l u hu }

theorem addProbe (h : w.Sound) (id : String) (p : Probe) (count : Nat) :
    (w.addProbe (w.probes.fresh id) p count).Sound :=
  { h with
    probes := h.probes.insert id p,
    node := fun l ↦ by simp [World.addProbe, h.node l],
    terminal := fun l ↦ by simp [World.addProbe, h.terminal l],
    probe := fun l ↦ by simp [World.addProbe, h.probe l] }

theorem isSome_node (h : w.Sound) (k : Key) : (w.barriers.get? (.node k)).isSome = (w.nodes.get? k).isSome := by
  rw [Bool.eq_iff_iff, Table.isSome_get?_iff, Table.isSome_get?_iff]
  exact h.node k

theorem isSome_terminal (h : w.Sound) (k : Key) :
    (w.barriers.get? (.terminal k)).isSome = (w.terminals.get? k).isSome := by
  rw [Bool.eq_iff_iff, Table.isSome_get?_iff, Table.isSome_get?_iff]
  exact h.terminal k

theorem newNode (h : w.Sound) (id : String) : w.barriers.get? (.node (w.nodes.fresh id)) = none :=
  Table.get?_eq_none_iff.2 fun hk ↦ h.nodes.fresh_notMem id ((h.node _).1 hk)

theorem newTerminal (h : w.Sound) (id : String) :
    w.barriers.get? (.terminal (w.terminals.fresh id)) = none :=
  Table.get?_eq_none_iff.2 fun hk ↦ h.terminals.fresh_notMem id ((h.terminal _).1 hk)

end Sound

variable {w : World} {x y : Waiter} {k l : Key}

theorem get?_setBarrier {b : Barrier} (h : w.barriers.get? x = some b) (d : Barrier) :
    (w.setBarrier x d).barriers.get? x = some d := by
  rw [setBarrier, Table.get?_modify_self, h, Option.map_some]

theorem get?_setBarrier_of_ne (h : y ≠ x) (d : Barrier) :
    (w.setBarrier y d).barriers.get? x = w.barriers.get? x := Table.get?_modify_of_ne _ h _

theorem get?_modifyNode (w : World) (l : Key) (f : Node → Node) (k : Key) :
    (w.modifyNode l f).nodes.get? k = if l = k then (w.nodes.get? k).map f else w.nodes.get? k :=
  Table.get?_modify ..

theorem get?_modifyNode_self {n : Node} (h : w.nodes.get? k = some n) (f : Node → Node) :
    (w.modifyNode k f).nodes.get? k = some (f n) := by
  rw [get?_modifyNode, if_pos rfl, h, Option.map_some]

theorem get?_modifyNode_of_ne (h : l ≠ k) (f : Node → Node) :
    (w.modifyNode l f).nodes.get? k = w.nodes.get? k := Table.get?_modify_of_ne _ h f

end World

theorem Stride.sound {a b : Stage} (hs : Stride a b) (h : a.machine.world.Sound) :
    b.machine.world.Sound := by
  cases hs with
  | insert hw | stored _ hw =>
    obtain ⟨t, ht, rfl⟩ := World.store_eq hw
    exact h.withCollectors ht
  | addCollector id name as context => exact h.addCollector id _
  | @addStart m c id hc =>
    have hv := h.withCollectors (Table.keys_modify m.world.collectors c fun c ↦
      { c with diagram := c.diagram.addVertex ⟨"start", .start⟩ })
    exact hv.addStart id _
  | @addNode m _ a c deps id s work =>
    obtain ⟨t, ht, he⟩ := m.addNode_eq id a c deps s work
    rw [he]
    exact (h.withCollectors ht).addNode id _ _
  | @addTerminal m c deps id body hc =>
    obtain ⟨t, ht, he⟩ := m.placeTerminal_eq id c deps body
    rw [he]
    exact (h.withCollectors ht).addTerminal id _ _ (ht ▸ Table.isSome_get?_iff.1 hc)
  | @addRoot m c id body hc =>
    obtain ⟨t, ht, he⟩ := m.placeTerminal_eq id c [] body
    rw [he]
    exact (h.withCollectors ht).addTerminal id _ _ (ht ▸ Table.isSome_get?_iff.1 hc)
  | addProbe id name count invoke cancel => exact h.addProbe id _ _
  | expect | arrived | closed | opened => exact h.setBarrier _ _
  | @depend m k s b c =>
    obtain ⟨t, ht, he⟩ := (m.world.setBarrier (.node k) c).drawEdge_eq s (.node k)
    rw [he]
    exact (h.setBarrier _ _).withCollectors ht
  | fired | join => exact h.modifyTerminal _ _ fun _ ↦ rfl
  | listed | abandon | begin | broken | completed | announce => exact h.modifyNode _ _
  | waiting | ran => exact h.modifyStart _ _
  | call => exact h.modifyProbe _ _
  | _ => exact h

theorem Stage.Reached.sound {a : Stage} (h : a.Reached) : a.machine.world.Sound :=
  h.invariant (P := fun a ↦ a.machine.world.Sound) (fun _ ↦ .empty) fun _ _ _ ih hs ↦ hs.sound ih

end ActivityGraph
