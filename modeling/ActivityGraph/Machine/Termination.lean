import ActivityGraph.Machine.Run

namespace ActivityGraph

theorem Work.weight_withRegister (w : Work Script) (r : Json) :
    Work.weight (w.withRegister r) = Work.weight w := by
  cases w <;> simp [Work.withRegister, Work.weight]

namespace Setup

def load (s : Setup Script) : Nat := total (s.preparators.map fun p ↦ 2 + Script.weight p.2)

theorem load_add (s : Setup Script) (x : Step Script) :
    (s.add x).load = s.load + Step.weight x := by
  cases x <;> simp [Setup.add, Setup.load, Step.weight]

theorem load_foldl (steps : List (Step Script)) (s : Setup Script) :
    (steps.foldl Setup.add s).load = s.load + Steps.weight steps := by
  induction steps generalizing s with
  | nil => simp [Steps.weight]
  | cons x xs ih => simp only [List.foldl_cons, ih, load_add, Steps.weight]; omega

theorem load_ofSteps (setup : Option (List (Step Script))) :
    (Setup.ofSteps (setup.getD [])).load = Setup.weight setup := by
  cases setup with
  | none => rfl
  | some steps => exact (load_foldl steps {}).trans (Nat.zero_add _)

end Setup

namespace World

variable {w : World}

theorem weight_modifyCollector (w : World) (k : Key) (f : Collector → Collector) :
    (w.modifyCollector k f).weight = w.weight := rfl

theorem weight_modifyNode {k : Key} {n : Node} (h : w.nodes.get? k = some n) (f : Node → Node) :
    (w.modifyNode k f).weight + nodeWeight n = w.weight + nodeWeight (f n) := by
  have := Table.total_modify nodeWeight h f
  simp only [weight, modifyNode]
  omega

theorem weight_modifyStart {k : Key} {s : Start} (h : w.starts.get? k = some s) (f : Start → Start) :
    (w.modifyStart k f).weight + startWeight s = w.weight + startWeight (f s) := by
  have := Table.total_modify startWeight h f
  simp only [weight, modifyStart]
  omega

theorem weight_modifyTerminal {k : Key} {t : Terminal} (h : w.terminals.get? k = some t)
    (f : Terminal → Terminal) :
    (w.modifyTerminal k f).weight + terminalWeight t = w.weight + terminalWeight (f t) := by
  have := Table.total_modify terminalWeight h f
  simp only [weight, modifyTerminal]
  omega

theorem weight_modifyProbe {k : Key} {p : Probe} (h : w.probes.get? k = some p) (f : Probe → Probe) :
    (w.modifyProbe k f).weight + probeWeight p = w.weight + probeWeight (f p) := by
  have := Table.total_modify probeWeight h f
  simp only [weight, modifyProbe]
  omega

theorem weight_setBarrier {x : Waiter} {b : Barrier} (h : w.barriers.get? x = some b) (c : Barrier) :
    (w.setBarrier x c).weight + barrierWeight b = w.weight + barrierWeight c := by
  have := Table.total_modify barrierWeight h fun _ ↦ c
  simp only [weight, setBarrier]
  omega

theorem weight_drawEdge (w : World) (s : Source) (x : Waiter) : (w.drawEdge s x).weight = w.weight := by
  unfold drawEdge
  split
  · split <;> rfl
  · rfl

theorem weight_addStart (w : World) (k : Key) (s : Start) :
    (w.addStart k s).weight = w.weight + startWeight s := by
  simp only [weight, addStart, Table.values_insert, List.map_append, total_append, List.map_cons,
    List.map_nil, total_cons, total_nil]
  omega

theorem weight_addNode (w : World) (k : Key) (n : Node) (count : Nat) :
    (w.addNode k n count).weight = w.weight + nodeWeight n + 1 := by
  simp only [weight, addNode, Table.values_insert, List.map_append, total_append, List.map_cons,
    List.map_nil, total_cons, total_nil, barrierWeight, Bool.false_eq_true, if_false]
  omega

theorem weight_addTerminal (w : World) (k : Key) (t : Terminal) (count : Nat) :
    (w.addTerminal k t count).weight = w.weight + terminalWeight t + 1 := by
  simp only [weight, addTerminal, Table.values_insert, List.map_append, total_append,
    List.map_cons, List.map_nil, total_cons, total_nil, barrierWeight, Bool.false_eq_true,
    if_false]
  omega

theorem weight_addProbe (w : World) (k : Key) (p : Probe) (count : Nat) :
    (w.addProbe k p count).weight = w.weight + probeWeight p + 1 := by
  simp only [weight, addProbe, Table.values_insert, List.map_append, total_append, List.map_cons,
    List.map_nil, total_cons, total_nil, barrierWeight, Bool.false_eq_true, if_false]
  omega

theorem store_ok {v : World} {k : Key} {a : Activity} {r : Outcome} (h : w.store k a r = .ok v) :
    ∃ f, v = w.modifyCollector k f := by
  unfold store at h
  split at h
  · simp at h
  · split at h
    · simp at h
    · exact ⟨_, (Except.ok.inj h).symm⟩

end World

namespace Machine

theorem weight_push (m : Machine) (t : Task) : (m.push t).weight = m.weight + t.weight := by
  simp only [weight, push, List.map_cons, total_cons]
  omega

theorem weight_mapWorld (m : Machine) (f : World → World) :
    (m.mapWorld f).weight + m.world.weight = m.weight + (f m.world).weight := by
  simp only [weight, mapWorld]
  omega

@[simp] theorem weight_note (m : Machine) (e : Event) : (m.note e).weight = m.weight := rfl

@[simp] theorem weight_log (m : Machine) (e : Entry) : (m.log e).weight = m.weight := rfl

@[simp] theorem weight_keep (m : Machine) (id : String) (h : Handle) :
    (m.keep id h).weight = m.weight := rfl

theorem noteAll_eq (m : Machine) (es : List Event) :
    m.noteAll es = { m with journal := es.reverse ++ m.journal } := by
  induction es generalizing m with
  | nil => rfl
  | cons e es ih =>
    simp only [noteAll, List.foldl_cons] at ih ⊢
    simp [ih, note]

@[simp] theorem weight_noteAll (m : Machine) (es : List Event) : (m.noteAll es).weight = m.weight := by
  rw [noteAll_eq]
  rfl

theorem stack_noteAll (m : Machine) (es : List Event) : (m.noteAll es).stack = m.stack := by
  rw [noteAll_eq]

@[simp] theorem weight_conclude (m : Machine) (c : Caller) (a : Answer) :
    (m.conclude c a).weight = m.weight := by
  unfold conclude
  split <;> rfl

@[simp] theorem weight_takeCompletion (m : Machine) (id : String) :
    (m.takeCompletion id).weight = m.weight := rfl

@[simp] theorem weight_dropCompletion (m : Machine) (id : String) :
    (m.dropCompletion id).weight = m.weight := by
  unfold dropCompletion
  split <;> rfl

@[simp] theorem weight_holdCompletion (m : Machine) (id : String) (k : Key) :
    (m.holdCompletion id k).weight = m.weight := m.weight_dropCompletion id

theorem stack_dropCompletion (m : Machine) (id : String) : (m.dropCompletion id).stack = m.stack := by
  unfold dropCompletion
  split <;> rfl

theorem weight_unwind_le (f : Fault) (ts : List Task) (m : Machine) :
    (unwind f ts m).weight + total (m.stack.map Task.weight) ≤ m.weight + total (ts.map Task.weight) := by
  induction ts generalizing m with
  | nil => simp only [unwind, weight, List.map_nil, total_nil]; omega
  | cons t ts ih =>
    cases t with
    | guard c =>
      simp only [unwind, weight_conclude]
      simp only [weight, List.map_cons, total_cons]
      omega
    | contain => simp only [unwind, weight, List.map_cons, total_cons]; omega
    | relinquish id =>
      have := ih (m.dropCompletion id)
      rw [stack_dropCompletion, weight_dropCompletion] at this
      simp only [unwind, List.map_cons, total_cons]
      omega
    | _ =>
      have h := fun es ↦ ih (m.noteAll es)
      simp only [weight_noteAll, stack_noteAll] at h
      simp only [unwind, List.map_cons, total_cons]
      exact Nat.le_trans (h _) (by omega)

theorem weight_raise_le (m : Machine) (f : Fault) : (m.raise f).weight ≤ m.weight := by
  have := weight_unwind_le f m.stack m
  unfold raise
  omega

theorem weight_modifyNode {m : Machine} {k : Key} {n : Node} (h : m.world.nodes.get? k = some n)
    (f : Node → Node) :
    (m.modifyNode k f).weight + World.nodeWeight n = m.weight + World.nodeWeight (f n) := by
  have := World.weight_modifyNode h f
  have := m.weight_mapWorld fun w ↦ w.modifyNode k f
  unfold modifyNode
  omega

theorem weight_setBarrier {m : Machine} {x : Waiter} {b : Barrier}
    (h : m.world.barriers.get? x = some b) (c : Barrier) :
    (m.mapWorld fun w ↦ w.setBarrier x c).weight + World.barrierWeight b =
      m.weight + World.barrierWeight c := by
  have := World.weight_setBarrier h c
  have := m.weight_mapWorld fun w ↦ w.setBarrier x c
  omega

theorem store_ok {m n : Machine} {writer : Option Key} {k : Key} {a : Activity} {r : Outcome}
    (h : m.store writer k a r = .ok n) :
    ∃ f, n = (m.mapWorld fun w ↦ w.modifyCollector k f).note (.wrote writer k a r) := by
  unfold store at h
  split at h
  · simp at h
  · next w hw =>
    obtain ⟨f, rfl⟩ := World.store_ok hw
    exact ⟨f, (Except.ok.inj h).symm⟩

theorem weight_store {m n : Machine} {writer : Option Key} {k : Key} {a : Activity} {r : Outcome}
    (h : m.store writer k a r = .ok n) : n.weight = m.weight := by
  obtain ⟨f, rfl⟩ := store_ok h
  rfl

theorem weight_resolve_le (m : Machine) (k : Key) (s : Signal) :
    (m.resolve k s).weight ≤ m.weight + 1 := by
  unfold resolve
  split
  · omega
  · next n hn =>
    have told (m' : Machine) (hw : m'.weight = m.weight) (hm : m'.world.nodes.get? k = some n) :
        (m'.modifyNode k fun n ↦ { n with signal := some s, listeners := [] }).weight +
          n.listeners.length = m.weight := by
      have := weight_modifyNode hm fun n ↦ { n with signal := some s, listeners := [] }
      simp only [World.nodeWeight, List.length_nil] at this
      omega
    cases h : m.store (some k) n.collector n.activity n.record with
    | error e =>
      have := told (m.log (.notStored k e)) rfl hn
      cases s <;> simp only [weight_push, weight_log, Task.weight] <;> omega
    | ok m' =>
      have hm : m'.world.nodes = m.world.nodes := by obtain ⟨f, rfl⟩ := store_ok h; rfl
      have := told m' (weight_store h) (hm ▸ hn)
      cases s <;> simp only [weight_push, weight_log, Task.weight] <;> omega

theorem weight_abandon_le (m : Machine) (k : Key) : (m.abandon k).weight ≤ m.weight + 1 := by
  unfold abandon
  split
  · omega
  · next n hn =>
    refine Nat.le_trans (weight_resolve_le _ _ _) ?_
    have := weight_modifyNode hn fun n ↦ { n with job := none, record := n.record.cancel }
    simp only [weight_log]
    simp only [World.nodeWeight, Option.map_none, Option.getD_none] at this
    omega

theorem weight_complete_le (m : Machine) (k : Key) (result : Except Payload Payload) :
    (m.complete k result).weight ≤ m.weight + 1 := by
  unfold complete
  split
  · omega
  · next n hn =>
    split
    · exact Nat.le_succ_of_le (weight_raise_le _ _)
    · next r _ =>
      have same := weight_modifyNode hn fun n' ↦ { n' with record := (n.policy.rule r).record }
      simp only [World.nodeWeight] at same
      dsimp only
      split
      · refine Nat.le_succ_of_le (Nat.le_trans (weight_raise_le _ _) ?_)
        simp only [weight_note, weight_noteAll]
        omega
      · refine Nat.le_trans (weight_resolve_le _ _ _) ?_
        simp only [weight_log, weight_noteAll]
        omega

theorem weight_launch_lt (m : Machine) (k : Key) (j : Job) :
    (m.launch k j).weight < m.weight + j.weight := by
  obtain ⟨preparators, work⟩ := j
  cases preparators with
  | cons p rest =>
    simp only [launch, weight_push, weight_note, Task.weight, Job.weight, List.map_cons, total_cons]
    omega
  | nil =>
    cases work with
    | script body hold r =>
      cases hold with
      | true => simp [launch, weight_push, Task.weight, Job.weight, Work.weight]
      | false =>
        simp [launch, weight_push, Task.weight, Job.weight, Work.weight]
        omega
    | timer after =>
      simp only [launch, Job.weight, Work.weight, weight, List.length_append, List.length_singleton,
        List.map_nil, total_nil, log, note]
      omega

theorem weight_begin_le (m : Machine) (k : Key) : (m.begin k).weight ≤ m.weight := by
  unfold begin
  split
  · omega
  · next n hn =>
    split
    · exact weight_raise_le _ _
    · next j hj =>
      have := weight_modifyNode hn fun n ↦ { n with job := none }
      simp only [World.nodeWeight, hj, Option.map_some, Option.getD_some, Option.map_none,
        Option.getD_none] at this
      have := weight_launch_lt (m.modifyNode k fun n ↦ { n with job := none }) k j
      omega

theorem weight_join_le (m : Machine) (k : Key) : (m.join k).weight ≤ m.weight := by
  unfold join
  split
  · omega
  · next t ht =>
    split
    · next body c hb _ =>
      have := World.weight_modifyTerminal ht fun t ↦ { t with callback := none }
      have := m.weight_mapWorld fun w ↦ w.modifyTerminal k fun t ↦ { t with callback := none }
      simp only [weight_push, weight_keep, weight_note, weight_log, Task.weight]
      simp only [World.terminalWeight, hb, Option.map_some, Option.getD_some, Option.map_none,
        Option.getD_none] at *
      omega
    · omega

theorem weight_call_le (m : Machine) (k : Key) (canceled : Bool) :
    (m.call k canceled).weight ≤ m.weight := by
  unfold call
  split
  · omega
  · next p hp =>
    split
    · omega
    · next i c hs =>
      have := World.weight_modifyProbe hp fun p ↦ { p with scripts := none }
      have := m.weight_mapWorld fun w ↦ w.modifyProbe k fun p ↦ { p with scripts := none }
      simp only [weight_push, weight_note, Task.weight]
      simp only [World.probeWeight, hs, Option.map_some, Option.getD_some, Option.map_none,
        Option.getD_none] at *
      cases canceled <;> simp only [if_true, Bool.false_eq_true, if_false] <;> omega

theorem weight_enter_le (m : Machine) (x : Waiter) (canceled : Bool) :
    (m.enter x canceled).weight ≤ m.weight + 1 := by
  cases x with
  | node k =>
    cases canceled
    · exact Nat.le_succ_of_le (weight_begin_le m k)
    · exact weight_abandon_le m k
  | terminal k => exact Nat.le_succ_of_le (weight_join_le m k)
  | probe k => exact Nat.le_succ_of_le (weight_call_le m k canceled)

theorem weight_arrive_le (m : Machine) (x : Waiter) (canceled : Bool) :
    (m.arrive x canceled).weight ≤ m.weight := by
  unfold arrive
  split
  · omega
  · next b hb =>
    split
    · exact weight_raise_le _ _
    · next c hc =>
      have hw := weight_setBarrier hb c
      have ho : b.closed = false := by
        cases h : b.closed
        · rfl
        · simp [Barrier.arrive?, h] at hc
      simp only [World.barrierWeight, ho, Bool.false_eq_true, if_false] at hw
      dsimp only
      split
      · next hclosed =>
        simp only [hclosed, if_true] at hw
        refine Nat.le_trans (weight_enter_le _ _ _) ?_
        simp only [weight_log]
        omega
      · split at hw <;> omega

theorem weight_tell_le (m : Machine) (x : Waiter) (s : Source) (canceled : Bool) :
    (m.tell x s canceled).weight ≤ m.weight :=
  weight_arrive_le (m.note (.told x s canceled)) x canceled

theorem weight_release_le (m : Machine) (x : Waiter) : (m.release x).weight ≤ m.weight := by
  unfold release
  split
  · omega
  · next b hb =>
    split
    · exact weight_raise_le _ _
    · exact weight_raise_le _ _
    · next c hc =>
      have hw := weight_setBarrier hb c
      have : b.closed = false ∧ c.closed = true := by
        unfold Barrier.release at hc
        split at hc
        · simp at hc
        · next ho =>
          split at hc
          · exact ⟨by simpa using ho, (Except.ok.inj hc) ▸ rfl⟩
          · simp at hc
      simp only [World.barrierWeight, this, Bool.false_eq_true, if_false, if_true] at hw
      refine Nat.le_trans (weight_enter_le _ _ _) ?_
      simp only [weight_log]
      omega

theorem weight_enlist_le (m : Machine) (s : Source) (x : Waiter) :
    (m.enlist s x).weight ≤ m.weight + 1 := by
  unfold enlist
  split
  · split
    · omega
    · next n hn =>
      split
      · have := weight_modifyNode hn fun n ↦ { n with listeners := n.listeners ++ [x] }
        simp only [World.nodeWeight, List.length_append, List.length_singleton] at this
        omega
      · exact Nat.le_succ_of_le (weight_tell_le _ _ _ _)
  · next k =>
    split
    · omega
    · next t ht =>
      split
      · exact Nat.le_succ_of_le (weight_tell_le _ _ _ _)
      · have := World.weight_modifyStart ht fun t ↦ { t with listeners := t.listeners ++ [x] }
        have := m.weight_mapWorld fun w ↦
          w.modifyStart k fun t ↦ { t with listeners := t.listeners ++ [x] }
        simp only [World.startWeight, List.length_append, List.length_singleton] at *
        omega

theorem weight_listen_le (m : Machine) (s : Source) (x : Waiter) :
    (m.listen s x).weight ≤ m.weight + 1 := weight_enlist_le (m.note (.listened x s)) s x

theorem weight_fire_le (m : Machine) (k : Key) : (m.fire k).weight ≤ m.weight + 1 := by
  unfold fire
  split
  · omega
  · next s hs =>
    dsimp only
    split
    · exact Nat.le_succ_of_le (weight_raise_le _ _)
    · have := World.weight_modifyStart hs fun t ↦ { t with fired := true, listeners := [] }
      have := m.weight_mapWorld fun w ↦
        w.modifyStart k fun t ↦ { t with fired := true, listeners := [] }
      simp only [weight_push, weight_log, Task.weight]
      simp only [World.startWeight, List.length_nil] at *
      omega

@[simp] theorem weight_wire (m : Machine) (x : Waiter) (s : Source) : (m.wire x s).weight = m.weight := by
  have := m.weight_mapWorld fun w ↦ w.drawEdge s x
  simp only [wire, weight_note, World.weight_drawEdge] at *
  omega

@[simp] theorem weight_wireAll (m : Machine) (x : Waiter) (ss : List Source) :
    (m.wireAll x ss).weight = m.weight := by
  induction ss generalizing m with
  | nil => rfl
  | cons s ss ih => exact (ih (m.wire x s)).trans (weight_wire m x s)

theorem weight_expect_le (m : Machine) (x : Waiter) : (m.expect x).weight ≤ m.weight := by
  unfold expect
  split
  · omega
  · next b hb =>
    split
    · exact weight_raise_le _ _
    · next c hc =>
      have hw := weight_setBarrier hb c
      have : c.closed = b.closed := by
        unfold Barrier.expect? at hc
        split at hc
        · simp at hc
        · exact (Option.some.inj hc) ▸ rfl
      simp only [World.barrierWeight, this] at hw
      omega

theorem weight_depend_le (m : Machine) (x : Waiter) (s : Source) :
    (m.depend x s).weight ≤ m.weight + 1 := by
  have hx := m.weight_expect_le x
  unfold depend
  unfold expect at hx
  cases hb : m.world.barriers.get? x with
  | none => exact Nat.le_succ _
  | some b =>
    simp only [hb] at hx ⊢
    cases hc : b.expect? with
    | none => exact Nat.le_succ_of_le (weight_raise_le _ _)
    | some c =>
      simp only [hc] at hx
      refine Nat.le_trans (weight_listen_le _ _ _) ?_
      simp only [weight_wire]
      omega

theorem weight_elapse_le (m : Machine) (stop : Nat) (ρ : Runtime) : (m.elapse stop ρ).weight ≤ m.weight := by
  unfold elapse
  split
  · exact Nat.le_of_eq rfl
  · next t i ht =>
    have : (m.timers.filter fun u ↦ u.node ≠ t.node).length < m.timers.length :=
      List.length_filter_lt_length_iff_exists.2 ⟨t, ρ.pending ht, by simp⟩
    refine Nat.le_trans (weight_complete_le _ _ _) ?_
    simp only [weight_log, weight_push, Task.weight]
    simp only [weight]
    omega

theorem weight_addCollector (m : Machine) (k : Key) (name : String) (as : List Activity)
    (context : Json) : (m.addCollector k name as context).weight = m.weight := rfl

theorem weight_addStart (m : Machine) (k c : Key) : (m.addStart k c).weight = m.weight := by
  have := m.weight_mapWorld fun w ↦
    (w.addVertex c ⟨"start", .start⟩).addStart k { collector := c, vertex := m.world.nextVertex c }
  simp only [World.weight_addStart, World.startWeight, List.length_nil, World.addVertex,
    World.weight_modifyCollector] at this
  simp only [addStart, World.addVertex, weight_note]
  omega

theorem weight_placeNode (m : Machine) (c : Key) (v : Vertex) (k : Key) (n : Node) (count : Nat) :
    (m.mapWorld fun w ↦ (w.addVertex c v).addNode k n count).weight =
      m.weight + World.nodeWeight n + 1 := by
  have := m.weight_mapWorld fun w ↦ (w.addVertex c v).addNode k n count
  simp only [World.weight_addNode, World.addVertex, World.weight_modifyCollector] at *
  omega

theorem weight_placeTerminal (m : Machine) (c : Key) (v : Vertex) (k : Key) (t : Terminal)
    (count : Nat) :
    (m.mapWorld fun w ↦ (w.addVertex c v).addTerminal k t count).weight =
      m.weight + World.terminalWeight t + 1 := by
  have := m.weight_mapWorld fun w ↦ (w.addVertex c v).addTerminal k t count
  simp only [World.weight_addTerminal, World.addVertex, World.weight_modifyCollector] at *
  omega

theorem weight_addNode (m : Machine) (id : String) (a : Activity) (c : Key) (deps : List Source)
    (s : Setup Script) (work : Work Script) :
    (m.addNode id a c deps s work).weight =
      m.weight + s.load + Work.weight work + 2 * deps.length + 3 := by
  simp only [addNode, weight_push, weight_wireAll, weight_note, weight_placeNode, Task.weight,
    World.nodeWeight, Option.map_some, Option.getD_some, Job.weight, Setup.load, List.length_nil,
    Dependencies.listened_list]
  omega

theorem weight_addTerminal_le (m : Machine) (id : String) (c : Key) (deps : List Source)
    (body : Script) :
    (m.addTerminal id c deps body).weight ≤ m.weight + Script.weight body + 2 * deps.length + 6 := by
  simp only [addTerminal]
  split
  · refine Nat.le_trans (weight_release_le _ _) ?_
    simp only [weight_push, weight_wireAll, weight_note, weight_placeTerminal, Task.weight,
      World.terminalWeight, Option.map_some, Option.getD_some]
    omega
  · simp only [weight_push, weight_wireAll, weight_note, weight_placeTerminal, Task.weight,
      World.terminalWeight, Option.map_some, Option.getD_some, Dependencies.listened_list]
    omega

theorem weight_addProbe (m : Machine) (id name : String) (count : Nat) (invoke cancel : Script) :
    (m.addProbe id name count invoke cancel).weight =
      m.weight + Script.weight invoke + Script.weight cancel + 3 := by
  have := m.weight_mapWorld fun w ↦
    w.addProbe (m.world.probes.fresh id) { name := name, scripts := some (invoke, cancel) } count
  simp only [World.weight_addProbe, World.probeWeight, Option.map_some, Option.getD_some] at this
  simp only [addProbe, weight_keep]
  omega

theorem weight_describeSetup (m : Machine) (a : Activity) (s : Option (List (Step Script))) :
    (m.describeSetup a s).weight = m.weight := by cases s <;> rfl

theorem mapM_length {α β : Type} (f : α → Except String β) {xs : List α} {ys : List β}
    (h : xs.mapM f = .ok ys) : ys.length = xs.length := by
  induction xs generalizing ys with
  | nil => simp_all [pure, Except.pure]
  | cons x xs ih =>
    simp only [List.mapM_cons, bind, Except.bind] at h
    split at h
    · simp at h
    · split at h
      · simp at h
      · next zs hz => simp only [pure, Except.pure, Except.ok.injEq] at h; simp [← h, ih hz]

theorem weight_clone {m n : Machine} {id copy : String} (h : m.clone id copy = .ok n) :
    n.weight = m.weight := by
  unfold clone at h
  split at h
  · exact Except.ok.inj h ▸ rfl
  · simp only [bind, Except.bind] at h
    split at h
    · simp at h
    · exact Except.ok.inj h ▸ rfl
  · exact Except.ok.inj h ▸ rfl
  · exact Except.ok.inj h ▸ rfl
  · exact Except.ok.inj h ▸ rfl
  · simp at h

theorem bind_ok {α β : Type} {x : Except String α} {g : α → Except String β} {b : β}
    (h : (x >>= g) = .ok b) : ∃ a, x = .ok a ∧ g a = .ok b := by
  cases x with
  | error e => simp [bind, Except.bind] at h
  | ok a => exact ⟨a, rfl, h⟩

theorem weight_act_lt {m n : Machine} {f : Frame} {c : Caller} {a : Action}
    (h : m.act f c a = .ok n) : n.weight < m.weight + a.weight + 1 := by
  cases a with
  | collect id name keys context =>
    obtain ⟨as, -, h⟩ := bind_ok h
    obtain rfl := Except.ok.inj h
    simp only [weight_push, weight_keep, weight_addCollector, Task.weight, Action.weight]
    omega
  | start id name keys context =>
    obtain ⟨as, -, h⟩ := bind_ok h
    obtain rfl := Except.ok.inj h
    simp only [weight_push, weight_keep, weight_addStart, weight_addCollector, Task.weight,
      Action.weight]
    omega
  | run id =>
    obtain ⟨k, -, h⟩ := bind_ok h
    obtain rfl := Except.ok.inj h
    have := weight_fire_le (m.push (.answer c (.now .nothing))) k
    simp only [weight_push, Task.weight, Action.weight] at *
    omega
  | ask q =>
    obtain ⟨a, -, h⟩ := bind_ok h
    obtain rfl := Except.ok.inj h
    simp only [weight_push, Task.weight, Action.weight]
    omega
  | grant id g =>
    obtain ⟨v, -, h⟩ := bind_ok h
    cases v <;> obtain rfl := Except.ok.inj h <;>
      simp only [weight_push, weight_keep, Task.weight, Action.weight] <;> omega
  | insert id key d =>
    obtain ⟨p, -, h⟩ := bind_ok h
    obtain ⟨a, -, h⟩ := bind_ok h
    split at h
    · obtain rfl := Except.ok.inj h
      simp only [weight_push, Task.weight, Action.weight]
      omega
    · next m' hs =>
      obtain rfl := Except.ok.inj h
      simp only [weight_push, weight_store hs, Task.weight, Action.weight]
      omega
  | set id key d =>
    obtain ⟨p, -, h⟩ := bind_ok h
    obtain ⟨a, -, h⟩ := bind_ok h
    split at h
    · split at h
      · obtain rfl := Except.ok.inj h
        simp only [weight_push, Task.weight, Action.weight]
        omega
      · next m' hs =>
        obtain rfl := Except.ok.inj h
        simp only [weight_push, weight_store hs, Task.weight, Action.weight]
        omega
    · obtain rfl := Except.ok.inj h
      simp only [weight_push, Task.weight, Action.weight]
      omega
  | perform id key coll deps setup work =>
    obtain ⟨a, -, h⟩ := bind_ok h
    obtain ⟨p, -, h⟩ := bind_ok h
    dsimp only at h
    split at h
    · obtain rfl := Except.ok.inj h
      simp only [weight_push, weight_describeSetup, Task.weight, Action.weight]
      omega
    · next ss hss =>
      have := mapM_length _ hss
      split at h
      · obtain rfl := Except.ok.inj h
        simp only [weight_addNode, weight_push, weight_describeSetup, Task.weight, Action.weight,
          Setup.load_ofSteps]
        omega
      · obtain rfl := Except.ok.inj h
        have := weight_raise_le (m.describeSetup a setup) (.undeclared (p.2.undeclared a))
        simp only [weight_describeSetup, Action.weight] at *
        omega
  | finish id coll deps body =>
    obtain ⟨p, -, h⟩ := bind_ok h
    obtain ⟨ss, hss, h⟩ := bind_ok h
    obtain rfl := Except.ok.inj h
    have := mapM_length _ hss
    have := weight_addTerminal_le
      (m.push (.answer c (.fired (m.world.terminals.fresh id)))) id p.1 ss body
    simp only [weight_push, Task.weight, Action.weight] at *
    omega
  | begin id =>
    obtain ⟨k, -, h⟩ := bind_ok h
    obtain rfl := Except.ok.inj h
    have := weight_release_le (m.push (.answer c (.now .nothing))) (.node k)
    simp only [weight_push, Task.weight, Action.weight] at *
    omega
  | after id dep =>
    obtain ⟨k, -, h⟩ := bind_ok h
    obtain ⟨s, -, h⟩ := bind_ok h
    obtain rfl := Except.ok.inj h
    have := weight_depend_le (m.push (.answer c (.now .nothing))) (.node k) s
    simp only [weight_push, Task.weight, Action.weight] at *
    omega
  | done id next =>
    obtain ⟨k, -, h⟩ := bind_ok h
    obtain ⟨l, -, h⟩ := bind_ok h
    obtain rfl := Except.ok.inj h
    have := weight_depend_le (m.push (.answer c (.now .nothing))) (.node l) (.node k)
    simp only [weight_push, Task.weight, Action.weight] at *
    omega
  | report node r =>
    obtain ⟨p, -, h⟩ := bind_ok h
    obtain rfl := Except.ok.inj h
    have := weight_complete_le ((m.takeCompletion (node.getD f.home)).push (.answer c (.now .nothing)))
      p.1 (p.2.activity.result r.ending (r.value.getD f.register))
    simp only [weight_push, weight_takeCompletion, Task.weight, Action.weight] at *
    omega
  | drop node =>
    obtain ⟨p, -, h⟩ := bind_ok h
    obtain rfl := Except.ok.inj h
    simp only [weight_push, weight_dropCompletion, Task.weight, Action.weight]
    omega
  | change how o =>
    obtain ⟨v, -, h⟩ := bind_ok h
    obtain rfl := Except.ok.inj h
    simp only [weight_push, Task.weight, Action.weight]
    omega
  | panic message =>
    obtain rfl := Except.ok.inj h
    have := weight_raise_le m (.scripted message)
    omega
  | probe id count name invoke cancel =>
    obtain rfl := Except.ok.inj h
    simp only [weight_push, weight_addProbe, Task.weight, Action.weight]
    omega
  | arrive id canceled =>
    obtain ⟨k, -, h⟩ := bind_ok h
    obtain rfl := Except.ok.inj h
    have := weight_arrive_le (m.push (.answer c (.barrier k))) (.probe k) canceled
    simp only [weight_push, Task.weight, Action.weight] at *
    omega
  | expect id =>
    obtain ⟨k, -, h⟩ := bind_ok h
    obtain rfl := Except.ok.inj h
    have := weight_expect_le (m.push (.answer c (.barrier k))) (.probe k)
    simp only [weight_push, Task.weight, Action.weight] at *
    omega
  | release id =>
    obtain ⟨k, -, h⟩ := bind_ok h
    obtain rfl := Except.ok.inj h
    have := weight_release_le (m.push (.answer c (.barrier k))) (.probe k)
    simp only [weight_push, Task.weight, Action.weight] at *
    omega
  | listen id dep =>
    obtain ⟨s, -, h⟩ := bind_ok h
    obtain ⟨k, -, h⟩ := bind_ok h
    obtain rfl := Except.ok.inj h
    have := weight_listen_le (m.push (.answer c (.now .nothing))) s (.probe k)
    simp only [weight_push, Task.weight, Action.weight] at *
    omega
  | clone id copy =>
    obtain ⟨m', hc, h⟩ := bind_ok h
    obtain rfl := Except.ok.inj h
    simp only [weight_push, weight_clone hc, Task.weight, Action.weight]
    omega
  | advance span runtime =>
    obtain rfl := Except.ok.inj h
    simp only [weight_push, Task.weight, Action.weight]
    omega
  | unsupported =>
    obtain rfl := Except.ok.inj h
    simp only [weight_push, Task.weight, Action.weight]
    omega

theorem weight_execute_lt (m : Machine) (f : Frame) (l : Line Action) :
    (m.execute f l).weight < m.weight + Line.weight l := by
  obtain ⟨verb, caught, action⟩ := l
  have guarded (c : Caller) : (if caught then m.push (.guard c) else m).weight ≤ m.weight + 1 := by
    cases caught <;> simp [weight_push, Task.weight]
  have := guarded ⟨f.owner, verb⟩
  simp only [execute, Line.weight]
  split
  · next n h =>
    have := weight_act_lt h
    omega
  · simp only [weight_push, Task.weight]
    omega

theorem weight_perform_lt (m : Machine) (t : Task) : (m.perform t).weight < m.weight + t.weight := by
  cases t with
  | script f rest exit =>
    cases rest with
    | nil =>
      cases exit with
      | job k j =>
        have := weight_launch_lt m k { j with work := j.work.withRegister f.register }
        simp only [Job.weight, Work.weight_withRegister] at this
        simp only [perform, Task.weight, Job.weight]
        omega
      | nowhere => simp only [perform, Task.weight]; omega
    | cons l rest =>
      have := weight_execute_lt
        (m.push (.script { f with register := m.registerAfter f l.action } rest exit)) f l
      simp only [weight_push, Task.weight] at this
      simp only [perform, Task.weight, Script.weight]
      omega
  | deliver s canceled xs =>
    cases xs with
    | nil => simp only [perform, Task.weight]; omega
    | cons x xs =>
      have := weight_tell_le (m.push (.deliver s canceled xs)) x s canceled
      simp only [weight_push, Task.weight] at this
      simp only [perform, Task.weight, List.length_cons]
      omega
  | attach x ss =>
    cases ss with
    | nil => simp only [perform, Task.weight]; omega
    | cons s ss =>
      have := weight_listen_le (m.push (.attach x ss)) s x
      simp only [weight_push, Task.weight] at this
      simp only [perform, Task.weight, List.length_cons]
      omega
  | elapse stop runtime =>
    have := weight_elapse_le m stop runtime
    simp only [perform, Task.weight]
    omega
  | fire k =>
    have : (m.mapWorld fun w ↦ w.modifyTerminal k fun t ↦ { t with fired := true }).weight =
        m.weight := by
      cases h : m.world.terminals.get? k with
      | none => simp only [mapWorld, World.modifyTerminal, Table.modify_eq_self h]
      | some t =>
        have := World.weight_modifyTerminal h fun t ↦ { t with fired := true }
        have := m.weight_mapWorld fun w ↦ w.modifyTerminal k fun t ↦ { t with fired := true }
        simp only [World.terminalWeight] at *
        omega
    simp only [perform, Task.weight]
    omega
  | _ =>
    simp only [perform, Task.weight, weight_conclude, weight_keep, weight_dropCompletion]
    omega

/-- Every step makes the machine lighter. -/
theorem weight_step_lt {m : Machine} (h : m.stack ≠ []) : m.step.weight < m.weight := by
  unfold step
  split
  · next hs => exact absurd hs h
  · next t rest hs =>
    have := weight_perform_lt { m with stack := rest } t
    have : m.weight = ({ m with stack := rest } : Machine).weight + t.weight := by
      simp only [weight, hs, List.map_cons, total_cons]
      omega
    omega

theorem stack_run {n : Nat} {m : Machine} (h : m.weight ≤ n) : (run n m).stack = [] := by
  induction n generalizing m with
  | zero =>
    by_cases hs : m.stack = []
    · exact hs
    · have := weight_step_lt hs
      omega
  | succ n ih =>
    unfold run
    split
    · next hs => exact List.isEmpty_iff.1 hs
    · next hs =>
      have := weight_step_lt (m := m) (by simpa using hs)
      exact ih (by omega)

theorem stack_finish (m : Machine) : m.finish.stack = [] := stack_run (Nat.le_refl _)

end Machine

end ActivityGraph
