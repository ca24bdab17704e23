import ActivityGraph.Proofs.Deeds
import ActivityGraph.Proofs.Notice

namespace ActivityGraph

namespace Tuple

theorem length_sources (n : Nat) (t : Tuple n) : (sources n t).length = count n t := by
  induction n using Nat.strongRecOn with
  | ind n ih =>
    match n, t with
    | 0, _ => rfl
    | 1, _ => rfl
    | n + 2, (_, t) => exact congrArg (· + 1) (ih (n + 1) (Nat.lt_succ_self _) t)

end Tuple

namespace World

def enlist (w : World) (s : Source) (x : Waiter) : World :=
  match s with
  | .node k => w.modifyNode k fun n ↦ { n with listeners := n.listeners ++ [x] }
  | .start k => w.modifyStart k fun t ↦ { t with listeners := t.listeners ++ [x] }

def drawAll (w : World) (x : Waiter) (ss : List Source) : World := ss.foldl (fun w s ↦ w.drawEdge s x) w

def enlistAll (w : World) (x : Waiter) (ss : List Source) : World := ss.foldl (fun w s ↦ w.enlist s x) w

def takeOn (w : World) (x : Waiter) : Nat → List Source → World
  | _, [] => w
  | n, s :: ss => takeOn (((w.setBarrier x { remaining := n + 1 }).drawEdge s x).enlist s x) x (n + 1) ss

variable {w : World} {s t : Source} {x y : Waiter}

theorem final?_enlist : (w.enlist s x).final? t = w.final? t := by
  cases s with
  | node k => exact final?_modifyNode _ (by intro _; rfl)
  | start k => exact final?_modifyStart _ (by intro _; rfl)

theorem final?_drawEdge : (w.drawEdge s x).final? t = w.final? t := by
  obtain ⟨_, -, he⟩ := w.drawEdge_eq s x
  rw [he]
  rfl

theorem barriers_enlist : (w.enlist s x).barriers = w.barriers := by cases s <;> rfl

theorem barriers_drawEdge : (w.drawEdge s x).barriers = w.barriers := by
  obtain ⟨_, -, he⟩ := w.drawEdge_eq s x
  rw [he]

theorem sourceVertex?_enlist : (w.enlist s x).sourceVertex? t = w.sourceVertex? t := by
  cases s with
  | node k =>
    cases t with
    | start l => rfl
    | node l =>
      simp only [enlist, sourceVertex?, modifyNode, Table.get?_modify]
      split
      · rw [Option.map_map]
        rfl
      · rfl
  | start k =>
    cases t with
    | node l => rfl
    | start l =>
      simp only [enlist, sourceVertex?, modifyStart, Table.get?_modify]
      split
      · rw [Option.map_map]
        rfl
      · rfl

theorem waiterVertex?_enlist : (w.enlist s x).waiterVertex? y = w.waiterVertex? y := by
  cases s with
  | node k =>
    cases y with
    | node l =>
      simp only [enlist, waiterVertex?, modifyNode, Table.get?_modify]
      split
      · rw [Option.map_map]
        rfl
      · rfl
    | _ => rfl
  | start k => cases y <;> rfl

theorem drawEdge_enlist : (w.enlist s x).drawEdge t y = (w.drawEdge t y).enlist s x := by
  have modified (k : Key) (f : Collector → Collector) :
      (w.enlist s x).modifyCollector k f = (w.modifyCollector k f).enlist s x := by cases s <;> rfl
  unfold drawEdge
  rw [sourceVertex?_enlist, waiterVertex?_enlist]
  split
  · split
    · exact modified _ _
    · rfl
  · rfl

theorem drawAll_enlist (ss : List Source) : (w.enlist s x).drawAll y ss = (w.drawAll y ss).enlist s x := by
  induction ss generalizing w with
  | nil => rfl
  | cons t ss ih =>
    calc (w.enlist s x).drawAll y (t :: ss) = ((w.enlist s x).drawEdge t y).drawAll y ss := rfl
      _ = ((w.drawEdge t y).enlist s x).drawAll y ss := by rw [drawEdge_enlist]
      _ = (w.drawAll y (t :: ss)).enlist s x := ih

theorem setBarrier_enlist (b : Barrier) : (w.enlist s x).setBarrier y b = (w.setBarrier y b).enlist s x := by
  cases s <;> rfl

theorem setBarrier_drawEdge (b : Barrier) : (w.drawEdge s x).setBarrier y b = (w.setBarrier y b).drawEdge s x := by
  unfold drawEdge
  have hs : (w.setBarrier y b).sourceVertex? s = w.sourceVertex? s := by cases s <;> rfl
  have hx : (w.setBarrier y b).waiterVertex? x = w.waiterVertex? x := by cases x <;> rfl
  rw [hs, hx]
  split
  · split
    · rfl
    · rfl
  · rfl

theorem setBarrier_setBarrier (b d : Barrier) : (w.setBarrier y b).setBarrier y d = w.setBarrier y d := by
  have hmodify (es : List (Waiter × Barrier)) :
      Table.modifyEntry y (fun _ ↦ d) (Table.modifyEntry y (fun _ ↦ b) es) = Table.modifyEntry y (fun _ ↦ d) es := by
    induction es with
    | nil => rfl
    | cons e es ih =>
      by_cases he : e.1 = y
      · simp [Table.modifyEntry, he]
      · simp [Table.modifyEntry, he, ih]
  simp only [setBarrier, Table.modify, hmodify]

theorem setBarrier_self {b : Barrier} (h : w.barriers.get? y = some b) : w.setBarrier y b = w := by
  have hm : w.barriers.modify y (fun _ ↦ b) = w.barriers :=
    (Table.modify_congr (f := fun _ ↦ b) (g := id) h rfl).trans (Table.modify_id _ _)
  simp only [setBarrier, hm]

/-- To take on sources one by one is to count them all, then to draw all edges, then to be listed with all. -/
theorem takeOn_eq {n : Nat} (h : w.barriers.get? x = some { remaining := n }) (ss : List Source) :
    w.takeOn x n ss = ((w.setBarrier x { remaining := n + ss.length }).drawAll x ss).enlistAll x ss := by
  induction ss generalizing w n with
  | nil => exact (setBarrier_self h).symm
  | cons s ss ih =>
    have hb : (((w.setBarrier x { remaining := n + 1 }).drawEdge s x).enlist s x).barriers.get? x =
        some { remaining := n + 1 } := by
      rw [barriers_enlist, barriers_drawEdge]
      exact get?_setBarrier h _
    have hlen : n + 1 + ss.length = n + (s :: ss).length := by
      rw [List.length_cons]
      omega
    rw [takeOn, ih hb, setBarrier_enlist, setBarrier_drawEdge, setBarrier_setBarrier, drawAll_enlist, hlen]
    rfl

theorem barriers_drawAll (ss : List Source) : (w.drawAll x ss).barriers = w.barriers := by
  induction ss generalizing w with
  | nil => rfl
  | cons s ss ih => exact (ih (w := w.drawEdge s x)).trans barriers_drawEdge

theorem barriers_enlistAll (ss : List Source) : (w.enlistAll x ss).barriers = w.barriers := by
  induction ss generalizing w with
  | nil => rfl
  | cons s ss ih => exact (ih (w := w.enlist s x)).trans barriers_enlist

theorem final?_drawAll (ss : List Source) : (w.drawAll x ss).final? t = w.final? t := by
  induction ss generalizing w with
  | nil => rfl
  | cons s ss ih => exact (ih (w := w.drawEdge s x)).trans final?_drawEdge

theorem final?_addNode {k : Key} {n : Node} (hn : n.signal = none) (count : Nat) :
    (w.addNode k n count).final? t = w.final? t := by
  cases t with
  | start l => rfl
  | node l =>
    simp only [final?, addNode, Table.get?_insert]
    cases hl : w.nodes.get? l with
    | some p => rfl
    | none =>
      split
      · simp [hn]
      · rfl

def placed (w : World) (k c : Key) (a : Activity) (s : Setup Script) (work : Work Script) (count : Nat) : World :=
  let n : Node :=
    { activity := a, collector := c, vertex := w.nextVertex c, policy := s.policy,
      job := some ⟨s.preparators, work⟩ }
  (w.addVertex c ⟨a.label, .activity⟩).addNode k n count

def wired (w : World) (k c : Key) (a : Activity) (s : Setup Script) (work : Work Script) (ss : List Source) : World :=
  ((w.placed k c a s work ss.length).drawAll (.node k) ss).enlistAll (.node k) ss

variable {k c : Key} {a : Activity} {d : Setup Script} {work : Work Script}

theorem setBarrier_placed (hw : w.Sound) (id : String) (i j : Nat) :
    (w.placed (w.nodes.fresh id) c a d work i).setBarrier (.node (w.nodes.fresh id)) { remaining := j } =
      w.placed (w.nodes.fresh id) c a d work j := by
  have hk : .node (w.nodes.fresh id) ∉ w.barriers.keys := fun h ↦ hw.nodes.fresh_notMem id ((hw.node _).1 h)
  have hb := Table.modify_insert (Table.get?_eq_none_iff.2 hk) (a := ({ remaining := i } : Barrier))
    (fun _ ↦ { remaining := j })
  simp only [setBarrier, placed, addNode]
  exact congrArg (fun b ↦ { (w.placed (w.nodes.fresh id) c a d work j) with barriers := b }) hb

theorem get?_barriers_placed (hw : w.Sound) (id : String) (i : Nat) :
    (w.placed (w.nodes.fresh id) c a d work i).barriers.get? (.node (w.nodes.fresh id)) =
      some { remaining := i } := by
  have hk : .node (w.nodes.fresh id) ∉ w.barriers.keys := fun h ↦ hw.nodes.fresh_notMem id ((hw.node _).1 h)
  exact (Table.get?_insert_of_new (Table.get?_eq_none_iff.2 hk) ..).trans (if_pos rfl)

theorem takeOn_wired (hw : w.Sound) (id : String) (ss : List Source) :
    (w.wired (w.nodes.fresh id) c a d work []).takeOn (.node (w.nodes.fresh id)) 0 ss =
      w.wired (w.nodes.fresh id) c a d work ss := by
  have hb : (w.wired (w.nodes.fresh id) c a d work []).barriers.get? (.node (w.nodes.fresh id)) =
      some { remaining := 0 } := get?_barriers_placed hw id 0
  rw [takeOn_eq hb, Nat.zero_add]
  exact congrArg (fun w ↦ (drawAll w _ ss).enlistAll _ ss) (setBarrier_placed hw id 0 ss.length)

theorem get?_barriers_wired (hw : w.Sound) (id : String) (ss : List Source) :
    (w.wired (w.nodes.fresh id) c a d work ss).barriers.get? (.node (w.nodes.fresh id)) =
      some { remaining := ss.length } := by
  rw [wired, barriers_enlistAll, barriers_drawAll]
  exact get?_barriers_placed hw id ss.length

theorem final?_placed (i : Nat) :
    (w.placed k c a d work i).final? t = w.final? t :=
  (final?_addNode (w := w.addVertex c ⟨a.label, .activity⟩) rfl i).trans rfl

end World

namespace Machine

/-- A machine without what it said last and what it wrote down. -/
def core (m : Machine) : Machine := { m with answer := .nothing, journal := [] }

/-- A machine comes, in some steps, to a machine that differs in what was said and written down at most. -/
def Comes (m n : Machine) : Prop := ∃ i, (run i m).core = n.core

variable {m n : Machine} {s : Source} {x : Waiter} {t : Task} {ts : List Task}

theorem stack_of_core (h : m.core = n.core) : m.stack = n.stack := by
  change m.core.stack = n.core.stack
  rw [h]

theorem world_of_core (h : m.core = n.core) : m.world = n.world := by
  change m.core.world = n.core.world
  rw [h]

theorem desk_of_core (h : m.core = n.core) : m.desk = n.desk := by
  change m.core.desk = n.core.desk
  rw [h]

theorem Comes.of_eq (h : m.core = n.core) : m.Comes n := ⟨0, h⟩

theorem Comes.trans {p : Machine} (h : m.Comes n) (hn : ∀ q : Machine, q.core = n.core → q.Comes p) : m.Comes p := by
  obtain ⟨i, hi⟩ := h
  obtain ⟨j, hj⟩ := hn _ hi
  exact ⟨i + j, by rw [run_add, hj]⟩

theorem Comes.head (hm : m.stack ≠ []) (h : m.step.Comes n) : m.Comes n := by
  obtain ⟨i, hi⟩ := h
  exact ⟨i + 1, by rw [run_succ hm, hi]⟩

theorem core_wireAll (m : Machine) (x : Waiter) (ss : List Source) :
    (m.wireAll x ss).core = { m with world := m.world.drawAll x ss }.core := by
  induction ss generalizing m with
  | nil => rfl
  | cons s ss ih => exact ih (m.wire x s)

theorem core_conclude (m : Machine) (c : Caller) (a : Answer) : (m.conclude c a).core = m.core := by
  unfold conclude
  split <;> rfl

theorem core_listen (h : m.world.final? s = none) :
    (m.listen s x).core = { m with world := m.world.enlist s x }.core := by
  cases s with
  | node k =>
    simp only [listen, enlist, note]
    split
    · next hk => simp only [World.enlist, World.modifyNode, Table.modify_eq_self hk, core]
    · next p hk =>
      have hp : p.signal = none := by simpa [World.final?, hk] using h
      split
      · rfl
      · next hs => simp [hp] at hs
  | start k =>
    simp only [listen, enlist, note]
    split
    · next hk => simp only [World.enlist, World.modifyStart, Table.modify_eq_self hk, core]
    · next p hk =>
      have hp : p.fired = false := by simpa [World.final?, hk] using h
      rw [hp]
      rfl

theorem core_depend {i : Nat} (hb : m.world.barriers.get? x = some { remaining := i }) (h : m.world.final? s = none) :
    (m.depend x s).core = { m with world :=
      ((m.world.setBarrier x { remaining := i + 1 }).drawEdge s x).enlist s x }.core := by
  have hs : ((m.world.setBarrier x { remaining := i + 1 }).drawEdge s x).final? s = none := by
    rw [World.final?_drawEdge]
    exact h
  simp only [depend, hb, Barrier.expect?]
  exact core_listen (m := (m.mapWorld fun w ↦ w.setBarrier x { remaining := i + 1 }).wire x s) hs

theorem comes_attach {ss : List Source} (hm : m.stack = .attach x ss :: ts) (hs : ∀ s ∈ ss, m.world.final? s = none) :
    m.Comes { m with world := m.world.enlistAll x ss, stack := ts } := by
  induction ss generalizing m with
  | nil =>
    refine .head (by simp [hm]) (.of_eq ?_)
    rw [step_of_stack hm]
    rfl
  | cons s ss ih =>
    have hstep : m.step.core = { m with world := m.world.enlist s x, stack := .attach x ss :: ts }.core := by
      rw [step_of_stack hm]
      exact core_listen (m := { m with stack := .attach x ss :: ts }) (hs s List.mem_cons_self)
    have hworld : m.step.world = m.world.enlist s x := world_of_core hstep
    have hrest : ∀ t ∈ ss, m.step.world.final? t = none := fun t ht ↦ by
      rw [hworld, World.final?_enlist]
      exact hs t (List.mem_cons_of_mem _ ht)
    refine .head (by simp [hm]) ((ih (stack_of_core hstep) hrest).trans fun q hq ↦ .of_eq ?_)
    rw [hq, hworld]
    exact congrArg (fun n ↦ { n with world := (m.world.enlist s x).enlistAll x ss, stack := ts }) hstep

theorem comes_answer {c : Caller} {r : Reply} (hm : m.stack = .answer c r :: ts) :
    m.Comes { m with stack := ts } := by
  refine .head (by simp [hm]) (.of_eq ?_)
  rw [step_of_stack hm]
  exact core_conclude ..

theorem comes_guard {c : Caller} (hm : m.stack = .guard c :: ts) : m.Comes { m with stack := ts } := by
  refine .head (by simp [hm]) (.of_eq ?_)
  rw [step_of_stack hm]
  rfl

theorem comes_keep {id : String} {h : Handle} (hm : m.stack = .keep id h :: ts) :
    m.Comes { m with desk := m.desk.keep id h, stack := ts } := by
  refine .head (by simp [hm]) (.of_eq ?_)
  rw [step_of_stack hm]
  rfl

/-- All that a line does: to the world, and to the handles. -/
def Does (m : Machine) (f : Frame) (l : Line Action) (w : World) (d : Desk) : Prop :=
  ∀ ts, Comes (execute { m with stack := ts } f l) { m with world := w, desk := d, stack := ts }

variable {f : Frame} {l : Line Action} {w : World} {d : Desk}

theorem does_of_act {r : Reply} (h : ∀ ts, ∃ p, act { m with stack := ts } f ⟨f.owner, l.verb⟩ l.action = .ok p ∧
    p.Comes { m with world := w, desk := d, stack := .answer ⟨f.owner, l.verb⟩ r :: ts }) : m.Does f l w d := by
  have done (us : List Task) (q : Machine)
      (hq : q.core = { m with world := w, desk := d, stack := .answer ⟨f.owner, l.verb⟩ r :: us }.core) :
      q.Comes { m with world := w, desk := d, stack := us } := by
    refine (comes_answer (stack_of_core hq)).trans fun p hp ↦ .of_eq (hp.trans ?_)
    exact congrArg (fun n ↦ { n with stack := us }) hq
  intro ts
  unfold execute
  by_cases hl : l.caught
  · obtain ⟨p, hp, hcomes⟩ := h (.guard ⟨f.owner, l.verb⟩ :: ts)
    simp only [if_pos hl, push, hp]
    refine (hcomes.trans (done _)).trans fun q hq ↦ ?_
    refine (comes_guard (stack_of_core hq)).trans fun p hp ↦ .of_eq (hp.trans ?_)
    exact congrArg (fun n ↦ { n with stack := ts }) hq
  · obtain ⟨p, hp, hcomes⟩ := h ts
    simp only [if_neg hl, hp]
    exact hcomes.trans (done _)

theorem Performs.does {id : String} {deps : List String} {setup : Option (List (Step Script))} {work : Work Script}
    {a : Activity} {c : Key} {ss : List Source} (hl : m.Performs l id deps setup work a c ss)
    (hs : ∀ s ∈ ss, m.world.final? s = none) (f : Frame) :
    m.Does f l (m.world.wired (m.world.nodes.fresh id) c a (.ofSteps (setup.getD [])) work ss)
      (m.desk.keep id (.node (m.world.nodes.fresh id))) := by
  refine does_of_act (r := .now (.text a.label)) fun ts ↦ ?_
  obtain ⟨es, he⟩ := hl.act ts f ⟨f.owner, l.verb⟩
  refine ⟨_, he, ?_⟩
  let k := m.world.nodes.fresh id
  let made : Machine := { m with
    world := (m.world.placed k c a (.ofSteps (setup.getD [])) work ss.length).drawAll (.node k) ss
    stack := .attach (.node k) ss :: .keep id (.node k) :: .answer ⟨f.owner, l.verb⟩ (.now (.text a.label)) :: ts }
  have hmade : (Machine.addNode { m with
      stack := .answer ⟨f.owner, l.verb⟩ (.now (.text a.label)) :: ts
      journal := es ++ m.journal } id a c ss (.ofSteps (setup.getD [])) work).core = made.core := by
    let bare : Machine := { m with
      world := m.world.placed k c a (.ofSteps (setup.getD [])) work ss.length
      stack := .answer ⟨f.owner, l.verb⟩ (.now (.text a.label)) :: ts
      journal := .placed (.node k) :: (es ++ m.journal) }
    exact congrArg (fun p ↦ (p.push (.keep id (.node k))).push (.attach (.node k) ss)) (core_wireAll bare (.node k) ss)
  refine (Comes.of_eq hmade).trans fun q hq ↦ ?_
  have hfinal : ∀ s ∈ ss, q.world.final? s = none := fun s h ↦ by
    rw [world_of_core hq, World.final?_drawAll, World.final?_placed]
    exact hs s h
  refine (comes_attach (stack_of_core hq) hfinal).trans fun p hp ↦ ?_
  refine (comes_keep (stack_of_core hp)).trans fun r hr ↦ .of_eq (hr.trans ?_)
  let last (n : Machine) : Machine := { n with
    desk := n.desk.keep id (.node k), stack := .answer ⟨f.owner, l.verb⟩ (.now (.text a.label)) :: ts }
  let listed (n : Machine) : Machine := { n with
    world := n.world.enlistAll (.node k) ss
    stack := .keep id (.node k) :: .answer ⟨f.owner, l.verb⟩ (.now (.text a.label)) :: ts }
  exact (congrArg last hp).trans (congrArg (fun n ↦ last (listed n)) hq)

/-- A line makes a node, reached by a handle, wait for one more source. -/
inductive Wires (m : Machine) (id : String) (l : Line Action) (s : Source) : Prop
  | after (dep : String) (hl : l.action = .after id dep) (hs : m.source dep = .ok s)
  | done (dep : String) (k : Key) (hl : l.action = .done dep id) (hk : m.desk.nodes.get? dep = some k)
    (hs : s = .node k)

theorem Wires.of_desk {id : String} (h : m.Wires id l s) (hd : n.desk = m.desk) : n.Wires id l s := by
  cases h with
  | after dep hl hs => exact .after dep hl (by simpa only [source, hd] using hs)
  | done dep k hl hk hs => exact .done dep k hl (by rw [hd, hk]) hs

theorem Wires.register {id : String} (h : m.Wires id l s) (n : Machine) (f : Frame) :
    n.registerAfter f l.action = f.register := by
  cases h with
  | after dep hl => rw [hl]; rfl
  | done dep k hl => rw [hl]; rfl

theorem Wires.does {id : String} {k : Key} {i : Nat} (h : m.Wires id l s) (hk : m.desk.nodes.get? id = some k)
    (hb : m.world.barriers.get? (.node k) = some { remaining := i }) (hs : m.world.final? s = none) (f : Frame) :
    m.Does f l (((m.world.setBarrier (.node k) { remaining := i + 1 }).drawEdge s (.node k)).enlist s (.node k))
      m.desk := by
  refine does_of_act (r := .now .nothing) fun ts ↦ ?_
  let given : Machine := { m with stack := .answer ⟨f.owner, l.verb⟩ (.now .nothing) :: ts }
  refine ⟨given.depend (.node k) s, ?_, .of_eq (core_depend hb hs)⟩
  have found : find m.desk.nodes id = .ok k := by rw [find, hk]
  cases h with
  | after dep hl hs =>
    have hs' : Machine.source { m with stack := ts } dep = .ok s := hs
    simp only [hl, act, found, hs', bind, Except.bind]
    rfl
  | done dep j hl hj hs =>
    have found' : find m.desk.nodes dep = .ok j := by rw [find, hj]
    simp only [hl, act, found, found', bind, Except.bind, hs]
    rfl

theorem Does.inner (h : m.Does f l w d) {rest : Script} {exit : Exit} (hm : m.stack = .script f (l :: rest) exit :: ts)
    (hr : m.registerAfter f l.action = f.register) :
    m.Comes { m with world := w, desk := d, stack := .script f rest exit :: ts } := by
  refine .head (by simp [hm]) ?_
  have hr' : Machine.registerAfter { m with stack := ts } f l.action = f.register := hr
  rw [step_of_stack hm]
  simp only [perform, hr', push]
  exact h (.script f rest exit :: ts)

theorem Does.outer (h : m.Does f l w d) : (Scenario.report m f l).2.core =
    { m with world := w, desk := d, stack := [] }.core := by
  let guarded : Machine := { m with world := w, desk := d, stack := [.guard ⟨f.owner, l.verb⟩] }
  have hcomes : Comes (Scenario.start m f l) { m with world := w, desk := d, stack := [] } :=
    Comes.trans (n := guarded) (h [.guard ⟨f.owner, l.verb⟩]) fun q hq ↦
      (comes_guard (stack_of_core hq)).trans fun p hp ↦ .of_eq (hp.trans (congrArg (fun n ↦ { n with stack := [] }) hq))
  obtain ⟨i, hi⟩ := hcomes
  rw [Scenario.report, finish_eq (stack_of_core hi)]
  exact hi

section

variable {id : String} {k : Key} {ls : Script} {ss : List Source}

theorem final?_takenOn {r : Source} {i : Nat} :
    (((w.setBarrier x { remaining := i }).drawEdge s x).enlist s x).final? r = w.final? r := by
  rw [World.final?_enlist, World.final?_drawEdge]
  rfl

theorem barriers_takenOn {i j : Nat} (hb : w.barriers.get? x = some { remaining := i }) :
    (((w.setBarrier x { remaining := j }).drawEdge s x).enlist s x).barriers.get? x = some { remaining := j } := by
  rw [World.barriers_enlist, World.barriers_drawEdge]
  exact World.get?_setBarrier hb _

theorem comes_wired (h : List.Forall₂ (m.Wires id) ls ss) (hk : m.desk.nodes.get? id = some k) {i : Nat}
    (hb : m.world.barriers.get? (.node k) = some { remaining := i }) (hs : ∀ s ∈ ss, m.world.final? s = none)
    {rest : Script} {exit : Exit} (hm : m.stack = .script f (ls ++ rest) exit :: ts) :
    m.Comes { m with world := m.world.takeOn (.node k) i ss, stack := .script f rest exit :: ts } := by
  induction ls generalizing m i ss with
  | nil =>
    cases h
    exact .of_eq (congrArg (fun us ↦ core { m with stack := us }) hm)
  | cons l ls ih =>
    cases h with
    | @cons _ s _ ss hl h =>
      have hdoes := (hl.does hk hb (hs s List.mem_cons_self) f).inner hm (hl.register m f)
      refine hdoes.trans fun p hp ↦ ?_
      have hw := world_of_core hp
      have hd : p.desk = m.desk := (desk_of_core hp).trans rfl
      have hrest : p.Comes { p with
          world := p.world.takeOn (.node k) (i + 1) ss, stack := .script f rest exit :: ts } := by
        refine ih (h.imp fun _ _ hl ↦ hl.of_desk hd) (by rw [hd, hk]) ?_ (fun r hr ↦ ?_) (stack_of_core hp)
        · rw [hw]
          exact barriers_takenOn hb
        · rw [hw, final?_takenOn]
          exact hs r (List.mem_cons_of_mem _ hr)
      refine hrest.trans fun q hq ↦ .of_eq (hq.trans ?_)
      exact congrArg
        (fun n ↦ { n with world := n.world.takeOn (.node k) (i + 1) ss, stack := .script f rest exit :: ts }) hp

theorem after_wired (h : List.Forall₂ (m.Wires id) ls ss) (hk : m.desk.nodes.get? id = some k) {i : Nat}
    (hb : m.world.barriers.get? (.node k) = some { remaining := i }) (hs : ∀ s ∈ ss, m.world.final? s = none)
    (hm : m.stack = []) :
    (Scenario.after m f ls).core = { m with world := m.world.takeOn (.node k) i ss }.core := by
  induction ls generalizing m i ss with
  | nil =>
    cases h
    rfl
  | cons l ls ih =>
    cases h with
    | @cons _ s _ ss hl h =>
      have hp := (hl.does hk hb (hs s List.mem_cons_self) f).outer
      rw [Scenario.after, hl.register m f]
      generalize (Scenario.report m f l).2 = p at hp ⊢
      have hw := world_of_core hp
      have hd : p.desk = m.desk := (desk_of_core hp).trans rfl
      refine (ih (h.imp fun _ _ hl ↦ hl.of_desk hd) (by rw [hd, hk]) (i := i + 1) ?_ (fun r hr ↦ ?_)
        (stack_of_core hp)).trans ?_
      · rw [hw]
        exact barriers_takenOn hb
      · rw [hw, final?_takenOn]
        exact hs r (List.mem_cons_of_mem _ hr)
      · have hm' : m.core = { m with stack := [] }.core := congrArg (fun us ↦ core { m with stack := us }) hm
        exact (congrArg (fun n ↦ { n with world := n.world.takeOn (.node k) (i + 1) ss }) hp).trans
          (congrArg (fun n ↦ { n with world := m.world.takeOn (.node k) i (s :: ss) }) hm').symm

end

section

variable {id : String} {deps : List String} {setup : Option (List (Step Script))} {work : Work Script} {a : Activity}
  {c : Key} {ss : List Source} {ls rest : Script} {exit : Exit}

theorem Performs.register (hl : m.Performs l id deps setup work a c ss) (n : Machine) (f : Frame) :
    n.registerAfter f l.action = f.register := by
  obtain ⟨key, coll, he, -⟩ := hl.action
  rw [he]
  rfl

def wired (m : Machine) (id : String) (c : Key) (a : Activity) (s : Setup Script) (work : Work Script)
    (ss : List Source) (ts : List Task) : Machine :=
  { m with
    world := m.world.wired (m.world.nodes.fresh id) c a s work ss
    desk := m.desk.keep id (.node (m.world.nodes.fresh id))
    stack := ts }

theorem Performs.inner (hl : m.Performs l id deps setup work a c ss) (hs : ∀ s ∈ ss, m.world.final? s = none)
    (hm : m.stack = .script f (l :: rest) exit :: ts) :
    m.Comes (m.wired id c a (.ofSteps (setup.getD [])) work ss (.script f rest exit :: ts)) :=
  (hl.does hs f).inner hm (hl.register m f)

theorem Performs.outer (hl : m.Performs l id deps setup work a c ss) (hs : ∀ s ∈ ss, m.world.final? s = none)
    (f : Frame) :
    (Scenario.report m f l).2.core = (m.wired id c a (.ofSteps (setup.getD [])) work ss []).core := (hl.does hs f).outer

variable (hl : m.Performs l id [] setup work a c []) (hm : m.world.Sound) (hs : ∀ s ∈ ss, m.world.final? s = none)
  (hls : List.Forall₂ ((m.keep id (.node (m.world.nodes.fresh id))).Wires id) ls ss)

include hm hs hls in
theorem wirable {q : Machine} {s : Setup Script} (hq : q.core = (m.wired id c a s work [] ts).core) :
    List.Forall₂ (q.Wires id) ls ss ∧ q.desk.nodes.get? id = some (m.world.nodes.fresh id) ∧
      q.world.barriers.get? (.node (m.world.nodes.fresh id)) = some { remaining := 0 } ∧
      (∀ s ∈ ss, q.world.final? s = none) ∧
      q.world.takeOn (.node (m.world.nodes.fresh id)) 0 ss = m.world.wired (m.world.nodes.fresh id) c a s work ss := by
  have hd : q.desk = m.desk.keep id (.node (m.world.nodes.fresh id)) := desk_of_core hq
  have hw : q.world = m.world.wired (m.world.nodes.fresh id) c a s work [] := world_of_core hq
  refine ⟨hls.imp fun _ _ h ↦ h.of_desk hd, ?_, ?_, fun s h ↦ ?_, ?_⟩
  · rw [hd]
    exact (Table.get?_put ..).trans (if_pos rfl)
  · rw [hw]
    exact World.get?_barriers_wired hm id []
  · rw [hw]
    exact (World.final?_placed ..).trans (hs s h)
  · rw [hw, World.takeOn_wired hm]

include hl hm hs hls

theorem Performs.inner_wires (hstack : m.stack = .script f (l :: (ls ++ rest)) exit :: ts) :
    m.Comes (m.wired id c a (.ofSteps (setup.getD [])) work ss (.script f rest exit :: ts)) := by
  refine (hl.inner (by simp) hstack).trans fun q hq ↦ ?_
  obtain ⟨hlines, hk, hb, hfinal, hw⟩ := wirable hm hs hls hq
  refine (comes_wired hlines hk hb hfinal (stack_of_core hq)).trans fun p hp ↦ .of_eq (hp.trans ?_)
  rw [hw]
  exact congrArg (fun n ↦ { n with
    world := m.world.wired (m.world.nodes.fresh id) c a (.ofSteps (setup.getD [])) work ss
    stack := .script f rest exit :: ts }) hq

theorem Performs.outer_wires (f : Frame) : (Scenario.after m f (l :: ls)).core =
    (m.wired id c a (.ofSteps (setup.getD [])) work ss []).core := by
  have hq := hl.outer (by simp) f
  rw [Scenario.after, hl.register m f]
  generalize (Scenario.report m f l).2 = q at hq ⊢
  obtain ⟨hlines, hk, hb, hfinal, hw⟩ := wirable hm hs hls hq
  refine (after_wired hlines hk hb hfinal (stack_of_core hq)).trans ?_
  rw [hw]
  exact congrArg (fun n ↦ { n with
    world := m.world.wired (m.world.nodes.fresh id) c a (.ofSteps (setup.getD [])) work ss }) hq

end

/-- A node that performs an activity after sources that are not final, and a node that performs it after nothing
and is made to wait for them one by one, leave the same world, handles, clock and timers, in a script and at the
outermost level. It makes no difference whether the sources come in a list or in a tuple. -/
theorem Reachable.wiring_agrees {m : Machine} (hm : m.Reachable) {l l₀ : Line Action} {id : String}
    {deps : List String} {setup : Option (List (Step Script))} {work : Work Script} {a : Activity} {c : Key}
    {ss : List Source} (hl : m.Performs l id deps setup work a c ss) (hl₀ : m.Performs l₀ id [] setup work a c [])
    (hs : ∀ s ∈ ss, m.world.final? s = none) {ls : Script}
    (hls : List.Forall₂ ((m.keep id (.node (m.world.nodes.fresh id))).Wires id) ls ss) (f : Frame) :
    (∀ rest exit ts, ∃ i j,
      (run i { m with stack := .script f (l :: rest) exit :: ts }).core =
        (run j { m with stack := .script f (l₀ :: (ls ++ rest)) exit :: ts }).core ∧
      (run i { m with stack := .script f (l :: rest) exit :: ts }).stack = .script f rest exit :: ts ∧
      (run i { m with stack := .script f (l :: rest) exit :: ts }).world.barriers.get?
        (.node (m.world.nodes.fresh id)) = some { remaining := ss.length }) ∧
    (m.stack = [] →
      (Scenario.report m f l).2.core = (Scenario.after m f (l₀ :: ls)).core ∧
      (Scenario.report m f l).2.world.barriers.get? (.node (m.world.nodes.fresh id)) =
        some { remaining := ss.length }) ∧
    ∀ (n : Nat) (t : Tuple n), Tuple.sources n t = ss → ∀ (p : Machine) (d : Setup Script),
      p.addNode id a c t d work = p.addNode id a c ss d work := by
  have hsound : m.world.Sound := hm.reached.sound
  refine ⟨fun rest exit ts ↦ ?_, fun _ ↦ ?_, ?_⟩
  · obtain ⟨i, hi⟩ := Performs.inner (m := { m with stack := .script f (l :: rest) exit :: ts })
      ⟨hl.action, hl.sources⟩ hs rfl
    obtain ⟨j, hj⟩ := Performs.inner_wires (m := { m with stack := .script f (l₀ :: (ls ++ rest)) exit :: ts })
      ⟨hl₀.action, hl₀.sources⟩ hsound hs (hls.imp fun _ _ h ↦ h.of_desk rfl) rfl
    refine ⟨i, j, hi.trans hj.symm, stack_of_core hi, ?_⟩
    rw [world_of_core hi]
    exact World.get?_barriers_wired hsound id ss
  · refine ⟨(hl.outer hs f).trans (hl₀.outer_wires hsound hs hls f).symm, ?_⟩
    rw [world_of_core (hl.outer hs f)]
    exact World.get?_barriers_wired hsound id ss
  · rintro n t rfl p d
    have hcount : Dependencies.count t = (Tuple.sources n t).length := (Tuple.length_sources n t).symm
    have hlinks : Dependencies.links t = Tuple.sources n t := rfl
    have hlistened : Dependencies.listened t = Tuple.sources n t := rfl
    simp only [addNode, hcount, hlinks, hlistened, Dependencies.count_list, Dependencies.links_list,
      Dependencies.listened_list]

end Machine

namespace Sample

def apart : Machine := Machine.play { catalogue := [("alpha", alpha), ("beta", beta)] } [
  ⟨"start", false, .start "s" "s" ["alpha", "beta"] .null⟩,
  ⟨"perform", false, .perform "a" "alpha" "s" ["s"] none (.script [] true .null)⟩,
  ⟨"collect", false, .collect "far" "far" ["alpha"] .null⟩,
  ⟨"perform", false, .perform "c" "alpha" "far" [] none (.script [] true .null)⟩]

def performed (deps : List String) : Line Action :=
  ⟨"perform", false, .perform "b" "beta" "s" deps (some [.required false]) (.script [] true .null)⟩

def wires : Script := [⟨"after", false, .after "b" "a"⟩, ⟨"after", true, .after "b" "s"⟩,
  ⟨"done", false, .done "c" "b"⟩, ⟨"done", false, .done "a" "b"⟩]

theorem apart_wiring_agrees :
    (Scenario.report apart {} (performed ["a", "s", "c", "a"])).2.core =
      (Scenario.after apart {} (performed [] :: wires)).core ∧
    (Scenario.report apart {} (performed ["a", "s", "c", "a"])).2.world.barriers.get? (.node ⟨"b", 0⟩) =
      some { remaining := 4 } := by
  have hm : apart.Reachable := ⟨_, .play rfl _⟩
  have hfresh : apart.world.nodes.fresh "b" = ⟨"b", 0⟩ := by decide +kernel
  have hperforms (deps : List String) {ss : List Source} (hss : apart.sources deps = .ok ss) :
      apart.Performs (performed deps) "b" deps (some [.required false]) (.script [] true .null) beta ⟨"s", 0⟩ ss :=
    Machine.performs_of_find rfl (by decide +kernel) (by decide +kernel) hss
  have hsources : apart.sources ["a", "s", "c", "a"] =
      .ok [.node ⟨"a", 0⟩, .start ⟨"s", 0⟩, .node ⟨"c", 0⟩, .node ⟨"a", 0⟩] := by decide +kernel
  have hs : ∀ s ∈ [Source.node ⟨"a", 0⟩, .start ⟨"s", 0⟩, .node ⟨"c", 0⟩, .node ⟨"a", 0⟩],
      apart.world.final? s = none := by decide +kernel
  have hwires : List.Forall₂ ((apart.keep "b" (.node (apart.world.nodes.fresh "b"))).Wires "b") wires
      [.node ⟨"a", 0⟩, .start ⟨"s", 0⟩, .node ⟨"c", 0⟩, .node ⟨"a", 0⟩] :=
    .cons (.after "a" rfl (by decide +kernel)) <| .cons (.after "s" rfl (by decide +kernel)) <|
      .cons (.done "c" ⟨"c", 0⟩ rfl (by decide +kernel) rfl) <|
      .cons (.done "a" ⟨"a", 0⟩ rfl (by decide +kernel) rfl) .nil
  have h := (hm.wiring_agrees (hperforms _ hsources) (hperforms [] rfl) hs hwires {}).2.1 (Machine.stack_play rfl _)
  rw [hfresh] at h
  exact h

end Sample

end ActivityGraph
