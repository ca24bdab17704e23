import ActivityGraph.Proofs.Alike.Run
import ActivityGraph.Proofs.Alike.Self

namespace ActivityGraph

mutual

/-- A script without the lines that only write slots, at any depth. -/
def Script.strip : List (Line Action) → List (Line Action)
  | [] => []
  | l :: ls => if l.action.stores then Script.strip ls else l.strip :: Script.strip ls

def Line.strip : Line Action → Line Action
  | ⟨verb, caught, a⟩ => ⟨verb, caught, a.strip⟩

def Action.strip : Action → Action
  | .perform id key collector deps setup work =>
    .perform id key collector deps (Setup.strip setup) (Work.strip work)
  | .finish id collector deps body => .finish id collector deps (Script.strip body)
  | .probe id count name invoke cancel => .probe id count name (Script.strip invoke) (Script.strip cancel)
  | a => a

def Setup.strip : Option (List (Step (List (Line Action)))) → Option (List (Step (List (Line Action))))
  | none => none
  | some steps => some (Steps.strip steps)

def Steps.strip : List (Step (List (Line Action))) → List (Step (List (Line Action)))
  | [] => []
  | s :: ss => Step.strip s :: Steps.strip ss

def Step.strip : Step (List (Line Action)) → Step (List (Line Action))
  | .prepare place code => .prepare place (Script.strip code)
  | s => s

def Work.strip : Work (List (Line Action)) → Work (List (Line Action))
  | .script body hold register => .script (Script.strip body) hold register
  | .timer after => .timer after

end

mutual

theorem Script.loads_strip (s : List (Line Action)) : Script.loads (Script.strip s) = Script.loads s := by
  match s with
  | [] => rfl
  | ⟨verb, caught, a⟩ :: s =>
    rw [Script.strip]
    split
    · next ha =>
      have hl : a.loads = false := by cases a <;> first | rfl | simp [Action.stores] at ha
      rw [Script.loads, Line.loads, hl, Script.loads_strip s, Bool.false_or]
    · rw [Line.strip, Script.loads, Script.loads, Line.loads, Line.loads, Action.loads_strip a, Script.loads_strip s]

theorem Action.loads_strip (a : Action) : a.strip.loads = a.loads := by
  match a with
  | .perform id key collector deps setup work =>
    rw [Action.strip, Action.loads, Action.loads, Setup.loads_strip setup, Work.loads_strip work]
  | .finish id collector deps body => rw [Action.strip, Action.loads, Action.loads, Script.loads_strip body]
  | .probe id count name invoke cancel =>
    rw [Action.strip, Action.loads, Action.loads, Script.loads_strip invoke, Script.loads_strip cancel]
  | .collect .. | .start .. | .run .. | .ask .. | .grant .. | .insert .. | .set .. | .begin .. | .after .. | .done ..
  | .report .. | .drop .. | .change .. | .panic .. | .arrive .. | .expect .. | .release .. | .listen .. | .clone ..
  | .advance .. | .unsupported => rfl

theorem Setup.loads_strip (u : Option (List (Step (List (Line Action))))) :
    Setup.loads (Setup.strip u) = Setup.loads u := by
  match u with
  | none => rfl
  | some steps => rw [Setup.strip, Setup.loads, Setup.loads, Steps.loads_strip steps]

theorem Steps.loads_strip (ss : List (Step (List (Line Action)))) : Steps.loads (Steps.strip ss) = Steps.loads ss := by
  match ss with
  | [] => rfl
  | s :: ss =>
    rw [Steps.strip, Steps.loads, Steps.loads, Steps.loads_strip ss]
    match s with
    | .prepare _ code => rw [Step.strip, Step.loads, Step.loads, Script.loads_strip code]
    | .required .. | .cancelIf .. | .ifErrored .. | .ifFailed .. | .ifCanceled .. => rfl

theorem Work.loads_strip (w : Work (List (Line Action))) : Work.loads (Work.strip w) = Work.loads w := by
  match w with
  | .script body hold register => rw [Work.strip, Work.loads, Work.loads, Script.loads_strip body]
  | .timer after => rfl

end

theorem Action.Alike.stores_eq {L : Lens} {home : String} {a b : Action} (h : Action.Alike L home a b) :
    b.stores = a.stores := by
  cases h <;> rfl

section

variable {L : Lens}

mutual

theorem Script.alike_strip (own : ∀ h, L.own h) (hb : L.blind) (time : L.timed) {home : String}
    {s : List (Line Action)} (sees : Script.loads s = false) : Script.Alike L home (Script.strip s) s := by
  match s with
  | [] => exact .nil
  | ⟨verb, caught, a⟩ :: s =>
    rw [Script.loads, Line.loads, Bool.or_eq_false_iff] at sees
    have ih : Script.Alike L home (Script.strip s) s := Script.alike_strip own hb time sees.2
    rw [Script.strip]
    split
    · next ha => exact .extra hb ha ih
    · exact .cons (Action.alike_strip own hb time sees.1) ih

theorem Action.alike_strip (own : ∀ h, L.own h) (hb : L.blind) (time : L.timed) {home : String} {a : Action}
    (sees : a.loads = false) : Action.Alike L home a.strip a := by
  match a with
  | .perform id key collector deps setup work =>
    rw [Action.loads, Bool.or_eq_false_iff] at sees
    exact .perform (fun _ _ ↦ own _) (Setup.alike_strip own hb time sees.1) (Work.alike_strip own hb time sees.2)
  | .finish id collector deps body => exact .finish (fun _ _ ↦ own _) (Script.alike_strip own hb time sees)
  | .probe id count name invoke cancel =>
    rw [Action.loads, Bool.or_eq_false_iff] at sees
    exact .probe (own _) (Script.alike_strip own hb time sees.1) (Script.alike_strip own hb time sees.2)
  | .collect .. | .start .. | .run .. | .ask .. | .grant .. | .insert .. | .set .. | .begin .. | .after .. | .done ..
  | .report .. | .drop .. | .change .. | .panic .. | .arrive .. | .expect .. | .release .. | .listen .. | .clone ..
  | .advance .. | .unsupported => exact .plain rfl (fun _ _ ↦ own _) fun _ ↦ sees

theorem Setup.alike_strip (own : ∀ h, L.own h) (hb : L.blind) (time : L.timed) {home : String}
    {u : Option (List (Step (List (Line Action))))} (sees : Setup.loads u = false) :
    Setup.Alike L home (Setup.strip u) u := by
  match u with
  | none => exact .none
  | some steps => exact .some (Steps.alike_strip own hb time sees)

theorem Steps.alike_strip (own : ∀ h, L.own h) (hb : L.blind) (time : L.timed) {home : String}
    {ss : List (Step (List (Line Action)))} (sees : Steps.loads ss = false) :
    Steps.Alike L home (Steps.strip ss) ss := by
  match ss with
  | [] => exact .nil
  | s :: ss =>
    rw [Steps.loads, Bool.or_eq_false_iff] at sees
    have ih : Steps.Alike L home (Steps.strip ss) ss := Steps.alike_strip own hb time sees.2
    match s with
    | .prepare _ code => exact .prepare (Script.alike_strip own hb time sees.1) ih
    | .required .. | .cancelIf .. | .ifErrored .. | .ifFailed .. | .ifCanceled .. => exact .same rfl ih

theorem Work.alike_strip (own : ∀ h, L.own h) (hb : L.blind) (time : L.timed) {home : String}
    {w : Work (List (Line Action))} (sees : Work.loads w = false) : Work.Alike L home (Work.strip w) w := by
  match w with
  | .script body hold register => exact .script (Script.alike_strip own hb time sees)
  | .timer after => exact .timer time

end

mutual

theorem Script.Alike.strip_eq {home : String} {s t : List (Line Action)} (h : Script.Alike L home s t) :
    Script.strip t = Script.strip s := by
  cases h with
  | nil => rfl
  | cons ha hs =>
    rw [Script.strip, Script.strip, ha.stores_eq, Line.strip, Line.strip, ha.strip_eq, hs.strip_eq]
  | extra _ hl hs => rw [Script.strip, if_pos hl, hs.strip_eq]
termination_by sizeOf t

theorem Action.Alike.strip_eq {home : String} {a b : Action} (h : Action.Alike L home a b) : b.strip = a.strip := by
  cases h with
  | plain => rfl
  | perform _ hu hw => rw [Action.strip, Action.strip, hu.strip_eq, hw.strip_eq]
  | finish _ hs => rw [Action.strip, Action.strip, hs.strip_eq]
  | probe _ hs hu => rw [Action.strip, Action.strip, hs.strip_eq, hu.strip_eq]
termination_by sizeOf b

theorem Setup.Alike.strip_eq {home : String} {u v : Option (List (Step (List (Line Action))))}
    (h : Setup.Alike L home u v) : Setup.strip v = Setup.strip u := by
  cases h with
  | none => rfl
  | some hs => rw [Setup.strip, Setup.strip, hs.strip_eq]
termination_by sizeOf v

theorem Steps.Alike.strip_eq {home : String} {ss ts : List (Step (List (Line Action)))}
    (h : Steps.Alike L home ss ts) : Steps.strip ts = Steps.strip ss := by
  cases h with
  | nil => rfl
  | same _ h => rw [Steps.strip, Steps.strip, h.strip_eq]
  | prepare hs h => rw [Steps.strip, Steps.strip, Step.strip, Step.strip, hs.strip_eq, h.strip_eq]
termination_by sizeOf ts

theorem Work.Alike.strip_eq {home : String} {w x : Work (List (Line Action))} (h : Work.Alike L home w x) :
    Work.strip x = Work.strip w := by
  cases h with
  | script hs => rw [Work.strip, Work.strip, hs.strip_eq]
  | timer => rfl
termination_by sizeOf x

end

end

namespace Table

variable {κ α β : Type}

def map (f : α → β) (t : Table κ α) : Table κ β := ⟨t.entries.map fun e ↦ (e.1, f e.2)⟩

theorem Alike.map_eq_map {R : κ → α → α → Prop} {p : κ → Bool} {t u : Table κ α} (h : Alike p R t u)
    (hp : ∀ k, p k) {f : α → β} (hR : ∀ k a b, R k a b → f b = f a) : u.map f = t.map f := by
  obtain rfl : p = fun _ ↦ true := funext hp
  rw [Alike, restrict_true, restrict_true] at h
  refine congrArg mk ?_
  generalize t.entries = es, u.entries = fs at h
  induction h with
  | nil => rfl
  | cons hab _ ih => rw [List.map_cons, List.map_cons, ih, hab.1, hR _ _ _ hab.2]

end Table

def Collector.strip (c : Collector) : Collector := { c with slots := c.slots.map fun _ ↦ none }

def Job.strip (j : Job) : Job := ⟨j.preparators.map fun p ↦ (p.1, Script.strip p.2), Work.strip j.work⟩

def Node.strip (n : Node) : Node := { n with job := n.job.map Job.strip }

def Terminal.strip (t : Terminal) : Terminal := { t with callback := t.callback.map Script.strip }

def Probe.strip (p : Probe) : Probe :=
  { p with scripts := p.scripts.map fun s ↦ (Script.strip s.1, Script.strip s.2) }

def World.strip (w : World) : World where
  collectors := w.collectors.map Collector.strip
  starts := w.starts
  nodes := w.nodes.map Node.strip
  terminals := w.terminals.map Terminal.strip
  probes := w.probes.map Probe.strip
  barriers := w.barriers

/-- A machine without what is in its slots, and without what scripts write there and what they are told. -/
def Machine.strip (m : Machine) : Machine :=
  { m with world := m.world.strip, answer := .nothing, journal := m.journal.filter fun e ↦ !e.spoken }

section

variable {L : Lens} {home : String}

theorem Collector.Alike.strip_eq {c d : Collector} (h : Collector.Alike L c d) : d.strip = c.strip := by
  have hs : d.slots.map (fun _ ↦ (none : Option Outcome)) = c.slots.map fun _ ↦ none := by
    have hk : d.slots.keys.map (fun x ↦ (x, (none : Option Outcome))) = c.slots.keys.map fun x ↦ (x, none) :=
      congrArg _ h.declared
    simp only [Table.keys, List.map_map] at hk
    exact congrArg Table.mk hk
  rw [Collector.strip, Collector.strip, hs, h.name, h.context, h.diagram]

theorem Job.Alike.strip_eq {i j : Job} (h : Job.Alike L home i j) : j.strip = i.strip := by
  have hp : j.preparators.map (fun p ↦ (p.1, Script.strip p.2)) =
      i.preparators.map fun p ↦ (p.1, Script.strip p.2) := by
    have := h.preparators
    generalize i.preparators = ps, j.preparators = qs at this
    induction this with
    | nil => rfl
    | cons hab _ ih => rw [List.map_cons, List.map_cons, ih, hab.1, hab.2.strip_eq]
  rw [Job.strip, Job.strip, hp, h.work.strip_eq]

theorem Option.map_eq_of_rel {α β : Type} {R : α → α → Prop} {a b : Option α} (h : Option.Rel R a b) {f : α → β}
    (hR : ∀ x y, R x y → f y = f x) : b.map f = a.map f := by
  cases h with
  | none => rfl
  | some h => rw [Option.map_some, Option.map_some, hR _ _ h]

theorem Node.Alike.strip_eq {p q : Node} (h : Node.Alike L home p q) : q.strip = p.strip := by
  have hj : q.job.map Job.strip = p.job.map Job.strip := Option.map_eq_of_rel h.job fun _ _ hij ↦ hij.strip_eq
  rw [h.shell, Node.strip, Node.strip, ← hj]

theorem Terminal.Alike.strip_eq {t u : Terminal} (h : Terminal.Alike L home t u) : u.strip = t.strip := by
  have hc : u.callback.map Script.strip = t.callback.map Script.strip :=
    Option.map_eq_of_rel h.callback fun _ _ hst ↦ hst.strip_eq
  rw [h.shell, Terminal.strip, Terminal.strip, ← hc]

theorem Probe.Alike.strip_eq {p q : Probe} (h : Probe.Alike L home p q) : q.strip = p.strip := by
  have hs := Option.map_eq_of_rel h.scripts (f := fun s ↦ (Script.strip s.1, Script.strip s.2))
    fun _ _ hab ↦ by rw [hab.1.strip_eq, hab.2.strip_eq]
  rw [Probe.strip, Probe.strip, hs, h.name]

variable (own : ∀ h, L.own h)

include own

theorem World.Alike.strip_eq {w v : World} (h : World.Alike L w v) : v.strip = w.strip := by
  have howns : L.owns = fun _ ↦ true := funext fun _ ↦ own _
  have hs : v.starts = w.starts := by
    simpa only [howns, Table.restrict_true] using h.starts.restrict_eq fun _ _ _ hst ↦ hst.same
  have hb : v.barriers = w.barriers := by
    simpa only [howns, Table.restrict_true] using h.barriers.restrict_eq fun _ _ _ hbc ↦ hbc.symm
  rw [World.strip, World.strip, hs, hb, h.collectors.map_eq_map (fun _ ↦ own _) fun _ _ _ hcd ↦ hcd.strip_eq,
    h.nodes.map_eq_map (fun _ ↦ own _) fun _ _ _ hpq ↦ hpq.strip_eq,
    h.terminals.map_eq_map (fun _ ↦ own _) fun _ _ _ htu ↦ htu.strip_eq,
    h.probes.map_eq_map (fun _ ↦ own _) fun _ _ _ hpq ↦ hpq.strip_eq]

theorem Machine.Alike.strip_eq {m x y : Machine} {old : Bool} {d : List Event} (h : Machine.Alike L m m old d x y)
    (hb : L.blind) (time : L.timed) (hx : x.stack = []) : y.strip = x.strip := by
  have hstack := h.stack
  rw [hx, List.forall₂_nil_left_iff] at hstack
  have hdesk : y.desk = x.desk := by
    have := h.desk.part_eq
    have hall : L.own = fun _ ↦ true := funext own
    simpa only [Desk.part, hall, Table.restrict_true] using this
  have hj : y.journal.filter (fun e ↦ !e.spoken) = x.journal.filter fun e ↦ !e.spoken := by
    obtain ⟨es, fs, hxj, hyj, hf, -⟩ := h.journal
    have hears : L.hears = fun e ↦ !e.spoken := funext fun e ↦ by simp [Lens.hears, hb]
    rw [hears] at hf
    rw [hxj, hyj, List.filter_append, List.filter_append, hf]
  rw [Machine.strip, Machine.strip, h.catalogue, h.world.strip_eq own, hdesk, h.clock time, h.timers, hstack, hx, hj]

end

def Lens.bare : Lens where
  own := fun _ ↦ true
  blind := true

/-- Two scripts that differ in nothing but lines that write slots make no other difference, from wherever they
start: in the end all is the same but what is in the slots and what scripts were told. No script may take
something out of a slot to work with it; it may look at slots, though. -/
theorem Scenario.writes_unseen {m : Machine} (hm : m.stack = [])
    (hw : ∀ s ∈ m.world.scripts, Script.loads s = false) (f : Frame) {s t : Script} (hs : Script.loads s = false)
    (hst : Script.strip t = Script.strip s) : (after m f t).strip = (after m f s).strip := by
  have stripped (u : Script) (hu : Script.loads u = false) :
      (after m f u).strip = (after m f (Script.strip u)).strip := by
    have hself : Machine.Alike .bare m m false [] m m := .self (fun _ ↦ rfl) rfl fun _ ↦ ⟨hw, hm⟩
    obtain ⟨d, h, hstack⟩ := hself.after hm f (Script.alike_strip (fun _ ↦ rfl) rfl rfl hu)
    exact h.strip_eq (fun _ ↦ rfl) rfl rfl hstack
  have ht : Script.loads t = false := by rw [← Script.loads_strip, hst, Script.loads_strip, hs]
  rw [stripped t ht, stripped s hs, hst]

namespace Sample

def poised : Machine := Machine.play { catalogue := [("alpha", alpha), ("beta", beta)] }
  ((pair [⟨"success", false, .report none ⟨.success, some (.int 7)⟩⟩] "a").take 2)

def quiet : Script := [
  ⟨"perform", false, .perform "c" "beta" "s" ["a"] none
    (.script [⟨"success", false, .report none ⟨.success, some (.int 1)⟩⟩] false .null)⟩,
  ⟨"run", false, .run "s"⟩]

/-- The same with slots written before, after and from inside, once without success. -/
def scribbled : Script := [
  ⟨"insert", false, .insert "s" "beta" {}⟩,
  ⟨"perform", false, .perform "c" "beta" "s" ["a"] none
    (.script [⟨"insert", true, .insert "s" "gamma" {}⟩,
      ⟨"success", false, .report none ⟨.success, some (.int 1)⟩⟩,
      ⟨"insert", false, .insert "s" "alpha" {}⟩] false .null)⟩,
  ⟨"run", false, .run "s"⟩,
  ⟨"insert", false, .insert "s" "beta" { ending := some .failure }⟩]

end Sample

/-- The slots are not the same, but all the rest is. -/
theorem Sample.scribbled_unseen :
    (Scenario.after poised {} scribbled).world.slot? ⟨"s", 0⟩ beta ≠
        (Scenario.after poised {} quiet).world.slot? ⟨"s", 0⟩ beta ∧
      (Scenario.after poised {} scribbled).strip = (Scenario.after poised {} quiet).strip := by
  refine ⟨by decide +kernel, Scenario.writes_unseen (Machine.stack_play rfl _) ?_ {} ?_ rfl⟩
  · decide +kernel
  · decide +kernel

end ActivityGraph
