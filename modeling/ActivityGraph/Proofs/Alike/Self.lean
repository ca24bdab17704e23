import ActivityGraph.Proofs.Alike.Machine

namespace ActivityGraph

def Work.scripts : Work Script → List Script
  | .script body _ _ => [body]
  | .timer _ => []

def Job.scripts (j : Job) : List Script := j.preparators.map Prod.snd ++ j.work.scripts

def Node.scripts (n : Node) : List Script := n.job.elim [] Job.scripts

def Probe.scriptList (p : Probe) : List Script := p.scripts.elim [] fun s ↦ [s.1, s.2]

def World.scripts (w : World) : List Script :=
  w.nodes.values.flatMap Node.scripts ++ w.terminals.values.filterMap Terminal.callback ++
    w.probes.values.flatMap Probe.scriptList

section

variable {L : Lens} (own : ∀ h, L.own h) (time : L.timed)

include own time

theorem Script.Alike.self (home : String) {s : Script} (sees : L.blind → Script.loads s = false) :
    Script.Alike L home s s := Script.alike_self (fun _ _ ↦ own _) sees (.inl time)

theorem Job.Alike.self (home : String) {j : Job} (sees : L.blind → ∀ s ∈ j.scripts, Script.loads s = false) :
    Job.Alike L home j j where
  preparators := List.forall₂_same.2 fun x hx ↦ by
    refine ⟨rfl, .self own time home fun hb ↦ sees hb _ ?_⟩
    exact List.mem_append_left _ (List.mem_map_of_mem hx)
  work := by
    cases hw : j.work with
    | script body hold r =>
      refine .script (.self own time home fun hb ↦ sees hb _ ?_)
      exact List.mem_append_right _ (by simp [hw, Work.scripts])
    | timer after => exact .timer time

theorem Node.Alike.self (home : String) {p : Node} (sees : L.blind → ∀ s ∈ p.scripts, Script.loads s = false) :
    Node.Alike L home p p where
  shell := rfl
  job := by
    rw [Node.scripts] at sees
    cases hj : p.job with
    | none => exact .none
    | some j => exact .some (.self own time home (by simpa only [hj, Option.elim_some] using sees))
  collector := own _
  listeners _ _ := own _

theorem Terminal.Alike.self (home : String) {t : Terminal}
    (sees : L.blind → ∀ s ∈ t.callback, Script.loads s = false) : Terminal.Alike L home t t where
  shell := rfl
  callback := by
    cases hc : t.callback with
    | none => exact .none
    | some s => exact .some (.self own time home fun hb ↦ sees hb s hc)
  collector := own _
  view := own _

theorem Probe.Alike.self (home : String) {p : Probe}
    (sees : L.blind → ∀ s ∈ p.scriptList, Script.loads s = false) : Probe.Alike L home p p where
  name := rfl
  scripts := by
    rw [Probe.scriptList] at sees
    cases hs : p.scripts with
    | none => exact .none
    | some s =>
      simp only [hs, Option.elim_some, List.forall_mem_cons] at sees
      exact .some ⟨.self own time home fun hb ↦ (sees hb).1, .self own time home fun hb ↦ (sees hb).2.1⟩

theorem World.Alike.self {w : World} (sees : L.blind → ∀ s ∈ w.scripts, Script.loads s = false) :
    World.Alike L w w where
  collectors := .refl fun _ _ _ ↦ .refl _ _
  starts := .refl fun _ _ _ ↦ ⟨rfl, own _, fun _ _ ↦ own _⟩
  nodes := .refl fun e he _ ↦ .self own time _ fun hb s hs ↦ sees hb s
    (List.mem_append_left _ (List.mem_append_left _ (List.mem_flatMap.2 ⟨e.2, List.mem_map_of_mem he, hs⟩)))
  terminals := .refl fun e he _ ↦ .self own time _ fun hb s hs ↦ sees hb s
    (List.mem_append_left _ (List.mem_append_right _ (List.mem_filterMap.2 ⟨e.2, List.mem_map_of_mem he, hs⟩)))
  probes := .refl fun e he _ ↦ .self own time _ fun hb s hs ↦ sees hb s
    (List.mem_append_right _ (List.mem_flatMap.2 ⟨e.2, List.mem_map_of_mem he, hs⟩))
  barriers := .refl fun _ _ _ ↦ rfl

omit time in
theorem Desk.Alike.self (d : Desk) : Desk.Alike L d d :=
  ⟨.refl fun _ _ _ ↦ ⟨rfl, own _⟩, .refl fun _ _ _ ↦ ⟨rfl, own _⟩, .refl fun _ _ _ ↦ ⟨rfl, own _⟩,
    .refl fun _ _ _ ↦ ⟨rfl, own _⟩, .refl fun _ _ _ ↦ ⟨rfl, own _⟩, .refl fun _ _ _ ↦ ⟨rfl, own _⟩,
    .refl fun _ _ _ ↦ ⟨rfl, own _⟩⟩

theorem Task.Alike.self (hb : L.blind = false) (t : Task) : Task.Alike L t t := by
  cases t with
  | script f rest exit =>
    refine .script (.self own time _ (by simp [hb])) ?_
    cases exit with
    | nowhere => exact .nowhere
    | job k j => exact .job (own _) (.self own time _ (by simp [hb]))
  | answer c r =>
    refine .answer fun _ ↦ ⟨rfl, ?_⟩
    cases r with
    | now a => trivial
    | fired k | barrier k => exact own _
  | guard c => exact .guard
  | contain => exact .contain time
  | keep id h => exact .keep (own _) (own _)
  | relinquish id => exact .relinquish (own _)
  | fire k => exact .fire (own _)
  | deliver s canceled xs => exact .deliver (own _) fun _ _ ↦ own _
  | attach x ss => exact .attach (own _) fun _ _ ↦ own _
  | elapse stop runtime => exact .elapse fun _ ↦ ⟨rfl, rfl⟩

theorem Machine.Alike.self {m : Machine}
    (sees : L.blind → (∀ s ∈ m.world.scripts, Script.loads s = false) ∧ m.stack = []) :
    Machine.Alike L m m false [] m m where
  catalogue := rfl
  world := .self own time fun hb ↦ (sees hb).1
  desk := .self own _
  clock _ := rfl
  timers := rfl
  due _ _ := ⟨time, own _⟩
  stack := by
    cases hb : L.blind with
    | true => simp [(sees hb).2]
    | false => exact List.forall₂_same.2 fun t _ ↦ .self own time hb t
  answer _ := .inl rfl
  journal := .refl _ _ _
  rest := .refl _ _

end

end ActivityGraph
