import ActivityGraph.Machine.Run

namespace ActivityGraph

/-- What can be seen of a node or a terminal from outside. -/
inductive Status where
  | node (ending : Option Ending) (canceled : Bool)
  | terminal (fired : Bool)
deriving DecidableEq

namespace Status

def code : Status → String
  | .node e canceled =>
    (match e with
      | none => "P"
      | some .success => "S"
      | some .failure => "F") ++ if canceled then "c" else ""
  | .terminal fired => toString fired

end Status

namespace Machine

def board (m : Machine) : List (String × Status) :=
  (m.desk.nodes.entries.filterMap fun e ↦
    (m.world.nodes.get? e.2).map fun n ↦ (e.1, .node n.record.state.ending? n.record.canceled)) ++
  (m.desk.terminals.entries.filterMap fun e ↦
    (m.world.terminals.get? e.2).map fun t ↦ (e.1, .terminal t.fired))

end Machine

structure LineReport where
  answer : Answer
  events : List Event
  changes : List (String × Status)

namespace Scenario

def changes (before after : List (String × Status)) : List (String × Status) :=
  after.filter fun e ↦ !before.contains e

def start (m : Machine) (f : Frame) (l : Line Action) : Machine :=
  { m with stack := [.guard ⟨f.owner, l.verb⟩] }.execute f l

def report (m : Machine) (f : Frame) (l : Line Action) : LineReport × Machine :=
  let n := (start m f l).finish
  (⟨n.answer, (n.journal.take (n.journal.length - m.journal.length)).reverse,
    changes m.board n.board⟩, n)

/-- All lines at the outermost level run in one frame, whose register goes from line to line. -/
def reports (m : Machine) (f : Frame) : Script → List LineReport
  | [] => []
  | l :: ls =>
    let (r, n) := report m f l
    r :: reports n { f with register := m.registerAfter f l.action } ls

def run (catalogue : List (String × Activity)) (s : Script) : List LineReport :=
  reports { catalogue := catalogue } {} s

end Scenario

end ActivityGraph
