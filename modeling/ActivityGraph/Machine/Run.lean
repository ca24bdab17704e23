import ActivityGraph.Machine.Action
import ActivityGraph.Machine.Weight

namespace ActivityGraph

namespace Machine

def perform (m : Machine) : Task → Machine
  | .script f [] exit =>
    match exit with
    | .nowhere => m
    | .job k j => m.launch k { j with work := j.work.withRegister f.register }
  | .script f (l :: rest) exit =>
    (m.push (.script { f with register := m.registerAfter f l.action } rest exit)).execute f l
  | .answer c r => m.conclude c (m.settle r)
  | .guard _ => m
  | .contain => m
  | .keep id h => m.keep id h
  | .relinquish id => m.dropCompletion id
  | .fire k =>
    m.mapWorld fun w ↦ w.modifyTerminal k fun t ↦ { t with fired := true }
  | .deliver _ _ [] => m
  | .deliver s canceled (x :: xs) => (m.push (.deliver s canceled xs)).tell x s canceled
  | .attach _ [] => m
  | .attach x (s :: ss) => (m.push (.attach x ss)).listen s x
  | .elapse stop runtime => m.elapse stop runtime

def step (m : Machine) : Machine :=
  match m.stack with
  | [] => m
  | t :: rest => { m with stack := rest }.perform t

def run : Nat → Machine → Machine
  | 0, m => m
  | n + 1, m => if m.stack.isEmpty then m else run n m.step

/-- Runs until nothing is left to do. -/
def finish (m : Machine) : Machine := run m.weight m

end Machine

end ActivityGraph
