import ActivityGraph.Machine

namespace ActivityGraph

namespace Job

def weight (j : Job) : Nat :=
  total (j.preparators.map fun p ↦ 2 + Script.weight p.2) + Work.weight j.work

end Job

namespace Task

def weight : Task → Nat
  | .script _ rest exit =>
    1 + Script.weight rest + match exit with
      | .job _ j => j.weight
      | _ => 0
  | .deliver _ _ rest => 1 + rest.length
  | .attach _ rest => 1 + 2 * rest.length
  | _ => 1

end Task

namespace World

def nodeWeight (n : Node) : Nat := ((n.job.map Job.weight).getD 0) + n.listeners.length

def terminalWeight (t : Terminal) : Nat := (t.callback.map fun s ↦ 3 + Script.weight s).getD 0

def probeWeight (p : Probe) : Nat :=
  (p.scripts.map fun s ↦ 2 + Script.weight s.1 + Script.weight s.2).getD 0

def startWeight (s : Start) : Nat := s.listeners.length

def barrierWeight (b : Barrier) : Nat := if b.closed then 0 else 1

def weight (w : World) : Nat :=
  total (w.nodes.values.map nodeWeight) + total (w.starts.values.map startWeight) +
    total (w.terminals.values.map terminalWeight) + total (w.probes.values.map probeWeight) +
    total (w.barriers.values.map barrierWeight)

end World

namespace Machine

def weight (m : Machine) : Nat :=
  total (m.stack.map Task.weight) + m.world.weight + 4 * m.timers.length

end Machine

end ActivityGraph
