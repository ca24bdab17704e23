import ActivityGraph.Barrier
import ActivityGraph.Collector
import ActivityGraph.Script

namespace ActivityGraph

inductive Source where
  | node (k : Key)
  | start (k : Key)
deriving DecidableEq, Repr

/-- What a node or a terminal can be made to wait for at once: how many signals it then waits for, where its
edges come from, and whom it listens to, in order. -/
class Dependencies (δ : Type) where
  count : δ → Nat
  links : δ → List Source
  listened : δ → List Source

instance : Dependencies Unit := ⟨fun _ ↦ 0, fun _ ↦ [], fun _ ↦ []⟩

instance : Dependencies Source := ⟨fun _ ↦ 1, fun s ↦ [s], fun s ↦ [s]⟩

instance : Dependencies (List Source) := ⟨List.length, id, id⟩

namespace Dependencies

variable (ss : List Source)

@[simp] theorem count_list : count ss = ss.length := rfl

@[simp] theorem links_list : links ss = ss := rfl

@[simp] theorem listened_list : listened ss = ss := rfl

end Dependencies

def Tuple : Nat → Type
  | 0 => Unit
  | 1 => Source
  | n + 2 => Source × Tuple (n + 1)

namespace Tuple

def count : (n : Nat) → Tuple n → Nat
  | 0, _ => 0
  | 1, _ => 1
  | n + 2, (_, t) => count (n + 1) t + 1

def sources : (n : Nat) → Tuple n → List Source
  | 0, _ => []
  | 1, s => [s]
  | n + 2, (s, t) => s :: sources (n + 1) t

instance (n : Nat) : Dependencies (Tuple n) := ⟨count n, sources n, sources n⟩

end Tuple

inductive Waiter where
  | node (k : Key)
  | terminal (k : Key)
  | probe (k : Key)
deriving DecidableEq, Repr

inductive Site where
  | start (k : Key)
  | node (k : Key)
  | terminal (k : Key)
deriving DecidableEq, Repr

/-- An activity that has not been started yet, with the preparators still to run. -/
structure Job where
  preparators : List (Nat × Script)
  work : Work Script

/-- A node runs one activity, once all that it waits for is final and nothing of it was canceled. -/
structure Node where
  activity : Activity
  collector : Key
  vertex : Nat
  policy : Policy
  job : Option Job
  record : Outcome := {}
  listeners : List Waiter := []
  signal : Option Signal := none

structure Start where
  collector : Key
  vertex : Nat
  fired : Bool := false
  listeners : List Waiter := []

/-- A terminal calls back once all that it waits for is final, canceled or not. -/
structure Terminal where
  collector : Key
  vertex : Nat
  callback : Option Script
  fired : Bool := false

structure Probe where
  name : String
  scripts : Option (Script × Script)

structure World where
  collectors : Table Key Collector := {}
  starts : Table Key Start := {}
  nodes : Table Key Node := {}
  terminals : Table Key Terminal := {}
  probes : Table Key Probe := {}
  barriers : Table Waiter Barrier := {}

namespace World

def fired (w : World) (t : Key) : Bool := ((w.terminals.get? t).map Terminal.fired).getD false

def label (w : World) : Waiter → String
  | .node k => ((w.nodes.get? k).map fun n ↦ n.activity.label).getD ""
  | .terminal _ => "joined"
  | .probe k => ((w.probes.get? k).map Probe.name).getD ""

def collectorName (w : World) (k : Key) : String :=
  ((w.collectors.get? k).map Collector.name).getD ""

def sourceVertex? (w : World) : Source → Option (Key × Nat)
  | .node k => (w.nodes.get? k).map fun n ↦ (n.collector, n.vertex)
  | .start k => (w.starts.get? k).map fun s ↦ (s.collector, s.vertex)

def waiterVertex? (w : World) : Waiter → Option (Key × Nat)
  | .node k => (w.nodes.get? k).map fun n ↦ (n.collector, n.vertex)
  | .terminal k => (w.terminals.get? k).map fun t ↦ (t.collector, t.vertex)
  | .probe _ => none

def modifyCollector (w : World) (k : Key) (f : Collector → Collector) : World :=
  { w with collectors := w.collectors.modify k f }

def modifyStart (w : World) (k : Key) (f : Start → Start) : World :=
  { w with starts := w.starts.modify k f }

def modifyNode (w : World) (k : Key) (f : Node → Node) : World :=
  { w with nodes := w.nodes.modify k f }

def modifyTerminal (w : World) (k : Key) (f : Terminal → Terminal) : World :=
  { w with terminals := w.terminals.modify k f }

def modifyProbe (w : World) (k : Key) (f : Probe → Probe) : World :=
  { w with probes := w.probes.modify k f }

def setBarrier (w : World) (x : Waiter) (b : Barrier) : World :=
  { w with barriers := w.barriers.modify x fun _ ↦ b }

def addCollector (w : World) (k : Key) (c : Collector) : World :=
  { w with collectors := w.collectors.insert k c }

def addStart (w : World) (k : Key) (s : Start) : World := { w with starts := w.starts.insert k s }

def addNode (w : World) (k : Key) (n : Node) (count : Nat) : World :=
  { w with
    nodes := w.nodes.insert k n,
    barriers := w.barriers.insert (.node k) { remaining := count } }

def addTerminal (w : World) (k : Key) (t : Terminal) (count : Nat) : World :=
  { w with
    terminals := w.terminals.insert k t,
    barriers := w.barriers.insert (.terminal k) { remaining := count } }

def addProbe (w : World) (k : Key) (p : Probe) (count : Nat) : World :=
  { w with
    probes := w.probes.insert k p,
    barriers := w.barriers.insert (.probe k) { remaining := count } }

def store (w : World) (k : Key) (a : Activity) (r : Outcome) : Except AccessError World :=
  match w.collectors.get? k with
  | none => .error (.undeclared a.name "")
  | some c =>
    match c.insert a r with
    | .error e => .error e
    | .ok d => .ok (w.modifyCollector k fun _ ↦ d)

def nextVertex (w : World) (k : Key) : Nat :=
  ((w.collectors.get? k).map fun c ↦ c.diagram.size).getD 0

def addVertex (w : World) (k : Key) (v : Vertex) : World :=
  w.modifyCollector k fun c ↦ { c with diagram := c.diagram.addVertex v }

/-- Draws an edge if both of its ends belong to the same collector. -/
def drawEdge (w : World) (s : Source) (x : Waiter) : World :=
  match w.sourceVertex? s, w.waiterVertex? x with
  | some (k, i), some (l, j) =>
    if k = l then w.modifyCollector k fun c ↦ { c with diagram := c.diagram.addEdge i j } else w
  | _, _ => w

def describeBarrier (w : World) (x : Waiter) : String :=
  match w.barriers.get? x with
  | none => ""
  | some b =>
    Text.fields "Combinator" [("next", Text.quoted (w.label x)), ("remaining", toString b.remaining),
      ("canceled", toString b.canceled), ("closed", toString b.closed)]

def describeNode (w : World) (k : Key) : String :=
  match w.nodes.get? k with
  | none => ""
  | some n =>
    Text.fields "Subtask" [("activity", Text.quoted n.activity.label),
      ("collector", Text.quoted (w.collectorName n.collector)),
      ("combinator", w.describeBarrier (.node k))]

def describeCollector (w : World) (k : Key) : String :=
  ((w.collectors.get? k).map Collector.describe).getD ""

def describeStart (w : World) (k : Key) : String :=
  match w.starts.get? k with
  | none => ""
  | some s =>
    Text.fields "Start" [("collector", w.describeCollector s.collector), ("fired", toString s.fired)]

def describeTerminal (w : World) (k : Key) : String :=
  Text.fields "Finished" [("fired", toString (w.fired k))]

def describeView (w : World) (v : View) : String :=
  ((w.collectors.get? v.collector).map v.describe).getD ""

end World

end ActivityGraph
