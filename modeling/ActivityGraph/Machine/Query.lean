import ActivityGraph.Machine

namespace ActivityGraph.Machine

def find {α : Type} (t : Table String α) (id : String) : Except String α :=
  match t.get? id with
  | some a => .ok a
  | none => .error id

def fetch {α : Type} (t : Table Key α) (k : Key) : Except String α :=
  match t.get? k with
  | some a => .ok a
  | none => .error k.handle

def activity (m : Machine) (key : String) : Except String Activity :=
  match m.catalogue.lookup key with
  | some a => .ok a
  | none => .error key

def activities (m : Machine) (keys : List String) : Except String (List Activity) :=
  keys.mapM m.activity

def collectorAt (m : Machine) (id : String) : Except String (Key × Collector) := do
  let k ← find m.desk.collectors id
  return (k, ← fetch m.world.collectors k)

def viewAt (m : Machine) (id : String) : Except String (View × Collector) := do
  let v ← find m.desk.views id
  return (v, ← fetch m.world.collectors v.collector)

/-- A dependency handle is looked up among the nodes first, then among the starts. -/
def source (m : Machine) (id : String) : Except String Source :=
  match m.desk.nodes.get? id with
  | some k => .ok (.node k)
  | none => (find m.desk.starts id).map .start

def sources (m : Machine) (ids : List String) : Except String (List Source) := ids.mapM m.source

def completionAt (m : Machine) (id : String) : Except String (Key × Node) := do
  let k ← find m.desk.completions id
  return (k, ← fetch m.world.nodes k)

def read (v : View) (c : Collector) (a : Activity) : Reading :=
  ⟨c.name, a, v.contains a, v.read? c a⟩

def barrierAnswer (m : Machine) (k : Key) : Answer :=
  match m.world.barriers.get? (.probe k) with
  | none => .nothing
  | some b => .barrier b.remaining b.closed (m.world.describeBarrier (.probe k))

def firedAnswer (m : Machine) (k : Key) : Answer :=
  .flag (m.world.fired k)

def describe (m : Machine) (id : String) : Except String String :=
  match m.desk.nodes.get? id, m.desk.starts.get? id, m.desk.collectors.get? id,
      m.desk.views.get? id, m.desk.probes.get? id, m.desk.terminals.get? id with
  | some k, _, _, _, _, _ => .ok (m.world.describeNode k)
  | _, some k, _, _, _, _ => .ok (m.world.describeStart k)
  | _, _, some k, _, _, _ => .ok (m.world.describeCollector k)
  | _, _, _, some v, _, _ => .ok (m.world.describeView v)
  | _, _, _, _, some k, _ => .ok (m.world.describeBarrier (.probe k))
  | _, _, _, _, _, some k => .ok (m.world.describeTerminal k)
  | _, _, _, _, _, _ => .error id

def ask (m : Machine) (f : Frame) : Query → Except String Answer
  | .info id => do
    let (_, c) ← m.collectorAt id
    return .info c.name c.context c.describe
  | .extract id key d => do
    let (_, c) ← m.collectorAt id
    let a ← m.activity key
    return match c.extract a with
      | .error e => .refused e
      | .ok r => .extracted a r (r = d.record a)
  | .diagram id names => do
    let (_, c) ← m.collectorAt id
    return .diagram c.name c.diagram names
  | .read id key => do
    let (v, c) ← m.viewAt id
    return .reading (read v c (← m.activity key))
  | .result id => do
    let n ← fetch m.world.nodes (← find m.desk.nodes id)
    return .record n.activity n.record
  | .fired id => do
    return m.firedAnswer (← find m.desk.terminals id)
  | .peek id => do
    return m.barrierAnswer (← find m.desk.probes id)
  | .describe id => return .text (← m.describe id)
  | .completion node => do
    let (_, n) ← m.completionAt (node.getD f.home)
    let c ← fetch m.world.collectors n.collector
    return .completion c.name c.context ("Completion(" ++ n.activity.label ++ ")")

section

variable {m : Machine} {k : Key} {id : String} (f : Frame)

theorem barrierAnswer_eq {b : Barrier} (hb : m.world.barriers.get? (.probe k) = some b) :
    m.barrierAnswer k = .barrier b.remaining b.closed (m.world.describeBarrier (.probe k)) := by
  rw [barrierAnswer, hb]

theorem collectorAt_eq {c : Collector} (hid : m.desk.collectors.get? id = some k)
    (hc : m.world.collectors.get? k = some c) : m.collectorAt id = .ok (k, c) := by
  simp only [collectorAt, find, hid, fetch, hc, bind, Except.bind]
  rfl

theorem ask_info {c : Collector} (hid : m.desk.collectors.get? id = some k)
    (hc : m.world.collectors.get? k = some c) : m.ask f (.info id) = .ok (.info c.name c.context c.describe) := by
  simp only [ask, collectorAt_eq hid hc, bind, Except.bind]
  rfl

theorem ask_extract {c : Collector} {key : String} {a : Activity} (d : Draft)
    (hid : m.desk.collectors.get? id = some k) (hc : m.world.collectors.get? k = some c)
    (ha : m.activity key = .ok a) :
    m.ask f (.extract id key d) = .ok (if c.declares a
      then .extracted a ((c.slot? a).getD {}) ((c.slot? a).getD {} = d.record a) else .refused (c.undeclared a)) := by
  simp only [ask, collectorAt_eq hid hc, ha, bind, Except.bind, Collector.extract]
  by_cases hd : c.declares a
  · rw [if_pos hd, if_pos hd]
    rfl
  · rw [if_neg hd, if_neg hd]
    rfl

theorem ask_diagram {c : Collector} (names : List String) (hid : m.desk.collectors.get? id = some k)
    (hc : m.world.collectors.get? k = some c) :
    m.ask f (.diagram id names) = .ok (.diagram c.name c.diagram names) := by
  simp only [ask, collectorAt_eq hid hc, bind, Except.bind]
  rfl

theorem ask_result {n : Node} (hid : m.desk.nodes.get? id = some k) (hn : m.world.nodes.get? k = some n) :
    m.ask f (.result id) = .ok (.record n.activity n.record) := by
  simp only [ask, find, hid, fetch, bind, Except.bind, hn]
  rfl

theorem ask_peek (hid : m.desk.probes.get? id = some k) : m.ask f (.peek id) = .ok (m.barrierAnswer k) := by
  simp only [ask, find, hid]
  rfl

end

def grant (m : Machine) (f : Frame) : Grant → Except String (Except AccessError View)
  | .whole id => do
    let (k, c) ← m.collectorAt id
    return .ok ⟨k, c.declared⟩
  | .ofStart id => do
    let s ← fetch m.world.starts (← find m.desk.starts id)
    return .ok ⟨s.collector, (← fetch m.world.collectors s.collector).declared⟩
  | .within id keys => do
    let (k, c) ← m.collectorAt id
    return View.within k c (← m.activities keys)
  | .narrow id keys => do
    let (v, c) ← m.viewAt id
    return v.narrow c (← m.activities keys)
  | .ofCompletion node keys => do
    let (_, n) ← m.completionAt (node.getD f.home)
    let c ← fetch m.world.collectors n.collector
    return View.within n.collector c (← m.activities keys)

def operand (m : Machine) : Operand → Except String Json
  | .value v => .ok v
  | .payload ending key id => do
    let a ← m.activity key
    let (v, c) ← m.viewAt id
    let r := v.get c a
    return match ending with
      | .success => (r.success?.getD a.noSuccess).toJson
      | .failure => (r.failure?.getD a.noFailure).toJson

def settle (m : Machine) : Reply → Answer
  | .now a => a
  | .fired k => m.firedAnswer k
  | .barrier k => m.barrierAnswer k

end ActivityGraph.Machine
