import ActivityGraph.Machine.Cascade
import ActivityGraph.Machine.Query

namespace ActivityGraph.Machine

def contextOf : Json → Payload
  | .str s => .text s
  | .int n => .int (Payload.integer (.int n))
  | .real _ => .int 0
  | _ => .unit

def addCollector (m : Machine) (k : Key) (name : String) (as : List Activity) (context : Json) :
    Machine :=
  (m.mapWorld fun w ↦ w.addCollector k (.create name (contextOf context) as)).log
    (.collectorCreated name)

def addStart (m : Machine) (k c : Key) : Machine :=
  let s : Start := { collector := c, vertex := m.world.nextVertex c }
  (m.mapWorld fun w ↦ (w.addVertex c ⟨"start", .start⟩).addStart k s).note (.placed (.start k))

def addNode {δ : Type} [Dependencies δ] (m : Machine) (id : String) (a : Activity) (c : Key) (deps : δ)
    (s : Setup Script) (work : Work Script) : Machine :=
  let k := m.world.nodes.fresh id
  let n : Node :=
    { activity := a, collector := c, vertex := m.world.nextVertex c, policy := s.policy,
      job := some ⟨s.preparators, work⟩ }
  let m := m.mapWorld fun w ↦ (w.addVertex c ⟨a.label, .activity⟩).addNode k n (Dependencies.count deps)
  let m := m.note (.placed (.node k))
  ((m.wireAll (.node k) (Dependencies.links deps)).push (.keep id (.node k))).push
    (.attach (.node k) (Dependencies.listened deps))

/-- Creates a terminal and wires it to its dependencies. Without any, it is released at once. -/
def addTerminal {δ : Type} [Dependencies δ] (m : Machine) (id : String) (c : Key) (deps : δ) (body : Script) :
    Machine :=
  let k := m.world.terminals.fresh id
  let t : Terminal := { collector := c, vertex := m.world.nextVertex c, callback := some body }
  let m := m.mapWorld fun w ↦ (w.addVertex c ⟨"joined", .joined⟩).addTerminal k t (Dependencies.count deps)
  let m := m.note (.placed (.terminal k))
  let m := (m.wireAll (.terminal k) (Dependencies.links deps)).push (.keep id (.terminal k))
  if Dependencies.count deps = 0 then m.release (.terminal k)
  else m.push (.attach (.terminal k) (Dependencies.listened deps))

def addProbe (m : Machine) (id name : String) (count : Nat) (invoke cancel : Script) : Machine :=
  let k := m.world.probes.fresh id
  let p : Probe := { name := name, scripts := some (invoke, cancel) }
  (m.mapWorld fun w ↦ w.addProbe k p count).keep id (.probe k)

def describeSetup (m : Machine) (a : Activity) : Option (List (Step Script)) → Machine
  | none => m
  | some steps => m.note (.described ((Setup.ofSteps steps).describe a))

def clone (m : Machine) (id copy : String) : Except String Machine :=
  match m.desk.nodes.get? id, m.desk.starts.get? id, m.desk.collectors.get? id,
      m.desk.views.get? id, m.desk.terminals.get? id with
  | some k, _, _, _, _ => .ok (m.keep copy (.node k))
  | _, some k, _, _, _ => do
    let s ← fetch m.world.starts k
    return (m.keep copy (.start k)).keep copy (.collector s.collector)
  | _, _, some k, _, _ => .ok (m.keep copy (.collector k))
  | _, _, _, some v, _ => .ok (m.keep copy (.view v))
  | _, _, _, _, some k => .ok (m.keep copy (.terminal k))
  | _, _, _, _, _ => .error id

/-- What an action does, or the handle that it misses. -/
def act (m : Machine) (f : Frame) (c : Caller) : Action → Except String Machine
  | .collect id name keys context => do
    let as ← m.activities keys
    let k := m.world.collectors.fresh id
    let m := (m.addCollector k name as context).keep id (.collector k)
    return m.push (.answer c (.now (.text (m.world.describeCollector k))))
  | .start id name keys context => do
    let as ← m.activities keys
    let k := m.world.collectors.fresh id
    let s := m.world.starts.fresh id
    let m := ((m.addCollector k name as context).addStart s k).keep id (.collector k)
    return (m.keep id (.start s)).push (.answer c (.now (.text (m.world.describeCollector k))))
  | .run id => do
    let k ← find m.desk.starts id
    return (m.push (.answer c (.now .nothing))).fire k
  | .ask q => do
    return m.push (.answer c (.now (← m.ask f q)))
  | .grant id g => do
    match ← m.grant f g with
    | .error e => return m.push (.answer c (.now (.refused e)))
    | .ok v => return (m.keep id (.view v)).push (.answer c (.now (.text (m.world.describeView v))))
  | .insert id key d => do
    let (k, _) ← m.collectorAt id
    let a ← m.activity key
    match m.store none k a (d.record a) with
    | .error e => return m.push (.answer c (.now (.refused e)))
    | .ok m => return m.push (.answer c (.now .ok))
  | .set id key d => do
    let (v, col) ← m.viewAt id
    let a ← m.activity key
    if v.contains a then
      match m.store none v.collector a (d.record a) with
      | .error e => return m.push (.answer c (.now (.refused e)))
      | .ok m => return m.push (.answer c (.now .ok))
    else return m.push (.answer c (.now (.refused (.outOfView a.name col.name))))
  | .perform id key coll deps setup work => do
    let a ← m.activity key
    let (k, col) ← m.collectorAt coll
    let m := m.describeSetup a setup
    match m.sources deps with
    | .error missing => return m.push (.answer c (.now (.missing missing)))
    | .ok ss =>
      if col.declares a then
        return (m.push (.answer c (.now (.text a.label)))).addNode id a k ss
          (.ofSteps (setup.getD [])) work
      else return m.raise (.undeclared (col.undeclared a))
  | .finish id coll deps body => do
    let (k, _) ← m.collectorAt coll
    let ss ← m.sources deps
    let t := m.world.terminals.fresh id
    return (m.push (.answer c (.fired t))).addTerminal id k ss body
  | .begin id => do
    let k ← find m.desk.nodes id
    return (m.push (.answer c (.now .nothing))).release (.node k)
  | .after id dep => do
    let k ← find m.desk.nodes id
    let s ← m.source dep
    return (m.push (.answer c (.now .nothing))).depend (.node k) s
  | .done id next => do
    let k ← find m.desk.nodes id
    let l ← find m.desk.nodes next
    return (m.push (.answer c (.now .nothing))).depend (.node l) (.node k)
  | .report node r => do
    let id := node.getD f.home
    let (k, n) ← m.completionAt id
    return ((m.takeCompletion id).push (.answer c (.now .nothing))).complete k
      (n.activity.result r.ending (r.value.getD f.register))
  | .drop node => do
    let id := node.getD f.home
    let _ ← m.completionAt id
    return (m.dropCompletion id).push (.answer c (.now .nothing))
  | .change _ o => do
    let _ ← m.operand o
    return m.push (.answer c (.now .nothing))
  | .panic message => .ok (m.raise (.scripted message))
  | .probe id count name invoke cancel =>
    .ok ((m.addProbe id name count invoke cancel).push
      (.answer c (.barrier (m.world.probes.fresh id))))
  | .arrive id canceled => do
    let k ← find m.desk.probes id
    return (m.push (.answer c (.barrier k))).arrive (.probe k) canceled
  | .expect id => do
    let k ← find m.desk.probes id
    return (m.push (.answer c (.barrier k))).expect (.probe k)
  | .release id => do
    let k ← find m.desk.probes id
    return (m.push (.answer c (.barrier k))).release (.probe k)
  | .listen id dep => do
    let s ← m.source dep
    let k ← find m.desk.probes id
    return (m.push (.answer c (.now .nothing))).listen s (.probe k)
  | .clone id copy => do
    return (← m.clone id copy).push (.answer c (.now .nothing))
  | .advance span runtime =>
    .ok ((m.push (.answer c (.now .nothing))).push (.elapse (m.clock + span.nanos) runtime))
  | .unsupported => .ok (m.push (.answer c (.now (.unsupported c.verb))))

def registerAfter (m : Machine) (f : Frame) : Action → Json
  | .change how o =>
    match m.operand o with
    | .ok v => how.apply f.register v
    | .error _ => f.register
  | _ => f.register

def execute (m : Machine) (f : Frame) (l : Line Action) : Machine :=
  let c : Caller := ⟨f.owner, l.verb⟩
  let m := if l.caught then m.push (.guard c) else m
  match m.act f c l.action with
  | .ok m => m
  | .error missing => m.push (.answer c (.now (.missing missing)))

end ActivityGraph.Machine
