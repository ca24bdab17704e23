import ActivityGraph.Machine

namespace ActivityGraph.Machine

/-- Makes a node final: its record is stored before anyone is told. -/
def resolve (m : Machine) (k : Key) (s : Signal) : Machine :=
  match m.world.nodes.get? k with
  | none => m
  | some n =>
    let m := match m.store (some k) n.collector n.activity n.record with
      | .ok m => m
      | .error e => m.log (.notStored k e)
    let m := m.modifyNode k fun n ↦ { n with signal := some s, listeners := [] }
    match s with
    | .done => m.push (.deliver (.node k) false n.listeners)
    | .cancel =>
      (m.log (.propagating k n.activity.label n.listeners.length)).push
        (.deliver (.node k) true n.listeners)

def abandon (m : Machine) (k : Key) : Machine :=
  match m.world.nodes.get? k with
  | none => m
  | some n =>
    let m := m.modifyNode k fun n ↦ { n with job := none, record := n.record.cancel }
    let m := m.log (.abandoned k (m.world.collectorName n.collector) n.activity.label)
    m.resolve k .cancel

/-- The activity of a node reports. The record takes the report before the policy is asked, and
keeps what it got if a predicate breaks down. -/
def complete (m : Machine) (k : Key) (result : Except Payload Payload) : Machine :=
  match m.world.nodes.get? k with
  | none => m
  | some n =>
    match n.record.report result with
    | .error r => m.raise (.repeated r)
    | .ok r =>
      let ruling := n.policy.rule r
      let m := m.modifyNode k fun n ↦ { n with record := ruling.record }
      let m := m.noteAll (.reported k result :: ruling.asked.map (.asked k))
      match ruling.signal with
      | .error text => (m.note (.unwound (.broken text) (.ruling k))).raise (.broken text)
      | .ok s =>
        let ending := match result with
          | .ok _ => .success
          | .error _ => .failure
        let m := m.log (.completed k (m.world.collectorName n.collector) n.activity.label ending
          ruling.record.canceled)
        m.resolve k s

/-- Goes on with the job of a node: first its preparators, then its work. -/
def launch (m : Machine) (k : Key) (j : Job) : Machine :=
  match j.preparators with
  | (place, code) :: rest =>
    (m.note (.prepared k place j.work.register)).push
      (.script ⟨some k.handle, j.work.register⟩ code (.job k { j with preparators := rest }))
  | [] =>
    let m := m.log (.started k (m.world.label (.node k)))
    match j.work with
    | .script body hold r =>
      let m := (m.note (.ran k r)).holdCompletion k.handle k
      let m := if hold then m else m.push (.relinquish k.handle)
      m.push (.script ⟨some k.handle, r⟩ body .nowhere)
    | .timer after =>
      let m := m.note (.timed k after)
      { m with timers := m.timers ++ [⟨m.clock + after.nanos, k, after⟩] }

def begin (m : Machine) (k : Key) : Machine :=
  match m.world.nodes.get? k with
  | none => m
  | some n =>
    match n.job with
    | none => m.raise (.startedTwice n.activity.label)
    | some j => (m.modifyNode k fun n ↦ { n with job := none }).launch k j

def join (m : Machine) (k : Key) : Machine :=
  match m.world.terminals.get? k with
  | none => m
  | some t =>
    match t.callback, m.world.collectors.get? t.collector with
    | some body, some c =>
      let view : View := ⟨t.collector, c.declared⟩
      let m := m.mapWorld fun w ↦ w.modifyTerminal k fun t ↦ { t with callback := none }
      let m := (m.log (.joined k c.name)).note (.finished k (view.describe c))
      let m := m.keep ("@" ++ k.handle) (.view view)
      (m.push (.fire k)).push (.script ⟨some k.handle, .null⟩ body .nowhere)
    | _, _ => m

def call (m : Machine) (k : Key) (canceled : Bool) : Machine :=
  match m.world.probes.get? k with
  | none => m
  | some p =>
    match p.scripts with
    | none => m
    | some (invoke, cancel) =>
      let m := m.mapWorld fun w ↦ w.modifyProbe k fun p ↦ { p with scripts := none }
      (m.note (.called k canceled)).push
        (.script ⟨some k.handle, .null⟩ (if canceled then cancel else invoke) .nowhere)

def enter (m : Machine) (x : Waiter) (canceled : Bool) : Machine :=
  match x with
  | .node k => if canceled then m.abandon k else m.begin k
  | .terminal k => m.join k
  | .probe k => m.call k canceled

def arrive (m : Machine) (x : Waiter) (canceled : Bool) : Machine :=
  match m.world.barriers.get? x with
  | none => m
  | some b =>
    match b.arrive? canceled with
    | none => m.raise (.lateSignal (m.world.label x))
    | some b =>
      let m := m.mapWorld fun w ↦ w.setBarrier x b
      if b.closed then (m.log (.closed x (m.world.label x) b.canceled)).enter x b.canceled else m

def release (m : Machine) (x : Waiter) : Machine :=
  match m.world.barriers.get? x with
  | none => m
  | some b =>
    match b.release with
    | .error .closed => m.raise (.startedTwice (m.world.label x))
    | .error (.unresolved n) => m.raise (.startedEarly (m.world.label x) n)
    | .ok b =>
      let m := m.mapWorld fun w ↦ w.setBarrier x b
      (m.log (.opened x (m.world.label x))).enter x false

def tell (m : Machine) (x : Waiter) (s : Source) (canceled : Bool) : Machine :=
  (m.note (.told x s canceled)).arrive x canceled

/-- Puts a waiter on the list of a source. A source that is final answers at once. -/
def enlist (m : Machine) (s : Source) (x : Waiter) : Machine :=
  match s with
  | .node k =>
    match m.world.nodes.get? k with
    | none => m
    | some n =>
      match n.signal with
      | none => m.modifyNode k fun n ↦ { n with listeners := n.listeners ++ [x] }
      | some s => (m.log (.replaying k n.activity.label)).tell x (.node k) (s = .cancel)
  | .start k =>
    match m.world.starts.get? k with
    | none => m
    | some t =>
      if t.fired then m.tell x (.start k) false
      else m.mapWorld fun w ↦ w.modifyStart k fun t ↦ { t with listeners := t.listeners ++ [x] }

def listen (m : Machine) (s : Source) (x : Waiter) : Machine := (m.note (.listened x s)).enlist s x

def fire (m : Machine) (k : Key) : Machine :=
  match m.world.starts.get? k with
  | none => m
  | some s =>
    let name := m.world.collectorName s.collector
    if s.fired then m.raise (.ranTwice name)
    else
      let m := m.mapWorld fun w ↦ w.modifyStart k fun t ↦ { t with fired := true, listeners := [] }
      (m.log (.run k name s.listeners.length)).push (.deliver (.start k) false s.listeners)

def wire (m : Machine) (x : Waiter) (s : Source) : Machine :=
  (m.mapWorld fun w ↦ w.drawEdge s x).note (.wired x s)

def wireAll (m : Machine) (x : Waiter) (ss : List Source) : Machine :=
  ss.foldl (fun m s ↦ m.wire x s) m

def expect (m : Machine) (x : Waiter) : Machine :=
  match m.world.barriers.get? x with
  | none => m
  | some b =>
    match b.expect? with
    | none => m.raise (.lateDependency (m.world.label x))
    | some b => m.mapWorld fun w ↦ w.setBarrier x b

def depend (m : Machine) (x : Waiter) (s : Source) : Machine :=
  match m.world.barriers.get? x with
  | none => m
  | some b =>
    match b.expect? with
    | none => m.raise (.lateDependency (m.world.label x))
    | some b => ((m.mapWorld fun w ↦ w.setBarrier x b).wire x s).listen s x

/-- Lets time pass up to a point; a timer that goes off on the way stops it. A fault that a timer sets off ends
with it. -/
def elapse (m : Machine) (stop : Nat) (runtime : Runtime) : Machine :=
  match runtime.next? m.clock stop m.timers with
  | none => { m with clock := max m.clock stop }
  | some (t, i) =>
    let m := { m with clock := max m.clock i, timers := m.timers.filter fun u ↦ u.node ≠ t.node }
    let m := (m.push (.elapse stop runtime)).push .contain
    (m.log (.deadlineElapsed t.node t.after)).complete t.node (.error (.elapsed t.after))

end ActivityGraph.Machine
