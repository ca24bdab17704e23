import ActivityGraph.Proofs.Run

namespace ActivityGraph

/-- What the machine is in the middle of. -/
inductive Call where
  | enlist (s : Source) (x : Waiter)
  | arrive (x : Waiter) (source : Option Source) (canceled : Bool)
  | release (x : Waiter)
  | enter (x : Waiter) (canceled : Bool)
  | launch (k : Key) (j : Job)
  /-- Hands the completion of a node to its script. -/
  | entrust (k : Key) (body : Script) (hold : Bool) (register : Json)
  | complete (k : Key) (result : Except Payload Payload)
  | resolve (k : Key) (s : Signal)
  | announce (k : Key) (s : Signal)
  | fire (k : Key)
  | raise (f : Fault)

structure Stage where
  call : Option Call
  machine : Machine

/-- Tasks that are neither work on a node or a terminal nor hold a waiter. -/
def Task.idle : Task → Bool
  | .script _ _ .nowhere | .answer .. | .guard _ | .contain | .relinquish _ | .elapse .. => true
  | .deliver _ _ [] | .attach _ [] => true
  | _ => false

def Task.catches : Task → Bool
  | .guard _ | .contain => true
  | _ => false

def Event.mute : Event → Bool
  | .described _ | .replied .. => true
  | _ => false

def Fault.plain : Fault → Bool
  | .lateSignal _ => false
  | _ => true

namespace Machine

/-- No waiter is being registered by the task on top of the stack. -/
def Free (m : Machine) : Prop := ∀ x ss ts, m.stack ≠ .attach x ss :: ts

def Names (m : Machine) : Source → Prop
  | .node k => ∃ id, m.desk.nodes.get? id = some k
  | .start k => ∃ id, m.desk.starts.get? id = some k

def Vouches (m : Machine) : Handle → Prop
  | .node k => ∃ id, m.desk.nodes.get? id = some k
  | .start k => (m.world.starts.get? k).isSome
  | _ => True

def tellings (x : Waiter) (source : Option Source) (canceled : Bool) : List Event :=
  source.toList.map fun s ↦ .told x s canceled

def placeTerminal (m : Machine) (id : String) (c : Key) (deps : List Source) (body : Script) :
    Machine :=
  let k := m.world.terminals.fresh id
  let t : Terminal := { collector := c, vertex := m.world.nextVertex c, callback := some body }
  let m := m.mapWorld fun w ↦ (w.addVertex c ⟨"joined", .joined⟩).addTerminal k t deps.length
  let m := m.note (.placed (.terminal k))
  (m.wireAll (.terminal k) deps).push (.keep id (.terminal k))

end Machine

/-- A call that finds nothing to work on. -/
def Call.Lost (m : Machine) : Call → Prop
  | .enlist (.node k) _ => m.world.nodes.get? k = none
  | .enlist (.start k) _ => m.world.starts.get? k = none
  | .release x => m.world.barriers.get? x = none
  | .enter (.node k) _ => m.world.nodes.get? k = none
  | .enter (.terminal k) _ => ∀ t, m.world.terminals.get? k = some t →
      t.callback = none ∨ m.world.collectors.get? t.collector = none
  | .enter (.probe k) _ => ∀ p, m.world.probes.get? k = some p → p.scripts = none
  | .complete k _ | .resolve k _ | .announce k _ => m.world.nodes.get? k = none
  | .fire k => m.world.starts.get? k = none
  | _ => False

open Machine

/-- A step of the machine taken apart. Between two strides the machine may be in the middle of a call,
which says what is left of the step. Each stride changes one or two things only, so an invariant is
proved stride by stride. -/
inductive Stride : Stage → Stage → Prop
  -- in no call, and in none after
  | push {m t} (ht : t.idle) (hm : m.Free) : Stride ⟨none, m⟩ ⟨none, { m with stack := t :: m.stack }⟩
  | pop {m t ts} (hs : m.stack = t :: ts) (ht : t.idle) : Stride ⟨none, m⟩ ⟨none, { m with stack := ts }⟩
  | line {m f l ls e ts} (hs : m.stack = .script f (l :: ls) e :: ts) (g : Frame) :
      Stride ⟨none, m⟩ ⟨none, { m with stack := .script g ls e :: ts }⟩
  | note {m e} (he : e.mute) : Stride ⟨none, m⟩ ⟨none, { m with journal := e :: m.journal }⟩
  | settle {m} (a : Answer) : Stride ⟨none, m⟩ ⟨none, { m with answer := a }⟩
  | keep {m h} (id : String) (hh : m.Vouches h) :
      Stride ⟨none, m⟩ ⟨none, { m with desk := m.desk.keep id h }⟩
  | kept {m id h ts} (hs : m.stack = .keep id h :: ts) :
      Stride ⟨none, m⟩ ⟨none, { m with stack := ts, desk := m.desk.keep id h }⟩
  | tick {m t} (ht : m.clock ≤ t) : Stride ⟨none, m⟩ ⟨none, { m with clock := t }⟩
  | insert {m k a r w} (hw : m.world.store k a r = .ok w) :
      Stride ⟨none, m⟩ ⟨none, { m with world := w, journal := .wrote none k a r :: m.journal }⟩
  | addCollector {m} (id name : String) (as : List Activity) (context : Json) :
      Stride ⟨none, m⟩ ⟨none, m.addCollector (m.world.collectors.fresh id) name as context⟩
  | addStart {m c} (id : String) (hc : (m.world.collectors.get? c).isSome) :
      Stride ⟨none, m⟩ ⟨none, m.addStart (m.world.starts.fresh id) c⟩
  | addNode {m col a c} {deps : List Source} (id : String) (s : Setup Script) (work : Work Script)
      (hc : m.world.collectors.get? c = some col) (ha : col.declares a)
      (hd : ∀ s ∈ deps, m.Names s) (hm : m.Free) :
      Stride ⟨none, m⟩ ⟨none, m.addNode id a c deps s work⟩
  | addTerminal {m c} {deps : List Source} (id : String) (body : Script) (hc : (m.world.collectors.get? c).isSome)
      (hd : ∀ s ∈ deps, m.Names s) (hne : deps ≠ []) (hm : m.Free) :
      Stride ⟨none, m⟩ ⟨none, (m.placeTerminal id c deps body).push
        (.attach (.terminal (m.world.terminals.fresh id)) deps)⟩
  | addProbe {m} (id name : String) (count : Nat) (invoke cancel : Script) :
      Stride ⟨none, m⟩ ⟨none, m.addProbe id name count invoke cancel⟩
  | expect {m k b c} (hb : m.world.barriers.get? (.probe k) = some b) (hc : b.expect? = some c) :
      Stride ⟨none, m⟩ ⟨none, { m with world := m.world.setBarrier (.probe k) c }⟩
  | fired {m k ts} (hs : m.stack = .fire k :: ts) :
      Stride ⟨none, m⟩ ⟨none, { m with
        stack := ts, world := m.world.modifyTerminal k fun t ↦ { t with fired := true } }⟩
  | relinquish {m c id k} (hc : ∀ d ∈ c, (∃ f, d = .raise f) ∨ ∃ k body hold r, d = .entrust k body hold r)
      (hk : m.desk.completions.get? id = some k) :
      Stride ⟨c, m⟩ ⟨c, { m with
        desk := { m.desk with completions := m.desk.completions.erase id },
        journal := .logged (.dropped k (m.world.label (.node k))) :: m.journal }⟩
  -- in no call, and in one after
  | addRoot {m c} (id : String) (body : Script) (hc : (m.world.collectors.get? c).isSome) (hm : m.Free) :
      Stride ⟨none, m⟩ ⟨some (.release (.terminal (m.world.terminals.fresh id))),
        m.placeTerminal id c [] body⟩
  | deliver {m s c x xs ts} (hs : m.stack = .deliver s c (x :: xs) :: ts) :
      Stride ⟨none, m⟩ ⟨some (.arrive x (some s) c), { m with stack := .deliver s c xs :: ts }⟩
  | attach {m x s ss ts} (hs : m.stack = .attach x (s :: ss) :: ts) :
      Stride ⟨none, m⟩ ⟨some (.enlist s x), { m with
        stack := .attach x ss :: ts, journal := .listened x s :: m.journal }⟩
  | resume {m f k j ts} (hs : m.stack = .script f [] (.job k j) :: ts) :
      Stride ⟨none, m⟩ ⟨some (.launch k { j with work := j.work.withRegister f.register }),
        { m with stack := ts }⟩
  | timer {m t i} (ht : t ∈ m.timers) (hi : t.due ≤ i) (hm : m.Free) :
      Stride ⟨none, m⟩ ⟨some (.complete t.node (.error (.elapsed t.after))), { m with
        stack := .contain :: m.stack, clock := max m.clock i,
        timers := m.timers.filter fun u ↦ u.node ≠ t.node,
        journal := .logged (.deadlineElapsed t.node t.after) :: m.journal }⟩
  | release {m} (x : Waiter) (hx : ∀ k, x ≠ .terminal k) (hm : m.Free) :
      Stride ⟨none, m⟩ ⟨some (.release x), m⟩
  | arrive {m} (k : Key) (canceled : Bool) (hm : m.Free) :
      Stride ⟨none, m⟩ ⟨some (.arrive (.probe k) none canceled), m⟩
  | depend {m k s b c} (hb : m.world.barriers.get? (.node k) = some b) (hc : b.expect? = some c)
      (hs : m.Names s) (hm : m.Free) :
      Stride ⟨none, m⟩ ⟨some (.enlist s (.node k)), { m with
        world := (m.world.setBarrier (.node k) c).drawEdge s (.node k),
        journal := .listened (.node k) s :: .wired (.node k) s :: m.journal }⟩
  | listen {m k s} (hs : m.Names s) (hm : m.Free) :
      Stride ⟨none, m⟩ ⟨some (.enlist s (.probe k)), { m with
        journal := .listened (.probe k) s :: m.journal }⟩
  | report {m id k} (r : Except Payload Payload) (hk : m.desk.completions.get? id = some k)
      (hm : m.Free) :
      Stride ⟨none, m⟩ ⟨some (.complete k r), { m with
        desk := { m.desk with completions := m.desk.completions.erase id } }⟩
  | fire {m} (k : Key) (hm : m.Free) : Stride ⟨none, m⟩ ⟨some (.fire k), m⟩
  | raise {m f} (hf : f.plain) (hm : m.Free) : Stride ⟨none, m⟩ ⟨some (.raise f), m⟩
  -- in a call
  | lost {m c} (hc : c.Lost m) : Stride ⟨some c, m⟩ ⟨none, m⟩
  | listed {m k n x} (hk : m.world.nodes.get? k = some n) (hn : n.signal = none) :
      Stride ⟨some (.enlist (.node k) x), m⟩ ⟨none, { m with
        world := m.world.modifyNode k fun n ↦ { n with listeners := n.listeners ++ [x] } }⟩
  | replayed {m k n x g} (hk : m.world.nodes.get? k = some n) (hn : n.signal = some g) :
      Stride ⟨some (.enlist (.node k) x), m⟩ ⟨some (.arrive x (some (.node k)) (g = .cancel)), { m with
        journal := .logged (.replaying k n.activity.label) :: m.journal }⟩
  | waiting {m k t x} (hk : m.world.starts.get? k = some t) (ht : t.fired = false) :
      Stride ⟨some (.enlist (.start k) x), m⟩ ⟨none, { m with
        world := m.world.modifyStart k fun t ↦ { t with listeners := t.listeners ++ [x] } }⟩
  | passed {m k t x} (hk : m.world.starts.get? k = some t) (ht : t.fired = true) :
      Stride ⟨some (.enlist (.start k) x), m⟩ ⟨some (.arrive x (some (.start k)) false), m⟩
  | astray {m x s c} (hb : m.world.barriers.get? x = none) :
      Stride ⟨some (.arrive x s c), m⟩ ⟨none, { m with journal := tellings x s c ++ m.journal }⟩
  | refused {m x s c b} (hb : m.world.barriers.get? x = some b) (hc : b.arrive? c = none) :
      Stride ⟨some (.arrive x s c), m⟩ ⟨some (.raise (.lateSignal (m.world.label x))),
        { m with journal := tellings x s c ++ m.journal }⟩
  | arrived {m x s c b d} (hb : m.world.barriers.get? x = some b) (hc : b.arrive? c = some d)
      (hd : d.closed = false) :
      Stride ⟨some (.arrive x s c), m⟩ ⟨none, { m with
        world := m.world.setBarrier x d, journal := tellings x s c ++ m.journal }⟩
  | closed {m x s c b d} (hb : m.world.barriers.get? x = some b) (hc : b.arrive? c = some d)
      (hd : d.closed = true) :
      Stride ⟨some (.arrive x s c), m⟩ ⟨some (.enter x d.canceled), { m with
        world := m.world.setBarrier x d,
        journal := .logged (.closed x (m.world.label x) d.canceled) ::
          (tellings x s c ++ m.journal) }⟩
  | unready {m x b e f} (hb : m.world.barriers.get? x = some b) (hc : b.release = .error e) (hf : f.plain) :
      Stride ⟨some (.release x), m⟩ ⟨some (.raise f), m⟩
  | opened {m x b d} (hb : m.world.barriers.get? x = some b) (hc : b.release = .ok d) :
      Stride ⟨some (.release x), m⟩ ⟨some (.enter x false), { m with
        world := m.world.setBarrier x d,
        journal := .logged (.opened x (m.world.label x)) :: m.journal }⟩
  | abandon {m k n} (hk : m.world.nodes.get? k = some n) :
      Stride ⟨some (.enter (.node k) true), m⟩ ⟨some (.resolve k .cancel), { m with
        world := m.world.modifyNode k fun n ↦ { n with job := none, record := n.record.cancel },
        journal :=
          .logged (.abandoned k (m.world.collectorName n.collector) n.activity.label) :: m.journal }⟩
  | begun {m k n f} (hk : m.world.nodes.get? k = some n) (hj : n.job = none) (hf : f.plain) :
      Stride ⟨some (.enter (.node k) false), m⟩ ⟨some (.raise f), m⟩
  | begin {m k n j} (hk : m.world.nodes.get? k = some n) (hj : n.job = some j) :
      Stride ⟨some (.enter (.node k) false), m⟩ ⟨some (.launch k j), { m with
        world := m.world.modifyNode k fun n ↦ { n with job := none } }⟩
  | join {m k t body c canceled} (hk : m.world.terminals.get? k = some t) (ht : t.callback = some body)
      (hc : m.world.collectors.get? t.collector = some c) :
      Stride ⟨some (.enter (.terminal k) canceled), m⟩ ⟨none, { m with
        world := m.world.modifyTerminal k fun t ↦ { t with callback := none },
        journal := .finished k (View.describe ⟨t.collector, c.declared⟩ c) ::
          .logged (.joined k c.name) :: m.journal,
        desk := m.desk.keep ("@" ++ k.handle) (.view ⟨t.collector, c.declared⟩),
        stack := .script ⟨some k.handle, .null⟩ body .nowhere :: .fire k :: m.stack }⟩
  | call {m k p i a canceled} (hk : m.world.probes.get? k = some p) (hp : p.scripts = some (i, a)) :
      Stride ⟨some (.enter (.probe k) canceled), m⟩ ⟨none, { m with
        world := m.world.modifyProbe k fun p ↦ { p with scripts := none },
        journal := .called k canceled :: m.journal,
        stack := .script ⟨some k.handle, .null⟩ (if canceled then a else i) .nowhere :: m.stack }⟩
  | prepare {m k place code rest work} :
      Stride ⟨some (.launch k ⟨(place, code) :: rest, work⟩), m⟩ ⟨none, { m with
        journal := .prepared k place work.register :: m.journal,
        stack := .script ⟨some k.handle, work.register⟩ code (.job k ⟨rest, work⟩) :: m.stack }⟩
  | start {m k body hold r} :
      Stride ⟨some (.launch k ⟨[], .script body hold r⟩), m⟩ ⟨some (.entrust k body hold r), { m with
        journal := .ran k r :: .logged (.started k (m.world.label (.node k))) :: m.journal }⟩
  | entrust {m k body hold r} (hk : m.desk.completions.get? k.handle = none) :
      Stride ⟨some (.entrust k body hold r), m⟩ ⟨none, { m with
        desk := { m.desk with completions := m.desk.completions.put k.handle k },
        stack := .script ⟨some k.handle, r⟩ body .nowhere ::
          ((if hold then [] else [.relinquish k.handle]) ++ m.stack) }⟩
  | timed {m k after} :
      Stride ⟨some (.launch k ⟨[], .timer after⟩), m⟩ ⟨none, { m with
        journal := .timed k after :: .logged (.started k (m.world.label (.node k))) :: m.journal,
        timers := m.timers ++ [⟨m.clock + after.nanos, k, after⟩] }⟩
  | repeated {m k n r e} (hk : m.world.nodes.get? k = some n) (hr : n.record.report r = .error e) :
      Stride ⟨some (.complete k r), m⟩ ⟨some (.raise (.repeated e)), m⟩
  | broken {m k n r o text} (hk : m.world.nodes.get? k = some n) (hr : n.record.report r = .ok o)
      (hg : (n.policy.rule o).signal = .error text) :
      Stride ⟨some (.complete k r), m⟩ ⟨some (.raise (.broken text)), { m with
        world := m.world.modifyNode k fun n' ↦ { n' with record := (n.policy.rule o).record },
        journal := .unwound (.broken text) (.ruling k) ::
          (((n.policy.rule o).asked.map (.asked k)).reverse ++ .reported k r :: m.journal) }⟩
  | completed {m k n r o g} (hk : m.world.nodes.get? k = some n) (hr : n.record.report r = .ok o)
      (hg : (n.policy.rule o).signal = .ok g) (ending : Ending) :
      Stride ⟨some (.complete k r), m⟩ ⟨some (.resolve k g), { m with
        world := m.world.modifyNode k fun n' ↦ { n' with record := (n.policy.rule o).record },
        journal := .logged (.completed k (m.world.collectorName n.collector) n.activity.label ending
            (n.policy.rule o).record.canceled) ::
          (((n.policy.rule o).asked.map (.asked k)).reverse ++ .reported k r :: m.journal) }⟩
  | stored {m k n g w} (hk : m.world.nodes.get? k = some n)
      (hw : m.world.store n.collector n.activity n.record = .ok w) :
      Stride ⟨some (.resolve k g), m⟩ ⟨some (.announce k g), { m with
        world := w, journal := .wrote (some k) n.collector n.activity n.record :: m.journal }⟩
  | unstored {m k n g e} (hk : m.world.nodes.get? k = some n)
      (hw : m.world.store n.collector n.activity n.record = .error e) :
      Stride ⟨some (.resolve k g), m⟩ ⟨some (.announce k g), { m with
        journal := .logged (.notStored k e) :: m.journal }⟩
  | announce {m k n g} (hk : m.world.nodes.get? k = some n) :
      Stride ⟨some (.announce k g), m⟩ ⟨none, { m with
        world := m.world.modifyNode k fun n ↦ { n with signal := some g, listeners := [] },
        journal := (if g = .cancel then
            [.logged (.propagating k n.activity.label n.listeners.length)] else []) ++ m.journal,
        stack := .deliver (.node k) (g = .cancel) n.listeners :: m.stack }⟩
  | spent {m k s f} (hk : m.world.starts.get? k = some s) (hs : s.fired = true) (hf : f.plain) :
      Stride ⟨some (.fire k), m⟩ ⟨some (.raise f), m⟩
  | ran {m k s} (hk : m.world.starts.get? k = some s) (hs : s.fired = false) :
      Stride ⟨some (.fire k), m⟩ ⟨none, { m with
        world := m.world.modifyStart k fun t ↦ { t with fired := true, listeners := [] },
        journal :=
          .logged (.run k (m.world.collectorName s.collector) s.listeners.length) :: m.journal,
        stack := .deliver (.start k) false s.listeners :: m.stack }⟩
  | uncaught {m f} (hs : m.stack = []) : Stride ⟨some (.raise f), m⟩ ⟨none, m⟩
  | caught {m f t ts} (hs : m.stack = t :: ts) (ht : t.catches) :
      Stride ⟨some (.raise f), m⟩ ⟨none, { m with stack := ts }⟩
  | unwound {m f t ts} (hs : m.stack = t :: ts) (ht : t.catches = false) :
      Stride ⟨some (.raise f), m⟩ ⟨some (.raise f), { m with
        stack := ts, journal := (t.scope?.toList.map (.unwound f)) ++ m.journal }⟩

end ActivityGraph
