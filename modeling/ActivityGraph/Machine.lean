import ActivityGraph.Journal

namespace ActivityGraph

/-- A script runs in a frame: the handle of its owner, and a register. What runs at the outermost
level has no owner. -/
structure Frame where
  owner : Option String := none
  register : Json := .null

namespace Frame

def home (f : Frame) : String := f.owner.getD ""

end Frame

structure Caller where
  owner : Option String
  verb : String
deriving DecidableEq

inductive Handle where
  | node (k : Key)
  | start (k : Key)
  | collector (k : Key)
  | view (v : View)
  | terminal (k : Key)
  | probe (k : Key)

/-- The handles by which scripts reach things, and what each stands for. -/
structure Desk where
  nodes : Table String Key := {}
  starts : Table String Key := {}
  collectors : Table String Key := {}
  views : Table String View := {}
  terminals : Table String Key := {}
  probes : Table String Key := {}
  completions : Table String Key := {}

/-- An answer, or what to look at once the call is over: the very thing that the call was made on,
whatever its handle stands for by then. -/
inductive Reply where
  | now (a : Answer)
  | fired (terminal : Key)
  | barrier (probe : Key)

/-- Where the register of a script goes when the script is over. -/
inductive Exit where
  | nowhere
  | job (n : Key) (j : Job)

inductive Task where
  | script (frame : Frame) (rest : Script) (exit : Exit)
  | answer (caller : Caller) (reply : Reply)
  | guard (caller : Caller)
  | contain
  | keep (id : String) (handle : Handle)
  /-- Drops the completion of a node if it is still within reach. -/
  | relinquish (id : String)
  | fire (t : Key)
  | deliver (source : Source) (canceled : Bool) (rest : List Waiter)
  | attach (x : Waiter) (rest : List Source)
  | elapse (stop : Nat) (runtime : Runtime)

def Task.scope? : Task → Option Scope
  | .script _ _ (.job n _) => some (.preparation n)
  | .script f _ .nowhere => some (.script f.owner)
  | .keep id _ => some (.naming id)
  | .fire t => some (.callback t)
  | .deliver s _ _ => some (.delivery s)
  | .attach x _ => some (.wiring x)
  | .elapse .. => some .time
  | .answer _ _ | .guard _ | .contain | .relinquish _ => none

/-- What runs graphs. Calls that nest are tasks on the stack, so a fault that leaves a call is a stack
that loses tasks. -/
structure Machine where
  catalogue : List (String × Activity) := []
  world : World := {}
  desk : Desk := {}
  clock : Nat := 0
  timers : List Timer := []
  stack : List Task := []
  answer : Answer := .nothing
  /-- Latest event first. -/
  journal : List Event := []

namespace Desk

def keep (d : Desk) (id : String) : Handle → Desk
  | .node k => { d with nodes := d.nodes.put id k }
  | .start k => { d with starts := d.starts.put id k }
  | .collector k => { d with collectors := d.collectors.put id k }
  | .view v => { d with views := d.views.put id v }
  | .terminal k => { d with terminals := d.terminals.put id k }
  | .probe k => { d with probes := d.probes.put id k }

end Desk

namespace Machine

def push (m : Machine) (t : Task) : Machine := { m with stack := t :: m.stack }

def note (m : Machine) (e : Event) : Machine := { m with journal := e :: m.journal }

def log (m : Machine) (e : Entry) : Machine := m.note (.logged e)

def noteAll (m : Machine) (es : List Event) : Machine := es.foldl note m

def mapWorld (m : Machine) (f : World → World) : Machine := { m with world := f m.world }

def modifyNode (m : Machine) (k : Key) (f : Node → Node) : Machine :=
  m.mapWorld fun w ↦ w.modifyNode k f

def keep (m : Machine) (id : String) (h : Handle) : Machine := { m with desk := m.desk.keep id h }

/-- Gives an answer to a caller. Inside scripts, answers are noted unless they say nothing. -/
def conclude (m : Machine) (c : Caller) (a : Answer) : Machine :=
  let m := { m with answer := a }
  if c.owner.isSome ∧ a ≠ .nothing then m.note (.replied c.verb a) else m

def takeCompletion (m : Machine) (id : String) : Machine :=
  { m with desk := { m.desk with completions := m.desk.completions.erase id } }

def dropCompletion (m : Machine) (id : String) : Machine :=
  match m.desk.completions.get? id with
  | none => m
  | some k =>
    (m.takeCompletion id).log (.dropped k (m.world.label (.node k)))

/-- Puts a completion within reach of scripts, in place of one that is there already. -/
def holdCompletion (m : Machine) (id : String) (k : Key) : Machine :=
  let m := m.dropCompletion id
  { m with desk := { m.desk with completions := m.desk.completions.put id k } }

/-- A fault takes tasks off the stack until one of them stops it. -/
def unwind (f : Fault) : List Task → Machine → Machine
  | [], m => { m with stack := [], answer := .fault f }
  | .guard c :: rest, m => conclude { m with stack := rest } c (.fault f)
  | .contain :: rest, m => { m with stack := rest }
  | .relinquish id :: rest, m => unwind f rest (m.dropCompletion id)
  | t :: rest, m => unwind f rest (m.noteAll (t.scope?.toList.map (.unwound f)))

def raise (m : Machine) (f : Fault) : Machine := unwind f m.stack m

def store (m : Machine) (writer : Option Key) (k : Key) (a : Activity) (r : Outcome) :
    Except AccessError Machine :=
  match m.world.store k a r with
  | .error e => .error e
  | .ok w => .ok ((m.mapWorld fun _ ↦ w).note (.wrote writer k a r))

end Machine

end ActivityGraph
