import ActivityGraph.World

namespace ActivityGraph

inductive Fault where
  | scripted (message : String)
  | broken (message : String)
  | undeclared (e : AccessError)
  | repeated (r : Repeated)
  | startedTwice (name : String)
  | startedEarly (name : String) (remaining : Nat)
  | lateDependency (name : String)
  | lateSignal (name : String)
  | ranTwice (collector : String)
deriving DecidableEq, Repr

def Fault.message : Fault → String
  | .scripted m => m
  | .broken m => m
  | .undeclared e => e.message
  | .repeated r => r.message
  | .startedTwice n => "'" ++ n ++ "' started more than once"
  | .startedEarly n k => "'" ++ n ++ "' started with " ++ toString k ++ " unresolved dependencies"
  | .lateDependency n => "dependency registered on the closed combinator of '" ++ n ++ "'"
  | .lateSignal n => "signal delivered to the closed combinator of '" ++ n ++ "'"
  | .ranTwice c => "start of '" ++ c ++ "' ran more than once"

structure Reading where
  collector : String
  activity : Activity
  contained : Bool
  record : Option Outcome
deriving DecidableEq

namespace Reading

def written (r : Reading) : Bool := r.record.isSome

def get (r : Reading) : Outcome := r.record.getD {}

def completed (r : Reading) : Bool := r.get.completed

def canceled (r : Reading) : Bool := r.get.canceled

def failed (r : Reading) : Bool := r.get.failed

def okay (r : Reading) : Bool := r.get.okay

def success (r : Reading) : Payload := r.get.success?.getD r.activity.noSuccess

def failure (r : Reading) : Payload := r.get.failure?.getD r.activity.noFailure

def apply {α : Type} (r : Reading) (f : Resolution Payload Payload → α) : α := f (r.activity.resolution r.get)

end Reading

inductive Answer where
  | nothing
  | ok
  | text (s : String)
  | flag (b : Bool)
  | refused (e : AccessError)
  | fault (f : Fault)
  | missing (handle : String)
  | unsupported (verb : String)
  | record (a : Activity) (r : Outcome)
  | info (name : String) (context : Payload) (description : String)
  | extracted (a : Activity) (r : Outcome) (same : Bool)
  | diagram (name : String) (d : Diagram) (asked : List String)
  | reading (r : Reading)
  | barrier (remaining : Nat) (closed : Bool) (description : String)
  | completion (collector : String) (context : Payload) (description : String)
deriving DecidableEq

/-- The part of the log that is shown unless something else is asked for. -/
def defaultFilter : String := "musubi=info"

inductive Level where
  | trace
  | debug
  | warn
  | error
deriving DecidableEq, Repr

def Level.name : Level → String
  | .trace => "TRACE"
  | .debug => "DEBUG"
  | .warn => "WARN"
  | .error => "ERROR"

inductive Entry where
  | collectorCreated (collector : String)
  | opened (x : Waiter) (next : String)
  | closed (x : Waiter) (next : String) (canceled : Bool)
  | started (n : Key) (activity : String)
  | completed (n : Key) (collector activity : String) (ending : Ending) (canceled : Bool)
  | abandoned (n : Key) (collector activity : String)
  | notStored (n : Key) (e : AccessError)
  | propagating (n : Key) (activity : String) (listeners : Nat)
  | replaying (n : Key) (activity : String)
  | dropped (n : Key) (activity : String)
  | joined (t : Key) (collector : String)
  | run (s : Key) (collector : String) (nodes : Nat)
  | deadlineElapsed (n : Key) (after : Duration)
deriving DecidableEq

namespace Entry

def level : Entry → Level
  | .collectorCreated _ | .opened .. | .closed .. | .propagating .. | .replaying .. => .trace
  | .started .. | .completed .. | .abandoned .. | .joined .. | .run .. | .deadlineElapsed .. => .debug
  | .dropped .. => .warn
  | .notStored .. => .error

def message : Entry → String
  | .collectorCreated _ => "collector created"
  | .opened .. => "combinator opened"
  | .closed _ _ false => "combinator closed"
  | .closed _ _ true => "combinator closed canceled"
  | .started .. => "started"
  | .completed _ _ _ .success true => "succeeded, canceled by predicate"
  | .completed _ _ _ .success false => "succeeded"
  | .completed _ _ _ .failure _ => "failed"
  | .abandoned .. => "canceled"
  | .notStored _ e => e.message
  | .propagating .. => "propagating cancellation"
  | .replaying .. => "replaying outcome to late listener"
  | .dropped .. => "completion dropped without success or failure, dependents will never run"
  | .joined .. => "joined"
  | .run .. => "run"
  | .deadlineElapsed .. => "deadline elapsed"

def fields : Entry → List (String × String)
  | .collectorCreated c => [("collector", c)]
  | .opened _ next => [("next", next)]
  | .closed _ next _ => [("next", next)]
  | .started _ a => [("activity", a)]
  | .completed _ c a _ _ => [("collector", c), ("activity", a)]
  | .abandoned _ c a => [("collector", c), ("activity", a)]
  | .notStored .. => []
  | .propagating _ a n => [("activity", a), ("listeners", toString n)]
  | .replaying _ a => [("activity", a)]
  | .dropped _ a => [("activity", a)]
  | .joined _ c => [("collector", c)]
  | .run _ c n => [("collector", c), ("nodes", toString n)]
  | .deadlineElapsed _ d => [("after", d.text)]

end Entry

/-- Work that a fault can leave undone. -/
inductive Scope where
  | preparation (n : Key)
  | ruling (n : Key)
  | callback (t : Key)
  /-- A script, of whichever kind, that is not a preparator. -/
  | script (owner : Option String)
  | delivery (s : Source)
  | wiring (x : Waiter)
  | naming (handle : String)
  | time
deriving DecidableEq, Repr

inductive Event where
  | logged (e : Entry)
  /-- A setup is about to be performed. -/
  | described (text : String)
  /-- A preparator of a node starts, with the register it finds. -/
  | prepared (n : Key) (place : Nat) (register : Json)
  | ran (n : Key) (register : Json)
  /-- The activity of a node starts to wait for a span to pass. -/
  | timed (n : Key) (after : Duration)
  | asked (n : Key) (a : Asked)
  /-- The callback of a terminal starts, with the description of the view it gets. -/
  | finished (t : Key) (view : String)
  /-- The barrier of a probe closed. -/
  | called (p : Key) (canceled : Bool)
  /-- A call inside a script came to an answer. -/
  | replied (verb : String) (answer : Answer)
  | placed (x : Site)
  /-- A dependency was accepted. -/
  | wired (x : Waiter) (s : Source)
  | listened (x : Waiter) (s : Source)
  /-- A waiter is told that a source is final, or that it is canceled. -/
  | told (x : Waiter) (s : Source) (canceled : Bool)
  | reported (n : Key) (result : Except Payload Payload)
  /-- A record was written to a slot, by a node that became final or by a script. -/
  | wrote (writer : Option Key) (c : Key) (a : Activity) (r : Outcome)
  /-- A fault left work undone that the machine had begun. -/
  | unwound (f : Fault) (s : Scope)

end ActivityGraph
