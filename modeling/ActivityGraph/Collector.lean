import ActivityGraph.Activity
import ActivityGraph.Diagram
import ActivityGraph.Table

namespace ActivityGraph

inductive AccessError where
  | undeclared (activity collector : String)
  | outOfView (activity collector : String)
deriving DecidableEq, Repr

def AccessError.message : AccessError → String
  | .undeclared a c => "Activity '" ++ a ++ "' is not declared in collector '" ++ c ++ "'"
  | .outOfView a c =>
    "Activity '" ++ a ++ "' is outside of this accessor's view of collector '" ++ c ++ "'"

structure Collector where
  name : String
  context : Payload
  slots : Table Activity (Option Outcome)
  diagram : Diagram

namespace Collector

def create (name : String) (context : Payload) (declared : List Activity) : Collector :=
  ⟨name, context, .ofKeys declared none, {}⟩

def declared (c : Collector) : List Activity := c.slots.keys

def declares (c : Collector) (a : Activity) : Bool := c.slots.contains a

def written (c : Collector) : Nat := c.slots.values.countP Option.isSome

def undeclared (c : Collector) (a : Activity) : AccessError := .undeclared a.name c.name

def slot? (c : Collector) (a : Activity) : Option Outcome := (c.slots.get? a).join

def insert (c : Collector) (a : Activity) (r : Outcome) : Except AccessError Collector :=
  if c.declares a then .ok { c with slots := c.slots.modify a fun _ ↦ some r }
  else .error (c.undeclared a)

/-- A slot that was never written yields a pending record. -/
def extract (c : Collector) (a : Activity) : Except AccessError Outcome :=
  if c.declares a then .ok ((c.slot? a).getD {}) else .error (c.undeclared a)

def describe (c : Collector) : String :=
  Text.fields "Collector" [("name", Text.quoted c.name),
    ("declared", toString c.declared.length), ("written", toString c.written)]

end Collector

structure View where
  collector : Key
  activities : List Activity
deriving DecidableEq, Repr

namespace View

def contains (v : View) (a : Activity) : Bool := v.activities.contains a

def within (k : Key) (c : Collector) (as : List Activity) : Except AccessError View :=
  match as.find? fun a ↦ !c.declares a with
  | some a => .error (c.undeclared a)
  | none => .ok ⟨k, as⟩

def narrow (v : View) (c : Collector) (as : List Activity) : Except AccessError View :=
  match as.find? fun a ↦ !v.contains a with
  | some a => .error (.outOfView a.name c.name)
  | none => .ok ⟨v.collector, as⟩

def read? (v : View) (c : Collector) (a : Activity) : Option Outcome :=
  if v.contains a then c.slot? a else none

def get (v : View) (c : Collector) (a : Activity) : Outcome := (v.read? c a).getD {}

def set (v : View) (c : Collector) (a : Activity) (r : Outcome) : Except AccessError Collector :=
  if v.contains a then c.insert a r else .error (.outOfView a.name c.name)

def names (v : View) : List String :=
  (v.activities.eraseDups.map Activity.name).mergeSort fun x y ↦ decide (x ≤ y)

def describe (v : View) (c : Collector) : String :=
  Text.fields "Accessor" [("collector", Text.quoted c.name),
    ("view", Text.bracketed (v.names.map Text.quoted))]

end View

end ActivityGraph
