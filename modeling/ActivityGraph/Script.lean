import ActivityGraph.Setup
import ActivityGraph.Timer

namespace ActivityGraph

structure Draft where
  ending : Option Ending := none
  value : Json := .null
  canceled : Bool := false

def Draft.record (d : Draft) (a : Activity) : Outcome :=
  { state := match d.ending with
      | none => .pending
      | some e => .ofResult (a.result e d.value),
    canceled := d.canceled }

inductive Query where
  | info (collector : String)
  | extract (collector activity : String) (draft : Draft)
  | diagram (collector : String) (names : List String)
  | read (view activity : String)
  | result (node : String)
  | fired (terminal : String)
  | peek (probe : String)
  | describe (handle : String)
  | completion (node : Option String)

inductive Grant where
  | whole (collector : String)
  | ofStart (start : String)
  | within (collector : String) (set : List String)
  | narrow (view : String) (set : List String)
  | ofCompletion (node : Option String) (set : List String)

inductive Change where
  | set
  | add
  | mul
  | join

inductive Operand where
  | value (v : Json)
  | payload (ending : Ending) (activity view : String)

/-- What a completion is told; the payload is written down or taken from the register. -/
structure Report where
  ending : Ending
  value : Option Json

inductive Work (κ : Type) where
  | script (body : κ) (hold : Bool) (register : Json)
  | timer (after : Duration)

/-- One action of a script: the name under which its answer is noted, and whether a fault in it is
caught. -/
structure Line (α : Type) where
  verb : String
  caught : Bool
  action : α
deriving Inhabited

/-- The user code of a graph as data: what an activity, a preparator, a callback or a probe does is a
list of such actions, on things that go by handles. -/
inductive Action where
  | collect (id name : String) (set : List String) (context : Json)
  | start (id name : String) (set : List String) (context : Json)
  | run (id : String)
  | ask (query : Query)
  | grant (id : String) (grant : Grant)
  | insert (collector activity : String) (draft : Draft)
  | set (view activity : String) (draft : Draft)
  | perform (id activity collector : String) (deps : List String)
      (setup : Option (List (Step (List (Line Action))))) (work : Work (List (Line Action)))
  | finish (id collector : String) (deps : List String) (body : List (Line Action))
  | begin (id : String)
  | after (id dep : String)
  | done (id next : String)
  | report (node : Option String) (report : Report)
  | drop (node : Option String)
  | change (how : Change) (operand : Operand)
  | panic (message : String)
  | probe (id : String) (count : Nat) (name : String) (invoke cancel : List (Line Action))
  | arrive (id : String) (canceled : Bool)
  | expect (id : String)
  | release (id : String)
  | listen (id dep : String)
  | clone (id copy : String)
  /-- Time goes on by a span, which may be none; meanwhile a runtime lets timers go off. -/
  | advance (span : Duration) (runtime : Runtime)
  | unsupported
deriving Inhabited

abbrev Script := List (Line Action)

namespace Change

def text (v : Json) : String := v.text?.getD ""

/-- Sums and products wrap around at 64 bits; what is no integer counts as zero, and what is no
text as the empty text. -/
def apply : Change → Json → Json → Json
  | .set, _, v => v
  | .add, r, v => .int (Payload.integer r + Payload.integer v).toInt
  | .mul, r, v => .int (Payload.integer r * Payload.integer v).toInt
  | .join, r, v => .str (text r ++ text v)

end Change

namespace Work

variable {κ : Type}

/-- The value that preparators find. That of a timer is its span in nanoseconds. -/
def register : Work κ → Json
  | .script _ _ r => r
  | .timer after => .int after.nanos

/-- A timer that is left with anything but a number of nanoseconds has no span. -/
def withRegister (r : Json) : Work κ → Work κ
  | .script body hold _ => .script body hold r
  | .timer _ => .timer ⟨r.nat?.getD 0⟩

end Work

mutual

def Script.weight : List (Line Action) → Nat
  | [] => 0
  | l :: ls => l.weight + Script.weight ls

def Line.weight : Line Action → Nat
  | ⟨_, _, a⟩ => a.weight + 3

def Action.weight : Action → Nat
  | .perform _ _ _ deps setup work => 8 + 2 * deps.length + Setup.weight setup + Work.weight work
  | .finish _ _ deps body => 8 + 2 * deps.length + Script.weight body
  | .probe _ _ _ invoke cancel => 4 + Script.weight invoke + Script.weight cancel
  | _ => 4

def Setup.weight : Option (List (Step (List (Line Action)))) → Nat
  | none => 0
  | some steps => Steps.weight steps

def Steps.weight : List (Step (List (Line Action))) → Nat
  | [] => 0
  | s :: ss => Step.weight s + Steps.weight ss

def Step.weight : Step (List (Line Action)) → Nat
  | .prepare _ code => 2 + Script.weight code
  | _ => 0

def Work.weight : Work (List (Line Action)) → Nat
  | .script body _ _ => 4 + Script.weight body
  | .timer _ => 8

end

end ActivityGraph
