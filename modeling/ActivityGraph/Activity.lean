import ActivityGraph.Name
import ActivityGraph.Payload
import ActivityGraph.Record

namespace ActivityGraph

/-- A kind of work, told apart from all others by its full name. -/
structure Activity where
  name : String
  success : Kind
  failure : Kind
deriving DecidableEq, Repr

abbrev Outcome := Record Payload Payload

namespace Activity

def label (a : Activity) : String := Name.short a.name

def noSuccess (a : Activity) : Payload := Payload.default a.success

def noFailure (a : Activity) : Payload := Payload.default a.failure

def result (a : Activity) (ending : Ending) (v : Json) : Except Payload Payload :=
  match ending with
  | .success => .ok (Payload.read a.success v)
  | .failure => .error (Payload.read a.failure v)

def resolution (a : Activity) (r : Outcome) : Resolution Payload Payload :=
  r.resolution a.noSuccess a.noFailure

end Activity

def Outcome.text (r : Outcome) : String := r.describe Payload.describe Payload.describe

def Outcome.untouched (r : Outcome) : Bool := r = {}

def Outcome.labeled (r : Outcome) : String := "Labeled(" ++ r.text ++ ")"

end ActivityGraph
