import ActivityGraph.Activity

namespace ActivityGraph

/-- The answer of a predicate, which is user code and may break down. -/
inductive Verdict where
  | holds (b : Bool)
  | broken (text : String)
deriving DecidableEq, Repr

abbrev Predicate := Payload → Verdict

inductive Question where
  | cancelIf
  | ifErrored
  | ifFailed
  | abortErrored
  | abortFailed
deriving DecidableEq, Repr

def Question.name : Question → String
  | .cancelIf => "cancel_if"
  | .ifErrored => "if_errored"
  | .ifFailed => "if_failed"
  | .abortErrored => "abort_errored"
  | .abortFailed => "abort_failed"

structure Judge where
  question : Question
  test : Predicate

structure Asked where
  question : Question
  value : Payload
  verdict : Verdict
deriving DecidableEq, Repr

def Judge.ask (j : Judge) (v : Payload) : Asked := ⟨j.question, v, j.test v⟩

/-- How a node that is final leaves the nodes behind it. -/
inductive Signal where
  | done
  | cancel
deriving DecidableEq, Repr

structure Policy where
  required : Bool := true
  cancelIf : Option Judge := none
  ifErrored : Option Judge := none
  ifFailed : Option Judge := none

/-- The record of a completion as far as it got, the predicates that were called on the way, and
the signal, or the text with which a predicate broke down. -/
structure Ruling where
  record : Outcome
  asked : List Asked
  signal : Except String Signal

namespace Policy

def consult (judge : Option Judge) (absent : Bool) (v : Payload) : List Asked × Verdict :=
  match judge with
  | none => ([], .holds absent)
  | some j => ([j.ask v], j.test v)

def rejects (p : Policy) : State Payload Payload → List Asked × Verdict
  | .success s => consult p.cancelIf false s
  | .failure _ => ([], .holds p.required)
  | .pending => ([], .holds false)

def cascades (p : Policy) : State Payload Payload → List Asked × Verdict
  | .success s => consult p.ifErrored true s
  | .failure f => consult p.ifFailed true f
  | .pending => ([], .holds true)

def rule (p : Policy) (r : Outcome) : Ruling :=
  match p.rejects r.state with
  | (asked, .broken text) => ⟨r, asked, .error text⟩
  | (asked, .holds false) => ⟨r, asked, .ok .done⟩
  | (asked, .holds true) =>
    match p.cascades r.state with
    | (more, .broken text) => ⟨r.cancel, asked ++ more, .error text⟩
    | (more, .holds b) => ⟨r.cancel, asked ++ more, .ok (if b then .cancel else .done)⟩

end Policy

end ActivityGraph
