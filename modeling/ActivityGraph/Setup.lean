import ActivityGraph.Policy

namespace ActivityGraph

inductive Step (κ : Type) where
  | required (b : Bool)
  | cancelIf (p : Predicate)
  | ifErrored (p : Predicate)
  | ifFailed (p : Predicate)
  | ifCanceled (errored failed : Predicate)
  /-- The place is the number that the journal knows the preparator by. -/
  | prepare (place : Nat) (code : κ)

structure Setup (κ : Type) where
  policy : Policy := {}
  preparators : List (Nat × κ) := []

namespace Setup

variable {κ : Type}

def add (s : Setup κ) : Step κ → Setup κ
  | .required b => { s with policy.required := b }
  | .cancelIf p => { s with policy.cancelIf := some ⟨.cancelIf, p⟩ }
  | .ifErrored p => { s with policy.ifErrored := some ⟨.ifErrored, p⟩ }
  | .ifFailed p => { s with policy.ifFailed := some ⟨.ifFailed, p⟩ }
  | .ifCanceled e f =>
    { s with policy.ifErrored := some ⟨.abortErrored, e⟩, policy.ifFailed := some ⟨.abortFailed, f⟩ }
  | .prepare place code => { s with preparators := s.preparators ++ [(place, code)] }

def ofSteps (steps : List (Step κ)) : Setup κ := steps.foldl add {}

def describe (s : Setup κ) (a : Activity) : String :=
  Text.fields "Setup" [("activity", Text.quoted a.label),
    ("preparators", toString s.preparators.length), ("required", toString s.policy.required)]

end Setup

inductive Test where
  | broken (text : String)
  | equal (v : Json)
  | different (v : Json)
  | above (n : Int64)
  | always (b : Bool)

namespace Test

def toPredicate : Test → Predicate
  | .broken text, _ => .broken text
  | .equal v, p => .holds (p.toJson = v)
  | .different v, p => .holds (p.toJson ≠ v)
  | .above n, p => .holds (n < Payload.integer p.toJson)
  | .always b, _ => .holds b

end Test

end ActivityGraph
