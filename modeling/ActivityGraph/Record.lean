namespace ActivityGraph

inductive State (σ φ : Type) where
  | pending
  | success (data : σ)
  | failure (data : φ)
deriving DecidableEq, Repr

inductive Ending where
  | success
  | failure
deriving DecidableEq, Repr

namespace Ending

def name : Ending → String
  | .success => "success"
  | .failure => "failure"

end Ending

structure Repeated where
  attempt : Ending
  found : Ending
deriving DecidableEq, Repr

def Repeated.message (r : Repeated) : String :=
  "activity completed more than once (" ++ r.attempt.name ++ " after " ++ r.found.name ++ ")"

structure Record (σ φ : Type) where
  state : State σ φ := .pending
  canceled : Bool := false
deriving DecidableEq, Repr

/-- What a record comes to: a canceled one shows both payloads. -/
inductive Resolution (σ φ : Type) where
  | pending
  | success (data : σ)
  | failure (data : φ)
  | canceled (success : σ) (failure : φ)
deriving DecidableEq, Repr

namespace State

variable {σ φ : Type}

def ending? : State σ φ → Option Ending
  | .pending => none
  | .success _ => some .success
  | .failure _ => some .failure

def ofResult : Except φ σ → State σ φ
  | .ok s => .success s
  | .error f => .failure f

def describe (success : σ → String) (failure : φ → String) : State σ φ → String
  | .pending => "Pending"
  | .success s => "Success(" ++ success s ++ ")"
  | .failure f => "Failure(" ++ failure f ++ ")"

end State

namespace Record

variable {σ φ : Type}

def succeeded (s : σ) : Record σ φ := ⟨.success s, false⟩

def failedWith (f : φ) : Record σ φ := ⟨.failure f, false⟩

def completed (r : Record σ φ) : Bool := r.state.ending?.isSome

def okay (r : Record σ φ) : Bool := r.state.ending? = some .success

def failed (r : Record σ φ) : Bool := r.state.ending? = some .failure

def errored (r : Record σ φ) : Bool := r.okay && r.canceled

def success? (r : Record σ φ) : Option σ :=
  match r.state with
  | .success s => some s
  | _ => none

def failure? (r : Record σ φ) : Option φ :=
  match r.state with
  | .failure f => some f
  | _ => none

def report (r : Record σ φ) (result : Except φ σ) : Except Repeated (Record σ φ) :=
  match r.state.ending? with
  | none => .ok { r with state := .ofResult result }
  | some found =>
    .error ⟨match result with | .ok _ => .success | .error _ => .failure, found⟩

def cancel (r : Record σ φ) : Record σ φ := { r with canceled := true }

inductive Move (σ φ : Type) where
  | report (result : Except φ σ)
  | cancel
  | replace (r : Record σ φ)

def move (r : Record σ φ) : Move σ φ → Except Repeated (Record σ φ)
  | .report result => r.report result
  | .cancel => .ok r.cancel
  | .replace new => .ok new

/-- A move that is refused leaves the record as it was. -/
def attempt (r : Record σ φ) (m : Move σ φ) : Option Repeated × Record σ φ :=
  match r.move m with
  | .ok new => (none, new)
  | .error e => (some e, r)

def attempts (r : Record σ φ) : List (Move σ φ) → List (Option Repeated × Record σ φ)
  | [] => []
  | m :: ms => r.attempt m :: attempts (r.attempt m).2 ms

/-- A payload that was not produced is filled in by its default. -/
def resolution (r : Record σ φ) (noSuccess : σ) (noFailure : φ) : Resolution σ φ :=
  match r.state, r.canceled with
  | .pending, _ => .pending
  | .success s, true => .canceled s noFailure
  | .failure f, true => .canceled noSuccess f
  | .success s, false => .success s
  | .failure f, false => .failure f

def describe (success : σ → String) (failure : φ → String) (r : Record σ φ) : String :=
  "ResultData \x7b state: " ++ r.state.describe success failure ++ ", canceled: " ++
    toString r.canceled ++ " \x7d"

end Record

end ActivityGraph
