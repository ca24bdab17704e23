namespace ActivityGraph

structure Barrier where
  remaining : Nat
  canceled : Bool := false
  closed : Bool := false
deriving DecidableEq, Repr

namespace Barrier

inductive Refusal where
  | closed
  | unresolved (remaining : Nat)
deriving DecidableEq, Repr

def expect? (b : Barrier) : Option Barrier :=
  if b.closed then none else some { b with remaining := b.remaining + 1 }

/-- One dependency has arrived, perhaps canceled; the last one closes the barrier. -/
def arrive? (b : Barrier) (canceled : Bool) : Option Barrier :=
  if b.closed ∨ b.remaining = 0 then none
  else some ⟨b.remaining - 1, b.canceled || canceled, b.remaining = 1⟩

def release (b : Barrier) : Except Refusal Barrier :=
  if b.closed then .error .closed
  else if b.remaining = 0 then .ok { b with closed := true }
  else .error (.unresolved b.remaining)

end Barrier

end ActivityGraph
