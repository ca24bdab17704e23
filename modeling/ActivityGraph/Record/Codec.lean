import ActivityGraph.Json.Parser
import ActivityGraph.Json.Printer
import ActivityGraph.Payload
import ActivityGraph.Record

namespace ActivityGraph

structure Codec (α : Type) where
  encode : α → Json
  decode? : Json → Option α

namespace Codec

variable {σ φ : Type}

/-- A payload stands as a plain value; a unit and a missing text are null. -/
def payload (k : Kind) : Codec Payload where
  encode
    | .int n => .int n.toInt
    | .text s => .str s
    | .unit => .null
    | .list ns => .arr (ns.map fun n ↦ .int n.toInt)
    | .flag b => .bool b
    | .note (some s) => .str s
    | .note none => .null
    | .elapsed d => .int d.nanos
  decode? v :=
    match k with
    | .int => v.int64?.map .int
    | .text => v.text?.map .text
    | .unit => match v with
      | .null => some .unit
      | _ => none
    | .list => v.items?.bind fun vs ↦ (vs.mapM Json.int64?).map .list
    | .flag => v.bool?.map .flag
    | .note => match v with
      | .null => some (.note none)
      | .str s => some (.note (some s))
      | _ => none
    | .elapsed => v.nat?.map fun n ↦ .elapsed ⟨n⟩

def state (success : Codec σ) (failure : Codec φ) : Codec (State σ φ) where
  encode
    | .pending => .str "Pending"
    | .success s => .object [("Success", success.encode s)]
    | .failure f => .object [("Failure", failure.encode f)]
  decode?
    | .str "Pending" => some .pending
    | .obj [(some "Pending", .null)] => some .pending
    | .obj [(some "Success", v)] => (success.decode? v).map .success
    | .obj [(some "Failure", v)] => (failure.decode? v).map .failure
    | _ => none

/-- Members with other names are passed over, whatever they hold. -/
def record (success : Codec σ) (failure : Codec φ) : Codec (Record σ φ) where
  encode r := .object [("state", (state success failure).encode r.state), ("canceled", .bool r.canceled)]
  decode? v := do
    let (s, c) ← match v with
      | .arr [s, c] => some (s, c)
      | .obj ms =>
        match ms.all (fun m ↦ m.1.isSome), v.lookups "state", v.lookups "canceled" with
        | true, [s], [c] => some (s, c)
        | _, _, _ => none
      | _ => none
    return ⟨← (state success failure).decode? s, ← c.bool?⟩

variable {α : Type}

def write (c : Codec α) (a : α) : String := (c.encode a).render

def read? (c : Codec α) (text : String) : Option α := Json.parse? text >>= c.decode?

end Codec

end ActivityGraph
