import ActivityGraph.Duration
import ActivityGraph.Json.Basic
import ActivityGraph.Text.Quoted

namespace ActivityGraph

inductive Kind where
  | int
  | text
  | unit
  | list
  | flag
  | note
  | elapsed
deriving DecidableEq, Repr

inductive Payload where
  | int (n : Int64)
  | text (s : String)
  | unit
  | list (ns : List Int64)
  | flag (b : Bool)
  | note (s : Option String)
  | elapsed (d : Duration)
deriving DecidableEq, Repr

namespace Payload

def kind : Payload → Kind
  | .int _ => .int
  | .text _ => .text
  | .unit => .unit
  | .list _ => .list
  | .flag _ => .flag
  | .note _ => .note
  | .elapsed _ => .elapsed

def integer (v : Json) : Int64 := v.int64?.getD 0

/-- Reads any document as a payload of the given kind; what does not fit becomes the default. -/
def read : Kind → Json → Payload
  | .int, v => .int (integer v)
  | .text, v => .text (v.text?.getD "")
  | .unit, _ => .unit
  | .list, v => .list ((v.items?.getD []).map integer)
  | .flag, v => .flag (v.bool?.getD false)
  | .note, v => .note v.text?
  | .elapsed, v => .elapsed ⟨v.nat?.getD 0⟩

def default (k : Kind) : Payload := read k .null

def toJson : Payload → Json
  | .int n => .int n.toInt
  | .text s => .str s
  | .unit => .str "unit"
  | .list ns => .arr (ns.map fun n ↦ .int n.toInt)
  | .flag b => .bool b
  | .note (some s) => .str s
  | .note none => .null
  | .elapsed d => .str d.elapsedText

def describe : Payload → String
  | .int n => toString n.toInt
  | .text s => Text.quoted s
  | .unit => "()"
  | .list ns => Text.bracketed (ns.map fun n ↦ toString n.toInt)
  | .flag b => toString b
  | .note (some s) => "Some(" ++ Text.quoted s ++ ")"
  | .note none => "None"
  | .elapsed d => Text.fields "Elapsed" [("after", d.text)]

end Payload

end ActivityGraph
