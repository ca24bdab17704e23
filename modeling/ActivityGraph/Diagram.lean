namespace ActivityGraph

inductive Shape where
  | start
  | activity
  | joined
deriving DecidableEq, Repr

def Shape.name : Shape → String
  | .start => "Start"
  | .activity => "Activity"
  | .joined => "Joined"

structure Vertex where
  name : String
  shape : Shape
deriving DecidableEq, Repr

structure Diagram where
  vertices : List Vertex := []
  edges : List (Nat × Nat) := []
deriving DecidableEq, Repr

namespace Diagram

def size (d : Diagram) : Nat := d.vertices.length

def addVertex (d : Diagram) (v : Vertex) : Diagram := { d with vertices := d.vertices ++ [v] }

def addEdge (d : Diagram) (source target : Nat) : Diagram :=
  { d with edges := d.edges ++ [(source, target)] }

structure Dangling where
  source : Nat
  target : Nat
deriving DecidableEq, Repr

def Dangling.message (_ : Dangling) : String := "Graph::add_edge: node indices out of bounds"

def ofParts (vertices : List Vertex) (edges : List (Nat × Nat)) : Except Dangling Diagram :=
  match edges.find? fun e ↦ vertices.length ≤ e.1 ∨ vertices.length ≤ e.2 with
  | some (source, target) => .error ⟨source, target⟩
  | none => .ok ⟨vertices, edges⟩

def called (d : Diagram) (name : String) : List Nat :=
  (d.vertices.zipIdx.filter fun v ↦ v.1.name = name).map Prod.snd

def incoming (d : Diagram) (target : Nat) : List String :=
  (d.edges.filter fun e ↦ e.2 = target).filterMap fun e ↦ (d.vertices[e.1]?).map Vertex.name

def dependenciesOf (d : Diagram) (name : String) : List String :=
  ((d.called name).flatMap d.incoming).mergeSort fun x y ↦ decide (x ≤ y)

/-- A name inside quotes; only quotes are escaped. -/
def escape (name : String) : List Char :=
  name.toList.flatMap fun c ↦ if c = '"' then ['\\', '"'] else [c]

def vertexBrackets : Shape → List Char × List Char
  | .start => (['(', '[', '"'], ['"', ']', ')'])
  | .activity => (['[', '"'], ['"', ']'])
  | .joined => (['\x7b', '"'], ['"', '\x7d'])

def indent : List Char := [' ', ' ', ' ', ' ']

def vertexLine (v : Vertex × Nat) : List Char :=
  let (left, right) := vertexBrackets v.1.shape
  indent ++ (toString v.2).toList ++ left ++ escape v.1.name ++ right ++ ['\n']

def edgeLine (e : Nat × Nat) : List Char :=
  indent ++ (toString e.1).toList ++ [' ', '-', '-', '>', ' '] ++ (toString e.2).toList ++ ['\n']

def chars (d : Diagram) : List Char :=
  "graph LR\n".toList ++ d.vertices.zipIdx.flatMap vertexLine ++ d.edges.flatMap edgeLine

/-- The drawing as a Mermaid flowchart. -/
def text (d : Diagram) : String := String.ofList d.chars

end Diagram

end ActivityGraph
