import ActivityGraph.Json.Token

namespace ActivityGraph.Json

mutual

def value? : Nat → List Token → Option (Json × List Token)
  | 0, _ => none
  | n + 1, ts =>
    match ts with
    | .scalar v :: r => some (v, r)
    | .text s :: r => some (ofText s, r)
    | .openList :: .closeList :: r => some (.arr [], r)
    | .openList :: r => (list? n r).map fun p ↦ (.arr p.1, p.2)
    | .openObject :: .closeObject :: r => some (.obj [], r)
    | .openObject :: r => (members? n r).map fun p ↦ (.obj p.1, p.2)
    | _ => none

def list? : Nat → List Token → Option (List Json × List Token)
  | 0, _ => none
  | n + 1, ts => do
    let (v, r) ← value? n ts
    match r with
    | .closeList :: r => return ([v], r)
    | .comma :: r =>
      let (vs, r) ← list? n r
      return (v :: vs, r)
    | _ => none

def members? : Nat → List Token → Option (List (Option String × Json) × List Token)
  | 0, _ => none
  | n + 1, .text k :: .colon :: ts => do
    let (v, r) ← value? n ts
    match r with
    | .closeObject :: r => return ([(k, v)], r)
    | .comma :: r =>
      let (ms, r) ← members? n r
      return ((k, v) :: ms, r)
    | _ => none
  | _ + 1, _ => none

end

/-- Every step takes a word or goes from a list to its first item, so twice the number of words
bounds the depth. -/
def ofTokens? (ts : List Token) : Option Json :=
  match value? (2 * ts.length + 1) ts with
  | some (v, []) => some v
  | _ => none

def ofChars? (cs : List Char) : Option Json := Token.ofChars? cs >>= ofTokens?

def parse? (s : String) : Option Json := ofChars? s.toList

end ActivityGraph.Json
