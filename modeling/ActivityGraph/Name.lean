namespace ActivityGraph.Name

def afterColons? : List Char → Option (List Char)
  | [] => none
  | c :: cs =>
    match afterColons? cs with
    | some r => some r
    | none => if c = ':' ∧ cs.head? = some ':' then some cs.tail else none

def base (cs : List Char) : List Char := cs.takeWhile (· ≠ '<')

def lastSegment (cs : List Char) : List Char := (afterColons? (base cs)).getD (base cs)

/-- The last path segment of a full name, without its bracketed arguments. -/
def short (name : String) : String := String.ofList (lastSegment name.toList)

end ActivityGraph.Name
