import ActivityGraph.Json.Basic

namespace ActivityGraph.Json

inductive Token where
  | openList
  | closeList
  | openObject
  | closeObject
  | colon
  | comma
  | text (s : Option String)
  | scalar (v : Json)
deriving Inhabited

namespace Token

def isBlank (c : Char) : Bool := c = ' ' ∨ c = '\n' ∨ c = '\t' ∨ c = '\r'

def hexValue? (c : Char) : Option Nat :=
  if '0' ≤ c ∧ c ≤ '9' then some (c.toNat - '0'.toNat)
  else if 'a' ≤ c ∧ c ≤ 'f' then some (c.toNat - 'a'.toNat + 10)
  else if 'A' ≤ c ∧ c ≤ 'F' then some (c.toNat - 'A'.toNat + 10)
  else none

def hexUnit? (a b c d : Char) : Option Nat := do
  return (((← hexValue? a) * 16 + (← hexValue? b)) * 16 + (← hexValue? c)) * 16 + (← hexValue? d)

def unescape? : Char → Option Char
  | '"' => some '"'
  | '\\' => some '\\'
  | '/' => some '/'
  | 'b' => some '\x08'
  | 'f' => some '\x0c'
  | 'n' => some '\n'
  | 'r' => some '\r'
  | 't' => some '\t'
  | _ => none

def units? : List Char → Option (List Nat × List Char)
  | [] => none
  | '"' :: r => some ([], r)
  | '\\' :: 'u' :: a :: b :: c :: d :: r => do
    let u ← hexUnit? a b c d
    let (us, r) ← units? r
    return (u :: us, r)
  | '\\' :: e :: r => do
    let c ← unescape? e
    let (us, r) ← units? r
    return (c.toNat :: us, r)
  | c :: r =>
    if c.toNat < 0x20 ∨ c = '\\' then none
    else do
      let (us, r) ← units? r
      return (c.toNat :: us, r)

def isHigh (u : Nat) : Bool := 0xd800 ≤ u ∧ u < 0xdc00

def isLow (u : Nat) : Bool := 0xdc00 ≤ u ∧ u < 0xe000

/-- Puts surrogate pairs together; there is no text if a half stands alone. -/
def pairUp? : List Nat → Option (List Char)
  | [] => some []
  | [u] => if isHigh u ∨ isLow u then none else some [Char.ofNat u]
  | u :: l :: us =>
    if isHigh u then
      if isLow l then
        (pairUp? us).map (Char.ofNat (0x10000 + (u - 0xd800) * 0x400 + (l - 0xdc00)) :: ·)
      else none
    else if isLow u then none
    else (pairUp? (l :: us)).map (Char.ofNat u :: ·)

def string? (cs : List Char) : Option (Option String × List Char) := do
  let (us, r) ← units? cs
  return ((pairUp? us).map String.ofList, r)

/-- The digits at the head of a text; a leading zero stands alone if `short` is set. -/
def digits (short : Bool) : List Char → List Char × List Char
  | '0' :: r => if short then (['0'], r) else ('0' :: r.takeWhile Char.isDigit, r.dropWhile Char.isDigit)
  | cs => (cs.takeWhile Char.isDigit, cs.dropWhile Char.isDigit)

def fraction? : List Char → Option (List Char × List Char)
  | '.' :: r =>
    match digits false r with
    | ([], _) => none
    | (ds, r) => some ('.' :: ds, r)
  | cs => some ([], cs)

def exponent? : List Char → Option (List Char × List Char)
  | [] => some ([], [])
  | e :: r =>
    if e = 'e' ∨ e = 'E' then
      let (sign, r) := match r with
        | '+' :: r => (['+'], r)
        | '-' :: r => (['-'], r)
        | r => ([], r)
      match digits false r with
      | ([], _) => none
      | (ds, r) => some (e :: sign ++ ds, r)
    else some ([], e :: r)

def natOfDigits (ds : List Char) : Nat := ds.foldl (fun n d ↦ n * 10 + (d.toNat - '0'.toNat)) 0

/-- The value of a numeral: an integer if it is written as one and has 64 bits. A zero with a
minus sign is no integer. -/
def numeral (minus : Bool) (whole rest : List Char) : Json :=
  let n := natOfDigits whole
  let literal := String.ofList ((if minus then ['-'] else []) ++ whole ++ rest)
  if rest ≠ [] then .real literal
  else if minus then if 0 < n ∧ n ≤ UInt64.size / 2 then .int (-n) else .real literal
  else if n < UInt64.size then .int n else .real literal

def number? (cs : List Char) : Option (Json × List Char) := do
  let (minus, cs) := match cs with
    | '-' :: r => (true, r)
    | _ => (false, cs)
  let (whole, cs) := digits true cs
  if whole = [] then none
  let (frac, cs) ← fraction? cs
  let (exp, cs) ← exponent? cs
  return (numeral minus whole (frac ++ exp), cs)

def next? : List Char → Option (Token × List Char)
  | '[' :: r => some (.openList, r)
  | ']' :: r => some (.closeList, r)
  | '\x7b' :: r => some (.openObject, r)
  | '\x7d' :: r => some (.closeObject, r)
  | ':' :: r => some (.colon, r)
  | ',' :: r => some (.comma, r)
  | 'n' :: 'u' :: 'l' :: 'l' :: r => some (.scalar .null, r)
  | 't' :: 'r' :: 'u' :: 'e' :: r => some (.scalar (.bool true), r)
  | 'f' :: 'a' :: 'l' :: 's' :: 'e' :: r => some (.scalar (.bool false), r)
  | '"' :: r => (string? r).map fun s ↦ (.text s.1, s.2)
  | cs => (number? cs).map fun v ↦ (.scalar v.1, v.2)

/-- The words of a text. No word is empty, so the length of the text bounds their number. -/
def scan (fuel : Nat) (cs : List Char) : Option (List Token) :=
  match fuel, cs with
  | _, [] => some []
  | 0, _ :: _ => none
  | n + 1, c :: r =>
    if isBlank c then scan n r
    else do
      let (t, r) ← next? (c :: r)
      return t :: (← scan n r)

def ofChars? (cs : List Char) : Option (List Token) := scan cs.length cs

end Token

end ActivityGraph.Json
