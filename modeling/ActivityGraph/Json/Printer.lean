import ActivityGraph.Json.Basic

namespace ActivityGraph.Json

def hexDigit (n : Nat) : Char := (Nat.toDigits 16 n).headD '0'

/-- A character inside a string: quotes, backslashes and control characters are escaped, the
latter by one letter where there is one. -/
def escapeChar (c : Char) : List Char :=
  match c with
  | '"' => ['\\', '"']
  | '\\' => ['\\', '\\']
  | '\x08' => ['\\', 'b']
  | '\x0c' => ['\\', 'f']
  | '\n' => ['\\', 'n']
  | '\r' => ['\\', 'r']
  | '\t' => ['\\', 't']
  | c =>
    if c.toNat < 0x20 then ['\\', 'u', '0', '0', hexDigit (c.toNat / 16), hexDigit (c.toNat % 16)]
    else [c]

def stringChars (s : String) : List Char := '"' :: s.toList.flatMap escapeChar ++ ['"']

def intChars (n : Int) : List Char := (toString n).toList

mutual

def chars : Json → List Char
  | .null => ['n', 'u', 'l', 'l']
  | .bool true => ['t', 'r', 'u', 'e']
  | .bool false => ['f', 'a', 'l', 's', 'e']
  | .int n => intChars n
  | .real literal => literal.toList
  | .str s => stringChars s
  | .torn => ['"', '"']
  | .arr vs => '[' :: itemChars vs ++ [']']
  | .obj ms => '\x7b' :: memberChars ms ++ ['\x7d']

def itemChars : List Json → List Char
  | [] => []
  | [v] => v.chars
  | v :: vs => v.chars ++ ',' :: itemChars vs

def memberChars : List (Option String × Json) → List Char
  | [] => []
  | [(k, v)] => stringChars (k.getD "") ++ ':' :: v.chars
  | (k, v) :: ms => stringChars (k.getD "") ++ ':' :: v.chars ++ ',' :: memberChars ms

end

def render (v : Json) : String := String.ofList v.chars

end ActivityGraph.Json
