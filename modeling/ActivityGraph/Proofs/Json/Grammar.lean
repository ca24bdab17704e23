import ActivityGraph.Json.Token

namespace ActivityGraph.Json

namespace Token

def Blanks (cs : List Char) : Prop := ∀ c ∈ cs, isBlank c

/-- One code unit inside a string: a character as it is, an escape of one letter, or four digits. -/
inductive Piece : Nat → List Char → Prop
  | plain {c : Char} (hc : 0x20 ≤ c.toNat) (hq : c ≠ '"') (hb : c ≠ '\\') : Piece c.toNat [c]
  | letter {e c : Char} (he : unescape? e = some c) : Piece c.toNat ['\\', e]
  | digits {a b c d : Char} {u : Nat} (hu : hexUnit? a b c d = some u) : Piece u ['\\', 'u', a, b, c, d]

inductive Body : List Nat → List Char → Prop
  | nil : Body [] []
  | cons {u : Nat} {us : List Nat} {p cs : List Char} (hp : Piece u p) (hb : Body us cs) :
      Body (u :: us) (p ++ cs)

/-- The characters that code units stand for. Surrogates count in pairs only. -/
inductive Joined : List Nat → List Char → Prop
  | nil : Joined [] []
  | char {us : List Nat} {cs : List Char} (c : Char) (h : Joined us cs) : Joined (c.toNat :: us) (c :: cs)
  | pair {u l : Nat} {us : List Nat} {cs : List Char} (hu : isHigh u) (hl : isLow l) (h : Joined us cs) :
      Joined (u :: l :: us) (Char.ofNat (0x10000 + (u - 0xd800) * 0x400 + (l - 0xdc00)) :: cs)

def Digits (ds : List Char) : Prop := ds ≠ [] ∧ ∀ d ∈ ds, d.isDigit

/-- A whole number does not start with a zero, unless it is zero. -/
inductive Whole : List Char → Prop
  | zero : Whole ['0']
  | digits {d : Char} {ds : List Char} (hd : d ≠ '0') (h : Digits (d :: ds)) : Whole (d :: ds)

inductive Fraction : List Char → Prop
  | absent : Fraction []
  | digits {ds : List Char} (h : Digits ds) : Fraction ('.' :: ds)

inductive Exponent : List Char → Prop
  | absent : Exponent []
  | digits {e : Char} {sign ds : List Char} (he : e = 'e' ∨ e = 'E')
      (hs : sign = [] ∨ sign = ['+'] ∨ sign = ['-']) (h : Digits ds) : Exponent (e :: sign ++ ds)

inductive Spelled : Token → List Char → Prop
  | openList : Spelled .openList ['[']
  | closeList : Spelled .closeList [']']
  | openObject : Spelled .openObject ['\x7b']
  | closeObject : Spelled .closeObject ['\x7d']
  | colon : Spelled .colon [':']
  | comma : Spelled .comma [',']
  | null : Spelled (.scalar .null) ['n', 'u', 'l', 'l']
  | yes : Spelled (.scalar (.bool true)) ['t', 'r', 'u', 'e']
  | no : Spelled (.scalar (.bool false)) ['f', 'a', 'l', 's', 'e']
  | number {whole frac exp : List Char} (minus : Bool) (hw : Whole whole) (hf : Fraction frac) (he : Exponent exp) :
      Spelled (.scalar (numeral minus whole (frac ++ exp)))
        ((if minus then ['-'] else []) ++ (whole ++ (frac ++ exp)))
  | text {us : List Nat} {body : List Char} {s : String} (hb : Body us body) (hs : Joined us s.toList) :
      Spelled (.text (some s)) ('"' :: (body ++ ['"']))
  | torn {us : List Nat} {body : List Char} (hb : Body us body) (hs : ∀ cs, ¬ Joined us cs) :
      Spelled (.text none) ('"' :: (body ++ ['"']))

inductive Words : List Token → List Char → Prop
  | nil {bs : List Char} (hb : Blanks bs) : Words [] bs
  | cons {bs w cs : List Char} {t : Token} {ts : List Token} (hb : Blanks bs) (hw : Spelled t w)
      (h : Words ts cs) : Words (t :: ts) (bs ++ (w ++ cs))

end Token

mutual

def tokens : Json → List Token
  | .str s => [.text (some s)]
  | .torn => [.text none]
  | .arr vs => .openList :: itemTokens vs
  | .obj ms => .openObject :: memberTokens ms
  | v => [.scalar v]

def itemTokens : List Json → List Token
  | [] => [.closeList]
  | [v] => v.tokens ++ [.closeList]
  | v :: vs => v.tokens ++ .comma :: itemTokens vs

def memberTokens : List (Option String × Json) → List Token
  | [] => [.closeObject]
  | [(k, v)] => .text k :: .colon :: (v.tokens ++ [.closeObject])
  | (k, v) :: ms => .text k :: .colon :: (v.tokens ++ .comma :: memberTokens ms)

end

/-- A text writes a document. -/
def Writes (v : Json) (text : String) : Prop := Token.Words v.tokens text.toList

end ActivityGraph.Json
