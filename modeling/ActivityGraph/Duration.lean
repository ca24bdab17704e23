namespace ActivityGraph

structure Duration where
  nanos : Nat
deriving DecidableEq, Repr, Inhabited

namespace Duration

def zero : Duration := ⟨0⟩

def ofMillis (ms : Nat) : Duration := ⟨ms * 1000000⟩

structure Overflow where
deriving DecidableEq, Repr

def Overflow.message (_ : Overflow) : String := "overflow in Duration::new"

/-- A span of seconds and nanoseconds; nanoseconds beyond a second count as seconds. -/
def ofSeconds (secs nanos : Nat) : Except Overflow Duration :=
  if secs + nanos / 1000000000 < UInt64.size then .ok ⟨secs * 1000000000 + nanos⟩ else .error ⟨⟩

/-- The digits of a fraction of `width` places, without the zeros at their end. -/
def fractionDigits (width n : Nat) : List Char :=
  let ds := Nat.toDigits 10 n
  ((List.replicate (width - ds.length) '0' ++ ds).reverse.dropWhile (· = '0')).reverse

def decimal (whole frac width : Nat) : String :=
  match fractionDigits width frac with
  | [] => toString whole
  | ds => toString whole ++ "." ++ String.ofList ds

/-- The text in seconds, milliseconds, microseconds or nanoseconds: the first of these units of
which the span holds at least one. -/
def text (d : Duration) : String :=
  let n := d.nanos
  if 1000000000 ≤ n then decimal (n / 1000000000) (n % 1000000000) 9 ++ "s"
  else if 1000000 ≤ n then decimal (n / 1000000) (n % 1000000) 6 ++ "ms"
  else if 1000 ≤ n then decimal (n / 1000) (n % 1000) 3 ++ "µs"
  else toString n ++ "ns"

def elapsedText (d : Duration) : String := "deadline elapsed after " ++ d.text

end Duration

end ActivityGraph
