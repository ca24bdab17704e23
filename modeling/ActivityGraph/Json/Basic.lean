namespace ActivityGraph

inductive Json where
  | null
  | bool (b : Bool)
  | int (n : Int)
  /-- A number that is not an integer of 64 bits, as it is written. -/
  | real (literal : String)
  | str (s : String)
  /-- A string with an unpaired surrogate. -/
  | torn
  | arr (items : List Json)
  | obj (members : List (Option String × Json))
deriving Inhabited

namespace Json

mutual

/-- Whether two documents are written alike: objects with the same members in the same order. -/
def same : Json → Json → Bool
  | .null, .null => true
  | .bool a, .bool b => a = b
  | .int m, .int n => m = n
  | .real a, .real b => a = b
  | .str s, .str t => s = t
  | .torn, .torn => true
  | .arr vs, .arr ws => sameItems vs ws
  | .obj ms, .obj ns => sameMembers ms ns
  | _, _ => false

def sameItems : List Json → List Json → Bool
  | [], [] => true
  | v :: vs, w :: ws => v.same w && sameItems vs ws
  | _, _ => false

def sameMembers : List (Option String × Json) → List (Option String × Json) → Bool
  | [], [] => true
  | (k, v) :: ms, (l, w) :: ns => k = l && v.same w && sameMembers ms ns
  | _, _ => false

end

mutual

theorem same_self : ∀ v : Json, v.same v = true
  | .null | .torn => rfl
  | .bool _ | .int _ | .real _ | .str _ => by simp [same]
  | .arr vs => by simp [same, sameItems_self vs]
  | .obj ms => by simp [same, sameMembers_self ms]

theorem sameItems_self : ∀ vs : List Json, sameItems vs vs = true
  | [] => rfl
  | v :: vs => by simp [sameItems, same_self v, sameItems_self vs]

theorem sameMembers_self : ∀ ms : List (Option String × Json), sameMembers ms ms = true
  | [] => rfl
  | (_, v) :: ms => by simp [sameMembers, same_self v, sameMembers_self ms]

end

mutual

theorem eq_of_same : ∀ v w : Json, v.same w = true → v = w
  | .arr vs, w, h => by
    cases w <;> simp [same] at h
    rw [eq_of_sameItems vs _ h]
  | .obj ms, w, h => by
    cases w <;> simp [same] at h
    rw [eq_of_sameMembers ms _ h]
  | .null, w, h | .bool _, w, h | .int _, w, h | .real _, w, h | .str _, w, h | .torn, w, h => by
    cases w <;> simp_all [same]

theorem eq_of_sameItems : ∀ vs ws : List Json, sameItems vs ws = true → vs = ws
  | [], ws, h => by cases ws <;> simp_all [sameItems]
  | v :: vs, ws, h => by
    cases ws <;> simp [sameItems] at h
    rw [eq_of_same v _ h.1, eq_of_sameItems vs _ h.2]

theorem eq_of_sameMembers : ∀ ms ns : List (Option String × Json), sameMembers ms ns = true → ms = ns
  | [], ns, h => by cases ns <;> simp_all [sameMembers]
  | (k, v) :: ms, ns, h => by
    obtain _ | ⟨⟨l, w⟩, ns⟩ := ns <;> simp [sameMembers] at h
    rw [h.1.1, eq_of_same v w h.1.2, eq_of_sameMembers ms ns h.2]

end

instance : DecidableEq Json := fun v w ↦
  decidable_of_iff (v.same w = true) ⟨eq_of_same v w, fun h ↦ h ▸ same_self v⟩

def ofText : Option String → Json
  | some s => .str s
  | none => .torn

def object (members : List (String × Json)) : Json := .obj (members.map fun m ↦ (some m.1, m.2))

def text? : Json → Option String
  | .str s => some s
  | _ => none

def bool? : Json → Option Bool
  | .bool b => some b
  | _ => none

def items? : Json → Option (List Json)
  | .arr vs => some vs
  | _ => none

def int64? : Json → Option Int64
  | .int n => if Int64.minValue.toInt ≤ n ∧ n ≤ Int64.maxValue.toInt then some (Int64.ofInt n) else none
  | _ => none

def nat? : Json → Option Nat
  | .int n => n.toNat?
  | _ => none

def lookups (key : String) : Json → List Json
  | .obj ms => (ms.filter fun m ↦ m.1 = some key).map Prod.snd
  | _ => []

/-- The value of the last member called `key`. -/
def get? (v : Json) (key : String) : Option Json := (v.lookups key).getLast?

end Json

end ActivityGraph
