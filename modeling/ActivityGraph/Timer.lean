import ActivityGraph.Duration
import ActivityGraph.Table

namespace ActivityGraph

/-- A node waits for its span to pass; it is due as soon as it has. -/
structure Timer where
  due : Nat
  node : Key
  after : Duration

namespace Timer

/-- The timer that is due first, among those due up to a point; of several, the one set first. -/
def first? (stop : Nat) : List Timer → Option Timer
  | [] => none
  | t :: ts =>
    match first? stop ts with
    | some u => if t.due ≤ stop ∧ t.due ≤ u.due then some t else some u
    | none => if t.due ≤ stop then some t else none

theorem first?_mem {stop : Nat} {ts : List Timer} {t : Timer} (h : first? stop ts = some t) : t ∈ ts := by
  induction ts generalizing t with
  | nil => simp [first?] at h
  | cons u us ih => cases hu : first? stop us <;> grind [first?]

end Timer

/-- Who lets timers go off. Any that is pending may be the next one, however late and whatever else is due, but
none goes off before it is due. -/
structure Runtime where
  /-- The timer that goes off next as time passes from `now` to `stop`, and the time at which it does. -/
  next? : (now stop : Nat) → List Timer → Option (Timer × Nat)
  pending {now stop i : Nat} {ts : List Timer} {t : Timer} : next? now stop ts = some (t, i) → t ∈ ts
  due {now stop i : Nat} {ts : List Timer} {t : Timer} : next? now stop ts = some (t, i) → t.due ≤ i

theorem Runtime.next?_nil (ρ : Runtime) (now stop : Nat) : ρ.next? now stop [] = none := by
  cases h : ρ.next? now stop [] with
  | none => rfl
  | some x => cases ρ.pending h

def Runtime.prompt : Runtime where
  next? _ stop ts := (Timer.first? stop ts).map fun t ↦ (t, t.due)
  pending h := by
    obtain ⟨t, ht, he⟩ := Option.map_eq_some_iff.1 h
    obtain ⟨rfl, -⟩ := Prod.mk.inj he
    exact Timer.first?_mem ht
  due h := by
    obtain ⟨t, -, he⟩ := Option.map_eq_some_iff.1 h
    obtain ⟨rfl, rfl⟩ := Prod.mk.inj he
    exact Nat.le_refl _

end ActivityGraph
