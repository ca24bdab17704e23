import ActivityGraph.Proofs.Course.Step
import ActivityGraph.Proofs.History

namespace ActivityGraph

/-- What a script asks of the graph, with its handles looked up. -/
inductive Request where
  | perform (c : Key) (x : Activity)
  | begin (k : Key)
  | depend (k : Key) (s : Source)
  | run (k : Key)
  | insert (c : Key) (x : Activity)
  | extract (c : Key) (x : Activity)
  | view (c : Key) (xs : List Activity)
  | narrow (v : View) (xs : List Activity)
  | set (v : View) (x : Activity)
deriving DecidableEq

def Machine.request (m : Machine) (f : Frame) : Action → Except String (Option Request)
  | .perform _ key coll deps _ _ => do
    let x ← m.activity key
    let (c, _) ← m.collectorAt coll
    let _ ← m.sources deps
    return some (.perform c x)
  | .begin id => do
    return some (.begin (← find m.desk.nodes id))
  | .after id dep => do
    let k ← find m.desk.nodes id
    return some (.depend k (← m.source dep))
  | .done id next => do
    let k ← find m.desk.nodes id
    return some (.depend (← find m.desk.nodes next) (.node k))
  | .run id => do
    return some (.run (← find m.desk.starts id))
  | .insert id key _ => do
    let (c, _) ← m.collectorAt id
    return some (.insert c (← m.activity key))
  | .ask (.extract id key _) => do
    let (c, _) ← m.collectorAt id
    return some (.extract c (← m.activity key))
  | .grant _ (.within id keys) => do
    let (c, _) ← m.collectorAt id
    return some (.view c (← m.activities keys))
  | .grant _ (.ofCompletion node keys) => do
    let (_, n) ← m.completionAt (node.getD f.home)
    let _ ← fetch m.world.collectors n.collector
    return some (.view n.collector (← m.activities keys))
  | .grant _ (.narrow id keys) => do
    let (v, _) ← m.viewAt id
    return some (.narrow v (← m.activities keys))
  | .set id key _ => do
    let (v, _) ← m.viewAt id
    return some (.set v (← m.activity key))
  | _ => return none

def World.Denies (w : World) : Request → Prop
  | .perform c x | .insert c x | .extract c x => ¬ w.Declares c x
  | .begin k => ∃ b e, w.barriers.get? (.node k) = some b ∧ b.release = .error e
  | .depend k _ => ∃ c, w.Shut (.node k) c
  | .run k => (w.final? (.start k)).isSome
  | .view c xs => ∃ x ∈ xs, ¬ w.Declares c x
  | .narrow v xs => ∃ x ∈ xs, x ∉ v.activities
  | .set v x => x ∉ v.activities

/-- What a request is refused for: what was declared, what was in view, and what happened before. A node
begins only once and only if it never took on a dependency, and takes on dependencies until it is
invoked or abandoned. -/
def Machine.Forbids (m : Machine) : Request → Prop
  | .perform c x | .insert c x | .extract c x => ¬ m.world.Declares c x
  | .begin k => 0 < openings (.node k) m.journal ∨ accepted (.node k) m.journal ≠ []
  | .depend k _ => 0 < invocations k m.journal ∨ 0 < abandonings k m.journal
  | .run k => 0 < runnings k m.journal
  | .view c xs => ∃ x ∈ xs, ¬ m.world.Declares c x
  | .narrow v xs => ∃ x ∈ xs, x ∉ v.activities
  | .set v x => x ∉ v.activities

theorem Barrier.Fits.release_iff {b : Barrier} {acc : List Source} {hrd : List (Source × Bool)} {n : Nat}
    (h : b.Fits acc hrd n) : (∃ e, b.release = .error e) ↔ 0 < n ∨ acc ≠ [] := by
  constructor
  · rintro ⟨e, he⟩
    by_contra hno
    rw [not_or, not_not, Nat.pos_iff_ne_zero, not_not] at hno
    obtain ⟨rfl, rfl⟩ := hno
    exact absurd (h.opened.2 ⟨h.closed_of_refused he, rfl⟩) (Nat.lt_irrefl 0)
  · intro hor
    cases hb : b.release with
    | error e => exact ⟨e, rfl⟩
    | ok d =>
      have hacc : acc = [] ∧ b.closed = false := by
        have ho := (Barrier.open_of_release hb).1
        unfold Barrier.release at hb
        rw [ho, if_neg Bool.false_ne_true] at hb
        split at hb
        · next hr => exact ⟨h.idle ho hr, ho⟩
        · simp at hb
      rcases hor with hn | hne
      · exact absurd (h.opened.1 hn).1 (by simp [hacc.2])
      · exact absurd hacc.1 hne

theorem Stage.Reached.denies_iff {m : Machine} (h : Stage.Reached ⟨none, m⟩) (q : Request) :
    m.world.Denies q ↔ m.Forbids q := by
  cases q with
  | begin k =>
    have hg : m.Gated (.node k) := h.gated rfl
    cases hb : m.world.barriers.get? (.node k) with
    | none =>
      obtain ⟨ha, -, ho⟩ := hg.absent hb
      simp [World.Denies, Machine.Forbids, hb, ha, ho]
    | some b => simpa [World.Denies, Machine.Forbids, hb] using (hg.fits hb).release_iff
  | depend k s => exact h.shut_iff
  | run k => exact h.fired_iff_run
  | _ => exact .rfl

end ActivityGraph
