import ActivityGraph.Policy
import ActivityGraph.World
import Mathlib.Data.Set.Finite.List
import Mathlib.Order.WellFoundedSet

namespace ActivityGraph

structure Meaning where
  record : Outcome
  signal : Signal
deriving DecidableEq

def Meaning.abandoned : Meaning := ⟨{ canceled := true }, .cancel⟩

def Judge.holds (j : Judge) (v : Payload) : Bool := j.test v = .holds true

namespace Policy

/-- Whether a report is canceled: a success that is rejected, or a failure of what is required. -/
def cancels (p : Policy) : Except Payload Payload → Bool
  | .ok s => p.cancelIf.any fun j ↦ j.holds s
  | .error _ => p.required

/-- Whether a cancellation goes on, as it does unless a predicate holds it back. -/
def propagates (p : Policy) : Except Payload Payload → Bool
  | .ok s => p.ifErrored.all fun j ↦ j.holds s
  | .error f => p.ifFailed.all fun j ↦ j.holds f

def meaning (p : Policy) (r : Except Payload Payload) : Meaning :=
  ⟨⟨.ofResult r, p.cancels r⟩, if p.cancels r ∧ p.propagates r then .cancel else .done⟩

def Tame (p : Policy) : Prop :=
  ∀ j, p.cancelIf = some j ∨ p.ifErrored = some j ∨ p.ifFailed = some j → ∀ v, ∃ b, j.test v = .holds b

theorem consult_eq {j : Option Judge} (hj : ∀ i, j = some i → ∀ v, ∃ b, i.test v = .holds b) (b : Bool)
    (v : Payload) :
    (consult j b v).2 = .holds (j.elim b fun i ↦ i.holds v) := by
  cases j with
  | none => rfl
  | some i =>
    obtain ⟨c, hc⟩ := hj i rfl v
    simp [consult, Judge.holds, hc]

theorem rejects_eq {p : Policy} (hp : p.Tame) (r : Except Payload Payload) :
    (p.rejects (.ofResult r)).2 = .holds (p.cancels r) := by
  cases r with
  | ok s =>
    refine (consult_eq (fun i hi ↦ hp i (.inl hi)) false s).trans ?_
    rw [cancels]
    cases p.cancelIf <;> rfl
  | error f => rfl

theorem cascades_eq {p : Policy} (hp : p.Tame) (r : Except Payload Payload) :
    (p.cascades (.ofResult r)).2 = .holds (p.propagates r) := by
  cases r with
  | ok s =>
    refine (consult_eq (fun i hi ↦ hp i (.inr (.inl hi))) true s).trans ?_
    rw [propagates]
    cases p.ifErrored <;> rfl
  | error f =>
    refine (consult_eq (fun i hi ↦ hp i (.inr (.inr hi))) true f).trans ?_
    rw [propagates]
    cases p.ifFailed <;> rfl

theorem rule_eq {p : Policy} (hp : p.Tame) (r : Except Payload Payload) :
    (p.rule { state := .ofResult r }).record = (p.meaning r).record ∧
    (p.rule { state := .ofResult r }).signal = .ok (p.meaning r).signal := by
  obtain ⟨asked, hr⟩ : ∃ asked, p.rejects (.ofResult r) = (asked, .holds (p.cancels r)) :=
    ⟨_, Prod.ext rfl (rejects_eq hp r)⟩
  obtain ⟨more, hc⟩ : ∃ more, p.cascades (.ofResult r) = (more, .holds (p.propagates r)) :=
    ⟨_, Prod.ext rfl (cascades_eq hp r)⟩
  rw [rule, meaning, hr]
  cases p.cancels r with
  | false => simp
  | true => simp [hc, Record.cancel]

end Policy

/-- A finite graph without cycles: what each node depends on, the policies of the nodes, and what
their activities report when they are started. -/
structure Graph where
  nodes : List Key
  dependencies : Key → List Source
  policy : Key → Policy
  result : Key → Except Payload Payload
  finite : ∀ d k, .node d ∈ dependencies k → d ∈ nodes ∧ k ∈ nodes
  acyclic : ∀ k, ¬ Relation.TransGen (fun d l ↦ .node d ∈ dependencies l) k k
  tame : ∀ k, (policy k).Tame

theorem not_transGen_of_rank {r : Key → Key → Prop} (f : Key → Nat) (hf : ∀ d k, r d k → f d < f k) (k : Key) :
    ¬ Relation.TransGen r k k := by
  have lt {d l : Key} (h : Relation.TransGen r d l) : f d < f l := by
    induction h with
    | single h => exact hf _ _ h
    | tail _ h ih => exact ih.trans (hf _ _ h)
  exact fun h ↦ Nat.lt_irrefl _ (lt h)

namespace Graph

variable (g : Graph)

def Before (d k : Key) : Prop := .node d ∈ g.dependencies k

theorem wellFounded : WellFounded g.Before := by
  have : IsStrictOrder Key (Relation.TransGen g.Before) :=
    { irrefl := g.acyclic, trans := fun _ _ _ ↦ Relation.TransGen.trans }
  have hs : {k | k ∈ g.nodes}.WellFoundedOn (Relation.TransGen g.Before) := (List.finite_toSet g.nodes).wellFoundedOn
  refine Subrelation.wf (fun {d k} h ↦ ?_) (Set.wellFoundedOn_iff.1 hs)
  exact ⟨Relation.TransGen.single h, g.finite d k h⟩

/-- A node that depends on a node with the signal to cancel is abandoned. Any other means what its
policy makes of its report. -/
def meaning (k : Key) : Meaning :=
  if (g.dependencies k).attach.any fun
    | ⟨.node d, _⟩ => (meaning d).signal = .cancel
    | ⟨.start _, _⟩ => false
  then .abandoned else (g.policy k).meaning (g.result k)
termination_by g.wellFounded.wrap k
decreasing_by assumption

def signal : Source → Signal
  | .node d => (g.meaning d).signal
  | .start _ => .done

variable {g} {k : Key}

theorem meaning_of_cancel {d : Key} (hd : .node d ∈ g.dependencies k) (h : (g.meaning d).signal = .cancel) :
    g.meaning k = .abandoned := by
  rw [meaning]
  refine if_pos (List.any_eq_true.2 ⟨⟨.node d, hd⟩, List.mem_attach _ _, decide_eq_true h⟩)

theorem meaning_of_done (h : ∀ d, .node d ∈ g.dependencies k → (g.meaning d).signal = .done) :
    g.meaning k = (g.policy k).meaning (g.result k) := by
  rw [meaning]
  refine if_neg fun ha ↦ ?_
  obtain ⟨⟨s, hs⟩, -, hc⟩ := List.any_eq_true.1 ha
  cases s with
  | node d => exact absurd (of_decide_eq_true hc) (by simp [h d hs])
  | start q => simp at hc

end Graph

end ActivityGraph
