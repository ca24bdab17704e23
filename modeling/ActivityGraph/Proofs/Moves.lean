import ActivityGraph.Machine.Query
import ActivityGraph.Proofs.Run
import ActivityGraph.Proofs.Table
import Mathlib.Data.List.Induction

namespace ActivityGraph

namespace Ending

variable {σ φ : Type}

def of : Except φ σ → Ending
  | .ok _ => .success
  | .error _ => .failure

theorem of_state (e : Except φ σ) : (State.ofResult e).ending? = some (of e) := by
  cases e <;> rfl

end Ending

namespace Record

section Moves

variable {σ φ : Type} {r : Record σ φ} {xs : List (Move σ φ)}

/-- The moves that are left once a record is there: none puts another one in its place. -/
def Move.Own : Move σ φ → Prop
  | .replace _ => False
  | _ => True

def Move.result? : Move σ φ → Option (Except φ σ)
  | .report e => some e
  | _ => none

def Move.cancels : Move σ φ → Bool
  | .cancel => true
  | _ => false

def first? (xs : List (Move σ φ)) : Option (Except φ σ) := (xs.filterMap Move.result?).head?

/-- The record that is left after some moves, refused ones among them. -/
def after (r : Record σ φ) (xs : List (Move σ φ)) : Record σ φ := xs.foldl (fun q x ↦ (q.attempt x).2) r

def told (xs : List (Move σ φ)) : Record σ φ := ⟨(first? xs).elim .pending .ofResult, xs.any Move.cancels⟩

def refusal? (xs : List (Move σ φ)) : Move σ φ → Option Repeated
  | .report e => (first? xs).map fun d ↦ ⟨.of e, .of d⟩
  | _ => none

theorem Move.cancels_iff {x : Move σ φ} : x.cancels ↔ x = .cancel := by
  cases x <;> simp [Move.cancels]

theorem first?_append (xs ys : List (Move σ φ)) : first? (xs ++ ys) = (first? xs).or (first? ys) := by
  rw [first?, List.filterMap_append, List.head?_append]
  rfl

theorem after_append (r : Record σ φ) (xs ys : List (Move σ φ)) : r.after (xs ++ ys) = (r.after xs).after ys :=
  List.foldl_append

theorem attempt_report (r : Record σ φ) (e : Except φ σ) :
    r.attempt (.report e) =
      match r.state.ending? with
      | none => (none, { r with state := .ofResult e })
      | some d => (some ⟨.of e, d⟩, r) := by
  rw [attempt, move, report.eq_def]
  cases r.state.ending? <;> cases e <;> rfl

theorem attempt_told (xs : List (Move σ φ)) {x : Move σ φ} (hx : x.Own) :
    (told xs).attempt x = (refusal? xs x, told (xs ++ [x])) := by
  cases x with
  | report e =>
    have hcancels : (xs ++ [Move.report e]).any Move.cancels = xs.any Move.cancels := by
      rw [List.any_append]
      exact Bool.or_false _
    rw [attempt_report, told, told, refusal?, hcancels, first?_append]
    cases first? xs with
    | none => rfl
    | some d => rw [Option.elim_some, Ending.of_state, Option.some_or, Option.elim_some, Option.map_some]
  | cancel =>
    have hcancels : (xs ++ [(Move.cancel : Move σ φ)]).any Move.cancels = true := by
      rw [List.any_append]
      exact Bool.or_true _
    have hfirst : first? (xs ++ [Move.cancel]) = first? xs := (first?_append xs _).trans Option.or_none
    rw [told, told, hcancels, hfirst]
    rfl
  | replace => exact hx.elim

/-- The moves decide the record: an invariant of the moves, by induction from their end. -/
theorem after_eq (h : ∀ x ∈ xs, x.Own) : ({} : Record σ φ).after xs = told xs := by
  induction xs using List.reverseRecOn with
  | nil => rfl
  | append_singleton xs x ih =>
    rw [after_append, ih fun y hy ↦ h y (List.mem_append_left _ hy)]
    exact congrArg Prod.snd (attempt_told xs (h x (by simp)))

theorem attempts_append (r : Record σ φ) (xs ys : List (Move σ φ)) :
    r.attempts (xs ++ ys) = r.attempts xs ++ (r.after xs).attempts ys := by
  induction xs generalizing r with
  | nil => rfl
  | cons x xs ih => exact congrArg (r.attempt x :: ·) (ih _)

theorem length_attempts (r : Record σ φ) (xs : List (Move σ φ)) : (r.attempts xs).length = xs.length := by
  induction xs generalizing r with
  | nil => rfl
  | cons x xs ih => exact congrArg (· + 1) (ih _)

theorem attempts_getElem? {front back : List (Move σ φ)} {x : Move σ φ} (h : ∀ y ∈ front ++ x :: back, y.Own) :
    (({} : Record σ φ).attempts (front ++ x :: back))[front.length]? =
      some (refusal? front x, told (front ++ [x])) := by
  have hfront : ({} : Record σ φ).after front = told front := after_eq fun y hy ↦ h y (List.mem_append_left _ hy)
  rw [attempts_append, List.getElem?_append_right (length_attempts _ _).le, length_attempts, Nat.sub_self, hfront,
    ← attempt_told front (h x (by simp))]
  rfl

theorem attempt_cancel (r : Record σ φ) {x : Move σ φ} (hx : x.Own) :
    r.cancel.attempt x = ((r.attempt x).1, (r.attempt x).2.cancel) := by
  cases x with
  | report e =>
    rw [attempt_report, attempt_report, cancel]
    cases r.state.ending? <;> rfl
  | cancel => rfl
  | replace => exact hx.elim

theorem after_cancel (r : Record σ φ) (h : ∀ x ∈ xs, x.Own) : r.cancel.after xs = (r.after xs).cancel := by
  induction xs generalizing r with
  | nil => rfl
  | cons x xs ih =>
    have hx := congrArg Prod.snd (r.attempt_cancel (h x (by simp)))
    refine Eq.trans ?_ (ih (r.attempt x).2 fun y hy ↦ h y (List.mem_cons_of_mem _ hy))
    exact congrArg (after · xs) hx

theorem refusals_cancel (r : Record σ φ) (h : ∀ x ∈ xs, x.Own) :
    (r.cancel.attempts xs).map Prod.fst = (r.attempts xs).map Prod.fst := by
  induction xs generalizing r with
  | nil => rfl
  | cons x xs ih =>
    rw [attempts, attempts, List.map_cons, List.map_cons, r.attempt_cancel (h x (by simp)),
      ih _ fun y hy ↦ h y (List.mem_cons_of_mem _ hy)]

/-- What some moves make of an empty record, and what comes of each of them. -/
structure Course (xs : List (Move σ φ)) : Prop where
  state : (({} : Record σ φ).after xs).state = (first? xs).elim .pending .ofResult
  pending : (({} : Record σ φ).after xs).state = .pending ↔ ∀ e, .report e ∉ xs
  canceled : (({} : Record σ φ).after xs).canceled ↔ .cancel ∈ xs
  first : ∀ front e back, xs = front ++ .report e :: back → (∀ d, .report d ∉ front) →
    (({} : Record σ φ).attempts xs)[front.length]? =
      some (none, { ({} : Record σ φ).after front with state := .ofResult e })
  later : ∀ front e back d, xs = front ++ .report e :: back → first? front = some d →
    (({} : Record σ φ).attempts xs)[front.length]? =
      some (some ⟨.of e, .of d⟩, ({} : Record σ φ).after front)
  mark : ∀ front back, xs = front ++ .cancel :: back →
    (({} : Record σ φ).attempts xs)[front.length]? = some (none, (({} : Record σ φ).after front).cancel)
  /-- Wherever a cancellation stands, all else goes as it would without it. -/
  apart : ∀ front back, xs = front ++ .cancel :: back →
    ({} : Record σ φ).after xs = (({} : Record σ φ).after (front ++ back)).cancel ∧
    ((({} : Record σ φ).attempts xs).map Prod.fst).eraseIdx front.length =
      (({} : Record σ φ).attempts (front ++ back)).map Prod.fst

theorem first?_eq_none_iff : first? xs = none ↔ ∀ e, .report e ∉ xs := by
  rw [first?, List.head?_eq_none_iff, List.filterMap_eq_nil_iff]
  constructor
  · intro h e he
    exact absurd (h _ he) (Option.some_ne_none e)
  · intro h x hx
    cases x with
    | report e => exact absurd hx (h e)
    | cancel | replace => rfl

theorem course_of_own (h : ∀ x ∈ xs, x.Own) : Course xs where
  state := by rw [after_eq h, told]
  pending := by
    rw [after_eq h, ← first?_eq_none_iff, told]
    cases first? xs with
    | none => simp
    | some e => cases e <;> simp [State.ofResult]
  canceled := by
    rw [after_eq h, told, List.any_eq_true]
    constructor
    · rintro ⟨x, hx, hc⟩
      exact Move.cancels_iff.1 hc ▸ hx
    · intro hx
      exact ⟨_, hx, rfl⟩
  first := by
    rintro front e back rfl hfront
    have hfirst : first? front = none := first?_eq_none_iff.2 hfront
    rw [attempts_getElem? h, refusal?, hfirst, after_eq fun y hy ↦ h y (List.mem_append_left _ hy), told, told,
      first?_append, hfirst, List.any_append, List.any_cons, List.any_nil]
    simp [first?, Move.result?, Move.cancels]
  later := by
    rintro front e back d rfl hd
    have hfront := after_eq fun y hy ↦ h y (List.mem_append_left _ hy)
    rw [attempts_getElem? h, refusal?, hd, hfront, told, told, first?_append, hd, List.any_append, List.any_cons,
      List.any_nil]
    simp [Move.cancels]
  mark := by
    rintro front back rfl
    have hfront := after_eq fun y hy ↦ h y (List.mem_append_left _ hy)
    rw [attempts_getElem? h, ← attempt_told front (h .cancel (by simp)), ← hfront]
    rfl
  apart := by
    rintro front back rfl
    have hback : ∀ x ∈ back, x.Own := fun y hy ↦ h y (by simp [hy])
    constructor
    · rw [after_append, after_append]
      exact after_cancel _ hback
    · have hlength : (((({} : Record σ φ).attempts front)).map Prod.fst).length = front.length := by
        rw [List.length_map, length_attempts]
      rw [attempts_append, attempts_append, List.map_append, List.map_append, attempts, List.map_cons,
        List.eraseIdx_append_of_length_le hlength.le, hlength, Nat.sub_self, List.eraseIdx_cons_zero]
      exact congrArg (_ ++ ·) (refusals_cancel _ hback)

/-- The observers of a record agree on its state and its mark. -/
structure Coherent (r : Record σ φ) (noSuccess : σ) (noFailure : φ) : Prop where
  completed : r.completed ↔ r.state ≠ .pending
  ended : r.completed ↔ r.okay ∨ r.failed
  exclusive : ¬ (r.okay ∧ r.failed)
  errored : r.errored ↔ r.okay ∧ r.canceled
  okay : r.okay ↔ ∃ s, r.success? = some s
  failed : r.failed ↔ ∃ f, r.failure? = some f
  success : ∀ s, r.success? = some s ↔ r.state = .success s
  failure : ∀ f, r.failure? = some f ↔ r.state = .failure f
  asPending : r.resolution noSuccess noFailure = .pending ↔ ¬ r.completed
  asSuccess : ∀ s, r.resolution noSuccess noFailure = .success s ↔ r.success? = some s ∧ ¬ r.canceled
  asFailure : ∀ f, r.resolution noSuccess noFailure = .failure f ↔ r.failure? = some f ∧ ¬ r.canceled
  asCanceled : ∀ s f, r.resolution noSuccess noFailure = .canceled s f ↔
    r.completed ∧ r.canceled ∧ s = r.success?.getD noSuccess ∧ f = r.failure?.getD noFailure

theorem coherent (r : Record σ φ) (noSuccess : σ) (noFailure : φ) : r.Coherent noSuccess noFailure := by
  obtain ⟨_ | s | f, _ | _⟩ := r <;>
    constructor <;>
    simp [completed, okay, failed, errored, success?, failure?, resolution, State.ending?, eq_comm]

end Moves

end Record

namespace Collector

variable {c d : Collector} {x y : Activity} {r : Outcome}

theorem slot?_insert (h : c.insert x r = .ok d) : d.slot? y = if x = y then some r else c.slot? y := by
  rw [insert] at h
  split at h
  · next hx =>
    obtain rfl := Except.ok.inj h
    rw [slot?, slot?, Table.get?_modify]
    split
    · next he =>
      subst he
      obtain ⟨o, ho⟩ := Option.isSome_iff_exists.1 hx
      rw [ho]
      rfl
    · rfl
  · exact absurd h (by simp)

end Collector

theorem Machine.apply_read {v : View} {c : Collector} {x : Activity} {r : Outcome} {α : Type} (hv : v.contains x)
    (hr : c.slot? x = some r) (f : Resolution Payload Payload → α) :
    (Machine.read v c x).apply f = f (r.resolution x.noSuccess x.noFailure) := by
  rw [Machine.read, View.read?, if_pos hv, hr]
  rfl

/-- The moves of a record decide what it holds and what each of them comes to, all observers agree on that, and
where the record is stored, a view passes on how it resolves until the slot is written again. -/
theorem Record.decided_by_moves :
    (∀ (σ φ : Type) (xs : List (Record.Move σ φ)), (∀ x ∈ xs, x.Own) → Record.Course xs ∧
      ∀ noSuccess noFailure, (({} : Record σ φ).after xs).Coherent noSuccess noFailure) ∧
    ∀ (x : Activity) (r : Outcome) (c d : Collector), c.insert x r = .ok d →
      (∀ y, x ≠ y → d.slot? y = c.slot? y) ∧
      ∀ e : Collector, e.slot? x = d.slot? x → ∀ v : View, v.contains x →
        ∀ (α : Type) (f : Resolution Payload Payload → α),
          (Machine.read v e x).apply f = f (r.resolution x.noSuccess x.noFailure) := by
  constructor
  · intro σ φ xs h
    exact ⟨Record.course_of_own h, fun _ _ ↦ Record.coherent _ _ _⟩
  · intro x r c d h
    refine ⟨fun y hy ↦ (Collector.slot?_insert h).trans (if_neg hy), fun e he v hv α f ↦ ?_⟩
    exact Machine.apply_read hv (he.trans ((Collector.slot?_insert h).trans (if_pos rfl))) f

namespace Sample

def moves : List (Record.Move Payload Payload) := [.report (.ok (.int 1)), .cancel, .report (.error .unit)]

theorem moves_decided :
    Record.Course moves ∧ (∀ s f, (({} : Outcome).after moves).Coherent s f) ∧
    ({} : Outcome).attempts moves =
      [(none, ⟨.success (.int 1), false⟩), (none, ⟨.success (.int 1), true⟩),
        (some ⟨.failure, .success⟩, ⟨.success (.int 1), true⟩)] ∧
    ∃ d, (Collector.create "s" .unit [alpha, beta]).insert alpha (({} : Outcome).after moves) = .ok d ∧
      (Machine.read ⟨⟨"s", 0⟩, [alpha]⟩ d alpha).apply id = .canceled (.int 1) alpha.noFailure := by
  obtain ⟨hmoves, hstored⟩ := Record.decided_by_moves
  obtain ⟨hcourse, hcoherent⟩ := hmoves _ _ moves (by simp [moves, Record.Move.Own])
  refine ⟨hcourse, hcoherent, by decide, _, rfl, ?_⟩
  obtain ⟨-, hread⟩ := hstored alpha (({} : Outcome).after moves) (.create "s" .unit [alpha, beta]) _ rfl
  exact hread _ rfl ⟨⟨"s", 0⟩, [alpha]⟩ (by decide) _ id

end Sample

end ActivityGraph
