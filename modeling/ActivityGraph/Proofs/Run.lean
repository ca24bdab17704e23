import ActivityGraph.Machine.Termination
import ActivityGraph.Scenario
import Mathlib.Logic.Relation

namespace ActivityGraph

namespace Event

def accepts? (x : Waiter) : Event → Option Source
  | .wired y s => if y = x then some s else none
  | _ => none

def tells? (x : Waiter) : Event → Option (Source × Bool)
  | .told y s c => if y = x then some (s, c) else none
  | _ => none

def starts (k : Key) : Event → Bool
  | .logged (.started l _) => l = k
  | _ => false

def abandons (k : Key) : Event → Bool
  | .logged (.abandoned l _ _) => l = k
  | _ => false

def reports (k : Key) : Event → Bool
  | .reported l _ => l = k
  | _ => false

def opens (x : Waiter) : Event → Bool
  | .logged (.opened y _) => y = x
  | _ => false

def calls (t : Key) : Event → Bool
  | .finished u _ => u = t
  | _ => false

def undoes : Event → Bool
  | .unwound .. => true
  | _ => false

def breaks (t : Key) : Event → Bool
  | .unwound _ (.callback u) => u = t
  | _ => false

variable {k t : Key} {e : Event}

theorem starts_iff : e.starts k ↔ ∃ label, e = .logged (.started k label) := by
  constructor
  · intro h
    cases e with
    | logged e =>
      cases e with
      | started l label => exact ⟨label, by rw [of_decide_eq_true h]⟩
      | _ => simp [starts] at h
    | _ => simp [starts] at h
  · rintro ⟨label, rfl⟩
    simp [starts]

theorem abandons_iff : e.abandons k ↔ ∃ name label, e = .logged (.abandoned k name label) := by
  constructor
  · intro h
    cases e with
    | logged e =>
      cases e with
      | abandoned l name label => exact ⟨name, label, by rw [of_decide_eq_true h]⟩
      | _ => simp [abandons] at h
    | _ => simp [abandons] at h
  · rintro ⟨name, label, rfl⟩
    simp [abandons]

theorem reports_iff : e.reports k ↔ ∃ r, e = .reported k r := by
  constructor
  · intro h
    cases e with
    | reported l r => exact ⟨r, by rw [of_decide_eq_true h]⟩
    | _ => simp [reports] at h
  · rintro ⟨r, rfl⟩
    simp [reports]

theorem calls_iff : e.calls t ↔ ∃ view, e = .finished t view := by
  constructor
  · intro h
    cases e with
    | finished u view => exact ⟨view, by rw [of_decide_eq_true h]⟩
    | _ => simp [calls] at h
  · rintro ⟨view, rfl⟩
    simp [calls]

theorem breaks_iff : e.breaks t ↔ ∃ f, e = .unwound f (.callback t) := by
  constructor
  · intro h
    cases e with
    | unwound f s =>
      cases s with
      | callback u => exact ⟨f, by rw [of_decide_eq_true h]⟩
      | _ => simp [breaks] at h
    | _ => simp [breaks] at h
  · rintro ⟨f, rfl⟩
    simp [breaks]

theorem accepts?_eq_some {x : Waiter} {s : Source} : e.accepts? x = some s ↔ e = .wired x s := by
  cases e with
  | wired y r => simp [accepts?]
  | _ => simp [accepts?]

theorem tells?_eq_some {x : Waiter} {s : Source} {c : Bool} : e.tells? x = some (s, c) ↔ e = .told x s c := by
  cases e with
  | told y r d => simp [tells?]
  | _ => simp [tells?]

end Event

/-- The dependencies that a waiter took on, each as often as it was taken on. -/
def accepted (x : Waiter) (j : List Event) : List Source := j.filterMap (Event.accepts? x)

/-- All that a waiter was told: about which source, and whether that was canceled. -/
def heard (x : Waiter) (j : List Event) : List (Source × Bool) := j.filterMap (Event.tells? x)

def startings (k : Key) (j : List Event) : Nat := j.countP (Event.starts k)

def abandonings (k : Key) (j : List Event) : Nat := j.countP (Event.abandons k)

def reportings (k : Key) (j : List Event) : Nat := j.countP (Event.reports k)

/-- How often a waiter was released although it waited for nothing. -/
def openings (x : Waiter) (j : List Event) : Nat := j.countP (Event.opens x)

def callings (t : Key) (j : List Event) : Nat := j.countP (Event.calls t)

def breakings (t : Key) (j : List Event) : Nat := j.countP (Event.breaks t)

theorem mem_accepted {x : Waiter} {s : Source} {j : List Event} : s ∈ accepted x j ↔ .wired x s ∈ j := by
  simp [accepted, Event.accepts?_eq_some]

theorem mem_heard {x : Waiter} {s : Source} {c : Bool} {j : List Event} :
    (s, c) ∈ heard x j ↔ .told x s c ∈ j := by
  simp [heard, Event.tells?_eq_some]

theorem reportings_pos {k : Key} {j : List Event} : 0 < reportings k j ↔ ∃ r, .reported k r ∈ j := by
  rw [reportings, List.countP_pos_iff]
  constructor
  · rintro ⟨e, he, h⟩
    obtain ⟨r, rfl⟩ := Event.reports_iff.1 h
    exact ⟨r, he⟩
  · rintro ⟨r, hr⟩
    exact ⟨_, hr, Event.reports_iff.2 ⟨r, rfl⟩⟩

section

variable {α : Type} (x : Waiter) (k : Key) (i j : List Event)

theorem filterMap_asked {f : Event → Option α} (hf : ∀ a, f (.asked k a) = none) (as : List Asked) :
    ((as.map (Event.asked k)).reverse ++ j).filterMap f = j.filterMap f := by
  rw [List.filterMap_append, List.filterMap_eq_nil_iff.2 (by simpa using fun a _ ↦ hf a), List.nil_append]

theorem countP_asked {p : Event → Bool} (hp : ∀ a, p (.asked k a) = false) (as : List Asked) :
    ((as.map (Event.asked k)).reverse ++ j).countP p = j.countP p := by
  rw [List.countP_append, List.countP_eq_zero.2 (by simpa using fun a _ ↦ hp a), Nat.zero_add]

theorem accepted_asked (as : List Asked) :
    accepted x ((as.map (Event.asked k)).reverse ++ j) = accepted x j := filterMap_asked k j (fun _ ↦ rfl) as

theorem heard_asked (as : List Asked) :
    heard x ((as.map (Event.asked k)).reverse ++ j) = heard x j := filterMap_asked k j (fun _ ↦ rfl) as

theorem openings_asked (as : List Asked) :
    openings x ((as.map (Event.asked k)).reverse ++ j) = openings x j := countP_asked k j (fun _ ↦ rfl) as

theorem accepted_append : accepted x (i ++ j) = accepted x i ++ accepted x j := List.filterMap_append

theorem heard_append : heard x (i ++ j) = heard x i ++ heard x j := List.filterMap_append

theorem accepted_wired (y : Waiter) (ss : List Source) :
    accepted x ((ss.map (Event.wired y)).reverse ++ j) =
      (if y = x then ss.reverse else []) ++ accepted x j := by
  rw [accepted_append, ← List.map_reverse]
  congr 1
  split
  · next h => simp [accepted, List.filterMap_map, Function.comp_def, Event.accepts?, h]
  · next h => simp [accepted, Event.accepts?, h]

theorem heard_wired (y : Waiter) (ss : List Source) :
    heard x ((ss.map (Event.wired y)).reverse ++ j) = heard x j := by
  rw [heard_append, ← List.map_reverse]
  simp [heard, Event.tells?]

theorem countP_wired {p : Event → Bool} (y : Waiter) (hp : ∀ s, p (.wired y s) = false) (ss : List Source) :
    ((ss.map (Event.wired y)).reverse ++ j).countP p = j.countP p := by
  rw [List.countP_append, List.countP_eq_zero.2 (by simpa using fun s _ ↦ hp s), Nat.zero_add]

theorem openings_wired (y : Waiter) (ss : List Source) :
    openings x ((ss.map (Event.wired y)).reverse ++ j) = openings x j := countP_wired j y (fun _ ↦ rfl) ss

end

/-- The signal of a source that is final. A start that is fired is done. -/
def World.final? (w : World) : Source → Option Signal
  | .node k => (w.nodes.get? k).bind Node.signal
  | .start k => (w.starts.get? k).bind fun s ↦ if s.fired then some .done else none

namespace Machine

/-- What can come next: a machine goes on with its stack, and takes any line when it is done. -/
inductive Next (m : Machine) : Machine → Prop
  | step (hm : m.stack ≠ []) : Next m m.step
  | line (hm : m.stack = []) (f : Frame) (l : Line Action) : Next m (Scenario.start m f l)

def Later : Machine → Machine → Prop := Relation.ReflTransGen Next

def Reachable (m : Machine) : Prop :=
  ∃ catalogue : List (String × Activity), Later { catalogue := catalogue } m

/-- No fault ever broke off the telling of waiters about a source. -/
def Unbroken (m : Machine) : Prop := ∀ f s, Event.unwound f (.delivery s) ∉ m.journal

/-- No fault ever left work undone that the machine had begun. -/
def Calm (m : Machine) : Prop := ∀ f s, Event.unwound f s ∉ m.journal

theorem Calm.unbroken {m : Machine} (h : m.Calm) : m.Unbroken := fun f s ↦ h f (.delivery s)

theorem calm_iff {m : Machine} : m.Calm ↔ ∀ e ∈ m.journal, e.undoes = false := by
  constructor
  · intro h e he
    cases e with
    | unwound f s => exact absurd he (h f s)
    | _ => rfl
  · intro h f s he
    simpa [Event.undoes] using h _ he

instance (m : Machine) : Decidable m.Calm := decidable_of_iff _ calm_iff.symm

theorem Later.run (m : Machine) (i : Nat) : Later m (run i m) := by
  induction i generalizing m with
  | zero => exact .refl
  | succ i ih =>
    rw [Machine.run]
    split
    · exact .refl
    · next hm => exact (ih m.step).head (.step fun hs ↦ hm (hs ▸ rfl))

theorem Later.report {m : Machine} (hm : m.stack = []) (f : Frame) (l : Line Action) :
    Later m (Scenario.report m f l).2 := (Later.run _ _).head (.line hm f l)

def play (m : Machine) (s : Script) : Machine := s.foldl (fun m l ↦ (Scenario.report m {} l).2) m

theorem stack_play {m : Machine} (hm : m.stack = []) (s : Script) : (m.play s).stack = [] := by
  induction s generalizing m with
  | nil => exact hm
  | cons l s ih => exact ih (stack_finish _)

theorem Later.play {m : Machine} (hm : m.stack = []) (s : Script) : Later m (m.play s) := by
  induction s generalizing m with
  | nil => exact .refl
  | cons l s ih => exact (Later.report hm {} l).trans (ih (stack_finish _))

end Machine

namespace Sample

def activity : Activity := ⟨"work", .int, .int⟩

def always (b : Bool) : Predicate := fun _ ↦ .holds b

/-- Two nodes behind a start, a third behind both of them, and a terminal. One node has a success that
is canceled but goes no further, and the other one fails. -/
def script : Script := [
  ⟨"start", false, .start "g" "g" ["work"] .null⟩,
  ⟨"perform", false, .perform "a" "work" "g" ["g"] none (.script [] true .null)⟩,
  ⟨"perform", false, .perform "b" "work" "g" ["g"] (some [.cancelIf (always true), .ifErrored (always false)])
    (.script [] true .null)⟩,
  ⟨"perform", false, .perform "c" "work" "g" ["a", "b", "a"] none (.script [] true .null)⟩,
  ⟨"finish", false, .finish "t" "g" ["c", "a", "c"] []⟩,
  ⟨"run", false, .run "g"⟩,
  ⟨"success", false, .report (some "b") ⟨.success, some .null⟩⟩,
  ⟨"failure", false, .report (some "a") ⟨.failure, some .null⟩⟩]

def machine (i : Nat) : Machine := Machine.play { catalogue := [("work", activity)] } (script.take i)

theorem reachable (i : Nat) : (machine i).Reachable := ⟨_, .play rfl _⟩

def during (i : Nat) : Machine :=
  (Scenario.start (machine 7) {} ⟨"failure", false, .report (some "a") ⟨.failure, some .null⟩⟩).run i

theorem during_reachable (i : Nat) : (during i).Reachable := by
  obtain ⟨catalogue, h⟩ := reachable 7
  exact ⟨catalogue, (h.tail (.line (Machine.stack_play rfl _) _ _)).trans (Machine.Later.run _ _)⟩

def alpha : Activity := ⟨"alpha", .int, .int⟩

def beta : Activity := ⟨"beta", .int, .int⟩

def pair (body : Script) (dep : String) : Script := [
  ⟨"start", false, .start "s" "s" ["alpha", "beta"] .null⟩,
  ⟨"perform", false, .perform "a" "alpha" "s" ["s"] none (.script body false .null)⟩,
  ⟨"perform", false, .perform "b" "beta" "s" [dep] none
    (.script [⟨"success", false, .report none ⟨.success, some (.int 1)⟩⟩] false .null)⟩,
  ⟨"finish", false, .finish "f" "s" ["b"] []⟩,
  ⟨"run", false, .run "s"⟩]

def pairMachine (body : Script) (dep : String) : Machine :=
  Machine.play { catalogue := [("alpha", alpha), ("beta", beta)] } (pair body dep)

theorem pair_reachable (body : Script) (dep : String) : (pairMachine body dep).Reachable := ⟨_, .play rfl _⟩

theorem next {i : Nat} (h : (during i).stack.isEmpty = false) : Machine.Next (during i) (during i).step :=
  .step fun hs ↦ by simp [hs] at h

end Sample

end ActivityGraph
