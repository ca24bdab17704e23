import ActivityGraph.Proofs.Gating
import ActivityGraph.Proofs.Terminal

namespace ActivityGraph

def Event.closes (x : Waiter) : Event → Bool
  | .logged (.opened y _) | .logged (.closed y _ _) => y = x
  | _ => false

/-- How often what waits at a barrier was entered. -/
def entrances (x : Waiter) (j : List Event) : Nat := j.countP (Event.closes x)

def Call.entrances (x : Waiter) : Call → Nat
  | .enter y _ => if y = x then 1 else 0
  | _ => 0

def World.closed (w : World) (x : Waiter) : Nat := ((w.barriers.get? x).any Barrier.closed).toNat

namespace World

variable {w : World} {x : Waiter}

theorem closed_le (w : World) (x : Waiter) : w.closed x ≤ 1 := Bool.toNat_le _

theorem Shut.closed_eq {c : Bool} (h : w.Shut x c) : w.closed x = 1 := by
  obtain ⟨b, hb, hc, -⟩ := h
  simp [closed, hb, hc]

theorem closed_eq_zero (h : ∀ c, ¬ w.Shut x c) : w.closed x = 0 := by
  cases hb : w.barriers.get? x with
  | none => simp [closed, hb]
  | some b =>
    have hc : b.closed = false := Bool.eq_false_iff.2 fun hc ↦ h _ ⟨b, hb, hc, rfl⟩
    simp [closed, hb, hc]

end World

theorem Stride.entrances_eq {a b : Stage} (hs : Stride a b) (x : Waiter) :
    entrances x b.machine.journal = entrances x a.machine.journal + b.call.elim 0 (Call.entrances x) := by
  have told (y : Waiter) (s : Option Source) (c : Bool) (j : List Event) :
      entrances x (Machine.tellings y s c ++ j) = entrances x j := by
    cases s <;> rfl
  cases hs with
  | @note m e he =>
    cases e with
    | described | replied => rfl
    | _ => simp [Event.mute] at he
  | addNode =>
    simp only [Machine.journal_addNode]
    exact countP_wired _ _ (fun _ ↦ rfl) _
  | addTerminal | addRoot =>
    simp only [Machine.push, Machine.journal_placeTerminal]
    exact countP_wired _ _ (fun _ ↦ rfl) _
  | @relinquish m c i k hc =>
    cases c with
    | none => rfl
    | some d => rcases hc d rfl with ⟨f, rfl⟩ | ⟨k, body, hold, r, rfl⟩ <;> rfl
  | astray | refused | arrived => exact told ..
  | @closed m y s c b d =>
    rw [entrances, List.countP_cons]
    exact congrArg₂ (· + ·) (told ..) (if_congr decide_eq_true_iff rfl rfl)
  | opened =>
    rw [entrances, List.countP_cons]
    exact congrArg _ (if_congr decide_eq_true_iff rfl rfl)
  | broken => exact countP_asked _ _ (fun _ ↦ rfl) _
  | completed => exact countP_asked _ _ (fun _ ↦ rfl) _
  | @announce m k n g => cases g <;> rfl
  | @unwound m f t => cases t.scope? <;> rfl
  | _ => rfl

theorem Stride.entered {a b : Stage} (hs : Stride a b) {x : Waiter} {c : Bool} (hb : b.call = some (.enter x c)) :
    a.machine.world.closed x = 0 ∧ b.machine.world.closed x = 1 := by
  cases hs with
  | relinquish hd => rcases hd _ hb with ⟨f, hf⟩ | ⟨k, body, hold, r, hf⟩ <;> simp at hf
  | closed hx hd hc =>
    simp only [Option.some.injEq, Call.enter.injEq] at hb
    obtain ⟨rfl, -⟩ := hb
    constructor
    · simp [World.closed, hx, Barrier.open_of_arrive hd]
    · simp [World.closed, World.get?_setBarrier hx, hc]
  | opened hx hd =>
    simp only [Option.some.injEq, Call.enter.injEq] at hb
    obtain ⟨rfl, -⟩ := hb
    obtain ⟨ho, hc⟩ := Barrier.open_of_release hd
    constructor
    · simp [World.closed, hx, ho]
    · simp [World.closed, World.get?_setBarrier hx, hc]
  | _ => simp at hb

theorem Call.entrances_eq_zero {c : Option Call} {x : Waiter} (h : ∀ d, c ≠ some (.enter x d)) :
    c.elim 0 (Call.entrances x) = 0 := by
  cases c with
  | none => rfl
  | some d =>
    cases d with
    | enter y e =>
      refine if_neg ?_
      rintro rfl
      exact h e rfl
    | _ => rfl

/-- A barrier closes when what waits at it is entered, and only then. -/
theorem Stride.closed_eq {a b : Stage} (hs : Stride a b) (x : Waiter) :
    b.machine.world.closed x = a.machine.world.closed x + b.call.elim 0 (Call.entrances x) := by
  by_cases hc : ∃ c, b.call = some (.enter x c)
  · obtain ⟨c, hc⟩ := hc
    obtain ⟨ha, hb⟩ := hs.entered hc
    simp [ha, hb, hc, Call.entrances]
  · rw [Call.entrances_eq_zero (not_exists.1 hc), Nat.add_zero]
    by_cases ha : ∃ c, a.machine.world.Shut x c
    · obtain ⟨c, ha⟩ := ha
      rw [ha.closed_eq, (hs.shut ha).closed_eq]
    · rw [World.closed_eq_zero fun c h ↦ ha ⟨c, h⟩, World.closed_eq_zero fun c h ↦ ?_]
      exact (hs.closes h).elim (fun h ↦ ha ⟨c, h⟩) hc

theorem Stage.Reached.entrances_eq {a : Stage} (h : a.Reached) (x : Waiter) :
    entrances x a.machine.journal = a.machine.world.closed x := by
  refine h.invariant (P := fun a ↦ entrances x a.machine.journal = a.machine.world.closed x) (fun _ ↦ rfl) ?_
  intro a b _ ih hs
  rw [hs.entrances_eq, hs.closed_eq, ih]

theorem Stage.Reached.decisions_le_closed {a : Stage} (h : a.Reached) (k : Key) :
    startings k a.machine.journal + abandonings k a.machine.journal ≤ a.machine.world.closed (.node k) := by
  have hle : startings k a.machine.journal + abandonings k a.machine.journal ≤ 1 := h.decisions_le k
  by_cases hst : 0 < startings k a.machine.journal
  · rwa [(h.started_shut hst).closed_eq]
  · by_cases hab : 0 < abandonings k a.machine.journal
    · rwa [(h.abandoned_shut hab).closed_eq]
    · omega

theorem Stage.Reached.callings_le_closed {a : Stage} (h : a.Reached) (t : Key) :
    callings t a.machine.journal ≤ a.machine.world.closed (.terminal t) := by
  by_cases hc : 0 < callings t a.machine.journal
  · obtain ⟨c, hshut⟩ := h.called_shut hc
    rw [hshut.closed_eq]
    exact h.callings_le t
  · omega

theorem Stage.Before.closed_le {a b : Stage} (h : a.Before b) (ha : a.Reached) (x : Waiter) :
    a.machine.world.closed x ≤ b.machine.world.closed x := by
  rw [← ha.entrances_eq, ← (ha.before h).entrances_eq]
  exact Stage.Before.countP_le h _

namespace Machine

theorem exists_done (m : Machine) :
    ∃ i ≤ m.weight, (step^[i] m).stack = [] ∧ ∀ i' < i, (step^[i'] m).stack ≠ [] := by
  induction hw : m.weight using Nat.strong_induction_on generalizing m with
  | h w ih =>
    by_cases hs : m.stack = []
    · exact ⟨0, Nat.zero_le _, hs, by simp⟩
    · have hlt := weight_step_lt hs
      obtain ⟨i, hle, hi, hbefore⟩ := ih _ (hw ▸ hlt) m.step rfl
      refine ⟨i + 1, by omega, hi, fun i' hi' ↦ ?_⟩
      cases i' with
      | zero => exact hs
      | succ i' => exact hbefore i' (Nat.lt_of_succ_lt_succ hi')

/-- Every operation comes to its end, however the graph is wired and in the middle of whatever it begins. On
the way, what waits at a barrier is entered as often as the barrier closes: once at most, and only if the
barrier was open when the operation began, or was made since. The barrier is closed before its waiter is
entered, so no node is started or abandoned, and no terminal called, a second time. -/
theorem Reachable.cascade_ends {m n : Machine} (hm : m.Reachable) (hn : Later m n) :
    (m.stack = [] → ∀ f l, Later m (Scenario.report m f l).2 ∧ (Scenario.report m f l).2.stack = []) ∧
    (∃ i ≤ n.weight, (step^[i] n).stack = [] ∧ ∀ i' < i, (step^[i'] n).stack ≠ []) ∧
    (∀ x, entrances x m.journal = m.world.closed x ∧ entrances x n.journal = n.world.closed x ∧
      m.world.closed x ≤ n.world.closed x ∧ n.world.closed x ≤ 1) ∧
    (∀ k, startings k n.journal + abandonings k n.journal ≤ entrances (.node k) n.journal) ∧
    (∀ t, callings t n.journal ≤ entrances (.terminal t) n.journal) ∧
    ∀ a b : Stage, Stage.Before ⟨none, m⟩ a → Stride a b → ∀ x,
      entrances x b.machine.journal = entrances x a.machine.journal + b.call.elim 0 (Call.entrances x) ∧
      ∀ c, b.call = some (.enter x c) →
        m.world.closed x = 0 ∧ a.machine.world.closed x = 0 ∧ b.machine.world.closed x = 1 := by
  have hr : Stage.Reached ⟨none, m⟩ := hm.reached
  have hrn : Stage.Reached ⟨none, n⟩ := hr.before hn.before
  refine ⟨fun hs f l ↦ ⟨.report hs f l, stack_finish _⟩, n.exists_done, fun x ↦ ?_, fun k ↦ ?_, fun t ↦ ?_, ?_⟩
  · exact ⟨hr.entrances_eq x, hrn.entrances_eq x, hn.before.closed_le hr x, World.closed_le _ x⟩
  · rw [hrn.entrances_eq (.node k)]
    exact hrn.decisions_le_closed k
  · rw [hrn.entrances_eq (.terminal t)]
    exact hrn.callings_le_closed t
  · intro a b ha hs x
    refine ⟨hs.entrances_eq x, fun c hc ↦ ?_⟩
    obtain ⟨hopen, hclosed⟩ := hs.entered hc
    exact ⟨Nat.eq_zero_of_le_zero (hopen ▸ ha.closed_le hr x), hopen, hclosed⟩

end Machine

/-- A failure abandons the node behind it and calls the terminal behind both, each once. -/
theorem Sample.failure_cascade_ends :
    (machine 8).stack = [] ∧
    entrances (.node ⟨"c", 0⟩) (machine 7).journal = 0 ∧ entrances (.node ⟨"c", 0⟩) (machine 8).journal = 1 ∧
    entrances (.terminal ⟨"t", 0⟩) (machine 7).journal = 0 ∧ entrances (.terminal ⟨"t", 0⟩) (machine 8).journal = 1 ∧
    entrances (.node ⟨"b", 0⟩) (machine 7).journal = 1 ∧ entrances (.node ⟨"b", 0⟩) (machine 8).journal = 1 := by
  have hs : (machine 7).stack = [] := Machine.stack_play rfl _
  obtain ⟨hline, -, hclosed, -⟩ := (reachable 7).cascade_ends
    (n := machine 8) (.report hs {} ⟨"failure", false, .report (some "a") ⟨.failure, some .null⟩⟩)
  have before (x : Waiter) := (hclosed x).1
  have after (x : Waiter) := (hclosed x).2.1
  rw [before, before, before, after, after, after]
  exact ⟨(hline hs {} ⟨"failure", false, .report (some "a") ⟨.failure, some .null⟩⟩).2, by decide +kernel⟩

end ActivityGraph
