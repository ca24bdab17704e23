import ActivityGraph.Proofs.Calls

namespace ActivityGraph

theorem Task.calls_stack (m : Machine) (ts : List Task) (x : Waiter) (t : Task) :
    t.calls { m with stack := ts } x = t.calls m x := by
  cases t with
  | script f ls e =>
    cases ls with
    | nil => rfl
    | cons l ls =>
      obtain ⟨verb, caught, a⟩ := l
      cases a <;> rfl
  | _ => rfl

namespace Machine

/-- The calls on the barrier of a waiter that are made in a run, first ones first. -/
inductive Calls (x : Waiter) (m : Machine) : List Barrier.Call → Machine → Prop
  | refl : Calls x m [] m
  | step {cs n t ts} (h : Calls x m cs n) (hs : n.stack = t :: ts) : Calls x m (cs ++ t.calls n x) n.step
  | line {cs n} (h : Calls x m cs n) (hs : n.stack = []) (f : Frame) (l : Line Action) :
      Calls x m (cs ++ l.action.calls n x) (Scenario.start n f l)

namespace Calls

variable {m n : Machine} {x : Waiter} {cs : List Barrier.Call}

theorem later (h : Calls x m cs n) : Later m n := by
  induction h with
  | refl => exact .refl
  | step h hs ih => exact ih.tail (.step (by simp [hs]))
  | line h hs f l ih => exact ih.tail (.line hs f l)

theorem of_later (h : Later m n) (x : Waiter) : ∃ cs, Calls x m cs n := by
  induction h with
  | refl => exact ⟨[], .refl⟩
  | @tail n p h hn ih =>
    obtain ⟨cs, hcs⟩ := ih
    cases hn with
    | step hs =>
      cases ht : n.stack with
      | nil => exact absurd ht hs
      | cons t ts => exact ⟨_, hcs.step ht⟩
    | line hs f l => exact ⟨_, hcs.line hs f l⟩

theorem plays (h : Calls x m cs n) (hm : m.Reachable) : Plays x cs m n := by
  induction h with
  | refl => exact .refl x m
  | @step cs n t ts h hs ih =>
    have hw : ({ n with stack := ts } : Machine).world.Sound := (hm.later h.later).reached.sound
    have hperform := plays_perform hw t x
    rw [Task.calls_stack] at hperform
    rw [step_of_stack hs]
    exact ih.trans (hperform.after rfl rfl)
  | @line cs n h hs f l ih =>
    have hw : ({ n with stack := [.guard ⟨f.owner, l.verb⟩] } : Machine).world.Sound :=
      (hm.later h.later).reached.sound
    have hexecute := plays_execute hw f l x
    have hcalls : l.action.calls { n with stack := [.guard ⟨f.owner, l.verb⟩] } x = l.action.calls n x :=
      Task.calls_stack n _ x (.script f [l] .nowhere)
    rw [hcalls] at hexecute
    exact ih.trans (hexecute.after rfl rfl)

end Calls

def stepCalls (x : Waiter) : Nat → Machine → List Barrier.Call
  | 0, _ => []
  | i + 1, m =>
    match m.stack with
    | [] => []
    | t :: _ => t.calls m x ++ stepCalls x i m.step

def lineCalls (x : Waiter) : Machine → Script → List Barrier.Call
  | _, [] => []
  | m, l :: ls =>
    let n := Scenario.start m {} l
    l.action.calls m x ++ stepCalls x n.weight n ++ lineCalls x n.finish ls

namespace Calls

variable {m n : Machine} {x : Waiter} {cs : List Barrier.Call}

theorem run (h : Calls x m cs n) (i : Nat) : Calls x m (cs ++ stepCalls x i n) (n.run i) := by
  induction i generalizing n cs with
  | zero =>
    rw [stepCalls, List.append_nil]
    exact h
  | succ i ih =>
    rw [stepCalls, Machine.run]
    cases hs : n.stack with
    | nil =>
      rw [List.append_nil]
      exact h
    | cons t ts =>
      rw [← List.append_assoc]
      exact ih (h.step hs)

theorem play (h : Calls x m cs n) (hs : n.stack = []) (ls : Script) :
    Calls x m (cs ++ lineCalls x n ls) (n.play ls) := by
  induction ls generalizing n cs with
  | nil =>
    rw [lineCalls, List.append_nil]
    exact h
  | cons l ls ih =>
    rw [lineCalls, ← List.append_assoc, ← List.append_assoc]
    exact ih ((h.line hs {} l).run _) (stack_finish _)

end Calls

end Machine

def Call.crosses (x : Waiter) : Call → List Bool
  | .enter y canceled => if y = x then [canceled] else []
  | _ => []

theorem Call.crosses_eq_nil {c : Option Call} {x : Waiter} (h : ∀ d, c ≠ some (.enter x d)) :
    c.elim [] (Call.crosses x) = [] := by
  cases c with
  | none => rfl
  | some d =>
    cases d with
    | enter y e =>
      refine if_neg ?_
      rintro rfl
      exact h e rfl
    | _ => rfl

def Event.stirs : Event → Bool
  | .logged (.closed ..) | .logged (.opened ..) | .called .. => true
  | _ => false

theorem Event.crosses?_of_still {e : Event} (he : e.stirs = false) (x : Waiter) : e.crosses? x = none := by
  cases e with
  | logged e =>
    cases e with
    | closed | opened => simp [stirs] at he
    | _ => rfl
  | _ => rfl

theorem Event.answers?_of_still {e : Event} (he : e.stirs = false) (k : Key) : e.answers? k = none := by
  cases e with
  | called => simp [stirs] at he
  | _ => rfl

theorem crossings_cons (x : Waiter) (e : Event) (j : List Event) :
    crossings x (e :: j) = crossings x j ++ (e.crosses? x).toList := by
  cases h : e.crosses? x <;> simp [crossings, h]

theorem answers_cons (k : Key) (e : Event) (j : List Event) :
    answers k (e :: j) = answers k j ++ (e.answers? k).toList := by
  cases h : e.answers? k <;> simp [answers, h]

theorem answers_quiet {k : Key} {es : List Event} (h : ∀ e ∈ es, e.answers? k = none) (j : List Event) :
    answers k (es ++ j) = answers k j := by
  rw [answers, List.filterMap_append, List.filterMap_eq_nil_iff.2 h, List.nil_append, answers]

structure Stage.Still (a b : Stage) : Prop where
  journal : ∃ es, b.machine.journal = es ++ a.machine.journal ∧ ∀ e ∈ es, e.stirs = false
  after : ∀ x canceled, b.call ≠ some (.enter x canceled)
  lost : ∀ k canceled, a.call = some (.enter (.probe k) canceled) →
    ∀ p, a.machine.world.probes.get? k = some p → p.scripts = none

structure Stage.Crosses (a b : Stage) (x : Waiter) (canceled : Bool) : Prop where
  before : ∀ y c, a.call ≠ some (.enter y c)
  after : b.call = some (.enter x canceled)
  journal : ∃ e es, b.machine.journal = e :: (es ++ a.machine.journal) ∧ (∀ e ∈ es, e.stirs = false) ∧
    (∀ y, e.crosses? y = if x = y then some canceled else none) ∧ ∀ k, e.answers? k = none

structure Stage.Answers (a b : Stage) (k : Key) (canceled : Bool) : Prop where
  before : a.call = some (.enter (.probe k) canceled)
  after : b.call = none
  journal : b.machine.journal = .called k canceled :: a.machine.journal

theorem still_wired (x : Waiter) (ss : List Source) : ∀ e ∈ (ss.map (Event.wired x)).reverse, e.stirs = false := by
  simp [Event.stirs]

theorem still_asked (k : Key) (as : List Asked) : ∀ e ∈ (as.map (Event.asked k)).reverse, e.stirs = false := by
  simp [Event.stirs]

theorem still_tellings (x : Waiter) (s : Option Source) (c : Bool) :
    ∀ e ∈ Machine.tellings x s c, e.stirs = false := by
  cases s <;> simp [Machine.tellings, Event.stirs]

/-- A stride enters what waits at one barrier, or calls one probe, or does neither. -/
theorem Stride.stirs {a b : Stage} (hs : Stride a b) :
    a.Still b ∨ (∃ x canceled, a.Crosses b x canceled) ∨ ∃ k canceled, a.Answers b k canceled := by
  cases hs with
  | closed =>
    exact .inr (.inl ⟨_, _, by simp, rfl, _, _, rfl, still_tellings _ _ _, fun y ↦ rfl, fun k ↦ rfl⟩)
  | opened =>
    exact .inr (.inl ⟨_, _, by simp, rfl, _, [], rfl, by simp, fun y ↦ rfl, fun k ↦ rfl⟩)
  | call => exact .inr (.inr ⟨_, _, rfl, rfl, rfl⟩)
  | lost hc =>
    refine .inl ⟨⟨[], rfl, by simp⟩, by simp, ?_⟩
    rintro k canceled h
    obtain rfl := Option.some.inj h
    exact hc
  | @note m e he =>
    refine .inl ⟨⟨[e], rfl, ?_⟩, by simp, by simp⟩
    cases e <;> simp_all [Event.mute, Event.stirs]
  | addNode =>
    refine .inl ⟨⟨_ ++ [_], (Machine.journal_addNode ..).trans (List.append_cons ..), ?_⟩, by simp, by simp⟩
    exact List.forall_mem_append.2 ⟨still_wired _ _, by simp [Event.stirs]⟩
  | addTerminal | addRoot =>
    refine .inl ⟨⟨_ ++ [_], (Machine.journal_placeTerminal ..).trans (List.append_cons ..), ?_⟩, by simp, by simp⟩
    exact List.forall_mem_append.2 ⟨still_wired _ _, by simp [Event.stirs]⟩
  | @relinquish m c id k hc =>
    have hnone (x : Waiter) (canceled : Bool) : c ≠ some (.enter x canceled) := by
      intro h
      rcases hc _ h with ⟨f, hf⟩ | ⟨k, body, hold, r, hf⟩ <;> simp at hf
    exact .inl ⟨⟨[_], rfl, by simp [Event.stirs]⟩, hnone, fun k canceled h ↦ absurd h (hnone _ canceled)⟩
  | astray | refused | arrived => exact .inl ⟨⟨_, rfl, still_tellings _ _ _⟩, by simp, by simp⟩
  | broken | completed =>
    refine .inl ⟨⟨_ :: (_ ++ [_]), congrArg (_ :: ·) (List.append_cons ..), ?_⟩, by simp, by simp⟩
    exact List.forall_mem_cons.2 ⟨rfl, List.forall_mem_append.2 ⟨still_asked _ _, by simp [Event.stirs]⟩⟩
  | @announce m k n g =>
    refine .inl ⟨⟨_, rfl, ?_⟩, by simp, by simp⟩
    split <;> simp [Event.stirs]
  | @unwound m f t =>
    refine .inl ⟨⟨_, rfl, ?_⟩, by simp, by simp⟩
    simp [Event.stirs]
  | insert | addCollector | addStart | attach | timer | listen | replayed | prepare | stored | unstored | ran | abandon =>
    exact .inl ⟨⟨[_], rfl, by simp [Event.stirs]⟩, by simp, by simp⟩
  | depend | join | start | timed => exact .inl ⟨⟨[_, _], rfl, by simp [Event.stirs]⟩, by simp, by simp⟩
  | _ => exact .inl ⟨⟨[], rfl, by simp⟩, by simp, by simp⟩

theorem Stride.crossings_eq {a b : Stage} (hs : Stride a b) (x : Waiter) :
    crossings x b.machine.journal = crossings x a.machine.journal ++ b.call.elim [] (Call.crosses x) := by
  rcases hs.stirs with h | ⟨y, canceled, h⟩ | ⟨k, canceled, h⟩
  · obtain ⟨es, hj, hes⟩ := h.journal
    rw [hj, Call.crosses_eq_nil (h.after x), List.append_nil]
    exact crossings_quiet (fun e he ↦ e.crosses?_of_still (hes e he) x) _
  · obtain ⟨e, es, hj, hes, he, -⟩ := h.journal
    have hquiet := crossings_quiet (fun e he ↦ e.crosses?_of_still (hes e he) x) a.machine.journal
    rw [hj, h.after, crossings_cons, hquiet, he]
    refine congrArg _ ?_
    simp only [Option.elim_some, Call.crosses]
    split <;> rfl
  · rw [h.journal, h.after]
    exact (List.append_nil _).symm

theorem Stride.answers_eq {a b : Stage} (hs : Stride a b) (k : Key) :
    answers k b.machine.journal = answers k a.machine.journal ++ a.call.elim [] (Call.crosses (.probe k)) ∨
    ∃ canceled, a.call = some (.enter (.probe k) canceled) ∧
      ∀ p, a.machine.world.probes.get? k = some p → p.scripts = none := by
  rcases hs.stirs with h | ⟨y, canceled, h⟩ | ⟨l, canceled, h⟩
  · by_cases hc : ∃ canceled, a.call = some (.enter (.probe k) canceled)
    · obtain ⟨canceled, hc⟩ := hc
      exact .inr ⟨canceled, hc, h.lost k canceled hc⟩
    · left
      obtain ⟨es, hj, hes⟩ := h.journal
      rw [hj, Call.crosses_eq_nil (not_exists.1 hc), List.append_nil]
      exact answers_quiet (fun e he ↦ e.answers?_of_still (hes e he) k) _
  · left
    obtain ⟨e, es, hj, hes, -, he⟩ := h.journal
    have hquiet := answers_quiet (fun e he ↦ e.answers?_of_still (hes e he) k) a.machine.journal
    rw [hj, Call.crosses_eq_nil (h.before _), List.append_nil, answers_cons, hquiet, he]
    exact List.append_nil _
  · left
    rw [h.journal, h.before, answers_cons]
    refine congrArg _ ?_
    simp only [Event.answers?, Option.elim_some, Call.crosses, Waiter.probe.injEq]
    split <;> rfl

def World.Unscripted (w : World) (k : Key) : Prop := ∃ p, w.probes.get? k = some p ∧ p.scripts = none

theorem Stride.unscripted {a b : Stage} (hs : Stride a b) {k : Key} (h : b.machine.world.Unscripted k) :
    a.machine.world.Unscripted k ∨ answers k b.machine.journal ≠ [] := by
  cases hs with
  | insert hw | stored _ hw =>
    obtain ⟨t, -, rfl⟩ := World.store_eq hw
    exact .inl h
  | @addNode m _ a c deps i s work =>
    obtain ⟨t, -, he⟩ := m.addNode_eq i a c deps s work
    rw [he] at h
    exact .inl h
  | @addTerminal m c deps id body =>
    obtain ⟨t, -, he⟩ := m.placeTerminal_eq id c deps body
    rw [he] at h
    exact .inl h
  | @addRoot m c id body =>
    obtain ⟨t, -, he⟩ := m.placeTerminal_eq id c [] body
    rw [he] at h
    exact .inl h
  | @depend m k s b c =>
    obtain ⟨t, -, he⟩ := (m.world.setBarrier (.node k) c).drawEdge_eq s (.node k)
    rw [he] at h
    exact .inl h
  | @addProbe m id name count invoke cancel =>
    obtain ⟨p, hp, hn⟩ := h
    have hget : (m.world.probes.insert (m.world.probes.fresh id) ⟨name, some (invoke, cancel)⟩).get? k = some p := hp
    rw [Table.get?_insert, Option.or_eq_some_iff] at hget
    rcases hget with hget | ⟨-, hget⟩
    · exact .inl ⟨p, hget, hn⟩
    · split at hget
      · simp [← Option.some.inj hget] at hn
      · simp at hget
  | @call m l p i u canceled hl hp =>
    by_cases hk : l = k
    · right
      simp [answers_cons, Event.answers?, hk]
    · left
      obtain ⟨q, hq, hn⟩ := h
      exact ⟨q, (Table.get?_modify_of_ne _ hk _).symm.trans hq, hn⟩
  | _ => exact .inl h

structure Stage.Answered (a : Stage) (k : Key) : Prop where
  crossings : crossings (.probe k) a.machine.journal =
    answers k a.machine.journal ++ a.call.elim [] (Call.crosses (.probe k))
  unscripted : a.machine.world.Unscripted k → answers k a.machine.journal ≠ []

theorem length_crossings (x : Waiter) (j : List Event) : (crossings x j).length = entrances x j := by
  rw [crossings, List.length_reverse, List.length_filterMap_eq_countP]
  refine List.countP_congr fun e _ ↦ ?_
  cases e with
  | logged e => cases e <;> simp [Event.crosses?, Event.closes]
  | _ => simp [Event.crosses?, Event.closes]

theorem Stage.Reached.length_crossings {a : Stage} (h : a.Reached) (x : Waiter) :
    (ActivityGraph.crossings x a.machine.journal).length = a.machine.world.closed x := by
  rw [ActivityGraph.length_crossings, h.entrances_eq]

theorem Stage.Answered.unspent {a : Stage} {k : Key} (ha : a.Answered k) (h : a.Reached) {canceled : Bool}
    (hc : a.call = some (.enter (.probe k) canceled)) :
    ∃ p, a.machine.world.probes.get? k = some p ∧ p.scripts ≠ none := by
  have hcrossings := ha.crossings
  have hone : Call.crosses (.probe k) (.enter (.probe k) canceled) = [canceled] := if_pos rfl
  rw [hc, Option.elim_some, hone] at hcrossings
  have hlength := h.length_crossings (.probe k)
  rw [hcrossings, List.length_append, List.length_singleton] at hlength
  -- nothing goes on twice, and this time is not answered yet
  have hle := a.machine.world.closed_le (.probe k)
  have hnone : answers k a.machine.journal = [] := List.length_eq_zero_iff.1 (by omega)
  have hbarrier : ∃ b, a.machine.world.barriers.get? (.probe k) = some b := by
    rw [← Option.ne_none_iff_exists']
    intro hb
    simp [World.closed, hb] at hlength
  have hkey := (h.sound.probe k).1 (Table.isSome_get?_iff.1 (Option.isSome_iff_exists.2 hbarrier))
  obtain ⟨p, hp⟩ := Option.isSome_iff_exists.1 (Table.isSome_get?_iff.2 hkey)
  exact ⟨p, hp, fun hn ↦ ha.unscripted ⟨p, hp, hn⟩ hnone⟩

theorem Stride.answered {a b : Stage} (hs : Stride a b) {k : Key} (ha : a.Answered k) (h : a.Reached) :
    b.Answered k := by
  have hanswers : answers k b.machine.journal =
      answers k a.machine.journal ++ a.call.elim [] (Call.crosses (.probe k)) := by
    rcases hs.answers_eq k with he | ⟨canceled, hc, hnone⟩
    · exact he
    · obtain ⟨p, hp, hn⟩ := ha.unspent h hc
      exact absurd (hnone p hp) hn
  refine ⟨?_, fun hb ↦ ?_⟩
  · rw [hs.crossings_eq, ha.crossings, hanswers]
  · rcases hs.unscripted hb with hb | hb
    · rw [hanswers]
      exact List.append_ne_nil_of_left_ne_nil (ha.unscripted hb) _
    · exact hb

theorem Stage.Reached.answered {a : Stage} (h : a.Reached) (k : Key) : a.Answered k :=
  h.invariant (P := fun a ↦ a.Answered k) (fun _ ↦ ⟨rfl, fun ⟨p, hp, _⟩ ↦ by simp [Table.get?] at hp⟩)
    fun _ _ ha ih hs ↦ hs.answered ih ha

namespace Machine

/-- The law of barriers. Whatever a run does to the barrier of a waiter, which starts with a count, comes
down to the calls it makes there: those that scripts make, those that are set off when what waits goes
on, and those whose refusal is caught. The count is what was expected less what arrived, and whoever asks
is told so. What waits goes on once at most, in the very call that releases the barrier or brings the
count to zero, and it goes on as canceled if a cancellation was among the arrivals. -/
theorem Reachable.barrier_law {m n : Machine} (hm : m.Reachable) (hn : Later m n) {x : Waiter} {count : Nat}
    (hb : m.world.barriers.get? x = some { remaining := count }) :
    let b : Barrier := { remaining := count }
    (∃ cs, Calls x m cs n) ∧
    (∀ cs, Calls x m cs n →
      n.world.barriers.get? x = some (b.play cs) ∧ crossings x n.journal = b.crossings cs ∧
      ∀ k, x = .probe k → answers k n.journal = b.crossings cs ∧
        n.settle (.barrier k) = .barrier (b.play cs).remaining (b.play cs).closed (n.world.describeBarrier x) ∧
        ∀ f id, n.desk.probes.get? id = some k → n.ask f (.peek id) = .ok (n.settle (.barrier k))) ∧
    (∀ cs, (b.play cs).remaining + (b.accepted cs).countP Barrier.Call.arrives =
        count + (b.accepted cs).count .expect ∧
      b.crossings cs = if (b.play cs).closed then [(b.accepted cs).any Barrier.Call.cancels] else []) ∧
    (∀ (p : Machine) (d : Barrier) c, p.world.barriers.get? x = some d →
      (d.take? c = none → ∃ f, p.apply x c = p.raise f) ∧
      ∀ d', d.take? c = some d' →
        d.crossing? c = none ∧ p.apply x c = (p.mapWorld fun w ↦ w.setBarrier x d') ∨
        ∃ canceled e, d.crossing? c = some canceled ∧
          p.apply x c = ((p.mapWorld fun w ↦ w.setBarrier x d').log e).enter x canceled) ∧
    (∀ cs c, (((b.play cs).take? c).isSome ↔ (b.play cs).closed = false ∧ c.Due (b.play cs).remaining) ∧
      (((b.play cs).crossing? c).isSome ↔ ((b.play cs).take? c).isSome ∧
        (c = .release ∨ c.arrives ∧ ((b.play cs).take c).remaining = 0)) ∧
      ∀ canceled, (b.play cs).crossing? c = some canceled →
        canceled = (b.accepted (cs ++ [c])).any Barrier.Call.cancels ∧ (c = .release → canceled = false)) ∧
    (∀ cs ds, (b.play cs).closed → b.play (cs ++ ds) = b.play cs ∧ b.accepted (cs ++ ds) = b.accepted cs) ∧
    ∀ cs batch batch' ds, batch.Perm batch' → (∀ c ∈ batch, c.arrives) → (b.play cs).closed = false →
      batch.length ≤ (b.play cs).remaining →
      b.play (cs ++ batch ++ ds) = b.play (cs ++ batch' ++ ds) ∧
      b.crossings (cs ++ batch ++ ds) = b.crossings (cs ++ batch' ++ ds) := by
  intro b
  have hsane : b.Sane := fun _ hcanceled ↦ absurd hcanceled Bool.false_ne_true
  -- the barrier is open, so nothing went on before
  have hstart : crossings x m.journal = [] := by
    have hlength := hm.reached.length_crossings x
    rw [World.closed, hb] at hlength
    exact List.length_eq_zero_iff.1 hlength
  refine ⟨Calls.of_later hn x, fun cs h ↦ ?_, fun cs ↦ ⟨b.remaining_play cs, ?_⟩, fun p d c hd ↦ ?_, fun cs c ↦ ?_,
    fun cs ds hc ↦ ⟨?_, Barrier.accepted_of_closed hc ds⟩, fun cs batch batch' ds hp harrive hc hle ↦ ?_⟩
  · obtain ⟨hbarrier, hcrossings⟩ := h.plays hm b hb
    rw [hstart, List.nil_append] at hcrossings
    refine ⟨hbarrier, hcrossings, ?_⟩
    rintro k rfl
    have hanswered := ((hm.later hn).reached.answered k).crossings
    refine ⟨?_, barrierAnswer_eq hbarrier, fun f _ hid ↦ ask_peek f hid⟩
    rw [← hcrossings, hanswered]
    exact (List.append_nil _).symm
  · rw [Barrier.crossings_eq hsane, Barrier.canceled_play]
    exact if_congr (and_iff_right rfl) rfl rfl
  · refine ⟨apply_refused hd, fun d' hd' ↦ ?_⟩
    rcases apply_accepted hd hd' with hquiet | ⟨canceled, e, he, -, ha⟩
    · exact .inl hquiet
    · exact .inr ⟨canceled, e, he, ha⟩
  · refine ⟨Barrier.take?_isSome_iff _ c, Barrier.crossing?_isSome_iff (hsane.play cs) c, fun canceled h ↦ ?_⟩
    refine ⟨Barrier.crossing?_eq_any hsane rfl h, ?_⟩
    rintro rfl
    exact Barrier.crossing?_release h
  · rw [Barrier.play_append, Barrier.play_of_closed hc]
  · have hplay : (b.play cs).play batch = (b.play cs).play batch' := Barrier.play_perm hc hp harrive hle
    have hcrossings : (b.play cs).crossings batch = (b.play cs).crossings batch' := by
      rw [Barrier.crossings_eq (hsane.play cs), Barrier.crossings_eq (hsane.play cs), hplay]
    constructor
    · simp only [Barrier.play_append, hplay]
    · simp only [Barrier.crossings_append, Barrier.play_append, hplay, hcrossings]

end Machine

namespace Sample

/-- A probe that, when it is canceled, tries to have one more arrival expected. -/
def gate : Machine := Machine.play {} [
  ⟨"probe", false, .probe "p" 1 "p" [] [⟨"expect", true, .expect "p"⟩]⟩]

def passage : Script := [
  ⟨"release", false, .release "p"⟩,
  ⟨"expect", false, .expect "p"⟩,
  ⟨"cancel", false, .arrive "p" true⟩,
  ⟨"signal", false, .arrive "p" false⟩,
  ⟨"signal", false, .arrive "p" false⟩]

theorem passage_barrier_law :
    gate.world.barriers.get? (.probe ⟨"p", 0⟩) = some { remaining := 1 } ∧
    Machine.Calls (.probe ⟨"p", 0⟩) gate
      [.release, .expect, .arrive true, .arrive false, .expect, .arrive false] (gate.play passage) ∧
    (gate.play passage).world.barriers.get? (.probe ⟨"p", 0⟩) = some ⟨0, true, true⟩ ∧
    answers ⟨"p", 0⟩ (gate.play passage).journal = [true] ∧
    (gate.play passage).ask {} (.peek "p") =
      .ok (.barrier 0 true ((gate.play passage).world.describeBarrier (.probe ⟨"p", 0⟩))) := by
  have hs : gate.stack = [] := Machine.stack_play rfl _
  have hreachable : gate.Reachable := ⟨_, .play rfl _⟩
  have hcalls := (Machine.Calls.refl (x := .probe ⟨"p", 0⟩)).play hs passage
  have hlist : Machine.lineCalls (.probe ⟨"p", 0⟩) gate passage =
      [.release, .expect, .arrive true, .arrive false, .expect, .arrive false] := by decide +kernel
  rw [List.nil_append, hlist] at hcalls
  have hfresh : gate.world.barriers.get? (.probe ⟨"p", 0⟩) = some { remaining := 1 } := by decide +kernel
  obtain ⟨-, hlaw, -⟩ := hreachable.barrier_law (.play hs passage) hfresh
  obtain ⟨hbarrier, -, hprobe⟩ := hlaw _ hcalls
  obtain ⟨hanswers, hsettle, hpeek⟩ := hprobe _ rfl
  have hplay : ({ remaining := 1 } : Barrier).play
      [.release, .expect, .arrive true, .arrive false, .expect, .arrive false] = ⟨0, true, true⟩ := by decide
  refine ⟨hfresh, hcalls, hbarrier.trans (congrArg some hplay), hanswers.trans (by decide), ?_⟩
  rw [hpeek {} "p" (by decide +kernel), hsettle, hplay]

end Sample

end ActivityGraph
