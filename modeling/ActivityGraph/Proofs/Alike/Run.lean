import ActivityGraph.Proofs.Alike.Action

namespace ActivityGraph

def Scenario.after (m : Machine) (f : Frame) : Script → Machine
  | [] => m
  | l :: ls => after (report m f l).2 { f with register := m.registerAfter f l.action } ls

namespace Machine

theorem run_of_empty {m : Machine} (h : m.stack = []) (i : Nat) : run i m = m := by
  cases i with
  | zero => rfl
  | succ i => simp [run, h]

theorem run_succ {m : Machine} (h : m.stack ≠ []) (i : Nat) : run (i + 1) m = run i m.step := by
  simp [run, h]

theorem run_add (m : Machine) (i j : Nat) : run (i + j) m = run j (run i m) := by
  induction i generalizing m with
  | zero => rw [Nat.zero_add, run]
  | succ i ih =>
    by_cases h : m.stack = []
    · rw [run_of_empty h, run_of_empty h, run_of_empty h]
    · rw [Nat.succ_add, run_succ h, run_succ h, ih]

theorem finish_eq {m : Machine} {i : Nat} (h : (run i m).stack = []) : m.finish = run i m := by
  rcases Nat.le_total i m.weight with hi | hi
  · rw [finish, ← Nat.add_sub_cancel' hi, run_add, run_of_empty h]
  · rw [← Nat.add_sub_cancel' hi, run_add, run_of_empty (stack_run (Nat.le_refl _)), finish]

theorem step_of_stack {m : Machine} {t : Task} {ts : List Task} (h : m.stack = t :: ts) :
    m.step = ({ m with stack := ts }).perform t := by
  rw [step, h]

def upcoming (m : Machine) : Option (Line Action) :=
  match m.stack with
  | .script _ (l :: _) _ :: _ => some l
  | _ => none

def nextDeeds (m : Machine) : List Event := m.upcoming.elim [] fun l ↦ m.deeds l.action

theorem nextDeeds_eq_nil {m : Machine} {t : Task} {ts : List Task} (hm : m.stack = t :: ts)
    (ht : t.scripted = false) : m.nextDeeds = [] := by
  rw [nextDeeds, upcoming, hm]
  cases t with
  | script => simp [Task.scripted] at ht
  | _ => rfl

theorem deeds_stack (m : Machine) (ts : List Task) (a : Action) :
    Machine.deeds { m with stack := ts } a = m.deeds a := by
  cases a <;> rfl

theorem deeds_push (m : Machine) (t : Task) (a : Action) : (m.push t).deeds a = m.deeds a := deeds_stack m _ a

theorem Alike.registerAfter {L : Lens} {q p m n : Machine} {old : Bool} {d : List Event}
    (h : Alike L q p old d m n) (f : Frame) {a b : Action} (hab : Action.Alike L f.home a b) :
    n.registerAfter f b = m.registerAfter f a := by
  cases hab with
  | plain ha own sees =>
    cases a with
    | change how o =>
      simp only [Machine.registerAfter, h.operand (o := o) own sees]
    | _ => rfl
  | _ => rfl

/-- An action that only writes a slot writes it at once or not at all, and has nothing left to do but to answer. -/
theorem act_stores {m n : Machine} {f : Frame} {c : Caller} {a : Action} (ha : a.stores) (h : m.act f c a = .ok n) :
    ∃ g x, n = g.push (.answer c (.now x)) ∧ (g = m ∨ ∃ k y r, m.store none k y r = .ok g) := by
  cases a with
  | insert id key r =>
    obtain ⟨⟨k, col⟩, -, h⟩ := bind_ok h
    obtain ⟨y, -, h⟩ := bind_ok h
    split at h
    · exact ⟨m, _, (Except.ok.inj h).symm, .inl rfl⟩
    · next g hg => exact ⟨g, _, (Except.ok.inj h).symm, .inr ⟨_, _, _, hg⟩⟩
  | set id key r =>
    obtain ⟨⟨v, col⟩, -, h⟩ := bind_ok h
    obtain ⟨y, -, h⟩ := bind_ok h
    split at h
    · split at h
      · exact ⟨m, _, (Except.ok.inj h).symm, .inl rfl⟩
      · next g hg => exact ⟨g, _, (Except.ok.inj h).symm, .inr ⟨_, _, _, hg⟩⟩
    · exact ⟨m, _, (Except.ok.inj h).symm, .inl rfl⟩
  | _ => simp [Action.stores] at ha

namespace Alike

variable {L : Lens} {q p m n : Machine} {old : Bool} {d : List Event}

theorem store_right (h : Alike L q p old d m n) (hb : L.blind) {k : Key} {x : Activity} {r : Outcome} {g : Machine}
    (hg : n.store none k x r = .ok g) : Alike L q p old d m g ∧ g.stack = n.stack := by
  unfold Machine.store at hg
  split at hg
  · simp at hg
  · next w hw =>
    obtain rfl := Except.ok.inj hg
    have hs : L.hears (.wrote none k x r) = false := by simp [Lens.hears, Event.spoken, hb]
    exact ⟨{ h with world := h.world.store_right hb hw, journal := h.journal.unheard_right hs }, rfl⟩

theorem conclude_right (h : Alike L q p old d m n) (hb : L.blind) (c : Caller) (a : Answer) :
    Alike L q p old d m (n.conclude c a) := by
  have hs : Alike L q p old d m { n with answer := a } := { h with answer := by simp [hb] }
  unfold Machine.conclude
  split
  · exact { hs with journal := hs.journal.unheard_right (hears_replied hb c.verb a) }
  · exact hs

theorem answer_right (h : Alike L q p old d m n) (hb : L.blind) (c : Caller) (a : Answer) :
    Alike L q p old d m (n.push (.answer c (.now a))).step ∧ (n.push (.answer c (.now a))).step.stack = n.stack :=
  ⟨h.conclude_right hb c a, by
    show (n.conclude c a).stack = n.stack
    unfold Machine.conclude
    split <;> rfl⟩

theorem execute_right (h : Alike L q p old d m n) (hb : L.blind) (f : Frame) {l : Line Action} (hl : l.action.stores) :
    ∃ g x, n.execute f l = g.push (.answer ⟨f.owner, l.verb⟩ (.now x)) ∧
      Alike L q p old d (if l.caught then m.push (.guard ⟨f.owner, l.verb⟩) else m) g ∧
      g.stack = (if l.caught then [.guard ⟨f.owner, l.verb⟩] else []) ++ n.stack := by
  have hg : Alike L q p old d (if l.caught then m.push (.guard ⟨f.owner, l.verb⟩) else m)
      (if l.caught then n.push (.guard ⟨f.owner, l.verb⟩) else n) := by
    split
    · exact h.push .guard
    · exact h
  have hs : (if l.caught then n.push (.guard ⟨f.owner, l.verb⟩) else n).stack =
      (if l.caught then [.guard ⟨f.owner, l.verb⟩] else []) ++ n.stack := by
    split <;> rfl
  unfold Machine.execute
  dsimp only
  split
  · next g hact =>
    obtain ⟨g, x, rfl, rfl | ⟨k, y, r, hst⟩⟩ := act_stores hl hact
    · exact ⟨_, x, rfl, hg, hs⟩
    · obtain ⟨h', hs'⟩ := hg.store_right hb hst
      exact ⟨g, x, rfl, h', hs'.trans hs⟩
  · exact ⟨_, _, rfl, hg, hs⟩

theorem stores_right (h : Alike L q p old d m n) (hb : L.blind) (f : Frame) {l : Line Action} (hl : l.action.stores) :
    ∃ i, Alike L q p old d m (run i (n.execute f l)) ∧ (run i (n.execute f l)).stack = n.stack := by
  obtain ⟨g, x, he, hg, hs⟩ := h.execute_right hb f hl
  obtain ⟨hstep, hstack⟩ := hg.answer_right hb ⟨f.owner, l.verb⟩ x
  rw [he]
  cases hc : l.caught with
  | false =>
    simp only [hc, Bool.false_eq_true, if_false, List.nil_append] at hstep hs
    refine ⟨1, ?_⟩
    rw [run_succ (by simp [Machine.push]), run]
    exact ⟨hstep, hstack.trans hs⟩
  | true =>
    simp only [hc, if_true, List.singleton_append] at hstep hs
    refine ⟨2, ?_⟩
    rw [run_succ (by simp [Machine.push]), run_succ (by simp [hstack, hs]), run, step_of_stack (hstack.trans hs)]
    exact ⟨hstep.withStack old h.stack (by simp [Machine.push, Task.answers]), rfl⟩

/-- The second side catches up with what only it has to do before the next task of both. -/
theorem catch_up (h : Alike L q p old d m n) {f : Frame} {s t : Script} {e g : Exit} {ts us : List Task}
    (hm : m.stack = .script f s e :: ts) (hn : n.stack = .script f t g :: us) (hst : Script.Alike L f.home s t) :
    ∃ i t', Alike L q p old d m (run i n) ∧ (run i n).stack = .script f t' g :: us ∧
      (s = [] ∧ t' = [] ∨ ∃ verb caught a b s' t'', s = ⟨verb, caught, a⟩ :: s' ∧ t' = ⟨verb, caught, b⟩ :: t'' ∧
        Action.Alike L f.home a b ∧ Script.Alike L f.home s' t'') := by
  induction t generalizing n with
  | nil =>
    cases hst with
    | nil => exact ⟨0, [], h, hn, .inl ⟨rfl, rfl⟩⟩
  | cons l t ih =>
    cases hst with
    | cons ha hs => exact ⟨0, _, h, hn, .inr ⟨_, _, _, _, _, _, rfl, rfl, ha, hs⟩⟩
    | extra hb hl hs =>
      have hstack := h.stack
      rw [hm, hn] at hstack
      obtain ⟨he, hts⟩ := List.forall₂_cons.1 hstack
      have he : Exit.Alike L e g := by
        cases he with
        | script _ he => exact he
      -- the line is off the stack, and what is left is as before
      have h' : Alike L q p old d m { n with stack := .script f t g :: us } := by
        have hst : List.Forall₂ (Task.Alike L) m.stack (.script f t g :: us) := hm ▸ .cons (.script hs he) hts
        exact h.withStack old hst id
      obtain ⟨i, hi, hsi⟩ := h'.stores_right hb f hl
      have hstep : n.step = Machine.execute { n with stack := .script f t g :: us } f l := by
        rw [step_of_stack hn]
        obtain ⟨verb, caught, a⟩ := l
        cases a <;> first | rfl | simp [Action.stores] at hl
      obtain ⟨j, t', hj, hsj, hor⟩ := ih hi hsi hs
      refine ⟨1 + i + j, t', ?_, ?_, hor⟩
      all_goals rw [run_add, run_add, run_succ (by simp [hn]), run, hstep]
      · exact hj
      · exact hsj

theorem perform {t u : Task} (h : Alike L q p (old || t.answers) d m n) (htu : Task.Alike L t u)
    (ht : t.scripted = false) : Alike L q p old d (m.perform t) (n.perform u) := by
  have popped (ht : t.answers = false) : Alike L q p old d m n := by rwa [ht, Bool.or_false] at h
  cases htu with
  | script => simp [Task.scripted] at ht
  | answer hr =>
    refine h.conclude _ fun hb ↦ ?_
    obtain ⟨rfl, hown⟩ := hr hb
    exact h.settle_reply hown
  | guard => exact popped rfl
  | contain _ => exact popped rfl
  | keep hid hk => exact (popped rfl).keep hid hk
  | relinquish hid => exact (popped rfl).dropCompletion hid
  | fire hk =>
    refine (popped rfl).modifyTerminal hk fun t u htu ↦ ⟨by rw [htu.shell], htu.callback, ?_, htu.view⟩
    exact htu.collector
  | @deliver s canceled xs hs hxs =>
    cases xs with
    | nil => exact popped rfl
    | cons x xs =>
      obtain ⟨hx, hxs⟩ := List.forall_mem_cons.1 hxs
      exact ((popped rfl).push (.deliver hs hxs)).tell hx s canceled
  | @attach x ss hx hss =>
    cases ss with
    | nil => exact popped rfl
    | cons s ss =>
      obtain ⟨hs, hss⟩ := List.forall_mem_cons.1 hss
      exact ((popped rfl).push (.attach hx hss)).listen hs hx
  | elapse hs => exact (popped rfl).elapse hs

/-- One step of the first side is one of the second, after some that are not seen; the first one does just
the deeds that are due. -/
theorem step (h : Alike L q p old d m n) : ∃ i, Alike L q p old (m.nextDeeds ++ d) m.step (run i n) := by
  cases hm : m.stack with
  | nil =>
    refine ⟨0, ?_⟩
    simpa [Machine.step, nextDeeds, upcoming, hm, Machine.run] using h
  | cons t ts =>
    obtain ⟨u, us, htu, hts, hn⟩ := List.forall₂_cons_left_iff.1 (hm ▸ h.stack)
    cases ht : t.scripted with
    | false =>
      refine ⟨1, ?_⟩
      rw [run_succ (by simp [hn]), run, step_of_stack hm, step_of_stack hn, nextDeeds_eq_nil hm ht]
      exact (h.withStack (old || t.answers) hts (by simp [hm, or_assoc])).perform htu ht
    | true =>
    cases htu with
    | @script f s s' e g hs he =>
      obtain ⟨i, t', h', hst, hor⟩ := h.catch_up hm hn hs
      refine ⟨i + 1, ?_⟩
      rw [run_add, run_succ (by simp [hst]), run, step_of_stack hm, step_of_stack hst]
      have hp : Alike L q p old d { m with stack := ts } { run i n with stack := us } :=
        h'.withStack old hts (by simp [hm, Task.answers])
      rcases hor with ⟨rfl, rfl⟩ | ⟨verb, caught, a, b, s, t, rfl, rfl, hab, hst⟩
      · have hd : m.nextDeeds = [] := by rw [nextDeeds, upcoming, hm, Option.elim_none]
        rw [hd]
        cases he with
        | nowhere => exact hp
        | job hk hij => exact hp.launch hk ⟨hij.preparators, hij.work.withRegister _⟩
      · have hd : m.nextDeeds = m.deeds a := by rw [nextDeeds, upcoming, hm, Option.elim_some]
        rw [hd]
        unfold Machine.perform
        dsimp only
        rw [hp.registerAfter f hab]
        have hx := (hp.push (.script (f := { f with register := Machine.registerAfter { m with stack := ts } f a })
          hst he)).execute old f verb caught hab
        rw [deeds_push, deeds_stack] at hx
        exact hx
    | _ => simp [Task.scripted] at ht

theorem run (h : Alike L q p old d m n) (i : Nat) : ∃ j d', Alike L q p old d' (run i m) (run j n) := by
  induction i generalizing m n d with
  | zero => exact ⟨0, d, h⟩
  | succ i ih =>
    by_cases hm : m.stack = []
    · exact ⟨0, d, by rwa [run_of_empty hm]⟩
    · obtain ⟨j, hj⟩ := h.step
      obtain ⟨k, d', hk⟩ := ih hj
      exact ⟨j + k, d', by rwa [run_succ hm, run_add]⟩

theorem finish (h : Alike L q p old d m n) : ∃ d', Alike L q p old d' m.finish n.finish := by
  obtain ⟨j, d', hj⟩ := h.run m.weight
  have hstack := hj.stack
  rw [show Machine.run m.weight m = m.finish from rfl] at hj hstack
  rw [stack_finish, List.forall₂_nil_left_iff] at hstack
  exact ⟨d', finish_eq hstack ▸ hj⟩

theorem start (h : Alike L q p old d m n) (late : Bool) (f : Frame) (verb : String) (caught : Bool)
    {a b : Action} (hab : Action.Alike L f.home a b) :
    Alike L q p late (m.deeds a ++ d) (Scenario.start m f ⟨verb, caught, a⟩)
      (Scenario.start n f ⟨verb, caught, b⟩) := by
  rw [← deeds_stack m [.guard ⟨f.owner, verb⟩]]
  exact (h.withStack true (.cons .guard .nil) fun _ ↦ rfl).execute late f verb caught hab

theorem report (h : Alike L q p old d m n) (late : Bool) (f : Frame) (verb : String) (caught : Bool)
    {a b : Action} (hab : Action.Alike L f.home a b) : ∃ d', Alike L q p late d'
      (Scenario.report m f ⟨verb, caught, a⟩).2 (Scenario.report n f ⟨verb, caught, b⟩).2 :=
  (h.start late f verb caught hab).finish

theorem answer_eq (h : Alike L q p false d m n) (hb : L.blind = false) (hm : m.stack = []) :
    n.answer = m.answer := by
  rcases h.answer hb with ha | ⟨-, ho⟩
  · exact ha
  · simp [hm] at ho

theorem journal_eq (h : Alike L q p old d m n) (hb : L.blind = false) :
    ∃ es, m.journal = es ++ q.journal ∧ n.journal = es ++ p.journal := by
  obtain ⟨es, fs, hm, hn, hf, -⟩ := h.journal
  have hears : L.hears = fun _ ↦ true := funext fun e ↦ by simp [Lens.hears, hb]
  rw [hears, List.filter_true, List.filter_true] at hf
  exact ⟨es, hm, hf ▸ hn⟩

theorem report_right (h : Alike L q p old d m n) (hb : L.blind) (hm : m.stack = []) (f : Frame) {l : Line Action}
    (hl : l.action.stores) : Alike L q p old d m (Scenario.report n f l).2 := by
  have hs : Alike L q p old d { m with stack := [.guard ⟨f.owner, l.verb⟩] }
      { n with stack := [.guard ⟨f.owner, l.verb⟩] } := h.withStack old (.cons .guard .nil) (by simp [hm, Task.answers])
  obtain ⟨i, hi, hstack⟩ := hs.stores_right hb f hl
  -- the guard of the line goes last
  have hlast : Machine.run (i + 1) (Scenario.start n f l) =
      { Machine.run i (Scenario.start n f l) with stack := [] } := by
    rw [run_add, run_succ (by simp [Scenario.start, hstack]), Machine.run, Scenario.start, step_of_stack hstack]
    rfl
  have hp := hi.withStack old .nil (by simp [Task.answers])
  rw [Scenario.report, finish_eq (i := i + 1) (by rw [hlast]), hlast]
  rwa [show m = { m with stack := [] } by rw [← hm]]

theorem after (h : Alike L q p old d m n) (hm : m.stack = []) (f : Frame) {s t : Script}
    (hst : Script.Alike L f.home s t) :
    ∃ d', Alike L q p old d' (Scenario.after m f s) (Scenario.after n f t) ∧ (Scenario.after m f s).stack = [] := by
  induction t generalizing m n d f s with
  | nil =>
    cases hst with
    | nil => exact ⟨d, h, hm⟩
  | cons l t ih =>
    cases hst with
    | @cons _ verb caught a b s _ ha hs =>
      obtain ⟨d', h'⟩ := h.report old f verb caught ha
      have hr := h.registerAfter f ha
      simp only [Scenario.after, hr]
      exact ih h' (stack_finish _) _ hs
    | extra hb hl hs =>
      have hr : n.registerAfter f l.action = f.register := by
        cases ha : l.action with
        | insert | set => rfl
        | _ => simp [ha, Action.stores] at hl
      simp only [Scenario.after, hr]
      exact ih (h.report_right hb hm f hl) hm _ hs

end Alike

end Machine

end ActivityGraph
