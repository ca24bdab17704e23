import ActivityGraph.Proofs.Preparation

namespace ActivityGraph

namespace Work

/-- A work is left with a value, which is a span if the work is a timer. -/
inductive Left : Work Script → Json → Work Script → Prop
  | script {body : Script} {hold : Bool} {old r : Json} : Left (.script body hold old) r (.script body hold r)
  | timer {after span : Duration} : Left (.timer after) (.int span.nanos) (.timer span)
  | spanless {after : Duration} {r : Json} (h : r.nat? = none) : Left (.timer after) r (.timer .zero)

theorem left_withRegister (w : Work Script) (r : Json) : w.Left r (w.withRegister r) := by
  cases w with
  | script => exact .script
  | timer after =>
    cases hr : r.nat? with
    | none =>
      rw [withRegister, hr]
      exact .spanless hr
    | some n =>
      obtain ⟨z, rfl⟩ : ∃ z, r = .int z := by
        cases r <;> simp [Json.nat?] at hr ⊢
      obtain rfl : z = n := Int.mem_toNat?.1 hr
      exact .timer

theorem left_register (w : Work Script) : w.Left w.register w := by
  cases w with
  | script => exact .script
  | timer => exact .timer

end Work

namespace Machine

/-- A run goes on and on, from each machine to one that comes next. -/
def Unfolds (t : Nat → Machine) : Prop := ∀ i, Next (t i) (t (i + 1))

/-- A preparator that was entered has executed some lines by some point, each on the value that the line before
left. In between, the run may do whatever it likes. -/
inductive Passes (t : Nat → Machine) (k : Key) (j : Job) (s : Nat) (r : Json) : Script → Nat → Json → Prop
  | enter : Passes t k j s r [] s r
  | line {front rest : Script} {l : Line Action} {e q : Nat} {v : Json} {ts : List Task}
      (before : Passes t k j s r front e v) (since : e ≤ q)
      (top : (t q).stack = .script ⟨some k.handle, v⟩ (l :: rest) (.job k j) :: ts) :
      Passes t k j s r (front ++ [l]) (q + 1) ((t q).registerAfter ⟨some k.handle, v⟩ l.action)

/-- Some preparators of a job have run from start to end, one after the other, and nothing else was done of the
job. The work has the value that the last of them left. -/
inductive Prepares (t : Nat → Machine) (k : Key) (w : Work Script) :
    List (Nat × Script) → List Labor → Work Script → Nat → Prop
  | none {s : Nat} (labors : labors k (t s).journal = []) : Prepares t k w [] [] w s
  | next {done rest : List (Nat × Script)} {as : List Labor} {v : Work Script} {s place e q : Nat} {code : Script}
      {r : Json} {u : Work Script} {ts : List Task} (before : Prepares t k w done as v s)
      (found : v.Left v.register v)
      (enters : labors k (t (s + 1)).journal = as ++ [.prepared place v.register])
      (passes : Passes t k ⟨rest, v⟩ (s + 1) v.register code e r) (since : e ≤ q)
      (leaves : (t q).stack = .script ⟨some k.handle, r⟩ [] (.job k ⟨rest, v⟩) :: ts)
      (left : v.Left r u) (labors : labors k (t q).journal = as ++ [.prepared place v.register]) :
      Prepares t k w (done ++ [(place, code)]) (as ++ [.prepared place v.register]) u q

/-- After some preparators of a job have run, the next one is entered, on the value that they left. -/
structure Enters (t : Nat → Machine) (k : Key) (w : Work Script) (ps done : List (Nat × Script)) (as : List Labor)
    (v : Work Script) (s place : Nat) (code : Script) (rest : List (Nat × Script)) : Prop where
  split : ps = done ++ (place, code) :: rest
  before : Prepares t k w done as v s
  enters : labors k (t (s + 1)).journal = as ++ [.prepared place v.register]
  begins : (t (s + 1)).Begins k ⟨(place, code) :: rest, v⟩

/-- After all preparators of a job have run, the work begins, on the value that they left. -/
structure Starts (t : Nat → Machine) (k : Key) (w : Work Script) (ps : List (Nat × Script)) (as : List Labor)
    (v : Work Script) (s : Nat) : Prop where
  before : Prepares t k w ps as v s
  starts : labors k (t (s + 1)).journal = as ++ v.labors
  begins : (t (s + 1)).Begins k ⟨[], v⟩

/-- How far a run has got with the job of a node. -/
inductive Preparation (t : Nat → Machine) (k : Key) (ps : List (Nat × Script)) (w : Work Script) (i : Nat) : Prop
  | waiting {n : Node} (node : (t i).world.nodes.get? k = some n) (job : n.job = some ⟨ps, w⟩)
      (labors : labors k (t i).journal = [])
  | abandoned (abandoned : 0 < abandonings k (t i).journal) (labors : labors k (t i).journal = [])
  | preparing {done rest : List (Nat × Script)} {as : List Labor} {v : Work Script} {s place e : Nat}
      {code front ls : Script} {r : Json} (entered : Enters t k w ps done as v s place code rest)
      (passes : Passes t k ⟨rest, v⟩ (s + 1) v.register front e r) (since : e ≤ i) (lines : code = front ++ ls)
      (inside : .script ⟨some k.handle, r⟩ ls (.job k ⟨rest, v⟩) ∈ (t i).stack)
      (labors : labors k (t i).journal = as ++ [.prepared place v.register])
  | broken {done rest : List (Nat × Script)} {as : List Labor} {v : Work Script} {s place : Nat} {code : Script}
      (entered : Enters t k w ps done as v s place code rest) (since : s < i)
      (fault : ∃ f, .unwound f (.preparation k) ∈ (t i).journal)
      (labors : labors k (t i).journal = as ++ [.prepared place v.register])
  | started {as : List Labor} {v : Work Script} {s : Nat} (started : Starts t k w ps as v s) (since : s < i)
      (labors : labors k (t i).journal = as ++ v.labors)

/-- The job of a node is gone, with the node as it was: nobody gets a completion, nothing behind the node goes on,
and no call can bring it back. -/
structure Spoiled (m : Machine) (k : Key) : Prop where
  unstarted : startings k m.journal = 0
  unheld : m.held k = 0
  pending : ∃ n, m.world.nodes.get? k = some n ∧ n.record = {}
  unresolved : m.world.final? (.node k) = none
  nodes : ∀ l, Behind m.journal k (.node l) →
    startings l m.journal = 0 ∧ abandonings l m.journal = 0 ∧ m.world.final? (.node l) = none
  terminals : ∀ u, Behind m.journal k (.terminal u) → callings u m.journal = 0 ∧ m.world.fired u = false
  refuses : ∀ (ts : List Task) (f : Frame) (c : Caller) (a : Action) (q : Request),
    (q = .begin k ∨ ∃ s, q = .depend k s) → m.request f a = .ok (some q) →
      ∃ n, Machine.act { m with stack := ts } f c a = .ok n ∧ Machine.Refused { m with stack := ts } c q n

section

variable {t : Nat → Machine} {k : Key} {ps : List (Nat × Script)} {w : Work Script} {i : Nat}

theorem Unfolds.later (ht : Unfolds t) {j : Nat} (h : i ≤ j) : Later (t i) (t j) := by
  induction h with
  | refl => exact .refl
  | step _ ih => exact ih.tail (ht _)

/-- Each step makes the machine lighter, so a run comes to rest again and again. -/
theorem Unfolds.rests (ht : Unfolds t) (i : Nat) : ∃ j, i ≤ j ∧ (t j).stack = [] := by
  generalize hw : (t i).weight = w
  induction w using Nat.strongRecOn generalizing i with
  | ind w ih =>
    by_cases hs : (t i).stack = []
    · exact ⟨i, Nat.le_refl i, hs⟩
    · have hlt : (t (i + 1)).weight < w := by
        have hn := ht i
        generalize t (i + 1) = n at hn
        cases hn with
        | line h => exact absurd h hs
        | step => exact hw ▸ weight_step_lt hs
      obtain ⟨j, hj, hs'⟩ := ih _ hlt (i + 1) rfl
      exact ⟨j, Nat.le_of_succ_le hj, hs'⟩

theorem Passes.le {j : Job} {s e : Nat} {r v : Json} {ls : Script} (h : Passes t k j s r ls e v) : s ≤ e := by
  induction h with
  | enter => exact Nat.le_refl s
  | line _ since _ ih => exact Nat.le_succ_of_le (Nat.le_trans ih since)

theorem Prepares.places_eq {as : List Labor} {v : Work Script} {s : Nat} (h : Prepares t k w ps as v s) :
    as.filterMap Labor.place? = ps.map Prod.fst := by
  induction h with
  | none => rfl
  | next _ _ _ _ _ _ _ _ ih => simp [ih, Labor.place?]

theorem Starts.places_eq {as : List Labor} {v : Work Script} {s : Nat} (h : Starts t k w ps as v s) :
    (as ++ v.labors).filterMap Labor.place? = ps.map Prod.fst := by
  rw [List.filterMap_append, h.before.places_eq]
  cases v <;> simp [Work.labors, Labor.place?]

theorem startings_pos {j : List Event} {as : List Labor} (h : labors k j = as ++ w.labors) : 0 < startings k j := by
  rw [startings_eq_count, h, List.count_pos_iff]
  cases w <;> simp [Work.labors]

theorem Reachable.invocations_of_abandoned {m : Machine} (hm : m.Reachable) (h : 0 < abandonings k m.journal) :
    invocations k m.journal = 0 := by
  have hr := hm.reached
  refine Nat.eq_zero_of_not_pos fun hi ↦ ?_
  simpa using (hr.invoked_shut hi).canceled_eq (hr.abandoned_shut h)

theorem Reachable.labors_of_unwound {m n : Machine} (hm : m.Reachable) (hn : Later m n) {f : Fault}
    (hf : .unwound f (.preparation k) ∈ m.journal) : labors k n.journal = labors k m.journal := by
  have hr := hm.reached
  have hk := hr.knows_of_invoked (hr.invoked_of_unwound hf)
  exact hn.before.labors_eq (hr.idle hn.before hk (hr.spilled hf).1).2.2

theorem Reachable.labors_of_started {m n : Machine} (hm : m.Reachable) (hn : Later m n)
    (hs : 0 < startings k m.journal) : labors k n.journal = labors k m.journal := by
  have hr := hm.reached
  have hi : 0 < invocations k m.journal := Nat.lt_of_lt_of_le hs (startings_le_invocations k m.journal)
  have hk : m.world.knows k = 1 := hr.knows_of_invoked hi
  have hle : Stage.before ⟨none, m⟩ k + (startings k m.journal + abandonings k m.journal) ≤ m.world.knows k :=
    hr.before_le k
  exact hn.before.labors_eq (hr.idle hn.before hk (by omega)).2.2

theorem Preparation.of_begins {done rest : List (Nat × Script)} {as : List Labor} {v : Work Script}
    (h : Prepares t k w done as v i) (hps : done ++ rest = ps)
    (hl : labors k (t (i + 1)).journal = as ++ Job.next ⟨rest, v⟩) (hb : (t (i + 1)).Begins k ⟨rest, v⟩) :
    Preparation t k ps w (i + 1) := by
  cases rest with
  | nil =>
    rw [List.append_nil] at hps
    exact .started ⟨hps ▸ h, hl, hb⟩ (Nat.lt_succ_self i) hl
  | cons p rest =>
    obtain ⟨place, code⟩ := p
    obtain ⟨ts, hs⟩ := id hb
    exact .preparing ⟨hps.symm, h, hl, hb⟩ .enter (Nat.le_refl _) rfl (hs ▸ List.mem_cons_self) hl

theorem Preparation.step (ht : Unfolds t) (hm : (t i).Reachable) (h : Preparation t k ps w i) :
    Preparation t k ps w (i + 1) := by
  have hlater : Later (t i) (t (i + 1)) := .single (ht i)
  cases h with
  | waiting node job hl =>
    rcases hm.waiting_cases (ht i) node job with ⟨hl', n, hn, hj⟩ | ⟨hl', hab⟩ | ⟨hl', hb⟩
    · exact .waiting hn hj hl'
    · exact .abandoned hab hl'
    · exact .of_begins (.none hl) (List.nil_append ps) hl' hb
  | abandoned hab hl =>
    have hab' := Nat.lt_of_lt_of_le hab (hlater.countP_le (Event.abandons k))
    have hm' := hm.later hlater
    exact .abandoned hab' (hm'.reached.labors_eq_nil (hm'.invocations_of_abandoned hab'))
  | @preparing done rest as v s place e code front ls r entered passes since lines inside hl =>
    have hsi : s < i := Nat.lt_of_lt_of_le passes.le since
    rcases hm.preparing_cases inside (ht i) with ⟨hl', hf⟩ | ⟨hl', hin⟩ | ⟨hl', l, ls', ts, rfl, htop, hin⟩ |
      ⟨rfl, ts, htop, hnext⟩
    · exact .broken entered (Nat.lt_succ_of_lt hsi) hf (hl'.trans hl)
    · exact .preparing entered passes (Nat.le_succ_of_le since) lines hin (hl'.trans hl)
    · refine .preparing entered (passes.line since htop) (Nat.le_refl _) ?_ hin (hl'.trans hl)
      rw [lines, List.append_assoc, List.singleton_append]
    · -- the preparator is over, so that the next one is entered or the work begins
      rw [List.append_nil] at lines
      subst lines
      have hprepares := Prepares.next entered.before v.left_register entered.enters passes since htop
        (v.left_withRegister r) hl
      refine .of_begins hprepares ?_ ?_ (hnext ▸ begins_launch ..)
      · rw [entered.split, List.append_assoc, List.singleton_append]
      · rw [hnext, labors_launch, ← hl]
  | broken entered since fault hl =>
    obtain ⟨f, hf⟩ := fault
    have hl' := hm.labors_of_unwound hlater hf
    exact .broken entered (Nat.lt_succ_of_lt since) ⟨f, hlater.suffix.subset hf⟩ (hl'.trans hl)
  | started started since hl =>
    have hl' := hm.labors_of_started hlater (startings_pos hl)
    exact .started started (Nat.lt_succ_of_lt since) (hl'.trans hl)

theorem Preparation.of_takes (hm : (t 0).Reachable) (ht : Unfolds t) {f : Frame} {l : Line Action} {id : String}
    {deps : List String} {setup : Option (List (Step Script))} {x : Activity} {c : Key} {ss : List Source}
    (hl : (t 0).Performs l id deps setup w x c ss) (hn : (t 0).Takes f l (t 1)) (hi : 0 < i) :
    Preparation t ((t 0).world.nodes.fresh id) ((setup.getD []).filterMap Step.prepare?) w i := by
  induction i, hi using Nat.le_induction with
  | base =>
    have hr := (hm.later (.single hn.next)).reached
    have hnode := hn.node hl hm
    have hjob : (newNode (t 0) x c (.ofSteps (setup.getD [])) w).job =
        some ⟨(setup.getD []).filterMap Step.prepare?, w⟩ := by
      rw [Setup.ofSteps_eq]
      rfl
    exact .waiting hnode hjob (hr.labors_eq_nil (hr.uninvoked_of_job hnode hjob))
  | succ i _ ih => exact ih.step ht (hm.later (ht.later (Nat.zero_le i)))

theorem Reachable.spoiled {m : Machine} (hm : m.Reachable) {g : Fault}
    (hf : .unwound g (.preparation k) ∈ m.journal) : m.Spoiled k := by
  have hr := hm.reached
  have hi : 0 < invocations k m.journal := hr.invoked_of_unwound hf
  obtain ⟨b, hb, hclosed, -⟩ := hr.invoked_shut hi
  obtain ⟨n, hn⟩ := Option.isSome_iff_exists.1 ((hr.sound.isSome_node k).symm.trans (Option.isSome_of_eq_some hb))
  obtain ⟨hst, hab⟩ := Nat.add_eq_zero_iff.1 (hr.spilled hf).2
  -- a node that was not started has no completion, so that it cannot report either
  have hduring : m.held k + 0 + (reportings k m.journal + droppings k m.journal) = startings k m.journal :=
    hr.during_eq k
  have hst : startings k m.journal = 0 := hst
  have hab : abandonings k m.journal = 0 := hab
  have hrep : reportings k m.journal = 0 := by omega
  have hrests : m.world.rests k = 0 := Nat.eq_zero_of_add_eq_zero_right (hr.after_eq_zero hab hrep)
  have hfinal : m.world.final? (.node k) = none := (World.final?_node hn).trans (World.signal_of_rests hn hrests)
  refine ⟨hst, by omega, ⟨n, hn, ?_⟩, hfinal, fun l hl ↦ ?_, fun u hu ↦ ?_, fun ts f c a q hq hreq ↦ ?_⟩
  · exact (hr.written hn).resolve_right (not_or.2 ⟨Nat.not_lt.2 (Nat.le_of_eq hab), Nat.not_lt.2 (Nat.le_of_eq hrep)⟩)
  · obtain ⟨hst, hab, -, hf⟩ := hr.still_node (hr.behind_open hfinal hl rfl)
    exact ⟨hst, hab, hf⟩
  · exact hr.still_terminal (hr.behind_open hfinal hu rfl)
  · have hforbids : m.Forbids q := by
      rcases hq with rfl | ⟨s, rfl⟩
      · exact (hr.denies_iff _).1 ⟨b, .closed, hb, by rw [Barrier.release, if_pos hclosed]⟩
      · exact .inl hi
    obtain ⟨p, hp, href, -⟩ := hm.refused_iff ts c hreq
    exact ⟨p, hp, href.2 hforbids⟩

theorem Preparation.of_unwound (h : Preparation t k ps w i) (hm : (t i).Reachable) {g : Fault}
    (hf : .unwound g (.preparation k) ∈ (t i).journal) :
    ∃ done as v s place code rest, Enters t k w ps done as v s place code rest ∧
      labors k (t i).journal = as ++ [.prepared place v.register] := by
  have hr := hm.reached
  have hi : 0 < invocations k (t i).journal := hr.invoked_of_unwound hf
  cases h with
  | waiting node job => exact absurd (hr.uninvoked_of_job node job) (Nat.ne_of_gt hi)
  | abandoned hab => exact absurd hab (Nat.not_lt.2 (Nat.le_of_eq (Nat.add_eq_zero_iff.1 (hr.spilled hf).2).2))
  | preparing _ _ _ _ inside =>
    have hle : 1 ≤ ((t i).stack.map (Task.prepares k)).sum :=
      Nat.le_trans (prepares_pos.2 ⟨_, _, _, rfl⟩) (prepares_le_sum inside)
    have hz := (hr.spilled hf).1
    rw [Stage.before_mk] at hz
    omega
  | broken entered _ _ hl => exact ⟨_, _, _, _, _, _, _, entered, hl⟩
  | started _ _ hl =>
    exact absurd (startings_pos hl) (Nat.not_lt.2 (Nat.le_of_eq (Nat.add_eq_zero_iff.1 (hr.spilled hf).2).1))

theorem Preparation.of_rest (h : Preparation t k ps w i) (hm : (t i).Reachable) (hs : (t i).stack = [])
    (hi : 0 < invocations k (t i).journal) (hf : ∀ g, .unwound g (.preparation k) ∉ (t i).journal) :
    ∃ as v s, Starts t k w ps as v s ∧ s < i ∧ labors k (t i).journal = as ++ v.labors := by
  have hr := hm.reached
  cases h with
  | waiting node job => exact absurd (hr.uninvoked_of_job node job) (Nat.ne_of_gt hi)
  | abandoned hab => exact absurd (hm.invocations_of_abandoned hab) (Nat.ne_of_gt hi)
  | preparing _ _ _ _ inside => simp [hs] at inside
  | broken _ _ fault =>
    obtain ⟨g, hg⟩ := fault
    exact absurd hg (hf g)
  | started started since hl => exact ⟨_, _, _, started, since, hl⟩

/-- The preparators of a node run in order, each once, and each on the value that the one before left; then its
work begins, on the value that the last one left. That is what a run has come to by the time it rests, as it does
again and again, if the node was invoked and no fault left a preparator. Whenever anything was done of the job,
the node has no dependencies, and was released, or they are all done. Nothing is done of it if the node is abandoned
or its barrier is not passed. A fault that leaves a preparator puts an end to the job, and to all behind the node. -/
theorem Reachable.preparators_run {f : Frame} {l : Line Action} {id : String} {deps : List String}
    {setup : Option (List (Step Script))} {x : Activity} {c : Key} {ss : List Source} (hm : (t 0).Reachable)
    (ht : Unfolds t) (hl : (t 0).Performs l id deps setup w x c ss) (hn : (t 0).Takes f l (t 1))
    (hk : k = (t 0).world.nodes.fresh id) (hps : ps = (setup.getD []).filterMap Step.prepare?) (hi : 0 < i) :
    Preparation t k ps w i ∧
    (0 < invocations k (t i).journal → (∃ j, i ≤ j ∧ (t j).stack = []) ∧ ∀ j, i ≤ j → (t j).stack = [] →
      (∀ g, .unwound g (.preparation k) ∉ (t j).journal) → ∃ as v s, Starts t k w ps as v s ∧ s < j ∧
        labors k (t j).journal = as ++ v.labors ∧ (labors k (t j).journal).filterMap Labor.place? = ps.map Prod.fst) ∧
    (∀ a, Stage.Before ⟨none, t i⟩ a → labors k a.machine.journal ≠ [] →
      accepted (.node k) a.machine.journal = [] ∧ 0 < openings (.node k) a.machine.journal ∨
      accepted (.node k) a.machine.journal ≠ [] ∧
        ∀ s ∈ accepted (.node k) a.machine.journal, a.machine.world.final? s = some .done) ∧
    (0 < abandonings k (t i).journal → ∀ j, labors k (t j).journal = []) ∧
    (¬ (t i).world.Shut (.node k) false → labors k (t i).journal = []) ∧
    ∀ g, .unwound g (.preparation k) ∈ (t i).journal →
      (∃ done as v s place code rest, Enters t k w ps done as v s place code rest ∧
        ∀ j, i ≤ j → labors k (t j).journal = as ++ [.prepared place v.register]) ∧
      ∀ j, i ≤ j → (t j).Spoiled k := by
  have hall {j : Nat} (hj : 0 < j) : Preparation t k ps w j := by
    rw [hk, hps]
    exact .of_takes hm ht hl hn hj
  have hreach (j : Nat) : (t j).Reachable := hm.later (ht.later (Nat.zero_le j))
  have hprep := hall hi
  have hr := (hreach i).reached
  refine ⟨hprep, fun hinv ↦ ⟨ht.rests i, fun j hj hs hf ↦ ?_⟩, fun a ha hne ↦ ?_, fun hab j ↦ ?_, fun hno ↦ ?_,
    fun g hg ↦ ⟨?_, fun j hj ↦ ?_⟩⟩
  · have hinv' := Nat.lt_of_lt_of_le hinv ((ht.later hj).countP_le (Event.invokes k))
    obtain ⟨as, v, s, hstarts, hsj, hlab⟩ := (hall (Nat.lt_of_lt_of_le hi hj)).of_rest (hreach j) hs hinv' hf
    exact ⟨as, v, s, hstarts, hsj, hlab, hlab ▸ hstarts.places_eq⟩
  · have hra := hr.before ha
    exact hra.passed (hra.invoked_shut (Nat.pos_of_ne_zero fun hz ↦ hne (hra.labors_eq_nil hz)))
  · -- the node is abandoned for good, and was never invoked before
    have hij := Nat.le_max_left i j
    have hab' := Nat.lt_of_lt_of_le hab ((ht.later hij).countP_le (Event.abandons k))
    have hzero := (hreach (max i j)).invocations_of_abandoned hab'
    refine (hreach j).reached.labors_eq_nil (Nat.eq_zero_of_le_zero (hzero ▸ ?_))
    exact (ht.later (Nat.le_max_right i j)).countP_le (Event.invokes k)
  · exact hr.labors_eq_nil (Nat.eq_zero_of_not_pos fun hinv ↦ hno (hr.invoked_shut hinv))
  · obtain ⟨done, as, v, s, place, code, rest, henters, hlab⟩ := hprep.of_unwound (hreach i) hg
    exact ⟨done, as, v, s, place, code, rest, henters, fun j hj ↦
      ((hreach i).labors_of_unwound (ht.later hj) hg).trans hlab⟩
  · exact (hreach j).spoiled ((ht.later hj).suffix.subset hg)

end

end Machine

namespace Sample

/-- A run that is given some lines, each as soon as it rests, and then goes on with lines that do nothing. -/
def unfold : Machine → Script → Nat → Machine
  | m, _, 0 => m
  | m, ls, i + 1 =>
    if m.stack.isEmpty then unfold (Scenario.start m {} (ls.headD ⟨"pass", false, .unsupported⟩)) ls.tail i
    else unfold m.step ls i

theorem unfolds (m : Machine) (ls : Script) : Machine.Unfolds (unfold m ls) := by
  intro i
  induction i generalizing m ls with
  | zero =>
    simp only [unfold]
    split
    · next h => exact .line (List.isEmpty_iff.1 h) _ _
    · next h => exact .step fun hs ↦ h (List.isEmpty_iff.2 hs)
  | succ i ih =>
    rw [unfold, unfold]
    split
    · exact ih _ _
    · exact ih _ _

def parlor : Machine := Machine.play { catalogue := [("alpha", alpha), ("beta", beta)] } [
  ⟨"start", false, .start "s" "s" ["alpha", "beta"] .null⟩,
  ⟨"perform", false, .perform "b" "beta" "s" [] none (.script [] true .null)⟩]

def prepares (code : Script) : Line Action := ⟨"perform", false, .perform "a" "alpha" "s" []
  (some [.prepare 0 [⟨"add", false, .change .add (.value (.int 1))⟩], .required false, .prepare 1 code])
  (.script [⟨"success", false, .report none ⟨.success, none⟩⟩] false (.int 4))⟩

def prepared (code : Script) : Nat → Machine := unfold parlor [prepares code,
  ⟨"perform", false, .perform "c" "beta" "s" ["a"] none (.script [] true .null)⟩, ⟨"begin", false, .begin "a"⟩]

def detour : Script := [⟨"begin", false, .begin "b"⟩, ⟨"mul", false, .change .mul (.value (.int 3))⟩]

def crash : Script := [⟨"panic", false, .panic "boom"⟩]

theorem parlor_performs (code : Script) : parlor.Performs (prepares code) "a" []
    (some [.prepare 0 [⟨"add", false, .change .add (.value (.int 1))⟩], .required false, .prepare 1 code])
    (.script [⟨"success", false, .report none ⟨.success, none⟩⟩] false (.int 4)) alpha ⟨"s", 0⟩ [] :=
  Machine.performs_of_find rfl (by decide +kernel) (by decide +kernel) rfl

/-- A second preparator that makes another node begin hands its product to the work. One that breaks down takes
the job along, and what waits behind the node stays where it is. -/
theorem prepared_by_preparators :
    (∃ as v s, Machine.Starts (prepared detour) ⟨"a", 0⟩
        (.script [⟨"success", false, .report none ⟨.success, none⟩⟩] false (.int 4))
        [(0, [⟨"add", false, .change .add (.value (.int 1))⟩]), (1, detour)] as v s ∧ s < 30 ∧
      as ++ v.labors = [.prepared 0 (.int 4), .prepared 1 (.int 5), .started, .ran (.int 15)]) ∧
    startings ⟨"b", 0⟩ (prepared detour 30).journal = 1 ∧
    (∀ j, 16 ≤ j → labors ⟨"a", 0⟩ (prepared crash j).journal = [.prepared 0 (.int 4), .prepared 1 (.int 5)]) ∧
    (∀ j, 16 ≤ j → (prepared crash j).Spoiled ⟨"a", 0⟩) ∧ startings ⟨"c", 0⟩ (prepared crash 30).journal = 0 := by
  have hm : parlor.Reachable := ⟨_, .play rfl _⟩
  have hrest : parlor.stack = [] := Machine.stack_play rfl _
  have hn (code : Script) : parlor.Takes {} (prepares code) (prepared code 1) := by
    have hone : prepared code 1 = Scenario.start parlor {} (prepares code) := by
      simp only [prepared, unfold, hrest, List.isEmpty_nil, if_true, List.headD_cons]
    exact hone ▸ .outer hrest
  have hk : (⟨"a", 0⟩ : Key) = parlor.world.nodes.fresh "a" := by decide +kernel
  obtain ⟨-, hruns, -⟩ := Machine.Reachable.preparators_run (t := prepared detour) (i := 30) hm (unfolds _ _)
    (parlor_performs detour) (hn detour) hk rfl (by decide)
  obtain ⟨-, -, -, -, -, hbreaks⟩ := Machine.Reachable.preparators_run (t := prepared crash) (i := 16) hm (unfolds _ _)
    (parlor_performs crash) (hn crash) hk rfl (by decide)
  have hlabors : labors ⟨"a", 0⟩ (prepared detour 30).journal =
      [.prepared 0 (.int 4), .prepared 1 (.int 5), .started, .ran (.int 15)] := by decide +kernel
  have hlabors' : labors ⟨"a", 0⟩ (prepared crash 16).journal = [.prepared 0 (.int 4), .prepared 1 (.int 5)] := by
    decide +kernel
  have hwhole : ¬ ∃ g, .unwound g (.preparation ⟨"a", 0⟩) ∈ (prepared detour 30).journal := by decide +kernel
  obtain ⟨g, hfault⟩ : ∃ g, .unwound g (.preparation ⟨"a", 0⟩) ∈ (prepared crash 16).journal := by decide +kernel
  obtain ⟨as, v, s, hstarts, hs, hlab, -⟩ := (hruns (by decide +kernel)).2 30 (Nat.le_refl _)
    (List.isEmpty_iff.1 (by decide +kernel)) (not_exists.1 hwhole)
  obtain ⟨⟨done, bs, u, q, place, code, rest, -, hlab'⟩, hspoiled⟩ := hbreaks _ hfault
  refine ⟨⟨as, v, s, hstarts, hs, hlab.symm.trans hlabors⟩, by decide +kernel, fun j hj ↦ ?_, hspoiled, ?_⟩
  · exact (hlab' j hj).trans ((hlab' 16 (Nat.le_refl _)).symm.trans hlabors')
  · exact ((hspoiled 30 (by decide)).nodes ⟨"c", 0⟩ (.direct (by decide +kernel))).1

end Sample

end ActivityGraph
