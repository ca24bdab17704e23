import ActivityGraph.Proofs.Decision
import ActivityGraph.Proofs.Refusal
import ActivityGraph.Proofs.Stall

namespace ActivityGraph

/-- What is done of the job of a node: a preparator is entered, the node is started, its activity is run, or begins
to wait. -/
inductive Labor where
  | prepared (place : Nat) (value : Json)
  | started
  | ran (value : Json)
  | timed (after : Duration)
deriving DecidableEq

def Labor.place? : Labor → Option Nat
  | .prepared place _ => some place
  | _ => none

def Event.labor? (k : Key) : Event → Option Labor
  | .prepared l place r => if l = k then some (.prepared place r) else none
  | .logged (.started l _) => if l = k then some .started else none
  | .ran l r => if l = k then some (.ran r) else none
  | .timed l after => if l = k then some (.timed after) else none
  | _ => none

def Event.spoils (k : Key) : Event → Bool
  | .unwound _ (.preparation l) => l = k
  | _ => false

theorem any_spoils_iff {k : Key} {j : List Event} :
    j.any (Event.spoils k) ↔ ∃ f, .unwound f (.preparation k) ∈ j := by
  rw [List.any_eq_true]
  constructor
  · rintro ⟨e, he, hs⟩
    cases e with
    | unwound f s =>
      cases s with
      | preparation l => exact ⟨f, of_decide_eq_true hs ▸ he⟩
      | _ => simp [Event.spoils] at hs
    | _ => simp [Event.spoils] at hs
  · rintro ⟨f, hf⟩
    exact ⟨_, hf, by simp [Event.spoils]⟩

instance (k : Key) (j : List Event) : Decidable (∃ f, .unwound f (.preparation k) ∈ j) :=
  decidable_of_iff _ any_spoils_iff

/-- All that was done of the job of a node, oldest first. -/
def labors (k : Key) (j : List Event) : List Labor := (j.filterMap (Event.labor? k)).reverse

def Work.labors : Work Script → List Labor
  | .script _ _ r => [.started, .ran r]
  | .timer after => [.started, .timed after]

def Job.next (j : Job) : List Labor :=
  match j.preparators with
  | [] => j.work.labors
  | (place, _) :: _ => [.prepared place j.work.register]

/-- What is done of a job next is under way: a preparator runs, or the body of the work, or a timer waits. -/
def Machine.Begins (m : Machine) (k : Key) : Job → Prop
  | ⟨(_, code) :: rest, work⟩ => ∃ ts, m.stack = .script ⟨some k.handle, work.register⟩ code (.job k ⟨rest, work⟩) :: ts
  | ⟨[], .script body _ r⟩ => ∃ ts, m.stack = .script ⟨some k.handle, r⟩ body .nowhere :: ts
  | ⟨[], .timer after⟩ => ∃ c ∈ m.timers, c.node = k ∧ c.after = after

section

variable {k : Key} {e : Event} {j : List Event}

theorem labors_append (es j : List Event) : labors k (es ++ j) = labors k j ++ labors k es := by
  simp [labors]

theorem labors_cons (e : Event) (j : List Event) : labors k (e :: j) = labors k j ++ (e.labor? k).toList := by
  cases h : e.labor? k <;> simp [labors, h]

theorem labors_eq_nil {es : List Event} (h : ∀ e ∈ es, e.labor? k = none) : labors k es = [] := by
  rw [labors, List.filterMap_eq_nil_iff.2 h, List.reverse_nil]

theorem Event.labor?_of_invokes (h : e.invokes k) : (e.labor? k).isSome := by
  rcases Event.invokes_iff.1 h with ⟨place, r, rfl⟩ | ⟨label, rfl⟩ <;> simp [labor?]

theorem startings_eq_count (k : Key) (j : List Event) : startings k j = (labors k j).count .started := by
  induction j with
  | nil => rfl
  | cons e j ih =>
    rw [labors_cons, List.count_append, ← ih, startings, List.countP_cons, startings]
    congr 1
    cases e with
    | prepared l place r => by_cases hl : l = k <;> simp [Event.starts, Event.labor?, hl]
    | ran l r | timed l after => by_cases hl : l = k <;> simp [Event.starts, Event.labor?, hl]
    | logged e =>
      cases e with
      | started l label => by_cases hl : l = k <;> simp [Event.starts, Event.labor?, hl]
      | _ => simp [Event.starts, Event.labor?]
    | _ => simp [Event.starts, Event.labor?]

theorem Event.launches {a b : Stage} (he : e.labor? k ≠ none) (hm : e.Marks a b) :
    ∃ j, a.call = some (.launch k j) := by
  cases e with
  | prepared l place r | ran l r =>
    have hl : l = k := by_contra fun hne ↦ he (by simp [labor?, hne])
    exact hl ▸ hm
  | timed l after =>
    have hl : l = k := by_contra fun hne ↦ he (by simp [labor?, hne])
    exact ⟨_, hl ▸ hm⟩
  | logged e =>
    cases e with
    | started l label =>
      have hl : l = k := by_contra fun hne ↦ he (by simp [labor?, hne])
      exact hl ▸ hm.1
    | _ => exact absurd rfl he
  | _ => exact absurd rfl he

end

namespace Stride

variable {a b : Stage} {k : Key}

theorem idles (hs : Stride a b) (hc : ∀ j, a.call ≠ some (.launch k j)) :
    labors k b.machine.journal = labors k a.machine.journal ∧
      invocations k b.machine.journal = invocations k a.machine.journal := by
  obtain ⟨es, hj, hm⟩ := hs.emits
  have hnone : ∀ e ∈ es, e.labor? k = none := fun e he ↦ by_contra fun hne ↦ by
    obtain ⟨j, hj⟩ := Event.launches hne (hm e he)
    exact hc j hj
  have hz : es.countP (Event.invokes k) = 0 := List.countP_eq_zero.2 fun e he hi ↦ by
    simpa [hnone e he] using Event.labor?_of_invokes hi
  rw [hj, labors_append, labors_eq_nil hnone, List.append_nil, invocations, List.countP_append, hz, Nat.zero_add]
  exact ⟨rfl, rfl⟩

theorem launch (hs : Stride a b) {j : Job} (hc : a.call = some (.launch k j)) :
    labors k b.machine.journal = labors k a.machine.journal ++ j.next ∧
      invocations k b.machine.journal = invocations k a.machine.journal + 1 ∧
      (b.machine.Begins k j ∧ b.call = none ∨
        ∃ body hold r, j = ⟨[], .script body hold r⟩ ∧ b.call = some (.entrust k body hold r)) := by
  obtain ⟨c, m⟩ := a
  obtain rfl : c = some (.launch k j) := hc
  cases hs with
  | lost hc => exact hc.elim
  | relinquish hr => exact absurd (hr _ rfl) (by simp)
  | prepare =>
    refine ⟨?_, ?_, .inl ⟨⟨_, rfl⟩, rfl⟩⟩
    · simp [labors_cons, Event.labor?, Job.next]
    · simp [invocations, Event.invokes]
  | start =>
    refine ⟨?_, ?_, .inr ⟨_, _, _, rfl, rfl⟩⟩
    · simp [labors_cons, Event.labor?, Job.next, Work.labors]
    · simp [invocations, Event.invokes]
  | timed =>
    refine ⟨?_, ?_, .inl ⟨⟨_, List.mem_append_right _ List.mem_cons_self, rfl, rfl⟩, rfl⟩⟩
    · simp [labors_cons, Event.labor?, Job.next, Work.labors]
    · simp [invocations, Event.invokes]

end Stride

theorem Stage.Before.labors_eq {a b : Stage} (h : a.Before b) {k : Key}
    (hi : invocations k b.machine.journal = invocations k a.machine.journal) :
    labors k b.machine.journal = labors k a.machine.journal := by
  induction h with
  | refl => rfl
  | @tail c d hc hs ih =>
    have hac : invocations k a.machine.journal ≤ invocations k c.machine.journal :=
      Stage.Before.countP_le hc _
    have hcd : invocations k c.machine.journal ≤ invocations k d.machine.journal := hs.countP_le _
    have hno : ∀ j, c.call ≠ some (.launch k j) := fun j hj ↦ by
      have := (hs.launch hj).2.1
      omega
    exact (hs.idles hno).1.trans (ih (by omega))

namespace Stage.Reached

variable {a b : Stage} {k : Key}

theorem labors_eq_nil (h : a.Reached) (hk : invocations k a.machine.journal = 0) :
    labors k a.machine.journal = [] := by
  obtain ⟨catalogue, h⟩ := h
  exact h.labors_eq hk

theorem knows_of_node {n : Node} (hn : a.machine.world.nodes.get? k = some n) : a.machine.world.knows k = 1 := by
  rw [World.knows, hn]
  rfl

theorem knows_of_invoked (h : a.Reached) (hk : 0 < invocations k a.machine.journal) : a.machine.world.knows k = 1 := by
  obtain ⟨b, hb, -⟩ := h.invoked_shut hk
  rw [World.knows, ← h.sound.isSome_node, Option.isSome_of_eq_some hb]
  rfl

theorem uninvoked_of_job {m : Machine} (h : Stage.Reached ⟨none, m⟩) {n : Node} {j : Job}
    (hn : m.world.nodes.get? k = some n) (hj : n.job = some j) : invocations k m.journal = 0 := by
  refine Nat.eq_zero_of_not_pos fun hi ↦ ?_
  have hwaits := h.waits_of_shut (h.invoked_shut hi)
  simp [World.waits, hn, hj] at hwaits

theorem idle (h : a.Reached) (hb : a.Before b) (hk : a.machine.world.knows k = 1) (hz : a.before k = 0) :
    b.before k = 0 ∧ decisions k b.machine.journal = decisions k a.machine.journal ∧
      invocations k b.machine.journal = invocations k a.machine.journal := by
  suffices b.machine.world.knows k = 1 ∧ b.before k = 0 ∧
      decisions k b.machine.journal = decisions k a.machine.journal ∧
      invocations k b.machine.journal = invocations k a.machine.journal from this.2
  induction hb with
  | refl => exact ⟨hk, hz, rfl, rfl⟩
  | @tail c d hc hs ih =>
    obtain ⟨hkc, hzc, hdc, hic⟩ := ih
    have hr := h.before hc
    obtain ⟨loss, -, hl⟩ := hs.handed hr k
    unfold Handed at hl
    have hno : ∀ j, c.call ≠ some (.launch k j) := fun j hj ↦ by
      simp [Stage.before, hj, Call.prepares] at hzc
    have hkd : d.machine.world.knows k = 1 := by
      obtain ⟨n, hn⟩ := Option.isSome_iff_exists.1 (show (c.machine.world.nodes.get? k).isSome by
        simpa [World.knows] using hkc)
      obtain ⟨p, hp, -⟩ := hs.node hr hn
      exact knows_of_node hp
    have hle : decisions k c.machine.journal ≤ decisions k d.machine.journal :=
      Nat.add_le_add (hs.countP_le _) (hs.countP_le _)
    refine ⟨hkd, by omega, by omega, (hs.idles hno).2.trans hic⟩

theorem spilled (h : a.Reached) {f : Fault} (hf : .unwound f (.preparation k) ∈ a.machine.journal) :
    a.before k = 0 ∧ decisions k a.machine.journal = 0 := by
  revert hf
  refine h.invariant (P := fun a ↦ .unwound f (.preparation k) ∈ a.machine.journal →
    a.before k = 0 ∧ decisions k a.machine.journal = 0) (by simp) fun a b h ih hs hf ↦ ?_
  by_cases ha : .unwound f (.preparation k) ∈ a.machine.journal
  · obtain ⟨hz, hd⟩ := ih ha
    obtain ⟨hz', hd', -⟩ := h.idle (.single hs) (h.knows_of_invoked (h.invoked_of_unwound ha)) hz
    exact ⟨hz', hd'.trans hd⟩
  · obtain ⟨g, ls, j, ts, hst, hst', hw, hc, hc'⟩ := hs.marks_of_new hf ha
    have hle := h.before_le k
    have hone := a.machine.world.knows_le k
    have hst0 : startings k b.machine.journal = startings k a.machine.journal := by
      refine Nat.le_antisymm (Nat.not_lt.1 fun hlt ↦ ?_) (hs.countP_le _)
      obtain ⟨⟨i, hi⟩, -⟩ := hs.of_startings hlt
      simp [hc] at hi
    have hab0 : abandonings k b.machine.journal = abandonings k a.machine.journal := by
      refine Nat.le_antisymm (Nat.not_lt.1 fun hlt ↦ ?_) (hs.countP_le _)
      obtain ⟨-, -, hi, -⟩ := hs.of_abandonings hlt
      simp [hc] at hi
    simp only [Stage.before, hst, hst', hw, hc, hc', List.map_cons, List.sum_cons, Task.prepares, if_true,
      Option.elim_some, Call.prepares, decisions, hst0, hab0] at hle ⊢
    omega

theorem first_job (h : a.Reached) (hb : a.Before b) {n : Node} {i : Job}
    (hn : a.machine.world.nodes.get? k = some n) (hi : n.job = some i) :
    (∃ p, b.machine.world.nodes.get? k = some p ∧ (p.job = some i ∨ p.job = none)) ∧
      (invocations k b.machine.journal = 0 → ∀ j, b.call = some (.launch k j) → j = i) := by
  induction hb with
  | refl =>
    refine ⟨⟨n, hn, .inl hi⟩, fun _ j hj ↦ ?_⟩
    have hle := h.before_le k
    have hone := a.machine.world.knows_le k
    simp only [Stage.before, World.waits, hn, hi, hj, Option.bind_some, Option.isSome_some, Bool.toNat_true,
      Option.elim_some, Call.prepares, if_true] at hle
    omega
  | @tail c d hc hs ih =>
    obtain ⟨⟨p, hp, hpi⟩, hcall⟩ := ih
    have hr := h.before hc
    obtain ⟨q, hq, hkeep⟩ := hs.node hr hp
    refine ⟨⟨q, hq, ?_⟩, fun hz j hj ↦ ?_⟩
    · rcases hkeep.job with hsame | hnone
      · rwa [hsame]
      · exact .inr hnone
    · have hzc : invocations k c.machine.journal = 0 := Nat.eq_zero_of_le_zero (hz ▸ hs.countP_le _)
      cases hs with
      | resume hst =>
        simp only [Option.some.injEq, Call.launch.injEq] at hj
        obtain ⟨rfl, -⟩ := hj
        exact absurd (hr.prepared (hst ▸ List.mem_cons_self)) (by simp [hzc])
      | begin hl hji =>
        simp only [Option.some.injEq, Call.launch.injEq] at hj
        obtain ⟨rfl, rfl⟩ := hj
        obtain rfl := Option.some.inj (hl.symm.trans hp)
        rcases hpi with hpi | hpi
        · exact Option.some.inj (hji.symm.trans hpi)
        · simp [hpi] at hji
      | relinquish => exact hcall hzc j hj
      | _ => simp at hj

end Stage.Reached

theorem Within.launched {m : Machine} {a : Stage} (h : Within m a) {k : Key}
    (hi : invocations k a.machine.journal ≠ invocations k m.journal) :
    ∃ body hold r q, a.call = some (.entrust k body hold r) ∧ Within m ⟨some (.launch k ⟨[], .script body hold r⟩), q⟩ ∧
      invocations k q.journal = invocations k m.journal ∧
      labors k a.machine.journal = labors k q.journal ++ Job.next ⟨[], .script body hold r⟩ := by
  induction h with
  | here => exact absurd rfl hi
  | @next a b ha hs hc ih =>
    by_cases hia : invocations k a.machine.journal = invocations k m.journal
    · obtain ⟨j, hj⟩ := not_forall_not.1 fun hno ↦ hi ((hs.idles hno).2.trans hia)
      obtain ⟨hl, -, ⟨-, hb⟩ | ⟨body, hold, r, rfl, hb⟩⟩ := hs.launch hj
      · simp [hj, hb] at hc
      · obtain ⟨c, q⟩ := a
        obtain rfl := hj
        exact ⟨body, hold, r, q, hb, ha, hia, hl⟩
    · obtain ⟨body, hold, r, q, he, hq, hiq, hl⟩ := ih hia
      have hl' := (hs.idles (k := k) (by simp [he])).1.trans hl
      refine ⟨body, hold, r, q, ?_, hq, hiq, hl'⟩
      obtain ⟨c, m'⟩ := a
      obtain rfl := he
      cases hs with
      | lost hlost => exact hlost.elim
      | relinquish => rfl
      | entrust => simp at hc

theorem Machine.Begins.of_eq {m n : Machine} {k : Key} {j : Job} (h : m.Begins k j) (hs : n.stack = m.stack)
    (ht : n.timers = m.timers) : n.Begins k j := by
  unfold Begins
  rw [hs, ht]
  exact h

theorem Ends.launched {m n : Machine} (h : Ends m n) {k : Key}
    (hi : invocations k n.journal ≠ invocations k m.journal) :
    ∃ j q, Within m ⟨some (.launch k j), q⟩ ∧ invocations k q.journal = invocations k m.journal ∧
      labors k n.journal = labors k q.journal ++ j.next ∧ n.Begins k j := by
  induction h with
  | here hw =>
    obtain ⟨_, _, _, _, hc, -⟩ := hw.launched hi
    simp at hc
  | @last a n ha hs =>
    by_cases hia : invocations k a.machine.journal = invocations k m.journal
    · obtain ⟨j, hj⟩ := not_forall_not.1 fun hno ↦ hi ((hs.idles hno).2.trans hia)
      obtain ⟨c, q⟩ := a
      obtain rfl := hj
      obtain ⟨hl, -, ⟨hb, -⟩ | ⟨_, _, _, -, hb⟩⟩ := hs.launch rfl
      · exact ⟨j, q, ha, hia, hl, hb⟩
      · simp at hb
    · obtain ⟨body, hold, r, q, he, hq, hiq, hl⟩ := ha.launched hia
      refine ⟨_, q, hq, hiq, (hs.idles (k := k) (by simp [he])).1.trans hl, ?_⟩
      obtain ⟨c, m'⟩ := a
      obtain rfl := he
      cases hs with
      | lost hlost => exact hlost.elim
      | entrust => exact ⟨_, rfl⟩
  | @more p n _ hs hst ih =>
    obtain ⟨hl', hi'⟩ := hs.idles (k := k) (by simp)
    obtain ⟨j, q, hq, hiq, hl, hb⟩ := ih fun hz ↦ hi (hi'.trans hz)
    exact ⟨j, q, hq, hiq, hl'.trans hl, hb.of_eq hst.1 hst.2⟩

namespace Machine

variable {m n : Machine} {k : Key}

theorem labors_holdCompletion (m : Machine) (id : String) (l : Key) :
    labors k (m.holdCompletion id l).journal = labors k m.journal := by
  simp only [holdCompletion, dropCompletion]
  split
  · rfl
  · simp [log, note, takeCompletion, labors_cons, Event.labor?]

theorem labors_launch (m : Machine) (k : Key) (j : Job) :
    labors k (m.launch k j).journal = labors k m.journal ++ j.next := by
  obtain ⟨_ | ⟨⟨place, code⟩, rest⟩, work⟩ := j
  · cases work with
    | script body hold r =>
      have hheld := labors_holdCompletion (k := k) ((m.log (.started k (m.world.label (.node k)))).note (.ran k r))
        k.handle k
      have hran : labors k ((m.log (.started k (m.world.label (.node k)))).note (.ran k r)).journal =
          labors k m.journal ++ [.started, .ran r] := by
        simp [log, note, labors_cons, Event.labor?]
      cases hold <;> exact hheld.trans hran
    | timer after => simp [launch, log, note, labors_cons, Event.labor?, Job.next, Work.labors]
  · simp [launch, note, push, labors_cons, Event.labor?, Job.next]

theorem begins_launch (m : Machine) (k : Key) (j : Job) : (m.launch k j).Begins k j := by
  obtain ⟨_ | ⟨⟨place, code⟩, rest⟩, work⟩ := j
  · cases work with
    | script body hold r => exact ⟨_, rfl⟩
    | timer after => exact ⟨_, List.mem_append_right _ List.mem_cons_self, rfl, rfl⟩
  · exact ⟨_, rfl⟩

theorem prepares_pos {t : Task} : 0 < t.prepares k ↔ ∃ f ls j, t = .script f ls (.job k j) := by
  constructor
  · intro h
    cases t with
    | script f ls e =>
      cases e with
      | nowhere => simp [Task.prepares] at h
      | job l j =>
        obtain rfl : l = k := by_contra fun hne ↦ by simp [Task.prepares, hne] at h
        exact ⟨f, ls, j, rfl⟩
    | _ => simp [Task.prepares] at h
  · rintro ⟨f, ls, j, rfl⟩
    simp [Task.prepares]

theorem prepares_le_sum {ts : List Task} {t : Task} (h : t ∈ ts) : t.prepares k ≤ (ts.map (Task.prepares k)).sum := by
  obtain ⟨us, vs, rfl⟩ := List.append_of_mem h
  simp only [List.map_append, List.map_cons, List.sum_append, List.sum_cons]
  omega

theorem abandoned_of_gone (h : Stage.Reached ⟨none, m⟩) {p : Node} (hp : m.world.nodes.get? k = some p)
    (hw : m.world.waits k = 0) (hi : invocations k m.journal = 0) : 0 < abandonings k m.journal := by
  have heq : Stage.before ⟨none, m⟩ k + decisions k m.journal = m.world.knows k := h.before_eq fun f hf ↦
    absurd (h.invoked_of_unwound hf) (Nat.not_lt.2 (Nat.le_of_eq hi))
  have hst : startings k m.journal = 0 := Nat.eq_zero_of_le_zero (hi ▸ startings_le_invocations k m.journal)
  have hknown : m.world.knows k = 1 := Stage.Reached.knows_of_node (a := ⟨none, m⟩) hp
  have hnone : (m.stack.map (Task.prepares k)).sum = 0 := by
    by_contra hne
    obtain ⟨c, hc, hpos⟩ := List.exists_mem_ne_zero_of_sum_ne_zero hne
    obtain ⟨t, ht, rfl⟩ := List.mem_map.1 hc
    obtain ⟨f, ls, i, rfl⟩ := prepares_pos.1 (Nat.pos_of_ne_zero hpos)
    exact absurd (h.prepared ht) (Nat.not_lt.2 (Nat.le_of_eq hi))
  rw [Stage.before_mk, hw, hnone, hknown, Option.elim_none, decisions, hst] at heq
  omega

/-- A step that does not end a preparator of a node whose job is gone does not go on with the job. Of the stack,
it moves the script on top by a line. -/
theorem Next.spared (hn : Next m n) (hm : m.Reachable) (hk : m.world.Spent k)
    (hno : ∀ f j ts, m.stack ≠ .script f [] (.job k j) :: ts) :
    invocations k n.journal = invocations k m.journal ∧ ∀ t ∈ n.stack, 0 < t.prepares k → t ∈ m.stack ∨
      ∃ f l ls e ts, m.stack = .script f (l :: ls) e :: ts ∧
        t = .script { f with register := m.registerAfter f l.action } ls e := by
  have h := hm.reached
  cases hn with
  | line hs f l =>
    let q : Machine := { m with stack := [.guard ⟨f.owner, l.verb⟩] }
    have ha := ((Leads.refl q).execute h.awaits h.sound f l).alone k hk
    refine ⟨ha.invocations_eq, fun t ht hp ↦ ?_⟩
    obtain rfl := List.mem_singleton.1 (ha.tasks t ht hp)
    simp [Task.prepares] at hp
  | step hs =>
    obtain ⟨t, ts, hs⟩ := List.exists_cons_of_ne_nil hs
    rw [step_of_stack hs]
    have below (p : Machine) (ha : Alone { m with stack := ts } p k) :
        invocations k p.journal = invocations k m.journal ∧ ∀ t ∈ p.stack, 0 < t.prepares k → t ∈ m.stack ∨
          ∃ f l ls e ts, m.stack = .script f (l :: ls) e :: ts ∧
            t = .script { f with register := m.registerAfter f l.action } ls e :=
      ⟨ha.invocations_eq, fun u hu hp ↦ .inl (hs ▸ List.mem_cons_of_mem t (ha.tasks u hu hp))⟩
    cases t with
    | script f ls e =>
      cases ls with
      | nil =>
        cases e with
        | nowhere => exact below _ ⟨hk, rfl, fun _ hu _ ↦ hu⟩
        | job l j =>
          have hl : l ≠ k := by
            rintro rfl
            exact hno f j ts hs
          exact below _ (alone_launch (m := { m with stack := ts }) hl hk _)
      | cons l ls =>
        let t : Task := .script { f with register := m.registerAfter f l.action } ls e
        let q : Machine := { m with stack := t :: ts }
        have ha := ((Leads.refl q).execute h.awaits h.sound f l).alone k hk
        refine ⟨ha.invocations_eq, fun u hu hp ↦ ?_⟩
        rcases List.mem_cons.1 (ha.tasks u hu hp) with rfl | hu'
        · exact .inr ⟨f, l, ls, e, ts, hs, rfl⟩
        · exact .inl (hs ▸ List.mem_cons_of_mem _ hu')
    | _ =>
      have ht := hm.course.1.tasks _ (hs ▸ List.mem_cons_self)
      exact below _ ((leads_perform hs h ht (by simp)).alone k hk)

section

variable {f : Frame} {ls : Script} {j : Job} (hm : m.Reachable) (hs : .script f ls (.job k j) ∈ m.stack)

include hm hs

/-- Whoever is in a preparator of a node is alone with it: nobody else can go on with the job. -/
theorem Reachable.preparing : m.world.Spent k ∧ decisions k m.journal = 0 ∧ 0 < invocations k m.journal ∧
    ∀ t ∈ m.stack, 0 < t.prepares k → t = .script f ls (.job k j) := by
  have h := hm.reached
  have hle := h.before_le k
  have hone := m.world.knows_le k
  obtain ⟨us, vs, hst⟩ := List.append_of_mem hs
  simp only [Stage.before_mk, hst, List.map_append, List.map_cons, List.sum_append, List.sum_cons, Task.prepares,
    if_true, Option.elim_none] at hle
  have hknown : m.world.knows k = 1 := by omega
  have hwaits : m.world.waits k = 0 := by omega
  refine ⟨?_, by omega, h.prepared hs, fun t ht hp ↦ ?_⟩
  · obtain ⟨p, hp⟩ := Option.isSome_iff_exists.1 (show (m.world.nodes.get? k).isSome by
      simpa [World.knows] using hknown)
    refine ⟨p, hp, ?_⟩
    cases hj : p.job with
    | none => rfl
    | some i => simp [World.waits, hp, hj] at hwaits
  · rw [hst] at ht
    rcases List.mem_append.1 ht with hu | hv
    · have hle := prepares_le_sum (k := k) hu
      omega
    · rcases List.mem_cons.1 hv with rfl | hv
      · rfl
      · have hle := prepares_le_sum (k := k) hv
        omega

theorem Reachable.preparing_cases (hn : Next m n) :
    labors k n.journal = labors k m.journal ∧ (∃ g, .unwound g (.preparation k) ∈ n.journal) ∨
    labors k n.journal = labors k m.journal ∧ .script f ls (.job k j) ∈ n.stack ∨
    labors k n.journal = labors k m.journal ∧ (∃ l ls' ts, ls = l :: ls' ∧ m.stack = .script f ls (.job k j) :: ts ∧
      .script { f with register := m.registerAfter f l.action } ls' (.job k j) ∈ n.stack) ∨
    ls = [] ∧ ∃ ts, m.stack = .script f [] (.job k j) :: ts ∧
      n = Machine.launch { m with stack := ts } k { j with work := j.work.withRegister f.register } := by
  obtain ⟨hspent, hdec, hinv, honly⟩ := hm.preparing hs
  by_cases hend : ∃ g i ts, m.stack = .script g [] (.job k i) :: ts
  · obtain ⟨g, i, ts, hst⟩ := hend
    have he := honly _ (hst ▸ List.mem_cons_self) (prepares_pos.2 ⟨g, [], i, rfl⟩)
    obtain ⟨rfl, rfl, hexit⟩ := Task.script.inj he
    obtain ⟨-, rfl⟩ := Exit.job.inj hexit
    refine .inr (.inr (.inr ⟨rfl, ts, hst, ?_⟩))
    cases hn with
    | line hs' => simp [hs'] at hst
    | step =>
      rw [step_of_stack hst]
      rfl
  · have hno : ∀ g i ts, m.stack ≠ .script g [] (.job k i) :: ts := fun g i ts hst ↦ hend ⟨g, i, ts, hst⟩
    obtain ⟨hi, htasks⟩ := hn.spared hm hspent hno
    have hl := hn.ends.before.labors_eq hi
    by_cases hu : ∃ g, .unwound g (.preparation k) ∈ n.journal
    · exact .inl ⟨hl, hu⟩
    · -- nobody decided on the node, so that there still is a preparator, the old one
      have hr : Stage.Reached ⟨none, n⟩ := hm.reached.before hn.ends.before
      have hshut := hr.invoked_shut (hi ▸ hinv)
      have heq : Stage.before ⟨none, n⟩ k + decisions k n.journal = n.world.knows k :=
        hr.before_eq fun g hg ↦ hu ⟨g, hg⟩
      have hst : startings k n.journal = 0 := by
        rw [startings_eq_count, hl, ← startings_eq_count]
        exact (Nat.add_eq_zero_iff.1 hdec).1
      have hab : abandonings k n.journal = 0 := Nat.eq_zero_of_not_pos fun hab ↦ by
        simpa using hshut.canceled_eq (hr.abandoned_shut hab)
      rw [Stage.before_mk, hr.waits_of_shut hshut, hr.knows_of_shut hshut, Option.elim_none, decisions, hst, hab] at heq
      obtain ⟨c, hc, hpos⟩ := List.exists_mem_ne_zero_of_sum_ne_zero (l := n.stack.map (Task.prepares k)) (by omega)
      obtain ⟨t, ht, rfl⟩ := List.mem_map.1 hc
      rcases htasks t ht (Nat.pos_of_ne_zero hpos) with ho | ⟨g, l, ls', e, ts, hst', rfl⟩
      · exact .inr (.inl ⟨hl, honly t ho (Nat.pos_of_ne_zero hpos) ▸ ht⟩)
      · obtain ⟨_, _, i, he⟩ := prepares_pos.1 (Nat.pos_of_ne_zero hpos)
        obtain ⟨-, -, rfl⟩ := Task.script.inj he
        have htop := honly (.script g (l :: ls') (.job k i)) (by rw [hst']; exact List.mem_cons_self)
          (prepares_pos.2 ⟨_, _, i, rfl⟩)
        obtain ⟨rfl, rfl, hexit⟩ := Task.script.inj htop
        obtain ⟨-, rfl⟩ := Exit.job.inj hexit
        exact .inr (.inr (.inl ⟨hl, l, ls', ts, rfl, hst', ht⟩))

end

theorem Reachable.waiting_cases (hm : m.Reachable) (hn : Next m n) {p : Node} {j : Job}
    (hp : m.world.nodes.get? k = some p) (hj : p.job = some j) :
    labors k n.journal = [] ∧ (∃ q, n.world.nodes.get? k = some q ∧ q.job = some j) ∨
    labors k n.journal = [] ∧ 0 < abandonings k n.journal ∨
    labors k n.journal = j.next ∧ n.Begins k j := by
  have h := hm.reached
  have hr : Stage.Reached ⟨none, n⟩ := h.before hn.ends.before
  have hinv : invocations k m.journal = 0 := h.uninvoked_of_job hp hj
  obtain ⟨⟨q, hq, hqj⟩, -⟩ := h.first_job hn.ends.before hp hj
  by_cases hi : invocations k n.journal = invocations k m.journal
  · have hzero : invocations k (Stage.mk none n).machine.journal = 0 := hi.trans hinv
    have hl : labors k n.journal = [] := hr.labors_eq_nil hzero
    rcases hqj with hqj | hqj
    · exact .inl ⟨hl, q, hq, hqj⟩
    · have hgone : n.world.waits k = 0 := by simp [World.waits, hq, hqj]
      exact .inr (.inl ⟨hl, abandoned_of_gone hr hq hgone hzero⟩)
  · obtain ⟨i, q', hw, hiq, hl, hb⟩ := hn.ends.launched hi
    obtain ⟨-, hfirst⟩ := h.first_job hw.before hp hj
    obtain rfl := hfirst (hiq.trans hinv) i rfl
    rw [(h.before hw.before).labors_eq_nil (hiq.trans hinv), List.nil_append] at hl
    exact .inr (.inr ⟨hl, hb⟩)

end Machine

end ActivityGraph
