import ActivityGraph.Proofs.Course
import ActivityGraph.Proofs.Outcome

namespace ActivityGraph

namespace Machine

variable {m n : Machine}

theorem leads_addCollector (m : Machine) {c : Key} (hc : m.world.collectors.get? c = none) (name : String)
    (xs : List Activity) (context : Json) : Leads m (m.addCollector c name xs context) := by
  have hs (d : Key) (h : (m.world.slots? d).isSome) :
      (m.world.addCollector c (.create name (contextOf context) xs)).slots? d = m.world.slots? d := by
    have hne : c ≠ d := by
      rintro rfl
      simp [World.slots?, hc] at h
    rw [World.slots?, World.addCollector, Table.get?_insert_of_new hc, if_neg hne, World.slots?]
  have hd (d : Key) (x : Activity) (h : m.world.Declares d x) :
      (m.world.addCollector c (.create name (contextOf context) xs)).Declares d x := by
    refine h.of_slots (hs d ?_)
    obtain ⟨t, ht, -⟩ := h
    rw [ht]
    rfl
  have hm : Follows m (m.mapWorld fun w ↦ w.addCollector c (.create name (contextOf context) xs)) :=
    { Follows.refl m with
      declares := hd,
      views := fun hb id v hv ↦ (hb id v hv).mono (fun d h ↦ (hs d h).symm ▸ h) hd }
  exact (Leads.of_follows hm (fun _ ↦ id) rfl rfl).trans (leads_log _ rfl)

theorem leads_addStart (m : Machine) (k c : Key) : Leads m (m.addStart k c) :=
  (m.leads_mapWorld (fun d ↦ m.world.slots?_modifyCollector c _ (by intro _; rfl) d) fun _ ↦ id).trans (leads_note _ rfl)

theorem leads_addProbe (m : Machine) (id name : String) (count : Nat) (invoke cancel : Script) :
    Leads m (m.addProbe id name count invoke cancel) :=
  (m.leads_mapWorld (fun _ ↦ rfl) fun _ h ↦ h).trans (leads_keep _ id (by simp))

theorem leads_describeSetup (m : Machine) (x : Activity) (setup : Option (List (Step Script))) :
    Leads m (m.describeSetup x setup) := by
  cases setup with
  | none => exact .refl m
  | some steps => exact m.leads_note rfl

theorem get?_of_viewAt {id : String} {v : View} {c : Collector} (h : m.viewAt id = .ok (v, c)) :
    m.desk.views.get? id = some v ∧ m.world.collectors.get? v.collector = some c := by
  obtain ⟨u, hu, h⟩ := bind_ok h
  obtain ⟨d, hd, h⟩ := bind_ok h
  obtain ⟨rfl, rfl⟩ := Prod.mk.inj (Except.ok.inj h)
  exact ⟨get?_of_find hu, get?_of_fetch hd⟩

theorem get?_of_completionAt {id : String} {k : Key} {p : Node} (h : m.completionAt id = .ok (k, p)) :
    m.desk.completions.get? id = some k ∧ m.world.nodes.get? k = some p := by
  obtain ⟨l, hl, h⟩ := bind_ok h
  obtain ⟨q, hq, h⟩ := bind_ok h
  obtain ⟨rfl, rfl⟩ := Prod.mk.inj (Except.ok.inj h)
  exact ⟨get?_of_find hl, get?_of_fetch hq⟩

theorem leads_clone {id copy : String} (h : m.clone id copy = .ok n) : Leads m n := by
  unfold clone at h
  split at h
  · exact Except.ok.inj h ▸ m.leads_keep copy (by simp)
  · obtain ⟨s, -, h⟩ := bind_ok h
    exact Except.ok.inj h ▸ (m.leads_keep copy (by simp)).trans (leads_keep _ copy (by simp))
  · exact Except.ok.inj h ▸ m.leads_keep copy (by simp)
  · exact Except.ok.inj h ▸ m.leads_keep_view copy fun hb ↦ hb id _ ‹_›
  · exact Except.ok.inj h ▸ m.leads_keep copy (by simp)
  · simp at h

theorem first_ask {f : Frame} {q : Query} {a : Answer} (h : m.ask f q = .ok a) : a.first := by
  cases q with
  | info id | diagram id names =>
    obtain ⟨c, -, h⟩ := bind_ok h
    exact Except.ok.inj h ▸ rfl
  | extract id key d =>
    obtain ⟨c, -, h⟩ := bind_ok h
    obtain ⟨x, -, h⟩ := bind_ok h
    obtain rfl := Except.ok.inj h
    split <;> rfl
  | read view key =>
    obtain ⟨v, -, h⟩ := bind_ok h
    obtain ⟨x, -, h⟩ := bind_ok h
    exact Except.ok.inj h ▸ rfl
  | result id =>
    obtain ⟨k, -, h⟩ := bind_ok h
    obtain ⟨p, -, h⟩ := bind_ok h
    exact Except.ok.inj h ▸ rfl
  | fired id =>
    obtain ⟨k, -, h⟩ := bind_ok h
    exact Except.ok.inj h ▸ rfl
  | peek id =>
    obtain ⟨k, -, h⟩ := bind_ok h
    obtain rfl := Except.ok.inj h
    unfold barrierAnswer
    split <;> rfl
  | describe id =>
    obtain ⟨t, -, h⟩ := bind_ok h
    exact Except.ok.inj h ▸ rfl
  | completion node =>
    obtain ⟨p, -, h⟩ := bind_ok h
    obtain ⟨c, -, h⟩ := bind_ok h
    exact Except.ok.inj h ▸ rfl

theorem first_settle {r : Reply} (h : (Task.answer c r).first) : (m.settle r).first := by
  cases r with
  | now a => exact h
  | fired k => rfl
  | barrier k =>
    rw [settle, barrierAnswer]
    split <;> rfl

theorem backs_within {c : Key} {col : Collector} {xs : List Activity} {v : View}
    (hc : m.world.collectors.get? c = some col) (h : View.within c col xs = .ok v) : m.world.Backs v := by
  unfold View.within at h
  split at h
  · simp at h
  · next hx =>
    obtain rfl := Except.ok.inj h
    intro x hx'
    exact (World.declares_iff hc).2 (by simpa using List.find?_eq_none.1 hx x hx')

theorem backs_narrow {v u : View} {col : Collector} {xs : List Activity} (hb : m.world.Backs v)
    (h : v.narrow col xs = .ok u) : m.world.Backs u := by
  unfold View.narrow at h
  split at h
  · simp at h
  · next hx =>
    obtain rfl := Except.ok.inj h
    intro x hx'
    exact hb x (by simpa [View.contains] using List.find?_eq_none.1 hx x hx')

theorem backs_grant {f : Frame} {g : Grant} {v : View} (hb : m.Backed) (h : m.grant f g = .ok (.ok v)) :
    m.world.Backs v := by
  cases g with
  | whole id =>
    obtain ⟨⟨k, c⟩, hc, h⟩ := bind_ok h
    obtain rfl := Except.ok.inj (Except.ok.inj h)
    exact backs_declared (get?_of_collectorAt hc)
  | ofStart id =>
    obtain ⟨k, -, h⟩ := bind_ok h
    obtain ⟨s, -, h⟩ := bind_ok h
    obtain ⟨c, hc, h⟩ := bind_ok h
    obtain rfl := Except.ok.inj (Except.ok.inj h)
    exact backs_declared (get?_of_fetch hc)
  | within id keys =>
    obtain ⟨⟨k, c⟩, hc, h⟩ := bind_ok h
    obtain ⟨xs, -, h⟩ := bind_ok h
    exact backs_within (get?_of_collectorAt hc) (Except.ok.inj h)
  | narrow id keys =>
    obtain ⟨⟨u, c⟩, hu, h⟩ := bind_ok h
    obtain ⟨xs, -, h⟩ := bind_ok h
    exact backs_narrow (hb id u (get?_of_viewAt hu).1) (Except.ok.inj h)
  | ofCompletion node keys =>
    obtain ⟨⟨k, p⟩, -, h⟩ := bind_ok h
    obtain ⟨c, hc, h⟩ := bind_ok h
    obtain ⟨xs, -, h⟩ := bind_ok h
    exact backs_within (get?_of_fetch hc) (Except.ok.inj h)

theorem collector_of_within {c : Key} {col : Collector} {xs : List Activity} {v : View}
    (h : View.within c col xs = .ok v) : v.collector = c := by
  unfold View.within at h
  split at h
  · simp at h
  · exact Except.ok.inj h ▸ rfl

theorem collector_of_narrow {u v : View} {col : Collector} {xs : List Activity} (h : u.narrow col xs = .ok v) :
    v.collector = u.collector := by
  unfold View.narrow at h
  split at h
  · simp at h
  · exact Except.ok.inj h ▸ rfl

theorem houses_grant {f : Frame} {g : Grant} {v : View} (hb : m.Backed) (h : m.grant f g = .ok (.ok v)) :
    m.world.Houses v := by
  refine ⟨?_, backs_grant hb h⟩
  cases g with
  | whole id =>
    obtain ⟨⟨k, c⟩, hc, h⟩ := bind_ok h
    obtain rfl := Except.ok.inj (Except.ok.inj h)
    exact World.isSome_slots? (get?_of_collectorAt hc)
  | ofStart id =>
    obtain ⟨k, -, h⟩ := bind_ok h
    obtain ⟨s, -, h⟩ := bind_ok h
    obtain ⟨c, hc, h⟩ := bind_ok h
    obtain rfl := Except.ok.inj (Except.ok.inj h)
    exact World.isSome_slots? (get?_of_fetch hc)
  | within id keys =>
    obtain ⟨⟨k, c⟩, hc, h⟩ := bind_ok h
    obtain ⟨xs, -, h⟩ := bind_ok h
    exact collector_of_within (Except.ok.inj h) ▸ World.isSome_slots? (get?_of_collectorAt hc)
  | narrow id keys =>
    obtain ⟨⟨u, c⟩, hu, h⟩ := bind_ok h
    obtain ⟨xs, -, h⟩ := bind_ok h
    exact collector_of_narrow (Except.ok.inj h) ▸ World.isSome_slots? (get?_of_viewAt hu).2
  | ofCompletion node keys =>
    obtain ⟨⟨k, p⟩, -, h⟩ := bind_ok h
    obtain ⟨c, hc, h⟩ := bind_ok h
    obtain ⟨xs, -, h⟩ := bind_ok h
    exact collector_of_within (Except.ok.inj h) ▸ World.isSome_slots? (get?_of_fetch hc)

/-- The nodes whose completions are within reach, or whose timers run, have records that nothing has
happened to. -/
def Awaits (m : Machine) : Prop :=
  ∀ k p, k ∈ m.desk.completions.values ∨ (∃ t ∈ m.timers, t.node = k) → m.world.nodes.get? k = some p → p.record = {}

theorem leads_elapse (m : Machine) (hm : m.Awaits) (stop : Nat) (ρ : Runtime) : Leads m (m.elapse stop ρ) := by
  unfold elapse
  split
  · exact .of_eq rfl (fun _ ↦ id) (fun _ ↦ rfl) rfl rfl rfl
  · next t i ht =>
    dsimp only
    have h : Leads m { m with clock := max m.clock i, timers := m.timers.filter fun u ↦ u.node ≠ t.node } :=
      .of_eq rfl (fun _ ↦ id) (fun _ ↦ rfl) rfl rfl rfl
    have hp := (h.trans (leads_push _ (t := .elapse stop ρ) rfl)).trans (leads_push _ (t := .contain) rfl)
    refine (hp.trans (leads_log _ (e := .deadlineElapsed t.node t.after) rfl)).trans (leads_complete ?_)
    intro p hk
    rw [hm t.node p (.inr ⟨t, ρ.pending ht, rfl⟩) hk]
    exact ⟨_, rfl⟩

theorem leads_answer (m : Machine) (c : Caller) {a : Answer} (ha : a.first) : Leads m (m.push (.answer c (.now a))) :=
  m.leads_push ha

theorem leads_act {f : Frame} {c : Caller} {a : Action} (hm : m.Awaits) (hs : m.world.Sound)
    (h : m.act f c a = .ok n) : Leads m n := by
  cases a with
  | collect id name keys context =>
    obtain ⟨xs, -, h⟩ := bind_ok h
    obtain rfl := Except.ok.inj h
    have hc := m.leads_addCollector (hs.collectors.get?_fresh id) name xs context
    exact (hc.trans (leads_keep _ id (by simp))).trans (leads_answer _ c rfl)
  | start id name keys context =>
    obtain ⟨xs, -, h⟩ := bind_ok h
    obtain rfl := Except.ok.inj h
    have hc := m.leads_addCollector (hs.collectors.get?_fresh id) name xs context
    have hs := hc.trans (leads_addStart _ (m.world.starts.fresh id) (m.world.collectors.fresh id))
    have hk := hs.trans (leads_keep _ id (h := .collector (m.world.collectors.fresh id)) (by simp))
    exact (hk.trans (leads_keep _ id (by simp))).trans (leads_answer _ c rfl)
  | run id =>
    obtain ⟨k, -, h⟩ := bind_ok h
    obtain rfl := Except.ok.inj h
    exact (m.leads_answer c rfl).trans (leads_fire _ k)
  | ask q =>
    obtain ⟨r, hr, h⟩ := bind_ok h
    obtain rfl := Except.ok.inj h
    exact m.leads_answer c (first_ask hr)
  | grant id g =>
    obtain ⟨v, hv, h⟩ := bind_ok h
    cases v with
    | error e =>
      obtain rfl := Except.ok.inj h
      exact m.leads_answer c rfl
    | ok v =>
      obtain rfl := Except.ok.inj h
      exact (m.leads_keep_view id fun hb ↦ houses_grant hb.backed hv).trans (leads_answer _ c rfl)
  | insert id key d =>
    obtain ⟨⟨k, col⟩, -, h⟩ := bind_ok h
    obtain ⟨x, -, h⟩ := bind_ok h
    split at h
    · obtain rfl := Except.ok.inj h
      exact m.leads_answer c rfl
    · next q hq =>
      obtain rfl := Except.ok.inj h
      exact (leads_store hq).trans (leads_answer _ c rfl)
  | set id key d =>
    obtain ⟨⟨v, col⟩, -, h⟩ := bind_ok h
    obtain ⟨x, -, h⟩ := bind_ok h
    split at h
    · split at h
      · obtain rfl := Except.ok.inj h
        exact m.leads_answer c rfl
      · next q hq =>
        obtain rfl := Except.ok.inj h
        exact (leads_store hq).trans (leads_answer _ c rfl)
    · obtain rfl := Except.ok.inj h
      exact m.leads_answer c rfl
  | perform id key coll deps setup work =>
    obtain ⟨x, -, h⟩ := bind_ok h
    obtain ⟨⟨k, col⟩, -, h⟩ := bind_ok h
    have hd := m.leads_describeSetup x setup
    dsimp only at h
    split at h
    · obtain rfl := Except.ok.inj h
      exact hd.trans (leads_answer _ c rfl)
    · split at h
      · obtain rfl := Except.ok.inj h
        exact (hd.trans (leads_answer _ c rfl)).trans (leads_addNode _ id x k _ _ work)
      · obtain rfl := Except.ok.inj h
        exact hd.trans (leads_raise _ rfl)
  | finish id coll deps body =>
    obtain ⟨⟨k, col⟩, -, h⟩ := bind_ok h
    obtain ⟨ss, -, h⟩ := bind_ok h
    obtain rfl := Except.ok.inj h
    exact (m.leads_push rfl).trans (leads_addTerminal _ id k ss body)
  | begin id =>
    obtain ⟨k, -, h⟩ := bind_ok h
    obtain rfl := Except.ok.inj h
    exact (m.leads_answer c rfl).trans (leads_release _ _)
  | after id dep =>
    obtain ⟨k, -, h⟩ := bind_ok h
    obtain ⟨s, -, h⟩ := bind_ok h
    obtain rfl := Except.ok.inj h
    exact (m.leads_answer c rfl).trans (leads_depend _ _ s)
  | done id next =>
    obtain ⟨k, -, h⟩ := bind_ok h
    obtain ⟨l, -, h⟩ := bind_ok h
    obtain rfl := Except.ok.inj h
    exact (m.leads_answer c rfl).trans (leads_depend _ _ _)
  | report node r =>
    obtain ⟨⟨k, q⟩, hk, h⟩ := bind_ok h
    obtain rfl := Except.ok.inj h
    obtain ⟨hc, -⟩ := get?_of_completionAt hk
    have ht : Leads m (m.takeCompletion (node.getD f.home)) := .of_eq rfl (fun _ ↦ id) (fun _ ↦ rfl) rfl rfl rfl
    refine (ht.trans (leads_answer _ c rfl)).trans (leads_complete ?_)
    intro p hp
    rw [hm k p (.inl (List.mem_map_of_mem (Table.mem_of_get? hc))) hp]
    exact ⟨_, rfl⟩
  | drop node =>
    obtain ⟨q, -, h⟩ := bind_ok h
    obtain rfl := Except.ok.inj h
    exact (m.leads_dropCompletion _).trans (leads_answer _ c rfl)
  | change how o =>
    obtain ⟨v, -, h⟩ := bind_ok h
    obtain rfl := Except.ok.inj h
    exact m.leads_answer c rfl
  | panic message => exact Except.ok.inj h ▸ m.leads_raise rfl
  | probe id count name invoke cancel =>
    exact Except.ok.inj h ▸ (m.leads_addProbe id name count invoke cancel).trans (leads_push _ rfl)
  | arrive id canceled =>
    obtain ⟨k, -, h⟩ := bind_ok h
    exact Except.ok.inj h ▸ (m.leads_push rfl).trans (leads_arrive _ _ canceled)
  | expect id =>
    obtain ⟨k, -, h⟩ := bind_ok h
    exact Except.ok.inj h ▸ (m.leads_push rfl).trans (leads_expect _ _)
  | release id =>
    obtain ⟨k, -, h⟩ := bind_ok h
    exact Except.ok.inj h ▸ (m.leads_push rfl).trans (leads_release _ _)
  | listen id dep =>
    obtain ⟨s, -, h⟩ := bind_ok h
    obtain ⟨k, -, h⟩ := bind_ok h
    exact Except.ok.inj h ▸ (m.leads_answer c rfl).trans (leads_listen _ s _)
  | clone id copy =>
    obtain ⟨q, hq, h⟩ := bind_ok h
    exact Except.ok.inj h ▸ (leads_clone hq).trans (leads_answer _ c rfl)
  | advance span runtime =>
    exact Except.ok.inj h ▸ (m.leads_answer c rfl).trans (leads_push _ rfl)
  | unsupported => exact Except.ok.inj h ▸ m.leads_answer c rfl

theorem Leads.execute (h : Leads m n) (hm : n.Awaits) (hs : n.world.Sound) (f : Frame) (l : Line Action) :
    Leads m (n.execute f l) := by
  have hg (c : Caller) : Leads m (if l.caught then n.push (.guard c) else n) ∧
      (if l.caught then n.push (.guard c) else n).Awaits ∧
      (if l.caught then n.push (.guard c) else n).world = n.world := by
    split
    · exact ⟨h.trans (n.leads_push rfl), hm, rfl⟩
    · exact ⟨h, hm, rfl⟩
  obtain ⟨hl, ha, hw⟩ := hg ⟨f.owner, l.verb⟩
  unfold Machine.execute
  dsimp only
  split
  · next p hp => exact hl.trans (leads_act ha (hw ▸ hs) hp)
  · exact hl.trans (leads_answer _ _ rfl)

end Machine

open Machine

theorem Stage.Reached.awaits {m : Machine} (h : Stage.Reached ⟨none, m⟩) : m.Awaits := by
  intro k p hk hp
  refine h.untouched hp ?_
  rw [Stage.due, Stage.during_mk]
  rcases hk with hc | ⟨t, ht, rfl⟩
  · have := List.count_pos_iff.2 hc
    omega
  · have : 0 < m.timers.countP fun u ↦ u.node = t.node := List.countP_pos_iff.2 ⟨t, ht, by simp⟩
    omega

namespace Machine

theorem leads_perform {m : Machine} {t : Task} {ts : List Task} (hs : m.stack = t :: ts)
    (h : Stage.Reached ⟨none, m⟩) (ht : t.first) (hno : ∀ f ls e, t ≠ .script f ls e) :
    Leads { m with stack := ts } ({ m with stack := ts }.perform t) := by
  have ha : Machine.Awaits { m with stack := ts } := h.awaits
  cases t with
  | script f rest exit => exact absurd rfl (hno f rest exit)
  | answer c r => exact leads_conclude _ c (first_settle ht)
  | guard c => exact .refl _
  | contain => exact .refl _
  | keep id k =>
    refine leads_keep _ id ?_
    intro _ v hv
    subst hv
    exact absurd ht (by simp [Task.first])
  | relinquish id => exact leads_dropCompletion _ id
  | fire k =>
    exact leads_mapWorld { m with stack := ts } (f := fun w ↦ w.modifyTerminal k fun t ↦ { t with fired := true })
      (fun _ ↦ rfl) fun _ ↦ id
  | deliver s canceled xs =>
    cases xs with
    | nil => exact .refl _
    | cons x xs => exact (leads_push _ (t := .deliver s canceled xs) rfl).trans (leads_tell _ x s canceled)
  | attach x ss =>
    cases ss with
    | nil => exact .refl _
    | cons s ss => exact (leads_push _ (t := .attach x ss) rfl).trans (leads_listen _ s x)
  | elapse stop runtime => exact leads_elapse _ ha stop runtime

theorem follows_perform {m : Machine} {t : Task} {ts : List Task} (hs : m.stack = t :: ts)
    (h : Stage.Reached ⟨none, m⟩) (ht : t.first) : Follows { m with stack := ts } ({ m with stack := ts }.perform t) := by
  cases t with
  | script f rest exit =>
    cases rest with
    | nil =>
      cases exit with
      | nowhere => exact .refl _
      | job k j => exact follows_launch _ k _
    | cons l rest =>
      let q : Machine := { m with stack := .script { f with register := m.registerAfter f l.action } rest exit :: ts }
      have hq : Leads q (q.execute f l) := (Leads.refl q).execute h.awaits h.sound f l
      exact (follows_push { m with stack := ts } (t := .script _ rest exit) rfl).trans hq.toFollows
  | _ => exact (leads_perform hs h ht (by simp)).toFollows

/-- No fault of a second report is shown, or about to be. -/
structure First (m : Machine) : Prop where
  answer : m.answer.first
  events : ∀ e ∈ m.journal, e.first
  tasks : ∀ t ∈ m.stack, t.first

theorem Follows.first {m n : Machine} (h : Follows m n) (hm : m.First) : n.First where
  answer := h.answer hm.answer
  events e he := (h.events e he).elim (hm.events e) id
  tasks t ht := (h.tasks t ht).elim (hm.tasks t) id

theorem Next.follows {m n : Machine} (hn : Next m n) (h : Stage.Reached ⟨none, m⟩) (hm : m.First) : Follows m n := by
  cases hn with
  | step hs =>
    unfold Machine.step
    split
    · next hs' => exact absurd hs' hs
    · next t ts hs' =>
      exact (leads_pop hs').toFollows.trans (follows_perform hs' h (hm.tasks t (hs' ▸ List.mem_cons_self)))
  | line hs f l =>
    let q : Machine := { m with stack := [.guard ⟨f.owner, l.verb⟩] }
    have hp : Follows m q := .of_stack rfl (fun _ ↦ rfl) rfl rfl (List.forall_mem_singleton.2 (.inr rfl))
    exact hp.trans ((Leads.refl q).execute h.awaits h.sound f l).toFollows

/-- A fault was the answer to some call, or left work undone. -/
def Shows (m : Machine) (f : Fault) : Prop :=
  m.answer = .fault f ∨ (∃ s, .unwound f s ∈ m.journal) ∨ ∃ verb, .replied verb (.fault f) ∈ m.journal

theorem First.not_shows {m : Machine} (h : m.First) (r : Repeated) : ¬ m.Shows (.repeated r) := by
  rintro (ha | ⟨s, he⟩ | ⟨verb, he⟩)
  · have := h.answer
    rw [ha] at this
    exact absurd this (by simp [Answer.first, Fault.first])
  · exact absurd (h.events _ he) (by simp [Event.first, Fault.first])
  · exact absurd (h.events _ he) (by simp [Event.first, Answer.first, Fault.first])

theorem Reachable.first_housed {m : Machine} (h : m.Reachable) : m.First ∧ m.Housed := by
  obtain ⟨catalogue, h⟩ := h
  induction h with
  | refl =>
    refine ⟨⟨rfl, by simp, by simp⟩, ?_⟩
    intro id v hv
    simp [Table.get?] at hv
  | tail hm hn ih =>
    have hl := hn.follows (Reachable.reached ⟨catalogue, hm⟩) ih.1
    exact ⟨hl.first ih.1, hl.views ih.2⟩

theorem Reachable.attested {m : Machine} (h : m.Reachable) : m.Attested := by
  obtain ⟨catalogue, h⟩ := h
  induction h with
  | refl =>
    intro k name label ending canceled hk
    simp at hk
  | tail hm hn ih =>
    have hr : Reachable _ := ⟨catalogue, hm⟩
    exact (hn.follows hr.reached hr.first_housed.1).endings ih

theorem Reachable.course {m : Machine} (h : m.Reachable) : m.First ∧ m.Backed :=
  ⟨h.first_housed.1, h.first_housed.2.backed⟩

end Machine

end ActivityGraph
