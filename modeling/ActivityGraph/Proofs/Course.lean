import ActivityGraph.Proofs.History
import ActivityGraph.Proofs.Slot

namespace ActivityGraph

def Fault.first : Fault → Bool
  | .repeated _ => false
  | _ => true

def Answer.first : Answer → Bool
  | .fault f => f.first
  | _ => true

def Event.first : Event → Bool
  | .unwound f _ => f.first
  | .replied _ a => a.first
  | _ => true

def Task.first : Task → Bool
  | .answer _ (.now a) => a.first
  | .keep _ (.view _) => false
  | _ => true

def Event.ends : Event → Bool
  | .logged (.completed ..) => true
  | _ => false

/-- Events that show no such fault, go on with no job and tell of no end. -/
def Event.plain : Event → Bool
  | .prepared .. | .logged (.started ..) | .logged (.completed ..) => false
  | e => e.first

def Task.plain : Task → Bool
  | .script _ _ (.job ..) => false
  | t => t.first

theorem Event.first_of_plain {e : Event} (he : e.plain) : e.first := by
  cases e with
  | prepared | logged => rfl
  | _ => exact he

theorem Event.invokes_of_plain {e : Event} (he : e.plain) (k : Key) : e.invokes k = false := by
  cases e with
  | prepared => simp [plain] at he
  | logged e =>
    cases e with
    | started => simp [plain] at he
    | _ => rfl
  | _ => rfl

theorem Event.not_ends_of_plain {e : Event} (he : e.plain) : e.ends = false := by
  cases e with
  | logged e =>
    cases e with
    | completed => simp [plain] at he
    | _ => rfl
  | _ => rfl

theorem Task.first_of_plain {t : Task} (ht : t.plain) : t.first := by
  cases t with
  | script => rfl
  | _ => exact ht

theorem Task.prepares_of_plain {t : Task} (ht : t.plain) (k : Key) : t.prepares k = 0 := by
  cases t with
  | script f ls e =>
    cases e with
    | nowhere => rfl
    | job => simp [plain] at ht
  | _ => rfl

def World.Spent (w : World) (k : Key) : Prop := ∃ n, w.nodes.get? k = some n ∧ n.job = none

theorem World.Spent.of_nodes {w u : World} {k : Key} (h : w.Spent k) (hu : u.nodes = w.nodes) : u.Spent k := by
  rwa [Spent, hu]

theorem World.Spent.modifyNode {w : World} {k : Key} (h : w.Spent k) (l : Key) {f : Node → Node}
    (hf : ∀ n, n.job = none → (f n).job = none) : (w.modifyNode l f).Spent k := by
  obtain ⟨n, hn, hj⟩ := h
  by_cases hk : l = k
  · subst hk
    exact ⟨_, get?_modifyNode_self hn f, hf n hj⟩
  · exact ⟨n, (get?_modifyNode_of_ne hk f).trans hn, hj⟩

theorem World.Spent.drawEdge {w : World} {k : Key} (h : w.Spent k) (s : Source) (x : Waiter) :
    (w.drawEdge s x).Spent k := by
  obtain ⟨_, -, he⟩ := w.drawEdge_eq s x
  exact h.of_nodes (by rw [he])

theorem World.Spent.addNode {w : World} {k : Key} (h : w.Spent k) (l : Key) (n : Node) (count : Nat) :
    (w.addNode l n count).Spent k := by
  obtain ⟨p, hp, hj⟩ := h
  exact ⟨p, by simp [World.addNode, Table.get?_insert, hp], hj⟩

def World.Backs (w : World) (v : View) : Prop := ∀ x ∈ v.activities, w.Declares v.collector x

structure World.Houses (w : World) (v : View) : Prop where
  slots : (w.slots? v.collector).isSome
  backs : w.Backs v

theorem World.Houses.mono {w u : World} {v : View} (h : w.Houses v)
    (hs : ∀ c, (w.slots? c).isSome → (u.slots? c).isSome) (hd : ∀ c x, w.Declares c x → u.Declares c x) :
    u.Houses v :=
  ⟨hs _ h.slots, fun x hx ↦ hd _ x (h.backs x hx)⟩

namespace Machine

def Backed (m : Machine) : Prop := ∀ id v, m.desk.views.get? id = some v → m.world.Backs v

def Housed (m : Machine) : Prop := ∀ id v, m.desk.views.get? id = some v → m.world.Houses v

theorem Housed.backed {m : Machine} (h : m.Housed) : m.Backed := fun id v hv ↦ (h id v hv).backs

/-- Whatever the log says of the end of a report is so. -/
def Attested (m : Machine) : Prop := ∀ k name label ending canceled,
  .logged (.completed k name label ending canceled) ∈ m.journal →
    ∃ r, .reported k r ∈ m.journal ∧ (State.ofResult r).ending? = some ending

structure Alone (m n : Machine) (k : Key) : Prop where
  spent : n.world.Spent k
  invocations_eq : invocations k n.journal = invocations k m.journal
  tasks : ∀ t ∈ n.stack, 0 < t.prepares k → t ∈ m.stack

theorem Alone.trans {m n p : Machine} {k : Key} (h : Alone m n k) (h' : Alone n p k) : Alone m p k where
  spent := h'.spent
  invocations_eq := h'.invocations_eq.trans h.invocations_eq
  tasks t ht hk := h.tasks t (h'.tasks t ht hk) hk

/-- What a machine leaves to any one that comes later. -/
structure Follows (m n : Machine) : Prop where
  journal : m.journal <:+ n.journal
  declares : ∀ c x, m.world.Declares c x → n.world.Declares c x
  views : m.Housed → n.Housed
  endings : m.Attested → n.Attested
  answer : m.answer.first → n.answer.first
  events : ∀ e ∈ n.journal, e ∈ m.journal ∨ e.first
  tasks : ∀ t ∈ n.stack, t ∈ m.stack ∨ t.first

/-- What a function of the machine leaves to the next: no job that is gone is gone on with. -/
structure Leads (m n : Machine) : Prop extends Follows m n where
  alone : ∀ k, m.world.Spent k → Alone m n k

namespace Follows

variable {m n p : Machine}

theorem refl (m : Machine) : Follows m m where
  journal := List.suffix_rfl
  declares _ _ := id
  views := id
  endings := id
  answer := id
  events _ := .inl
  tasks _ := .inl

theorem trans (h : Follows m n) (h' : Follows n p) : Follows m p where
  journal := h.journal.trans h'.journal
  declares c x hc := h'.declares c x (h.declares c x hc)
  views hb := h'.views (h.views hb)
  endings he := h'.endings (h.endings he)
  answer ha := h'.answer (h.answer ha)
  events e he := (h'.events e he).elim (h.events e) .inr
  tasks t ht := (h'.tasks t ht).elim (h.tasks t) .inr

theorem of_stack (hj : n.journal = m.journal) (hw : ∀ c, n.world.slots? c = m.world.slots? c)
    (hd : n.desk.views = m.desk.views) (ha : n.answer = m.answer)
    (hs : ∀ t ∈ n.stack, t ∈ m.stack ∨ t.first) : Follows m n where
  journal := hj ▸ List.suffix_rfl
  declares c _ h := h.of_slots (hw c)
  views h id v hv := (h id v (hd ▸ hv)).mono (fun c hc ↦ hw c ▸ hc) fun c _ hx ↦ hx.of_slots (hw c)
  endings h := by rwa [Attested, hj]
  answer h := ha ▸ h
  events _ h := .inl (hj ▸ h)
  tasks := hs

end Follows

namespace Leads

variable {m n p : Machine}

theorem refl (m : Machine) : Leads m m where
  toFollows := .refl m
  alone _ hk := ⟨hk, rfl, fun _ ht _ ↦ ht⟩

theorem trans (h : Leads m n) (h' : Leads n p) : Leads m p where
  toFollows := h.toFollows.trans h'.toFollows
  alone k hk := (h.alone k hk).trans (h'.alone k (h.alone k hk).spent)

theorem of_stack (hj : n.journal = m.journal) (hn : ∀ k, m.world.Spent k → n.world.Spent k)
    (hw : ∀ c, n.world.slots? c = m.world.slots? c) (hd : n.desk.views = m.desk.views) (ha : n.answer = m.answer)
    (hs : ∀ t ∈ n.stack, t ∈ m.stack ∨ t.plain) : Leads m n where
  toFollows := .of_stack hj hw hd ha fun t ht ↦ (hs t ht).imp_right Task.first_of_plain
  alone k hk := ⟨hn k hk, by rw [hj], fun t ht hp ↦ (hs t ht).resolve_right fun h ↦
    absurd (Task.prepares_of_plain h k) (Nat.ne_of_gt hp)⟩

theorem of_follows (h : Follows m n) (hn : ∀ k, m.world.Spent k → n.world.Spent k) (hj : n.journal = m.journal)
    (hs : n.stack = m.stack) : Leads m n where
  toFollows := h
  alone k hk := ⟨hn k hk, by rw [hj], fun _ ht _ ↦ hs ▸ ht⟩

theorem of_eq (hj : n.journal = m.journal) (hn : ∀ k, m.world.Spent k → n.world.Spent k)
    (hw : ∀ c, n.world.slots? c = m.world.slots? c) (hd : n.desk.views = m.desk.views) (ha : n.answer = m.answer)
    (hs : n.stack = m.stack) : Leads m n :=
  of_stack hj hn hw hd ha fun _ ht ↦ .inl (hs ▸ ht)

end Leads

variable {m n : Machine}

theorem Attested.note (h : m.Attested) {e : Event} (he : ∀ k name label ending canceled,
    e = .logged (.completed k name label ending canceled) →
      ∃ r, .reported k r ∈ m.journal ∧ (State.ofResult r).ending? = some ending) : (m.note e).Attested := by
  intro k name label ending canceled hk
  obtain ⟨r, hr, hend⟩ := (List.mem_cons.1 hk).elim (fun hk ↦ he _ _ _ _ _ hk.symm) (h k name label ending canceled)
  exact ⟨r, List.mem_cons_of_mem e hr, hend⟩

theorem follows_note (m : Machine) {e : Event} (he : e.first) (hends : e.ends = false) : Follows m (m.note e) :=
  { Follows.refl m with
    journal := List.suffix_cons e m.journal,
    endings := fun h ↦ h.note (by rintro _ _ _ _ _ rfl; simp [Event.ends] at hends),
    events := List.forall_mem_cons.2 ⟨.inr he, fun _ ↦ .inl⟩ }

theorem follows_push (m : Machine) {t : Task} (ht : t.first) : Follows m (m.push t) :=
  .of_stack rfl (fun _ ↦ rfl) rfl rfl (List.forall_mem_cons.2 ⟨.inr ht, fun _ ↦ .inl⟩)

theorem leads_note (m : Machine) {e : Event} (he : e.plain) : Leads m (m.note e) where
  toFollows := m.follows_note (Event.first_of_plain he) (Event.not_ends_of_plain he)
  alone k hk := ⟨hk, List.countP_cons_of_neg (by simp [Event.invokes_of_plain he]), fun _ ht _ ↦ ht⟩

theorem leads_log (m : Machine) {e : Entry} (he : (Event.logged e).plain) : Leads m (m.log e) := m.leads_note he

theorem leads_noteAll (m : Machine) {es : List Event} (he : ∀ e ∈ es, e.plain) : Leads m (m.noteAll es) := by
  induction es generalizing m with
  | nil => exact .refl m
  | cons e es ih =>
    obtain ⟨h, hs⟩ := List.forall_mem_cons.1 he
    exact (m.leads_note h).trans (ih (m.note e) hs)

theorem leads_push (m : Machine) {t : Task} (ht : t.plain) : Leads m (m.push t) :=
  .of_stack rfl (fun _ ↦ id) (fun _ ↦ rfl) rfl rfl (List.forall_mem_cons.2 ⟨.inr ht, fun _ ↦ .inl⟩)

theorem leads_pop {t : Task} {ts : List Task} (hs : m.stack = t :: ts) : Leads m { m with stack := ts } :=
  .of_stack rfl (fun _ ↦ id) (fun _ ↦ rfl) rfl rfl fun _ hu ↦ .inl (hs ▸ List.mem_cons_of_mem t hu)

theorem leads_mapWorld (m : Machine) {f : World → World} (hf : ∀ c, (f m.world).slots? c = m.world.slots? c)
    (hn : ∀ k, m.world.Spent k → (f m.world).Spent k) : Leads m (m.mapWorld f) := .of_eq rfl hn hf rfl rfl rfl

theorem leads_modifyNode (m : Machine) (k : Key) {f : Node → Node} (hf : ∀ n, n.job = none → (f n).job = none) :
    Leads m (m.modifyNode k f) := m.leads_mapWorld (fun _ ↦ rfl) fun _ h ↦ h.modifyNode k hf

theorem leads_keep (m : Machine) (id : String) {h : Handle} (hv : m.Housed → ∀ v, h = .view v → m.world.Houses v) :
    Leads m (m.keep id h) := by
  refine .of_follows { Follows.refl m with views := ?_ } (fun _ h ↦ h) rfl rfl
  intro hb i v hi
  cases h with
  | view u =>
    replace hi := (Table.get?_put ..).symm.trans hi
    split at hi
    · obtain rfl := Option.some.inj hi
      exact hv hb u rfl
    · exact hb i v hi
  | _ => exact hb i v hi

theorem leads_keep_view (m : Machine) (id : String) {v : View} (hv : m.Housed → m.world.Houses v) :
    Leads m (m.keep id (.view v)) := by
  apply leads_keep
  intro hb u hu
  exact Handle.view.inj hu ▸ hv hb

theorem leads_conclude (m : Machine) (c : Caller) {a : Answer} (ha : a.first) : Leads m (m.conclude c a) := by
  have h : Leads m { m with answer := a } :=
    .of_follows { Follows.refl m with answer := fun _ ↦ ha } (fun _ ↦ id) rfl rfl
  unfold conclude
  split
  · exact h.trans (leads_note _ ha)
  · exact h

theorem leads_dropCompletion (m : Machine) (id : String) : Leads m (m.dropCompletion id) := by
  unfold dropCompletion
  split
  · exact .refl m
  · have ht : Leads m (m.takeCompletion id) := .of_eq rfl (fun _ h ↦ h) (fun _ ↦ rfl) rfl rfl rfl
    exact ht.trans (leads_log _ rfl)

theorem leads_holdCompletion (m : Machine) (id : String) (k : Key) : Leads m (m.holdCompletion id k) :=
  (m.leads_dropCompletion id).trans (.of_eq rfl (fun _ h ↦ h) (fun _ ↦ rfl) rfl rfl rfl)

theorem dropCompletion_stack (m : Machine) (ts : List Task) (id : String) :
    Machine.dropCompletion { m with stack := ts } id = { m.dropCompletion id with stack := ts } := by
  unfold dropCompletion
  dsimp only
  cases m.desk.completions.get? id <;> rfl

theorem leads_unwind {f : Fault} (hf : f.first) (ts : List Task) (m : Machine) :
    Leads { m with stack := ts } (unwind f ts m) := by
  induction ts generalizing m with
  | nil => exact .of_follows { Follows.refl { m with stack := [] } with answer := fun _ ↦ hf } (fun _ ↦ id) rfl rfl
  | cons t ts ih =>
    have hp : Leads { m with stack := t :: ts } { m with stack := ts } := leads_pop rfl
    have hn (o : Option Scope) : Leads { m with stack := ts }
        { m.noteAll (o.toList.map (.unwound f)) with stack := ts } := by
      cases o with
      | none => exact .refl _
      | some s => exact leads_note { m with stack := ts } (e := .unwound f s) hf
    cases t with
    | guard c => exact hp.trans (leads_conclude _ c hf)
    | contain => exact hp
    | relinquish id =>
      have hd := leads_dropCompletion { m with stack := ts } id
      rw [dropCompletion_stack] at hd
      exact (hp.trans hd).trans (ih _)
    | _ => exact (hp.trans (hn _)).trans (ih _)

theorem leads_raise (m : Machine) {f : Fault} (hf : f.first) : Leads m (m.raise f) := leads_unwind hf m.stack m

theorem leads_store {writer : Option Key} {c : Key} {x : Activity} {r : Outcome} (h : m.store writer c x r = .ok n) :
    Leads m n := by
  unfold Machine.store at h
  cases hw : m.world.store c x r with
  | error e => simp [hw] at h
  | ok w =>
    simp only [hw, Except.ok.injEq] at h
    have hm : Follows m (m.mapWorld fun _ ↦ w) :=
      { Follows.refl m with
        declares := fun d y hd ↦ hd.store hw,
        views := fun hb id v hv ↦ (hb id v hv).mono (fun d hd ↦ World.isSome_slots?_store hw hd) fun d y hd ↦ hd.store hw }
    have hn : w.nodes = m.world.nodes := by
      obtain ⟨t, -, rfl⟩ := World.store_eq hw
      rfl
    exact h ▸ (Leads.of_follows hm (fun _ hk ↦ hk.of_nodes hn) rfl rfl).trans (leads_note _ rfl)

theorem leads_resolve (m : Machine) (k : Key) (s : Signal) : Leads m (m.resolve k s) := by
  unfold resolve
  cases hk : m.world.nodes.get? k with
  | none => exact .refl m
  | some n =>
    have settled (p : Machine) (hp : Leads m p) :
        Leads m (p.modifyNode k fun n ↦ { n with signal := some s, listeners := [] }) :=
      hp.trans (leads_modifyNode p k fun _ ↦ id)
    cases s with
    | done =>
      refine (settled _ ?_).trans (leads_push _ rfl)
      split
      · exact leads_store ‹_›
      · exact m.leads_log rfl
    | cancel =>
      refine ((settled _ ?_).trans (leads_log _ rfl)).trans (leads_push _ rfl)
      split
      · exact leads_store ‹_›
      · exact m.leads_log rfl

theorem leads_abandon (m : Machine) (k : Key) : Leads m (m.abandon k) := by
  unfold abandon
  split
  · exact .refl m
  · exact ((m.leads_modifyNode k fun _ _ ↦ rfl).trans (leads_log _ rfl)).trans (leads_resolve _ k .cancel)

theorem leads_completed {k : Key} {r : Except Payload Payload} {ending : Ending} (hr : .reported k r ∈ m.journal)
    (hend : (State.ofResult r).ending? = some ending) (name label : String) (canceled : Bool) :
    Leads m (m.log (.completed k name label ending canceled)) where
  toFollows :=
    { Follows.refl m with
      journal := List.suffix_cons _ m.journal,
      endings := fun h ↦ h.note fun _ _ _ _ _ he ↦ by cases he; exact ⟨r, hr, hend⟩,
      events := List.forall_mem_cons.2 ⟨.inr rfl, fun _ ↦ .inl⟩ }
  alone k hk := ⟨hk, List.countP_cons_of_neg (by simp [Event.invokes]), fun _ ht _ ↦ ht⟩

theorem leads_complete {k : Key} {r : Except Payload Payload}
    (h : ∀ p, m.world.nodes.get? k = some p → ∃ o, p.record.report r = .ok o) : Leads m (m.complete k r) := by
  unfold complete
  cases hk : m.world.nodes.get? k with
  | none => exact .refl m
  | some p =>
    obtain ⟨o, ho⟩ := h p hk
    dsimp only
    rw [ho]
    dsimp only
    have hn : Leads m ((m.modifyNode k fun n ↦ { n with record := (p.policy.rule o).record }).noteAll
        (.reported k r :: (p.policy.rule o).asked.map (.asked k))) := by
      refine (m.leads_modifyNode k (f := fun n ↦ { n with record := (p.policy.rule o).record }) fun _ ↦ id).trans
        (leads_noteAll _ ?_)
      simp [Event.plain, Event.first]
    cases (p.policy.rule o).signal with
    | error text => exact (hn.trans (leads_note _ rfl)).trans (leads_raise _ rfl)
    | ok s =>
      refine (hn.trans (leads_completed (k := k) (r := r) ?_ ?_ _ _ _)).trans (leads_resolve _ k s)
      · rw [noteAll_eq]
        exact List.mem_append_left _ (by simp)
      · cases r <;> rfl

theorem follows_launch (m : Machine) (k : Key) (j : Job) : Follows m (m.launch k j) := by
  obtain ⟨_ | ⟨⟨place, code⟩, rest⟩, work⟩ := j
  · have hl : Follows m (m.log (.started k (m.world.label (.node k)))) := m.follows_note rfl rfl
    cases work with
    | script body hold r =>
      have hn := (hl.trans (leads_note _ (e := .ran k r) rfl).toFollows).trans (leads_holdCompletion _ k.handle k).toFollows
      cases hold with
      | true => exact hn.trans (follows_push _ rfl)
      | false => exact (hn.trans (follows_push _ (t := .relinquish k.handle) rfl)).trans (follows_push _ rfl)
    | timer after =>
      have hn := hl.trans (follows_note _ (e := .timed k after) rfl rfl)
      exact hn.trans (.of_stack rfl (fun _ ↦ rfl) rfl rfl fun _ ↦ .inl)
  · exact (m.follows_note (e := .prepared k place work.register) rfl rfl).trans (follows_push _ rfl)

theorem alone_launch {k l : Key} (hl : k ≠ l) (hs : m.world.Spent l) (j : Job) : Alone m (m.launch k j) l := by
  have noted {p : Machine} {e : Event} (hp : p.world.Spent l) (he : e.invokes l = false) : Alone p (p.note e) l :=
    ⟨hp, List.countP_cons_of_neg (by simp [he]), fun _ ht _ ↦ ht⟩
  have pushed {p : Machine} {t : Task} (hp : p.world.Spent l) (ht : t.prepares l = 0) : Alone p (p.push t) l := by
    refine ⟨hp, rfl, List.forall_mem_cons.2 ⟨fun h ↦ absurd ht (Nat.ne_of_gt h), fun _ hu _ ↦ hu⟩⟩
  obtain ⟨_ | ⟨⟨place, code⟩, rest⟩, work⟩ := j
  · have hstarted : Alone m (m.log (.started k (m.world.label (.node k)))) l := noted hs (by simp [Event.invokes, hl])
    cases work with
    | script body hold r =>
      have hn := hstarted.trans (noted (e := .ran k r) hstarted.spent rfl)
      have hh := hn.trans ((leads_holdCompletion _ k.handle k).alone l hn.spent)
      cases hold with
      | true => exact hh.trans (pushed hh.spent rfl)
      | false =>
        have hr := hh.trans (pushed (t := .relinquish k.handle) hh.spent rfl)
        exact hr.trans (pushed hr.spent rfl)
    | timer after =>
      have hn := hstarted.trans (noted (e := .timed k after) hstarted.spent rfl)
      exact ⟨hs, hn.invocations_eq, fun _ ht _ ↦ ht⟩
  · have hn := noted (p := m) (e := .prepared k place work.register) hs (by simp [Event.invokes, hl])
    exact hn.trans (pushed hn.spent (by simp [Task.prepares, hl]))

theorem leads_begin (m : Machine) (k : Key) : Leads m (m.begin k) := by
  unfold begin
  split
  · exact .refl m
  · next n hn =>
    split
    · exact m.leads_raise rfl
    · next j hj =>
      have hm : Leads m (m.modifyNode k fun n ↦ { n with job := none }) := m.leads_modifyNode k fun _ _ ↦ rfl
      refine ⟨hm.toFollows.trans (follows_launch _ k j), fun l hl ↦ ?_⟩
      have hne : k ≠ l := by
        rintro rfl
        obtain ⟨p, hp, hz⟩ := hl
        obtain rfl := Option.some.inj (hn.symm.trans hp)
        simp [hj] at hz
      exact (hm.alone l hl).trans (alone_launch hne (hm.alone l hl).spent j)

theorem backs_declared {w : World} {c : Key} {col : Collector} (h : w.collectors.get? c = some col) :
    w.Backs ⟨c, col.declared⟩ := by
  intro x hx
  exact (World.declares_iff h).2 (Table.isSome_get?_iff.2 hx)

theorem houses_declared {w : World} {c : Key} {col : Collector} (h : w.collectors.get? c = some col) :
    w.Houses ⟨c, col.declared⟩ :=
  ⟨World.isSome_slots? h, backs_declared h⟩

theorem leads_join (m : Machine) (k : Key) : Leads m (m.join k) := by
  unfold join
  split
  · exact .refl m
  · next t _ =>
    split
    · next body c _ hc =>
      have hm : Leads m ((m.mapWorld fun w ↦ w.modifyTerminal k fun t ↦ { t with callback := none }).log
          (.joined k c.name)) := (m.leads_mapWorld (fun _ ↦ rfl) fun _ ↦ id).trans (leads_log _ rfl)
      have hn := hm.trans (leads_note _ (e := .finished k (View.describe ⟨t.collector, c.declared⟩ c)) rfl)
      have hk := hn.trans (leads_keep_view _ ("@" ++ k.handle) fun _ ↦ houses_declared hc)
      exact (hk.trans (leads_push _ (t := .fire k) rfl)).trans (leads_push _ rfl)
    · exact .refl m

theorem leads_call (m : Machine) (k : Key) (canceled : Bool) : Leads m (m.call k canceled) := by
  unfold call
  split
  · exact .refl m
  · split
    · exact .refl m
    · have hm : Leads m (m.mapWorld fun w ↦ w.modifyProbe k fun p ↦ { p with scripts := none }) :=
        m.leads_mapWorld (fun _ ↦ rfl) fun _ ↦ id
      exact (hm.trans (leads_note _ (e := .called k canceled) rfl)).trans (leads_push _ rfl)

theorem leads_enter (m : Machine) (x : Waiter) (canceled : Bool) : Leads m (m.enter x canceled) := by
  cases x with
  | node k =>
    cases canceled with
    | false => exact m.leads_begin k
    | true => exact m.leads_abandon k
  | terminal k => exact m.leads_join k
  | probe k => exact m.leads_call k canceled

theorem leads_setBarrier (m : Machine) (x : Waiter) (b : Barrier) :
    Leads m (m.mapWorld fun w ↦ w.setBarrier x b) := m.leads_mapWorld (fun _ ↦ rfl) fun _ ↦ id

theorem leads_arrive (m : Machine) (x : Waiter) (canceled : Bool) : Leads m (m.arrive x canceled) := by
  unfold arrive
  split
  · exact .refl m
  · split
    · exact m.leads_raise rfl
    · next b _ =>
      dsimp only
      split
      · exact ((m.leads_setBarrier x b).trans (leads_log _ rfl)).trans (leads_enter _ x _)
      · exact m.leads_setBarrier x b

theorem leads_release (m : Machine) (x : Waiter) : Leads m (m.release x) := by
  unfold release
  split
  · exact .refl m
  · split
    · exact m.leads_raise rfl
    · exact m.leads_raise rfl
    · exact ((m.leads_setBarrier x _).trans (leads_log _ rfl)).trans (leads_enter _ x _)

theorem leads_tell (m : Machine) (x : Waiter) (s : Source) (canceled : Bool) : Leads m (m.tell x s canceled) :=
  (m.leads_note rfl).trans (leads_arrive _ x canceled)

theorem leads_enlist (m : Machine) (s : Source) (x : Waiter) : Leads m (m.enlist s x) := by
  unfold enlist
  cases s with
  | node k =>
    dsimp only
    split
    · exact .refl m
    · split
      · exact m.leads_modifyNode k fun _ ↦ id
      · exact (m.leads_log rfl).trans (leads_tell _ x _ _)
  | start k =>
    dsimp only
    split
    · exact .refl m
    · split
      · exact m.leads_tell x _ _
      · exact m.leads_mapWorld (fun _ ↦ rfl) fun _ ↦ id

theorem leads_listen (m : Machine) (s : Source) (x : Waiter) : Leads m (m.listen s x) :=
  (m.leads_note rfl).trans (leads_enlist _ s x)

theorem leads_fire (m : Machine) (k : Key) : Leads m (m.fire k) := by
  unfold fire
  split
  · exact .refl m
  · next s _ =>
    dsimp only
    split
    · exact m.leads_raise rfl
    · have hm : Leads m (m.mapWorld fun w ↦ w.modifyStart k fun t ↦ { t with fired := true, listeners := [] }) :=
        m.leads_mapWorld (fun _ ↦ rfl) fun _ ↦ id
      exact (hm.trans (leads_log _ rfl)).trans (leads_push _ rfl)

theorem leads_wire (m : Machine) (x : Waiter) (s : Source) : Leads m (m.wire x s) :=
  (m.leads_mapWorld (fun c ↦ m.world.slots?_drawEdge s x c) fun _ h ↦ h.drawEdge s x).trans (leads_note _ rfl)

theorem leads_wireAll (m : Machine) (x : Waiter) (ss : List Source) : Leads m (m.wireAll x ss) := by
  induction ss generalizing m with
  | nil => exact .refl m
  | cons s ss ih => exact (m.leads_wire x s).trans (ih (m.wire x s))

theorem leads_expect (m : Machine) (x : Waiter) : Leads m (m.expect x) := by
  unfold expect
  split
  · exact .refl m
  · split
    · exact m.leads_raise rfl
    · exact m.leads_setBarrier x _

theorem leads_depend (m : Machine) (x : Waiter) (s : Source) : Leads m (m.depend x s) := by
  unfold depend
  split
  · exact .refl m
  · split
    · exact m.leads_raise rfl
    · exact ((m.leads_setBarrier x _).trans (leads_wire _ x s)).trans (leads_listen _ s x)

theorem leads_addNode (m : Machine) (id : String) (x : Activity) (c : Key) (deps : List Source) (s : Setup Script)
    (work : Work Script) : Leads m (m.addNode id x c deps s work) := by
  have hm : Leads m ((m.mapWorld fun w ↦ (w.addVertex c ⟨x.label, .activity⟩).addNode (m.world.nodes.fresh id)
      (m.newNode x c s work) deps.length).note (.placed (.node (m.world.nodes.fresh id)))) :=
    (m.leads_mapWorld (fun d ↦ m.world.slots?_modifyCollector c _ (by intro _; rfl) d) fun _ h ↦
      World.Spent.addNode (w := m.world.addVertex c ⟨x.label, .activity⟩) h _ _ _).trans (leads_note _ rfl)
  have hw := hm.trans (leads_wireAll _ (.node (m.world.nodes.fresh id)) deps)
  exact (hw.trans (leads_push _ rfl)).trans (leads_push _ rfl)

theorem leads_placeTerminal (m : Machine) (id : String) (c : Key) (deps : List Source) (body : Script) :
    Leads m (m.placeTerminal id c deps body) := by
  have hm : Leads m ((m.mapWorld fun w ↦ (w.addVertex c ⟨"joined", .joined⟩).addTerminal
      (m.world.terminals.fresh id) (m.newTerminal c body) deps.length).note
        (.placed (.terminal (m.world.terminals.fresh id)))) :=
    (m.leads_mapWorld (fun d ↦ m.world.slots?_modifyCollector c _ (by intro _; rfl) d) fun _ h ↦ h).trans
      (leads_note _ rfl)
  exact (hm.trans (leads_wireAll _ (.terminal (m.world.terminals.fresh id)) deps)).trans (leads_push _ rfl)

theorem leads_addTerminal (m : Machine) (id : String) (c : Key) (deps : List Source) (body : Script) :
    Leads m (m.addTerminal id c deps body) := by
  rw [addTerminal_eq]
  have hp := m.leads_placeTerminal id c deps body
  split
  · exact hp.trans (leads_release _ _)
  · exact hp.trans (leads_push _ rfl)

end Machine

end ActivityGraph
