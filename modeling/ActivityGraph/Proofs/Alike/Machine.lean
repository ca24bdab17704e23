import ActivityGraph.Proofs.Alike.World
import ActivityGraph.Machine

namespace ActivityGraph

/-- Events that depend on what is in the slots, or come from a script that writes one. -/
def Event.spoken : Event → Bool
  | .replied .. | .wrote none .. => true
  | _ => false

/-- Events of which each is the work of one action of a script. -/
def Event.deed : Event → Bool
  | .wrote none .. | .placed _ | .wired .. => true
  | _ => false

def Lens.hears (L : Lens) (e : Event) : Bool := !(L.blind && e.spoken)

def Handle.key : Handle → Key
  | .node k | .start k | .collector k | .terminal k | .probe k => k
  | .view v => v.collector

def Reply.Owned (L : Lens) : Reply → Prop
  | .now _ => True
  | .fired k | .barrier k => L.owns k

inductive Exit.Alike (L : Lens) : Exit → Exit → Prop
  | nowhere : Exit.Alike L .nowhere .nowhere
  | job {k : Key} {i j : Job} (hk : L.owns k) (hij : Job.Alike L k.handle i j) : Exit.Alike L (.job k i) (.job k j)

/-- Tasks that do alike to what the lens looks at, and nothing to the rest. -/
inductive Task.Alike (L : Lens) : Task → Task → Prop
  | script {f : Frame} {s t : Script} {e g : Exit} (hs : Script.Alike L f.home s t) (he : Exit.Alike L e g) :
      Task.Alike L (.script f s e) (.script f t g)
  | answer {c : Caller} {r s : Reply} (h : L.blind = false → s = r ∧ r.Owned L) :
      Task.Alike L (.answer c r) (.answer c s)
  | guard {c : Caller} : Task.Alike L (.guard c) (.guard c)
  | contain (h : L.timed) : Task.Alike L .contain .contain
  | keep {id : String} {h : Handle} (hid : L.own id) (hh : L.owns h.key) : Task.Alike L (.keep id h) (.keep id h)
  | relinquish {id : String} (hid : L.own id) : Task.Alike L (.relinquish id) (.relinquish id)
  | fire {k : Key} (hk : L.owns k) : Task.Alike L (.fire k) (.fire k)
  | deliver {s : Source} {canceled : Bool} {xs : List Waiter} (hs : L.owns s.key) (hxs : ∀ x ∈ xs, L.owns x.key) :
      Task.Alike L (.deliver s canceled xs) (.deliver s canceled xs)
  | attach {x : Waiter} {ss : List Source} (hx : L.owns x.key) (hss : ∀ s ∈ ss, L.owns s.key) :
      Task.Alike L (.attach x ss) (.attach x ss)
  | elapse {stop stop' : Nat} {ρ ρ' : Runtime} (h : L.timed → stop' = stop ∧ ρ' = ρ) :
      Task.Alike L (.elapse stop ρ) (.elapse stop' ρ')

def Task.answers : Task → Bool
  | .answer .. => true
  | _ => false

def Task.scripted : Task → Bool
  | .script .. => true
  | _ => false

theorem Task.Alike.scope? {L : Lens} {t u : Task} (h : Task.Alike L t u) : u.scope? = t.scope? := by
  cases h with
  | script _ he => cases he <;> rfl
  | _ => rfl

structure Desk.Alike (L : Lens) (d e : Desk) : Prop where
  nodes : d.nodes.Alike L.own (fun _ k l ↦ l = k ∧ L.owns k) e.nodes
  starts : d.starts.Alike L.own (fun _ k l ↦ l = k ∧ L.owns k) e.starts
  collectors : d.collectors.Alike L.own (fun _ k l ↦ l = k ∧ L.owns k) e.collectors
  views : d.views.Alike L.own (fun _ v u ↦ u = v ∧ L.owns v.collector) e.views
  terminals : d.terminals.Alike L.own (fun _ k l ↦ l = k ∧ L.owns k) e.terminals
  probes : d.probes.Alike L.own (fun _ k l ↦ l = k ∧ L.owns k) e.probes
  completions : d.completions.Alike L.own (fun _ k l ↦ l = k ∧ L.owns k) e.completions

def Desk.part (L : Lens) (d : Desk) : Desk where
  nodes := d.nodes.restrict L.own
  starts := d.starts.restrict L.own
  collectors := d.collectors.restrict L.own
  views := d.views.restrict L.own
  terminals := d.terminals.restrict L.own
  probes := d.probes.restrict L.own
  completions := d.completions.restrict L.own

def Desk.rest (L : Lens) (d : Desk) : Desk := d.part L.other

namespace Desk

variable {L : Lens} {d e : Desk} {id : String}

theorem Alike.keep (h : Alike L d e) (id : String) {x : Handle} (hx : L.owns x.key) :
    Alike L (d.keep id x) (e.keep id x) := by
  cases x with
  | node k => exact { h with nodes := h.nodes.put fun _ ↦ ⟨rfl, hx⟩ }
  | start k => exact { h with starts := h.starts.put fun _ ↦ ⟨rfl, hx⟩ }
  | collector k => exact { h with collectors := h.collectors.put fun _ ↦ ⟨rfl, hx⟩ }
  | view v => exact { h with views := h.views.put fun _ ↦ ⟨rfl, hx⟩ }
  | terminal k => exact { h with terminals := h.terminals.put fun _ ↦ ⟨rfl, hx⟩ }
  | probe k => exact { h with probes := h.probes.put fun _ ↦ ⟨rfl, hx⟩ }

theorem Alike.of_part (h : Alike L d e) {d' e' : Desk} (hd : d'.part L = d.part L) (he : e'.part L = e.part L) :
    Alike L d' e' where
  nodes := h.nodes.of_restrict (congrArg Desk.nodes hd) (congrArg Desk.nodes he)
  starts := h.starts.of_restrict (congrArg Desk.starts hd) (congrArg Desk.starts he)
  collectors := h.collectors.of_restrict (congrArg Desk.collectors hd) (congrArg Desk.collectors he)
  views := h.views.of_restrict (congrArg Desk.views hd) (congrArg Desk.views he)
  terminals := h.terminals.of_restrict (congrArg Desk.terminals hd) (congrArg Desk.terminals he)
  probes := h.probes.of_restrict (congrArg Desk.probes hd) (congrArg Desk.probes he)
  completions := h.completions.of_restrict (congrArg Desk.completions hd) (congrArg Desk.completions he)

theorem Alike.part_eq (h : Alike L d e) : e.part L = d.part L := by
  simp only [part, h.nodes.restrict_eq fun _ _ _ hkl ↦ hkl.1, h.starts.restrict_eq fun _ _ _ hkl ↦ hkl.1,
    h.collectors.restrict_eq fun _ _ _ hkl ↦ hkl.1, h.views.restrict_eq fun _ _ _ hkl ↦ hkl.1,
    h.terminals.restrict_eq fun _ _ _ hkl ↦ hkl.1, h.probes.restrict_eq fun _ _ _ hkl ↦ hkl.1,
    h.completions.restrict_eq fun _ _ _ hkl ↦ hkl.1]

theorem rest_other : d.rest L.other = d.part L := by rw [rest, Lens.other_other]

theorem part_eq_self (h : d.rest L = {}) : d.part L = d := by
  have hn : d.nodes.restrict L.own = d.nodes := Table.restrict_eq_self (congrArg nodes h)
  have hs : d.starts.restrict L.own = d.starts := Table.restrict_eq_self (congrArg starts h)
  have hc : d.collectors.restrict L.own = d.collectors := Table.restrict_eq_self (congrArg collectors h)
  have hv : d.views.restrict L.own = d.views := Table.restrict_eq_self (congrArg views h)
  have ht : d.terminals.restrict L.own = d.terminals := Table.restrict_eq_self (congrArg terminals h)
  have hp : d.probes.restrict L.own = d.probes := Table.restrict_eq_self (congrArg probes h)
  have hk : d.completions.restrict L.own = d.completions := Table.restrict_eq_self (congrArg completions h)
  simp only [part, hn, hs, hc, hv, ht, hp, hk]

theorem rest_keep (hid : L.own id) (x : Handle) : (d.keep id x).rest L = d.rest L := by
  cases x <;> simp [rest, part, Desk.keep, Table.restrict_put, hid]

end Desk

structure Machine.Untouched (L : Lens) (q m : Machine) : Prop where
  catalogue : m.catalogue = q.catalogue
  world : m.world.rest L = q.world.rest L
  desk : m.desk.rest L = q.desk.rest L

/-- Since two moments, two journals have taken on what sounds alike, and the first one the given deeds. -/
def Sounds (L : Lens) (past past' deeds j i : List Event) : Prop :=
  ∃ es fs, j = es ++ past ∧ i = fs ++ past' ∧ fs.filter L.hears = es.filter L.hears ∧ es.filter Event.deed = deeds

/-- From `q` to `m` it went like from `p` to `n`, with the given deeds. Where nothing waits for time, the answers
may be `old` ones of which nothing is known, or such ones with a new answer due. -/
structure Machine.Alike (L : Lens) (q p : Machine) (old : Bool) (deeds : List Event) (m n : Machine) : Prop where
  catalogue : n.catalogue = m.catalogue
  world : World.Alike L m.world n.world
  desk : Desk.Alike L m.desk n.desk
  clock : L.timed → n.clock = m.clock
  timers : n.timers = m.timers
  due : ∀ t ∈ m.timers, L.timed ∧ L.owns t.node
  stack : List.Forall₂ (Task.Alike L) m.stack n.stack
  answer : L.blind = false → n.answer = m.answer ∨ L.timed = false ∧ (old || m.stack.any Task.answers)
  journal : Sounds L q.journal p.journal deeds m.journal n.journal
  rest : Machine.Untouched L q m

namespace Sounds

variable {L : Lens} {past past' deeds j i : List Event} {e : Event}

theorem refl (L : Lens) (past past' : List Event) : Sounds L past past' [] past past' :=
  ⟨[], [], rfl, rfl, rfl, rfl⟩

theorem note (h : Sounds L past past' deeds j i) (he : e.deed = false) :
    Sounds L past past' deeds (e :: j) (e :: i) := by
  obtain ⟨es, fs, rfl, rfl, hf, hd⟩ := h
  exact ⟨e :: es, e :: fs, rfl, rfl, by rw [List.filter_cons, List.filter_cons, hf], by simp [he, hd]⟩

theorem note_deed (h : Sounds L past past' deeds j i) (he : e.deed) :
    Sounds L past past' (e :: deeds) (e :: j) (e :: i) := by
  obtain ⟨es, fs, rfl, rfl, hf, hd⟩ := h
  exact ⟨e :: es, e :: fs, rfl, rfl, by rw [List.filter_cons, List.filter_cons, hf], by simp [he, hd]⟩

theorem unheard {f : Event} (h : Sounds L past past' deeds j i) (he : L.hears e = false) (hd : e.deed = false)
    (hf : L.hears f = false) : Sounds L past past' deeds (e :: j) (f :: i) := by
  obtain ⟨es, fs, rfl, rfl, hs, rfl⟩ := h
  exact ⟨e :: es, f :: fs, rfl, rfl, by simp [he, hf, hs], by simp [hd]⟩

theorem unheard_left (h : Sounds L past past' deeds j i) (he : L.hears e = false) (hd : e.deed = false) :
    Sounds L past past' deeds (e :: j) i := by
  obtain ⟨es, fs, rfl, rfl, hs, rfl⟩ := h
  exact ⟨e :: es, fs, rfl, rfl, by simp [he, hs], by simp [hd]⟩

theorem unheard_right (h : Sounds L past past' deeds j i) (he : L.hears e = false) :
    Sounds L past past' deeds j (e :: i) := by
  obtain ⟨es, fs, rfl, rfl, hs, rfl⟩ := h
  exact ⟨es, e :: fs, rfl, rfl, by simp [he, hs], rfl⟩

end Sounds

namespace Machine

theorem Untouched.refl (L : Lens) (q : Machine) : Untouched L q q := ⟨rfl, rfl, rfl⟩

namespace Alike

variable {L : Lens} {q p m n : Machine} {old : Bool} {d : List Event}

theorem rebase (h : Alike L q p old d m n) : Alike L m n old [] m n :=
  { h with
    journal := .refl L _ _,
    rest := .refl L m }

theorem timers_eq_nil (h : Alike L q p old d m n) (ht : L.timed = false) : m.timers = [] := by
  refine List.eq_nil_iff_forall_not_mem.2 fun t hm ↦ ?_
  have := (h.due t hm).1
  simp [ht] at this

theorem withStack (h : Alike L q p old d m n) (late : Bool) {ts us : List Task}
    (hs : List.Forall₂ (Task.Alike L) ts us)
    (ho : old || m.stack.any Task.answers → late || ts.any Task.answers) :
    Alike L q p late d { m with stack := ts } { n with stack := us } :=
  { h with
    stack := hs,
    answer := fun hb ↦ (h.answer hb).imp_right (And.imp_right ho),
    rest := { h.rest with } }

theorem push (h : Alike L q p old d m n) {t u : Task} (htu : Task.Alike L t u) :
    Alike L q p old d (m.push t) (n.push u) :=
  h.withStack old (.cons htu h.stack) (by simp +contextual [or_imp])

theorem owe {late : Bool} (h : Alike L q p old d m n) {t u : Task} (htu : Task.Alike L t u) (ht : t.answers) :
    Alike L q p late d (m.push t) (n.push u) :=
  h.withStack late (.cons htu h.stack) (by simp [ht])

theorem note (h : Alike L q p old d m n) {e : Event} (he : e.deed = false) :
    Alike L q p old d (m.note e) (n.note e) :=
  { h with
    journal := h.journal.note he,
    rest := { h.rest with } }

theorem note_deed (h : Alike L q p old d m n) {e : Event} (he : e.deed) :
    Alike L q p old (e :: d) (m.note e) (n.note e) :=
  { h with
    journal := h.journal.note_deed he,
    rest := { h.rest with } }

theorem log (h : Alike L q p old d m n) (e : Entry) : Alike L q p old d (m.log e) (n.log e) := h.note rfl

theorem noteAll (h : Alike L q p old d m n) {es : List Event} (he : ∀ e ∈ es, e.deed = false) :
    Alike L q p old d (m.noteAll es) (n.noteAll es) := by
  induction es generalizing m n with
  | nil => exact h
  | cons e es ih =>
    obtain ⟨he, hes⟩ := List.forall_mem_cons.1 he
    exact ih (h.note he) hes

theorem mapWorld (h : Alike L q p old d m n) {f g : World → World} (hfg : World.Alike L (f m.world) (g n.world))
    (hr : (f m.world).rest L = m.world.rest L) : Alike L q p old d (m.mapWorld f) (n.mapWorld g) :=
  { h with
    world := hfg,
    rest := { h.rest with world := hr.trans h.rest.world } }

theorem modifyNode (h : Alike L q p old d m n) {k : Key} (hk : L.owns k) {f g : Node → Node}
    (hfg : ∀ a b, Node.Alike L k.handle a b → Node.Alike L k.handle (f a) (g b)) :
    Alike L q p old d (m.modifyNode k f) (n.modifyNode k g) :=
  h.mapWorld (h.world.modifyNode k fun _ ↦ hfg) (World.rest_modifyNode hk f)

theorem modifyStart (h : Alike L q p old d m n) {k : Key} (hk : L.owns k) {f : Start → Start}
    (hf : ∀ s, L.owns s.collector → (∀ x ∈ s.listeners, L.owns x.key) →
      L.owns (f s).collector ∧ ∀ x ∈ (f s).listeners, L.owns x.key) :
    Alike L q p old d (m.mapWorld fun w ↦ w.modifyStart k f) (n.mapWorld fun w ↦ w.modifyStart k f) :=
  h.mapWorld (h.world.modifyStart k hf) (World.rest_modifyStart hk f)

theorem modifyTerminal (h : Alike L q p old d m n) {k : Key} (hk : L.owns k) {f g : Terminal → Terminal}
    (hfg : ∀ t u, Terminal.Alike L k.handle t u → Terminal.Alike L k.handle (f t) (g u)) :
    Alike L q p old d (m.mapWorld fun w ↦ w.modifyTerminal k f) (n.mapWorld fun w ↦ w.modifyTerminal k g) :=
  h.mapWorld (h.world.modifyTerminal k hfg) (World.rest_modifyTerminal hk f)

theorem modifyProbe (h : Alike L q p old d m n) {k : Key} (hk : L.owns k) {f g : Probe → Probe}
    (hfg : ∀ a b, Probe.Alike L k.handle a b → Probe.Alike L k.handle (f a) (g b)) :
    Alike L q p old d (m.mapWorld fun w ↦ w.modifyProbe k f) (n.mapWorld fun w ↦ w.modifyProbe k g) :=
  h.mapWorld (h.world.modifyProbe k hfg) (World.rest_modifyProbe hk f)

theorem setBarrier (h : Alike L q p old d m n) {x : Waiter} (hx : L.owns x.key) (b : Barrier) :
    Alike L q p old d (m.mapWorld fun w ↦ w.setBarrier x b) (n.mapWorld fun w ↦ w.setBarrier x b) :=
  h.mapWorld (h.world.setBarrier x b) (World.rest_setBarrier hx b)

theorem keep (h : Alike L q p old d m n) {id : String} (hid : L.own id) {x : Handle} (hx : L.owns x.key) :
    Alike L q p old d (m.keep id x) (n.keep id x) :=
  { h with
    desk := h.desk.keep id hx,
    rest := { h.rest with desk := (Desk.rest_keep hid x).trans h.rest.desk } }

theorem takeCompletion (h : Alike L q p old d m n) {id : String} (hid : L.own id) :
    Alike L q p old d (m.takeCompletion id) (n.takeCompletion id) := by
  have hr : (m.takeCompletion id).desk.rest L = m.desk.rest L := by
    simp [Desk.rest, Desk.part, Machine.takeCompletion, Table.restrict_erase, Table.erase_restrict_of_not, hid]
  exact { h with
    desk := { h.desk with completions := h.desk.completions.erase id },
    rest := { h.rest with desk := hr.trans h.rest.desk } }

theorem putCompletion (h : Alike L q p old d m n) {id : String} (hid : L.own id) {k : Key} (hk : L.owns k) :
    Alike L q p old d { m with desk := { m.desk with completions := m.desk.completions.put id k } }
      { n with desk := { n.desk with completions := n.desk.completions.put id k } } := by
  have hr : Desk.rest L { m.desk with completions := m.desk.completions.put id k } = m.desk.rest L := by
    simp [Desk.rest, Desk.part, Table.restrict_put, hid]
  exact { h with
    desk := { h.desk with completions := h.desk.completions.put fun _ ↦ ⟨rfl, hk⟩ },
    rest := { h.rest with desk := hr.trans h.rest.desk } }

theorem settle {late : Bool} (h : Alike L q p old d m n) {a b : Answer} (hab : L.blind = false → b = a) :
    Alike L q p late d { m with answer := a } { n with answer := b } :=
  { h with
    answer := fun hb ↦ .inl (hab hb),
    rest := { h.rest with } }

theorem hears_replied (hb : L.blind) (verb : String) (a : Answer) : L.hears (.replied verb a) = false := by
  simp [Lens.hears, Event.spoken, hb]

theorem conclude {late : Bool} (h : Alike L q p old d m n) (c : Caller) {a b : Answer}
    (hab : L.blind = false → b = a) : Alike L q p late d (m.conclude c a) (n.conclude c b) := by
  have hs : Alike L q p late d { m with answer := a } { n with answer := b } := h.settle hab
  unfold Machine.conclude
  cases hb : L.blind with
  | false =>
    rw [hab hb] at hs ⊢
    split
    · exact hs.note rfl
    · exact hs
  | true =>
    have hr (a : Answer) : L.hears (.replied c.verb a) = false := hears_replied hb c.verb a
    split <;> split
    · exact { hs with
        journal := hs.journal.unheard (hr a) rfl (hr b),
        rest := { hs.rest with } }
    · exact { hs with
        journal := hs.journal.unheard_left (hr a) rfl,
        rest := { hs.rest with } }
    · exact { hs with journal := hs.journal.unheard_right (hr b) }
    · exact hs

theorem store (h : Alike L q p old d m n) {k : Key} (hk : L.owns k) (writer : Option Key) (x : Activity) (r : Outcome) :
    (∃ m' n', m.store writer k x r = .ok m' ∧ n.store writer k x r = .ok n' ∧
      Alike L q p old (if writer.isNone then .wrote none k x r :: d else d) m' n' ∧
      ∀ c, m.world.collectors.get? k = some c → c.declares x) ∨
      ∃ e, m.store writer k x r = .error e ∧ n.store writer k x r = .error e ∧
        ∀ c, m.world.collectors.get? k = some c → c.declares x = false := by
  rcases h.world.store hk x r with ⟨w, v, hw, hv, hwv, hr, hx⟩ | ⟨e, hw, hv, hx⟩
  · refine .inl ⟨_, _, by rw [Machine.store, hw], by rw [Machine.store, hv], ?_, hx⟩
    have hm : Alike L q p old d (m.mapWorld fun _ ↦ w) (n.mapWorld fun _ ↦ v) := h.mapWorld hwv hr
    cases writer with
    | none => exact hm.note_deed rfl
    | some l => exact hm.note rfl
  · exact .inr ⟨e, by rw [Machine.store, hw], by rw [Machine.store, hv], hx⟩

theorem dropCompletion (h : Alike L q p old d m n) {id : String} (hid : L.own id) :
    Alike L q p old d (m.dropCompletion id) (n.dropCompletion id) := by
  unfold Machine.dropCompletion
  cases hk : m.desk.completions.get? id with
  | none =>
    rw [h.desk.completions.get?_none hid hk]
    exact h
  | some k =>
    obtain ⟨l, hl, rfl, hown⟩ := h.desk.completions.get?_some hid hk
    simp only [hl]
    rw [h.world.label (x := .node l) hown]
    exact (h.takeCompletion hid).log _

theorem holdCompletion (h : Alike L q p old d m n) {id : String} (hid : L.own id) {k : Key} (hk : L.owns k) :
    Alike L q p old d (m.holdCompletion id k) (n.holdCompletion id k) := (h.dropCompletion hid).putCompletion hid hk

theorem unwind {late : Bool} (h : Alike L q p old d m n) {ts us : List Task}
    (hs : List.Forall₂ (Task.Alike L) ts us) (f : Fault) :
    Alike L q p late d (unwind f ts m) (unwind f us n) := by
  induction hs generalizing m n with
  | nil => exact (h.withStack true .nil fun _ ↦ rfl).settle fun _ ↦ rfl
  | @cons t u ts us htu hs ih =>
    have hn : Alike L q p old d (m.noteAll (t.scope?.toList.map (.unwound f)))
        (n.noteAll (u.scope?.toList.map (.unwound f))) := by
      rw [htu.scope?]
      exact h.noteAll (by simp [Event.deed])
    cases htu with
    | guard => exact (h.withStack true hs fun _ ↦ rfl).conclude _ fun _ ↦ rfl
    | contain ht =>
      have hs := h.withStack true hs fun _ ↦ rfl
      exact { hs with answer := fun hb ↦ (h.answer hb).imp_right fun ha ↦ absurd ht (by simp [ha.1]) }
    | relinquish hid => exact ih (h.dropCompletion hid)
    | _ => exact ih hn

theorem raise {late : Bool} (h : Alike L q p old d m n) (f : Fault) :
    Alike L q p late d (m.raise f) (n.raise f) := h.unwind h.stack f

end Alike

end Machine

end ActivityGraph
