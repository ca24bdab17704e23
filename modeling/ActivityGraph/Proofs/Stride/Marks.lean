import ActivityGraph.Proofs.Stride.World

namespace ActivityGraph

/-- What goes on when an event is written. -/
def Event.Marks (a b : Stage) : Event → Prop
  | .logged (.started k label) => (∃ j, a.call = some (.launch k j)) ∧ b.machine.world = a.machine.world ∧
      label = a.machine.world.label (.node k)
  | .logged (.abandoned k name label) =>
    ∃ n, a.machine.world.nodes.get? k = some n ∧ a.call = some (.enter (.node k) true) ∧
      b.call = some (.resolve k .cancel) ∧
      b.machine.world = a.machine.world.modifyNode k (fun n ↦ { n with job := none, record := n.record.cancel }) ∧
      name = a.machine.world.collectorName n.collector ∧ label = n.activity.label
  | .logged (.completed k name label _ canceled) =>
    ∃ n r o, a.machine.world.nodes.get? k = some n ∧ a.call = some (.complete k r) ∧ n.record.report r = .ok o ∧
      b.machine.world.nodes.get? k = some { n with record := (n.policy.rule o).record } ∧
      canceled = (n.policy.rule o).record.canceled ∧
      name = a.machine.world.collectorName n.collector ∧ label = n.activity.label
  | .logged (.joined t _) => ∃ c, a.call = some (.enter (.terminal t) c)
  | .finished t _ => ∃ c, a.call = some (.enter (.terminal t) c) ∧
      b.machine.world = a.machine.world.modifyTerminal t fun t ↦ { t with callback := none }
  | .reported k r => ∃ n o, a.machine.world.nodes.get? k = some n ∧ a.call = some (.complete k r) ∧
      n.record.report r = .ok o ∧ b.machine.world.nodes.get? k = some { n with record := (n.policy.rule o).record } ∧
      ∀ g, (n.policy.rule o).signal = .ok g → b.call = some (.resolve k g)
  | .prepared k _ _ | .ran k _ => ∃ j, a.call = some (.launch k j)
  | .logged (.dropped k label) => b.machine.world = a.machine.world ∧ label = a.machine.world.label (.node k)
  | .timed k after => a.call = some (.launch k ⟨[], .timer after⟩)
  | .asked k _ => ∃ r, a.call = some (.complete k r)
  | .wired _ s => a.machine.Names s
  | .told x s c => a.call = some (.arrive x (some s) c)
  | .logged (.run k _ _) => b.machine.world.final? (.start k) = some .done
  | .logged (.notStored k e) => ∃ n, a.machine.world.nodes.get? k = some n ∧
      a.machine.world.store n.collector n.activity n.record = .error e
  | .unwound f (.callback _) => a.call = some (.raise f)
  | .unwound f (.preparation k) => ∃ g ls j ts, a.machine.stack = .script g ls (.job k j) :: ts ∧
      b.machine.stack = ts ∧ b.machine.world = a.machine.world ∧ a.call = some (.raise f) ∧ b.call = some (.raise f)
  | _ => True

theorem marks_tellings (x : Waiter) (s : Option Source) (c : Bool) (b : Stage) (m : Machine) :
    ∀ e ∈ Machine.tellings x s c, e.Marks ⟨some (.arrive x s c), m⟩ b := by
  cases s <;> simp [Machine.tellings, Event.Marks]

theorem marks_wired (x : Waiter) {ss : List Source} {a : Stage} (hd : ∀ s ∈ ss, a.machine.Names s) (b : Stage) :
    ∀ e ∈ (ss.map (Event.wired x)).reverse, e.Marks a b := by
  intro e he
  obtain ⟨s, hs, rfl⟩ := List.mem_map.1 (List.mem_reverse.1 he)
  exact hd s hs

theorem marks_asked (k : Key) (as : List Asked) (r : Except Payload Payload) (m : Machine) (b : Stage) :
    ∀ e ∈ (as.map (Event.asked k)).reverse, e.Marks ⟨some (.complete k r), m⟩ b := by
  intro e he
  obtain ⟨s, -, rfl⟩ := List.mem_map.1 (List.mem_reverse.1 he)
  exact ⟨r, rfl⟩

theorem Stride.emits {a b : Stage} (hs : Stride a b) :
    ∃ es, b.machine.journal = es ++ a.machine.journal ∧ ∀ e ∈ es, e.Marks a b := by
  cases hs with
  | @note m e he =>
    refine ⟨[e], rfl, ?_⟩
    cases e <;> simp_all [Event.mute, Event.Marks]
  | addNode _ _ _ _ _ hd =>
    refine ⟨_ ++ [_], (Machine.journal_addNode ..).trans (List.append_cons ..), ?_⟩
    exact List.forall_mem_append.2 ⟨marks_wired _ hd _, by simp [Event.Marks]⟩
  | addTerminal _ _ _ hd =>
    refine ⟨_ ++ [_], (Machine.journal_placeTerminal ..).trans (List.append_cons ..), ?_⟩
    exact List.forall_mem_append.2 ⟨marks_wired _ hd _, by simp [Event.Marks]⟩
  | addRoot => exact ⟨[_], Machine.journal_placeTerminal .., by simp [Event.Marks]⟩
  | insert | addCollector | addStart | relinquish | attach | timer | listen | replayed | opened | prepare | stored
    | call => exact ⟨[_], rfl, by simp [Event.Marks]⟩
  | unstored hk hw => exact ⟨[_], rfl, List.forall_mem_singleton.2 ⟨_, hk, hw⟩⟩
  | ran hk =>
    exact ⟨[_], rfl, by simp [Event.Marks, World.final?, World.modifyStart, Table.get?_modify_self, hk]⟩
  | abandon hk => exact ⟨[_], rfl, by simp [Event.Marks, hk]⟩
  | depend _ _ hd => exact ⟨[_, _], rfl, by simp [Event.Marks, hd]⟩
  | join | start | timed => exact ⟨[_, _], rfl, by simp [Event.Marks]⟩
  | astray | refused | arrived => exact ⟨_, rfl, marks_tellings _ _ _ _ _⟩
  | closed => exact ⟨_ :: _, rfl, List.forall_mem_cons.2 ⟨trivial, marks_tellings _ _ _ _ _⟩⟩
  | @unwound m f t ts hm =>
    refine ⟨_, rfl, ?_⟩
    cases t with
    | script g ls e =>
      cases e with
      | nowhere => simp [Task.scope?, Event.Marks]
      | job k j => exact List.forall_mem_singleton.2 ⟨g, ls, j, ts, hm, rfl, rfl, rfl, rfl⟩
    | _ => simp [Task.scope?, Event.Marks]
  | @announce m k n g =>
    refine ⟨_, rfl, ?_⟩
    split <;> simp [Event.Marks]
  | broken hk hr hg =>
    refine ⟨_ :: (_ ++ [_]), congrArg (_ :: ·) (List.append_cons ..), List.forall_mem_cons.2 ⟨trivial, ?_⟩⟩
    refine List.forall_mem_append.2 ⟨marks_asked _ _ _ _ _, List.forall_mem_singleton.2 ?_⟩
    exact ⟨_, _, hk, rfl, hr, World.get?_modifyNode_self hk _, by simp [hg]⟩
  | completed hk hr hg =>
    have hn := World.get?_modifyNode_self hk
    refine ⟨_ :: (_ ++ [_]), congrArg (_ :: ·) (List.append_cons ..), List.forall_mem_cons.2 ⟨?_, ?_⟩⟩
    · exact ⟨_, _, _, hk, rfl, hr, hn _, rfl, rfl, rfl⟩
    · refine List.forall_mem_append.2 ⟨marks_asked _ _ _ _ _, List.forall_mem_singleton.2 ?_⟩
      exact ⟨_, _, hk, rfl, hr, hn _, by simp [hg]⟩
  | _ => exact ⟨[], rfl, by simp⟩

theorem Stride.mem_journal {a b : Stage} (hs : Stride a b) {e : Event} (he : e ∈ a.machine.journal) :
    e ∈ b.machine.journal := by
  obtain ⟨es, h, -⟩ := hs.emits
  exact h ▸ List.mem_append_right es he

theorem Stride.marks_of_new {a b : Stage} (hs : Stride a b) {e : Event} (hb : e ∈ b.machine.journal)
    (ha : e ∉ a.machine.journal) : e.Marks a b := by
  obtain ⟨es, h, hm⟩ := hs.emits
  rw [h] at hb
  exact hm e ((List.mem_append.1 hb).resolve_right ha)

theorem Stride.countP_le {a b : Stage} (hs : Stride a b) (p : Event → Bool) :
    a.machine.journal.countP p ≤ b.machine.journal.countP p := by
  obtain ⟨es, h, -⟩ := hs.emits
  rw [h, List.countP_append]
  exact Nat.le_add_left _ _

theorem Stride.marks_of_countP {a b : Stage} (hs : Stride a b) {p : Event → Bool}
    (h : a.machine.journal.countP p < b.machine.journal.countP p) : ∃ e, p e ∧ e.Marks a b := by
  obtain ⟨es, hj, hm⟩ := hs.emits
  rw [hj, List.countP_append] at h
  obtain ⟨e, he, hp⟩ := List.countP_pos_iff.1 (Nat.pos_of_lt_add_left h)
  exact ⟨e, hp, hm e he⟩

namespace Stride

variable {a b : Stage} {k : Key} (hs : Stride a b)

include hs

theorem of_startings (h : startings k a.machine.journal < startings k b.machine.journal) :
    (∃ j, a.call = some (.launch k j)) ∧ b.machine.world = a.machine.world := by
  obtain ⟨e, he, hm⟩ := hs.marks_of_countP h
  obtain ⟨label, rfl⟩ := Event.starts_iff.1 he
  exact ⟨hm.1, hm.2.1⟩

theorem of_abandonings (h : abandonings k a.machine.journal < abandonings k b.machine.journal) :
    ∃ n, a.machine.world.nodes.get? k = some n ∧ a.call = some (.enter (.node k) true) ∧
      b.call = some (.resolve k .cancel) ∧
      b.machine.world = a.machine.world.modifyNode k fun n ↦ { n with job := none, record := n.record.cancel } := by
  obtain ⟨e, he, hm⟩ := hs.marks_of_countP h
  obtain ⟨name, label, rfl⟩ := Event.abandons_iff.1 he
  obtain ⟨n, hn, hc, hb, hw, -⟩ := hm
  exact ⟨n, hn, hc, hb, hw⟩

theorem of_callings (h : callings k a.machine.journal < callings k b.machine.journal) :
    ∃ c, a.call = some (.enter (.terminal k) c) ∧
      b.machine.world = a.machine.world.modifyTerminal k fun t ↦ { t with callback := none } := by
  obtain ⟨e, he, hm⟩ := hs.marks_of_countP h
  obtain ⟨view, rfl⟩ := Event.calls_iff.1 he
  exact hm

theorem of_breakings (h : breakings k a.machine.journal < breakings k b.machine.journal) :
    ∃ f, a.call = some (.raise f) := by
  obtain ⟨e, he, hm⟩ := hs.marks_of_countP h
  obtain ⟨f, rfl⟩ := Event.breaks_iff.1 he
  exact ⟨f, hm⟩

end Stride

def World.Has (w : World) : Source → Prop
  | .node k => (w.nodes.get? k).isSome
  | .start k => (w.starts.get? k).isSome

def World.Says (w : World) (s : Source) (canceled : Bool) : Prop :=
  w.final? s = some (if canceled then .cancel else .done)

def Handle.source? : Handle → Option Source
  | .node k => some (.node k)
  | .start k => some (.start k)
  | _ => none

/-- Probes also count signals that come from nowhere. -/
def Waiter.bare : Waiter → Bool
  | .probe _ => true
  | _ => false

/-- What goes on when a task is put on the stack. -/
def Task.Marks (a b : Stage) : Task → Prop
  | .script _ _ (.job k j) =>
    (∃ p, a.call = some (.launch k ⟨p :: j.preparators, j.work⟩)) ∧
        (∃ place r, .prepared k place r ∈ b.machine.journal) ∨
      ∃ f ls, .script f ls (.job k j) ∈ a.machine.stack
  | .deliver s c (_ :: _) =>
    b.machine.world.Says s c ∨ ∃ x xs, .deliver s c (x :: xs) ∈ a.machine.stack
  | .attach x ss =>
    (∃ s, .attach x (s :: ss) ∈ a.machine.stack) ∨ ∀ s ∈ ss, x.bare = false ∧ a.machine.Names s
  | .keep _ h => ∀ s ∈ h.source?, b.machine.world.Has s
  | .fire k => ∃ c, a.call = some (.enter (.terminal k) c)
  | _ => True

theorem Task.marks_of_idle {t : Task} (ht : t.idle) (a b : Stage) : t.Marks a b := by
  cases t with
  | script f ls e => cases e <;> simp_all [Task.idle, Task.Marks]
  | deliver s c xs => cases xs <;> simp_all [Task.idle, Task.Marks]
  | attach x ss => cases ss <;> simp_all [Task.idle, Task.Marks]
  | keep | fire => simp [Task.idle] at ht
  | _ => trivial

theorem Task.marks_of_listeners {a b : Stage} {s : Source} {c : Bool} (h : b.machine.world.Says s c)
    (xs : List Waiter) : (Task.deliver s c xs).Marks a b := by
  cases xs with
  | nil => trivial
  | cons x xs => exact .inl h

theorem Stride.stacks {a b : Stage} (hs : Stride a b) :
    ∀ t ∈ b.machine.stack, t ∈ a.machine.stack ∨ t.Marks a b := by
  have old {u : Task} {ts : List Task} (hm : a.machine.stack = u :: ts) :
      ∀ t ∈ ts, t ∈ a.machine.stack ∨ t.Marks a b := fun t ht ↦ .inl (hm ▸ List.mem_cons_of_mem _ ht)
  cases hs with
  | push ht => exact List.forall_mem_cons.2 ⟨.inr (Task.marks_of_idle ht _ _), fun t ↦ .inl⟩
  | pop hm | kept hm | fired hm | resume hm | caught hm | unwound hm => exact old hm
  | @line m f l ls e ts hm =>
    refine List.forall_mem_cons.2 ⟨.inr ?_, old hm⟩
    cases e with
    | nowhere => trivial
    | job k j => exact .inr ⟨f, l :: ls, hm ▸ List.mem_cons_self⟩
  | @deliver m s c x xs ts hm =>
    refine List.forall_mem_cons.2 ⟨.inr ?_, old hm⟩
    cases xs with
    | nil => trivial
    | cons y ys => exact .inr ⟨x, y :: ys, hm ▸ List.mem_cons_self⟩
  | attach hm => exact List.forall_mem_cons.2 ⟨.inr (.inl ⟨_, hm ▸ List.mem_cons_self⟩), old hm⟩
  | timer => exact List.forall_mem_cons.2 ⟨.inr trivial, fun t ↦ .inl⟩
  | @addNode m _ a c deps i s work _ _ hd =>
    obtain ⟨t, -, he⟩ := m.addNode_eq i a c deps s work
    rw [he]
    refine List.forall_mem_cons.2 ⟨.inr (.inr fun s hs ↦ ⟨rfl, hd s hs⟩), ?_⟩
    refine List.forall_mem_cons.2 ⟨.inr ?_, fun t ↦ .inl⟩
    intro s hs
    exact Option.some.inj hs ▸ Table.isSome_get?_insert_self _ _ _
  | @addTerminal m c deps i body _ hd =>
    obtain ⟨t, -, he⟩ := m.placeTerminal_eq i c deps body
    rw [he]
    refine List.forall_mem_cons.2 ⟨.inr (.inr fun s hs ↦ ⟨rfl, hd s hs⟩), ?_⟩
    refine List.forall_mem_cons.2 ⟨.inr ?_, fun t ↦ .inl⟩
    exact fun s hs ↦ absurd hs (by simp [Handle.source?])
  | @addRoot m c i body =>
    obtain ⟨t, -, he⟩ := m.placeTerminal_eq i c [] body
    rw [he]
    exact List.forall_mem_cons.2 ⟨.inr fun s hs ↦ absurd hs (by simp [Handle.source?]), fun t ↦ .inl⟩
  | join =>
    exact List.forall_mem_cons.2 ⟨.inr trivial, List.forall_mem_cons.2 ⟨.inr ⟨_, rfl⟩, fun t ↦ .inl⟩⟩
  | call => exact List.forall_mem_cons.2 ⟨.inr trivial, fun t ↦ .inl⟩
  | prepare => exact List.forall_mem_cons.2 ⟨.inr (.inl ⟨⟨_, rfl⟩, _, _, List.mem_cons_self⟩), fun t ↦ .inl⟩
  | @announce m k n g hk =>
    refine List.forall_mem_cons.2 ⟨.inr (Task.marks_of_listeners ?_ _), fun t ↦ .inl⟩
    rw [World.Says, World.final?, World.get?_modifyNode_self hk]
    cases g <;> rfl
  | @ran m k s hk =>
    refine List.forall_mem_cons.2 ⟨.inr (Task.marks_of_listeners ?_ _), fun t ↦ .inl⟩
    rw [World.Says, World.final?, World.modifyStart, Table.get?_modify_self, hk]
    rfl
  | @entrust m k body hold =>
    refine List.forall_mem_cons.2 ⟨.inr trivial, List.forall_mem_append.2 ⟨?_, fun t ↦ .inl⟩⟩
    cases hold <;> simp [Task.Marks]
  | @depend m k s b c =>
    obtain ⟨t, -, he⟩ := (m.world.setBarrier (.node k) c).drawEdge_eq s (.node k)
    rw [he]
    exact fun t ↦ .inl
  | _ => exact fun t ↦ .inl

end ActivityGraph
