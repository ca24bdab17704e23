import ActivityGraph.Proofs.Alike.Machine
import ActivityGraph.Machine.Termination

namespace ActivityGraph

def World.takes (w : World) (x : Waiter) : Bool := (w.barriers.get? x).any fun b ↦ !b.closed

namespace Machine.Alike

variable {L : Lens} {q p m n : Machine} {old : Bool} {d : List Event} {k : Key}

theorem resolve (h : Alike L q p old d m n) (hk : L.owns k) (s : Signal) :
    Alike L q p old d (m.resolve k s) (n.resolve k s) := by
  unfold Machine.resolve
  cases ha : m.world.nodes.get? k with
  | none => simpa only [h.world.nodes.get?_none hk ha] using h
  | some a =>
    obtain ⟨b, hb, hab⟩ := h.world.nodes.get?_some hk ha
    simp only [hb, hab.collector_eq, hab.activity, hab.record, hab.listeners_eq]
    have settled {m' n' : Machine} (h' : Alike L q p old d m' n') :
        Alike L q p old d (m'.modifyNode k fun n ↦ { n with signal := some s, listeners := [] })
          (n'.modifyNode k fun n ↦ { n with signal := some s, listeners := [] }) :=
      h'.modifyNode hk fun a b hab ↦ ⟨by rw [hab.shell], hab.job, hab.collector, by simp⟩
    have told (canceled : Bool) : Task.Alike L (.deliver (.node k) canceled a.listeners)
        (.deliver (.node k) canceled a.listeners) := .deliver hk hab.listeners
    rcases h.store hab.collector (some k) a.activity a.record with ⟨m', n', hm, hn, h', -⟩ | ⟨e, hm, hn, -⟩
    · simp only [hm, hn]
      cases s with
      | done => exact (settled h').push (told _)
      | cancel => exact ((settled h').log _).push (told _)
    · simp only [hm, hn]
      cases s with
      | done => exact (settled (h.log _)).push (told _)
      | cancel => exact ((settled (h.log _)).log _).push (told _)

theorem abandon (h : Alike L q p old d m n) (hk : L.owns k) : Alike L q p old d (m.abandon k) (n.abandon k) := by
  unfold Machine.abandon
  cases ha : m.world.nodes.get? k with
  | none => simpa only [h.world.nodes.get?_none hk ha] using h
  | some a =>
    obtain ⟨b, hb, hab⟩ := h.world.nodes.get?_some hk ha
    have hn := h.modifyNode hk (f := fun n ↦ { n with job := none, record := n.record.cancel })
      (g := fun n ↦ { n with job := none, record := n.record.cancel })
      fun a b hab ↦ ⟨by rw [hab.shell], .none, hab.collector, hab.listeners⟩
    simp only [hb, hab.collector_eq, hab.activity]
    rw [hn.world.collectorName hab.collector]
    exact (hn.log _).resolve hk .cancel

theorem complete (h : Alike L q p old d m n) (hk : L.owns k) (r : Except Payload Payload) :
    Alike L q p old d (m.complete k r) (n.complete k r) := by
  unfold Machine.complete
  cases ha : m.world.nodes.get? k with
  | none => simpa only [h.world.nodes.get?_none hk ha] using h
  | some a =>
    obtain ⟨b, hb, hab⟩ := h.world.nodes.get?_some hk ha
    simp only [hb, hab.collector_eq, hab.activity, hab.record, hab.policy]
    cases a.record.report r with
    | error e => exact h.raise _
    | ok o =>
      dsimp only
      have hn := h.modifyNode hk (f := fun n ↦ { n with record := (a.policy.rule o).record })
        (g := fun n ↦ { n with record := (a.policy.rule o).record })
        fun a b hab ↦ ⟨by rw [hab.shell], hab.job, hab.collector, hab.listeners⟩
      have hdeeds : ∀ e ∈ Event.reported k r :: (a.policy.rule o).asked.map (.asked k), e.deed = false := by
        simp [Event.deed]
      have hr := hn.noteAll hdeeds
      cases (a.policy.rule o).signal with
      | error text => exact (hr.note rfl).raise _
      | ok s =>
        dsimp only
        rw [hr.world.collectorName hab.collector]
        exact (hr.log _).resolve hk s

theorem launch (h : Alike L q p old d m n) (hk : L.owns k) {i j : Job} (hij : Job.Alike L k.handle i j) :
    Alike L q p old d (m.launch k i) (n.launch k j) := by
  obtain ⟨ps, w⟩ := i
  obtain ⟨qs, x⟩ := j
  obtain ⟨hps, hw⟩ := hij
  have hreg : x.register = w.register := by cases hw <;> rfl
  cases hps with
  | nil =>
    unfold Machine.launch
    dsimp only
    rw [h.world.label (x := .node k) hk]
    have hl := h.log (.started k (m.world.label (.node k)))
    cases w with
    | script body hold r =>
      cases hw with
      | script hs =>
        have hid : L.own k.handle := hk
        have hn := (hl.note (e := .ran k r) rfl).holdCompletion hid hk
        cases hold with
        | true => exact hn.push (.script hs .nowhere)
        | false => exact (hn.push (.relinquish hk)).push (.script hs .nowhere)
    | timer after =>
      cases hw with
      | timer ht =>
        have hn := hl.note (e := .timed k after) rfl
        exact { hn with
          timers := congrArg₂ (fun ts t ↦ ts ++ [⟨t + after.nanos, k, after⟩]) hn.timers (hn.clock ht),
          due := List.forall_mem_append.2 ⟨hn.due, List.forall_mem_singleton.2 ⟨ht, hk⟩⟩,
          rest := { hn.rest with } }
  | @cons a b as bs hab hps =>
    obtain ⟨place, code⟩ := a
    obtain ⟨place', code'⟩ := b
    obtain ⟨rfl, hcode⟩ := hab
    unfold Machine.launch
    dsimp only
    rw [hreg]
    exact (h.note rfl).push (.script hcode (.job hk ⟨hps, hw⟩))

theorem begin (h : Alike L q p old d m n) (hk : L.owns k) : Alike L q p old d (m.begin k) (n.begin k) := by
  unfold Machine.begin
  cases ha : m.world.nodes.get? k with
  | none => simpa only [h.world.nodes.get?_none hk ha] using h
  | some a =>
    obtain ⟨b, hb, hab⟩ := h.world.nodes.get?_some hk ha
    simp only [hb, hab.activity]
    have hj := hab.job
    generalize a.job = i, b.job = j at hj
    cases hj with
    | none => exact h.raise _
    | some hij =>
      refine (h.modifyNode hk ?_).launch hk hij
      exact fun a b hab ↦ ⟨by rw [hab.shell], .none, hab.collector, hab.listeners⟩

theorem join (h : Alike L q p old d m n) (hk : L.owns k) : Alike L q p old d (m.join k) (n.join k) := by
  unfold Machine.join
  cases ht : m.world.terminals.get? k with
  | none => simpa only [h.world.terminals.get?_none hk ht] using h
  | some t =>
    obtain ⟨u, hu, htu⟩ := h.world.terminals.get?_some hk ht
    simp only [hu, htu.collector_eq]
    have hc := htu.callback
    generalize t.callback = i, u.callback = j at hc
    cases hc with
    | none => exact h
    | @some s s' hs =>
      cases hc : m.world.collectors.get? t.collector with
      | none => simpa only [h.world.collectors.get?_none htu.collector hc] using h
      | some c =>
        obtain ⟨c', hc', hcc⟩ := h.world.collectors.get?_some htu.collector hc
        simp only [hc', hcc.name, hcc.declared]
        rw [show View.describe ⟨t.collector, c.declared⟩ c' = View.describe ⟨t.collector, c.declared⟩ c by
          rw [View.describe, View.describe, hcc.name]]
        have hm := h.modifyTerminal hk (f := fun t ↦ { t with callback := none })
          (g := fun t ↦ { t with callback := none })
          fun t u htu ↦ ⟨by rw [htu.shell], .none, htu.collector, htu.view⟩
        have hn := (hm.log (.joined k c.name)).note (e := .finished k (View.describe ⟨t.collector, c.declared⟩ c)) rfl
        have hv := hn.keep htu.view (x := .view ⟨t.collector, c.declared⟩) htu.collector
        exact (hv.push (.fire hk)).push (.script hs .nowhere)

theorem call (h : Alike L q p old d m n) (hk : L.owns k) (canceled : Bool) :
    Alike L q p old d (m.call k canceled) (n.call k canceled) := by
  unfold Machine.call
  cases ha : m.world.probes.get? k with
  | none => simpa only [h.world.probes.get?_none hk ha] using h
  | some a =>
    obtain ⟨b, hb, hab⟩ := h.world.probes.get?_some hk ha
    simp only [hb]
    have hs := hab.scripts
    generalize a.scripts = i, b.scripts = j at hs
    cases hs with
    | none => exact h
    | some hs =>
      have hm := h.modifyProbe hk (f := fun p ↦ { p with scripts := none }) (g := fun p ↦ { p with scripts := none })
        fun a b hab ↦ ⟨hab.name, .none⟩
      refine (hm.note rfl).push (.script ?_ .nowhere)
      cases canceled with
      | true => exact hs.2
      | false => exact hs.1

theorem enter (h : Alike L q p old d m n) {x : Waiter} (hx : L.owns x.key) (canceled : Bool) :
    Alike L q p old d (m.enter x canceled) (n.enter x canceled) := by
  cases x with
  | node k =>
    cases canceled with
    | false => exact h.begin hx
    | true => exact h.abandon hx
  | terminal k => exact h.join hx
  | probe k => exact h.call hx canceled

theorem arrive (h : Alike L q p old d m n) {x : Waiter} (hx : L.owns x.key) (canceled : Bool) :
    Alike L q p old d (m.arrive x canceled) (n.arrive x canceled) := by
  unfold Machine.arrive
  rw [h.world.barrier_eq hx, h.world.label hx]
  split
  · exact h
  · split
    · exact h.raise _
    · next b _ =>
      have hm := h.setBarrier hx b
      dsimp only
      rw [hm.world.label hx]
      split
      · exact (hm.log _).enter hx _
      · exact hm

theorem release (h : Alike L q p old d m n) {x : Waiter} (hx : L.owns x.key) :
    Alike L q p old d (m.release x) (n.release x) := by
  unfold Machine.release
  rw [h.world.barrier_eq hx, h.world.label hx]
  split
  · exact h
  · split
    · exact h.raise _
    · exact h.raise _
    · next b _ =>
      have hm := h.setBarrier hx b
      dsimp only
      rw [hm.world.label hx]
      exact (hm.log _).enter hx _

theorem tell (h : Alike L q p old d m n) {x : Waiter} (hx : L.owns x.key) (s : Source) (canceled : Bool) :
    Alike L q p old d (m.tell x s canceled) (n.tell x s canceled) := (h.note rfl).arrive hx canceled

theorem enlist (h : Alike L q p old d m n) {s : Source} {x : Waiter} (hs : L.owns s.key) (hx : L.owns x.key) :
    Alike L q p old d (m.enlist s x) (n.enlist s x) := by
  unfold Machine.enlist
  cases s with
  | node k =>
    dsimp only
    cases ha : m.world.nodes.get? k with
    | none => simpa only [h.world.nodes.get?_none (k := k) hs ha] using h
    | some a =>
      obtain ⟨b, hb, hab⟩ := h.world.nodes.get?_some (k := k) hs ha
      simp only [hb, hab.signal, hab.activity]
      split
      · refine h.modifyNode hs fun a b hab ↦ ⟨by rw [hab.shell], hab.job, hab.collector, ?_⟩
        exact List.forall_mem_append.2 ⟨hab.listeners, List.forall_mem_singleton.2 hx⟩
      · exact (h.log _).tell hx _ _
  | start k =>
    dsimp only
    rw [h.world.start_eq (k := k) hs]
    split
    · exact h
    · split
      · exact h.tell hx _ _
      · refine h.modifyStart hs fun t hc hl ↦ ⟨hc, ?_⟩
        exact List.forall_mem_append.2 ⟨hl, List.forall_mem_singleton.2 hx⟩

theorem listen (h : Alike L q p old d m n) {s : Source} {x : Waiter} (hs : L.owns s.key) (hx : L.owns x.key) :
    Alike L q p old d (m.listen s x) (n.listen s x) := (h.note rfl).enlist hs hx

theorem fire (h : Alike L q p old d m n) (hk : L.owns k) : Alike L q p old d (m.fire k) (n.fire k) := by
  unfold Machine.fire
  cases hs : m.world.starts.get? k with
  | none => simpa only [h.world.starts.get?_none hk hs] using h
  | some s =>
    obtain ⟨t, ht, hst⟩ := h.world.starts.get?_some hk hs
    obtain rfl := hst.same
    simp only [ht, h.world.collectorName hst.collector]
    split
    · exact h.raise _
    · have hm := h.modifyStart hk (f := fun t ↦ { t with fired := true, listeners := [] }) fun t hc _ ↦ ⟨hc, by simp⟩
      exact (hm.log _).push (.deliver hk hst.listeners)

theorem wire (h : Alike L q p old d m n) {x : Waiter} {s : Source} (hx : L.owns x.key) (hs : L.owns s.key) :
    Alike L q p old (.wired x s :: d) (m.wire x s) (n.wire x s) :=
  (h.mapWorld (h.world.drawEdge hs hx) (h.world.rest_drawEdge hs x)).note_deed rfl

theorem wireAll (h : Alike L q p old d m n) {x : Waiter} {ss : List Source} (hx : L.owns x.key)
    (hss : ∀ s ∈ ss, L.owns s.key) :
    Alike L q p old ((ss.map (.wired x)).reverse ++ d) (m.wireAll x ss) (n.wireAll x ss) := by
  induction ss generalizing m n d with
  | nil => exact h
  | cons s ss ih =>
    obtain ⟨hs, hss⟩ := List.forall_mem_cons.1 hss
    rw [List.map_cons, List.reverse_cons, List.append_assoc, List.singleton_append]
    exact ih (h.wire hx hs) hss

theorem expect (h : Alike L q p old d m n) {x : Waiter} (hx : L.owns x.key) :
    Alike L q p old d (m.expect x) (n.expect x) := by
  unfold Machine.expect
  rw [h.world.barrier_eq hx, h.world.label hx]
  split
  · exact h
  · split
    · exact h.raise _
    · exact h.setBarrier hx _

theorem depend (h : Alike L q p old d m n) {x : Waiter} {s : Source} (hx : L.owns x.key) (hs : L.owns s.key) :
    Alike L q p old ((if m.world.takes x then [.wired x s] else []) ++ d) (m.depend x s) (n.depend x s) := by
  unfold Machine.depend World.takes
  rw [h.world.barrier_eq hx, h.world.label hx]
  cases m.world.barriers.get? x with
  | none => exact h
  | some b =>
    unfold Barrier.expect?
    cases hb : b.closed with
    | true => simpa [hb] using h.raise (.lateDependency (m.world.label x))
    | false => simpa [hb] using (((h.setBarrier hx _).wire hx hs).listen hs hx)

theorem elapse (h : Alike L q p old d m n) {stop stop' : Nat} {ρ ρ' : Runtime}
    (hs : L.timed → stop' = stop ∧ ρ' = ρ) : Alike L q p old d (m.elapse stop ρ) (n.elapse stop' ρ') := by
  unfold Machine.elapse
  rw [h.timers]
  by_cases ht : L.timed
  · obtain ⟨rfl, rfl⟩ := hs ht
    rw [h.clock ht]
    cases hn : ρ'.next? m.clock stop' m.timers with
    | none =>
      dsimp only
      exact { h with
        clock := fun _ ↦ rfl,
        timers := rfl,
        rest := { h.rest with } }
    | some x =>
      obtain ⟨t, i⟩ := x
      have hm : Alike L q p old d
          { m with clock := max m.clock i, timers := m.timers.filter fun u ↦ u.node ≠ t.node }
          { n with clock := max m.clock i, timers := m.timers.filter fun u ↦ u.node ≠ t.node } :=
        { h with
          clock := fun _ ↦ rfl,
          timers := rfl,
          due := fun u hu ↦ h.due u (List.mem_of_mem_filter hu),
          rest := { h.rest with } }
      have hk : L.owns t.node := (h.due t (ρ'.pending hn)).2
      exact (((hm.push (.elapse fun _ ↦ ⟨rfl, rfl⟩)).push (.contain ht)).log _).complete hk _
  · have hn (σ : Runtime) (now stop : Nat) : σ.next? now stop m.timers = none := by
      rw [h.timers_eq_nil (by simpa using ht), σ.next?_nil]
    simp only [hn]
    exact { h with
      clock := fun ht' ↦ absurd ht' ht,
      timers := rfl,
      rest := { h.rest with } }

end Machine.Alike

end ActivityGraph
