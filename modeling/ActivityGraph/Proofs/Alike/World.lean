import ActivityGraph.Proofs.Alike.Script
import ActivityGraph.Proofs.Alike.Table
import ActivityGraph.World

namespace ActivityGraph

def Source.key : Source → Key
  | .node k | .start k => k

def Waiter.key : Waiter → Key
  | .node k | .terminal k | .probe k => k

def Lens.owns (L : Lens) (k : Key) : Bool := L.own k.handle

@[simp] theorem Lens.owns_other (L : Lens) (k : Key) : L.other.owns k = !L.owns k := rfl

/-- Collectors differ in the contents of their slots at most. -/
structure Collector.Alike (L : Lens) (c d : Collector) : Prop where
  shell : d = { c with slots := d.slots }
  declared : d.declared = c.declared
  same : L.blind = false → d = c

structure Job.Alike (L : Lens) (home : String) (i j : Job) : Prop where
  preparators : List.Forall₂ (fun a b ↦ a.1 = b.1 ∧ Script.Alike L home a.2 b.2) i.preparators j.preparators
  work : Work.Alike L home i.work j.work

/-- Nodes differ in their scripts at most. -/
structure Node.Alike (L : Lens) (home : String) (p q : Node) : Prop where
  shell : q = { p with job := q.job }
  job : Option.Rel (Job.Alike L home) p.job q.job
  collector : L.owns p.collector
  listeners : ∀ x ∈ p.listeners, L.owns x.key

structure Start.Alike (L : Lens) (s t : Start) : Prop where
  same : t = s
  collector : L.owns s.collector
  listeners : ∀ x ∈ s.listeners, L.owns x.key

/-- The view that a terminal gives its callback goes by a handle of its own. -/
structure Terminal.Alike (L : Lens) (home : String) (t u : Terminal) : Prop where
  shell : u = { t with callback := u.callback }
  callback : Option.Rel (Script.Alike L home) t.callback u.callback
  collector : L.owns t.collector
  view : L.own ("@" ++ home)

structure Probe.Alike (L : Lens) (home : String) (p q : Probe) : Prop where
  name : q.name = p.name
  scripts : Option.Rel (fun a b ↦ Script.Alike L home a.1 b.1 ∧ Script.Alike L home a.2 b.2) p.scripts q.scripts

structure World.Alike (L : Lens) (w v : World) : Prop where
  collectors : w.collectors.Alike L.owns (fun _ ↦ Collector.Alike L) v.collectors
  starts : w.starts.Alike L.owns (fun _ ↦ Start.Alike L) v.starts
  nodes : w.nodes.Alike L.owns (fun k ↦ Node.Alike L k.handle) v.nodes
  terminals : w.terminals.Alike L.owns (fun k ↦ Terminal.Alike L k.handle) v.terminals
  probes : w.probes.Alike L.owns (fun k ↦ Probe.Alike L k.handle) v.probes
  barriers : w.barriers.Alike (fun x ↦ L.owns x.key) (fun _ ↦ Eq) v.barriers

def World.part (L : Lens) (w : World) : World where
  collectors := w.collectors.restrict L.owns
  starts := w.starts.restrict L.owns
  nodes := w.nodes.restrict L.owns
  terminals := w.terminals.restrict L.owns
  probes := w.probes.restrict L.owns
  barriers := w.barriers.restrict fun x ↦ L.owns x.key

def World.rest (L : Lens) (w : World) : World := w.part L.other

theorem Option.rel_eq_of {α : Type} {R : α → α → Prop} {a b : Option α} (h : Option.Rel R a b)
    (hR : ∀ x y, R x y → y = x) : b = a := by
  cases h with
  | none => rfl
  | some h => rw [hR _ _ h]

namespace Collector.Alike

variable {L : Lens} {c d : Collector}

theorem refl (L : Lens) (c : Collector) : Alike L c c := ⟨rfl, rfl, fun _ ↦ rfl⟩

theorem name (h : Alike L c d) : d.name = c.name := by rw [h.shell]

theorem context (h : Alike L c d) : d.context = c.context := by rw [h.shell]

theorem diagram (h : Alike L c d) : d.diagram = c.diagram := by rw [h.shell]

theorem declares (h : Alike L c d) (x : Activity) : d.declares x = c.declares x := by
  have hk : x ∈ d.slots.keys ↔ x ∈ c.slots.keys := iff_of_eq (congrArg (x ∈ ·) h.declared)
  rw [Collector.declares, Collector.declares, Bool.eq_iff_iff, Table.contains, Table.contains,
    Table.isSome_get?_iff, Table.isSome_get?_iff, hk]

theorem undeclared (h : Alike L c d) (x : Activity) : d.undeclared x = c.undeclared x := by
  rw [Collector.undeclared, Collector.undeclared, h.name]

theorem within (h : Alike L c d) (k : Key) (xs : List Activity) : View.within k d xs = View.within k c xs := by
  unfold View.within
  simp only [h.declares, h.undeclared]

theorem narrow (h : Alike L c d) (v : View) (xs : List Activity) : v.narrow d xs = v.narrow c xs := by
  rw [View.narrow, View.narrow, h.name]

theorem mapDiagram (h : Alike L c d) (f : Diagram → Diagram) :
    Alike L { c with diagram := f c.diagram } { d with diagram := f d.diagram } where
  shell := by rw [h.name, h.context, h.diagram]
  declared := h.declared
  same hb := by rw [h.same hb]

theorem write (h : Alike L c d) (x : Activity) (r : Option Outcome) :
    Alike L { c with slots := c.slots.modify x fun _ ↦ r } { d with slots := d.slots.modify x fun _ ↦ r } where
  shell := by rw [h.name, h.context, h.diagram]
  declared := by
    simp only [Collector.declared, Table.keys_modify]
    exact h.declared
  same hb := by rw [h.same hb]

theorem write_right (h : Alike L c d) (hb : L.blind) (x : Activity) (r : Option Outcome) :
    Alike L c { d with slots := d.slots.modify x fun _ ↦ r } where
  shell := by rw [h.name, h.context, h.diagram]
  declared := by
    simp only [Collector.declared, Table.keys_modify]
    exact h.declared
  same hb' := by simp [hb] at hb'

end Collector.Alike

theorem Job.Alike.eq {L : Lens} (hb : L.blind = false) {home : String} {i j : Job} (h : Job.Alike L home i j) :
    j = i := by
  obtain ⟨ps, w⟩ := i
  obtain ⟨qs, x⟩ := j
  have hp : List.Forall₂ Eq ps qs := h.preparators.imp fun a b hab ↦ Prod.ext hab.1 (hab.2.eq hb).symm
  rw [List.forall₂_eq_eq_eq] at hp
  have hw : x = w := h.work.eq hb
  rw [hp, hw]

namespace Node.Alike

variable {L : Lens} {home : String} {p q : Node}

theorem activity (h : Alike L home p q) : q.activity = p.activity := by rw [h.shell]

theorem collector_eq (h : Alike L home p q) : q.collector = p.collector := by rw [h.shell]

theorem vertex (h : Alike L home p q) : q.vertex = p.vertex := by rw [h.shell]

theorem policy (h : Alike L home p q) : q.policy = p.policy := by rw [h.shell]

theorem record (h : Alike L home p q) : q.record = p.record := by rw [h.shell]

theorem listeners_eq (h : Alike L home p q) : q.listeners = p.listeners := by rw [h.shell]

theorem signal (h : Alike L home p q) : q.signal = p.signal := by rw [h.shell]

theorem eq (hb : L.blind = false) (h : Alike L home p q) : q = p := by
  have hj : q.job = p.job := Option.rel_eq_of h.job fun _ _ hij ↦ hij.eq hb
  rw [h.shell, hj]

end Node.Alike

namespace Terminal.Alike

variable {L : Lens} {home : String} {t u : Terminal}

theorem collector_eq (h : Alike L home t u) : u.collector = t.collector := by rw [h.shell]

theorem vertex (h : Alike L home t u) : u.vertex = t.vertex := by rw [h.shell]

theorem fired (h : Alike L home t u) : u.fired = t.fired := by rw [h.shell]

theorem eq (hb : L.blind = false) (h : Alike L home t u) : u = t := by
  have hc : u.callback = t.callback := Option.rel_eq_of h.callback fun _ _ hst ↦ hst.eq hb
  rw [h.shell, hc]

end Terminal.Alike

theorem Probe.Alike.eq {L : Lens} (hb : L.blind = false) {home : String} {p q : Probe}
    (h : Probe.Alike L home p q) : q = p := by
  obtain ⟨name, scripts⟩ := p
  obtain ⟨name', scripts'⟩ := q
  obtain ⟨rfl, hs⟩ := h
  have he : scripts' = scripts := Option.rel_eq_of hs fun _ _ hab ↦ Prod.ext (hab.1.eq hb) (hab.2.eq hb)
  rw [he]

namespace World

namespace Alike

variable {L : Lens} {w v : World} {k l : Key}

theorem of_part (h : Alike L w v) {w' v' : World} (hw : w'.part L = w.part L) (hv : v'.part L = v.part L) :
    Alike L w' v' where
  collectors := h.collectors.of_restrict (congrArg World.collectors hw) (congrArg World.collectors hv)
  starts := h.starts.of_restrict (congrArg World.starts hw) (congrArg World.starts hv)
  nodes := h.nodes.of_restrict (congrArg World.nodes hw) (congrArg World.nodes hv)
  terminals := h.terminals.of_restrict (congrArg World.terminals hw) (congrArg World.terminals hv)
  probes := h.probes.of_restrict (congrArg World.probes hw) (congrArg World.probes hv)
  barriers := h.barriers.of_restrict (congrArg World.barriers hw) (congrArg World.barriers hv)

theorem part_eq (hb : L.blind = false) (h : Alike L w v) : v.part L = w.part L := by
  simp only [part, h.collectors.restrict_eq fun _ _ _ hcd ↦ hcd.same hb,
    h.starts.restrict_eq fun _ _ _ hst ↦ hst.same, h.nodes.restrict_eq fun _ _ _ hpq ↦ hpq.eq hb,
    h.terminals.restrict_eq fun _ _ _ htu ↦ htu.eq hb, h.probes.restrict_eq fun _ _ _ hpq ↦ hpq.eq hb,
    h.barriers.restrict_eq fun _ _ _ hbc ↦ hbc.symm]

theorem label (h : Alike L w v) {x : Waiter} (hx : L.owns x.key) : v.label x = w.label x := by
  cases x with
  | node k => exact congrArg (·.getD "") (h.nodes.map_eq (k := k) hx fun _ _ hpq ↦ congrArg Activity.label hpq.activity)
  | terminal k => rfl
  | probe k => exact congrArg (·.getD "") (h.probes.map_eq (k := k) hx fun _ _ hpq ↦ hpq.name)

theorem collectorName (h : Alike L w v) (hk : L.owns k) : v.collectorName k = w.collectorName k :=
  congrArg (·.getD "") (h.collectors.map_eq hk fun _ _ hcd ↦ hcd.name)

theorem nextVertex (h : Alike L w v) (hk : L.owns k) : v.nextVertex k = w.nextVertex k :=
  congrArg (·.getD 0) (h.collectors.map_eq hk fun _ _ hcd ↦ congrArg Diagram.size hcd.diagram)

theorem start_eq (h : Alike L w v) (hk : L.owns k) : v.starts.get? k = w.starts.get? k := by
  cases hs : w.starts.get? k with
  | none => exact h.starts.get?_none hk hs
  | some s =>
    obtain ⟨t, ht, hst⟩ := h.starts.get?_some hk hs
    rw [ht, hst.same]

theorem barrier_eq (h : Alike L w v) {x : Waiter} (hx : L.owns x.key) : v.barriers.get? x = w.barriers.get? x := by
  cases hb : w.barriers.get? x with
  | none => exact h.barriers.get?_none hx hb
  | some b =>
    obtain ⟨c, hc, rfl⟩ := h.barriers.get?_some hx hb
    exact hc

theorem sourceVertex? (h : Alike L w v) {s : Source} (hs : L.owns s.key) :
    v.sourceVertex? s = w.sourceVertex? s := by
  cases s with
  | node k => exact h.nodes.map_eq (k := k) hs fun p q hpq ↦ by rw [hpq.collector_eq, hpq.vertex]
  | start k => exact h.starts.map_eq (k := k) hs fun s t hst ↦ by rw [hst.same]

theorem waiterVertex? (h : Alike L w v) {x : Waiter} (hx : L.owns x.key) :
    v.waiterVertex? x = w.waiterVertex? x := by
  cases x with
  | node k => exact h.nodes.map_eq (k := k) hx fun p q hpq ↦ by rw [hpq.collector_eq, hpq.vertex]
  | terminal k => exact h.terminals.map_eq (k := k) hx fun t u htu ↦ by rw [htu.collector_eq, htu.vertex]
  | probe k => rfl

theorem owns_sourceVertex? (h : Alike L w v) {s : Source} (hs : L.owns s.key) {i : Nat}
    (hk : w.sourceVertex? s = some (k, i)) : L.owns k := by
  cases s with
  | node l =>
    obtain ⟨p, hp, he⟩ := Option.map_eq_some_iff.1 hk
    obtain ⟨q, -, hpq⟩ := h.nodes.get?_some (k := l) hs hp
    exact (Prod.mk.inj he).1 ▸ hpq.collector
  | start l =>
    obtain ⟨p, hp, he⟩ := Option.map_eq_some_iff.1 hk
    obtain ⟨q, -, hpq⟩ := h.starts.get?_some (k := l) hs hp
    exact (Prod.mk.inj he).1 ▸ hpq.collector

theorem describeBarrier (h : Alike L w v) {x : Waiter} (hx : L.owns x.key) :
    v.describeBarrier x = w.describeBarrier x := by
  rw [World.describeBarrier, World.describeBarrier, h.barrier_eq hx, h.label hx]

theorem describeNode (h : Alike L w v) (hk : L.owns k) : v.describeNode k = w.describeNode k := by
  rw [World.describeNode, World.describeNode]
  cases hn : w.nodes.get? k with
  | none => rw [h.nodes.get?_none hk hn]
  | some p =>
    obtain ⟨q, hq, hpq⟩ := h.nodes.get?_some hk hn
    simp only [hq, hpq.activity, hpq.collector_eq, h.collectorName hpq.collector,
      h.describeBarrier (x := .node k) hk]

theorem fired (h : Alike L w v) (hk : L.owns k) : v.fired k = w.fired k :=
  congrArg (·.getD false) (h.terminals.map_eq hk fun _ _ htu ↦ htu.fired)

theorem describeTerminal (h : Alike L w v) (hk : L.owns k) : v.describeTerminal k = w.describeTerminal k := by
  rw [World.describeTerminal, World.describeTerminal, h.fired hk]

theorem describeView (h : Alike L w v) {u : View} (hu : L.owns u.collector) : v.describeView u = w.describeView u :=
  congrArg (·.getD "") (h.collectors.map_eq hu fun c d hcd ↦ by rw [View.describe, View.describe, hcd.name])

theorem collector_eq (h : Alike L w v) (hb : L.blind = false) (hk : L.owns k) :
    v.collectors.get? k = w.collectors.get? k := by
  cases hc : w.collectors.get? k with
  | none => exact h.collectors.get?_none hk hc
  | some c =>
    obtain ⟨d, hd, hcd⟩ := h.collectors.get?_some hk hc
    rw [hd, hcd.same hb]

theorem describeCollector (h : Alike L w v) (hb : L.blind = false) (hk : L.owns k) :
    v.describeCollector k = w.describeCollector k := by
  rw [World.describeCollector, World.describeCollector, h.collector_eq hb hk]

theorem describeStart (h : Alike L w v) (hb : L.blind = false) (hk : L.owns k) :
    v.describeStart k = w.describeStart k := by
  rw [World.describeStart, World.describeStart, h.start_eq hk]
  cases hs : w.starts.get? k with
  | none => rfl
  | some s =>
    obtain ⟨t, -, hst⟩ := h.starts.get?_some hk hs
    simp only [h.describeCollector hb hst.collector]

theorem modifyCollector (h : Alike L w v) (k : Key) {f g : Collector → Collector}
    (hfg : ∀ c d, Collector.Alike L c d → Collector.Alike L (f c) (g d)) :
    Alike L (w.modifyCollector k f) (v.modifyCollector k g) :=
  { h with collectors := h.collectors.modify fun _ ↦ hfg }

theorem modifyStart (h : Alike L w v) (k : Key) {f : Start → Start}
    (hf : ∀ s, L.owns s.collector → (∀ x ∈ s.listeners, L.owns x.key) →
      L.owns (f s).collector ∧ ∀ x ∈ (f s).listeners, L.owns x.key) :
    Alike L (w.modifyStart k f) (v.modifyStart k f) := by
  refine { h with starts := h.starts.modify fun _ s t hst ↦ ?_ }
  obtain ⟨hc, hl⟩ := hf s hst.collector hst.listeners
  exact ⟨by rw [hst.same], hc, hl⟩

theorem modifyNode (h : Alike L w v) (k : Key) {f g : Node → Node}
    (hfg : L.owns k → ∀ p q, Node.Alike L k.handle p q → Node.Alike L k.handle (f p) (g q)) :
    Alike L (w.modifyNode k f) (v.modifyNode k g) :=
  { h with nodes := h.nodes.modify hfg }

theorem modifyTerminal (h : Alike L w v) (k : Key) {f g : Terminal → Terminal}
    (hfg : ∀ t u, Terminal.Alike L k.handle t u → Terminal.Alike L k.handle (f t) (g u)) :
    Alike L (w.modifyTerminal k f) (v.modifyTerminal k g) :=
  { h with terminals := h.terminals.modify fun _ ↦ hfg }

theorem modifyProbe (h : Alike L w v) (k : Key) {f g : Probe → Probe}
    (hfg : ∀ p q, Probe.Alike L k.handle p q → Probe.Alike L k.handle (f p) (g q)) :
    Alike L (w.modifyProbe k f) (v.modifyProbe k g) :=
  { h with probes := h.probes.modify fun _ ↦ hfg }

theorem setBarrier (h : Alike L w v) (x : Waiter) (b : Barrier) : Alike L (w.setBarrier x b) (v.setBarrier x b) :=
  { h with barriers := h.barriers.modify fun _ _ _ _ ↦ rfl }

theorem addCollector (h : Alike L w v) (k : Key) (c : Collector) :
    Alike L (w.addCollector k c) (v.addCollector k c) :=
  { h with collectors := h.collectors.insert fun _ ↦ .refl L c }

theorem addVertex (h : Alike L w v) (k : Key) (x : Vertex) : Alike L (w.addVertex k x) (v.addVertex k x) :=
  h.modifyCollector k fun _ _ hcd ↦ hcd.mapDiagram fun d ↦ d.addVertex x

theorem addStart (h : Alike L w v) (k : Key) {s : Start} (hs : Start.Alike L s s) :
    Alike L (w.addStart k s) (v.addStart k s) :=
  { h with starts := h.starts.insert fun _ ↦ hs }

theorem addNode (h : Alike L w v) (k : Key) {p q : Node} (hpq : Node.Alike L k.handle p q) (count : Nat) :
    Alike L (w.addNode k p count) (v.addNode k q count) :=
  { h with
    nodes := h.nodes.insert fun _ ↦ hpq,
    barriers := h.barriers.insert fun _ ↦ rfl }

theorem addTerminal (h : Alike L w v) (k : Key) {t u : Terminal} (htu : Terminal.Alike L k.handle t u)
    (count : Nat) : Alike L (w.addTerminal k t count) (v.addTerminal k u count) :=
  { h with
    terminals := h.terminals.insert fun _ ↦ htu,
    barriers := h.barriers.insert fun _ ↦ rfl }

theorem addProbe (h : Alike L w v) (k : Key) {p q : Probe} (hpq : Probe.Alike L k.handle p q) (count : Nat) :
    Alike L (w.addProbe k p count) (v.addProbe k q count) :=
  { h with
    probes := h.probes.insert fun _ ↦ hpq,
    barriers := h.barriers.insert fun _ ↦ rfl }

theorem drawEdge (h : Alike L w v) {s : Source} {x : Waiter} (hs : L.owns s.key) (hx : L.owns x.key) :
    Alike L (w.drawEdge s x) (v.drawEdge s x) := by
  rw [World.drawEdge, World.drawEdge, h.sourceVertex? hs, h.waiterVertex? hx]
  split
  · split
    · exact h.modifyCollector _ fun _ _ hcd ↦ hcd.mapDiagram fun d ↦ d.addEdge _ _
    · exact h
  · exact h

end Alike

section

variable {L : Lens} {w : World} {k : Key}

theorem rest_other : w.rest L.other = w.part L := by rw [rest, Lens.other_other]

theorem part_eq_self (h : w.rest L = {}) : w.part L = w := by
  have hc : w.collectors.restrict L.owns = w.collectors := Table.restrict_eq_self (congrArg collectors h)
  have hs : w.starts.restrict L.owns = w.starts := Table.restrict_eq_self (congrArg starts h)
  have hn : w.nodes.restrict L.owns = w.nodes := Table.restrict_eq_self (congrArg nodes h)
  have ht : w.terminals.restrict L.owns = w.terminals := Table.restrict_eq_self (congrArg terminals h)
  have hp : w.probes.restrict L.owns = w.probes := Table.restrict_eq_self (congrArg probes h)
  have hb : w.barriers.restrict (fun x ↦ L.owns x.key) = w.barriers :=
    Table.restrict_eq_self (congrArg barriers h)
  simp only [part, hc, hs, hn, ht, hp, hb]

theorem rest_modifyCollector (hk : L.owns k) (f : Collector → Collector) :
    (w.modifyCollector k f).rest L = w.rest L := by
  simp [rest, part, modifyCollector, Table.restrict_modify, hk]

theorem rest_modifyStart (hk : L.owns k) (f : Start → Start) : (w.modifyStart k f).rest L = w.rest L := by
  simp [rest, part, modifyStart, Table.restrict_modify, hk]

theorem rest_modifyNode (hk : L.owns k) (f : Node → Node) : (w.modifyNode k f).rest L = w.rest L := by
  simp [rest, part, modifyNode, Table.restrict_modify, hk]

theorem rest_modifyTerminal (hk : L.owns k) (f : Terminal → Terminal) :
    (w.modifyTerminal k f).rest L = w.rest L := by
  simp [rest, part, modifyTerminal, Table.restrict_modify, hk]

theorem rest_modifyProbe (hk : L.owns k) (f : Probe → Probe) : (w.modifyProbe k f).rest L = w.rest L := by
  simp [rest, part, modifyProbe, Table.restrict_modify, hk]

theorem rest_setBarrier {x : Waiter} (hx : L.owns x.key) (b : Barrier) : (w.setBarrier x b).rest L = w.rest L := by
  simp [rest, part, setBarrier, Table.restrict_modify, hx]

theorem rest_addCollector (hk : L.owns k) (c : Collector) : (w.addCollector k c).rest L = w.rest L := by
  simp [rest, part, addCollector, Table.restrict_insert, hk]

theorem rest_addStart (hk : L.owns k) (s : Start) : (w.addStart k s).rest L = w.rest L := by
  simp [rest, part, addStart, Table.restrict_insert, hk]

theorem rest_addNode (hk : L.owns k) (p : Node) (count : Nat) : (w.addNode k p count).rest L = w.rest L := by
  simp [rest, part, addNode, Table.restrict_insert, Waiter.key, hk]

theorem rest_addTerminal (hk : L.owns k) (t : Terminal) (count : Nat) :
    (w.addTerminal k t count).rest L = w.rest L := by
  simp [rest, part, addTerminal, Table.restrict_insert, Waiter.key, hk]

theorem rest_addProbe (hk : L.owns k) (p : Probe) (count : Nat) : (w.addProbe k p count).rest L = w.rest L := by
  simp [rest, part, addProbe, Table.restrict_insert, Waiter.key, hk]

theorem Alike.rest_drawEdge {v : World} (h : Alike L w v) {s : Source} (hs : L.owns s.key) (x : Waiter) :
    (w.drawEdge s x).rest L = w.rest L := by
  unfold World.drawEdge
  split
  · next k i l j hk _ =>
    split
    · exact rest_modifyCollector (h.owns_sourceVertex? hs hk) _
    · rfl
  · rfl

end

theorem modifyCollector_congr {w : World} {k : Key} {c : Collector} (hc : w.collectors.get? k = some c)
    {f g : Collector → Collector} (hfg : f c = g c) : w.modifyCollector k f = w.modifyCollector k g := by
  rw [modifyCollector, Table.modify_congr hc hfg, modifyCollector]

theorem store_modifies {w v : World} {k : Key} {x : Activity} {r : Outcome} (h : w.store k x r = .ok v) :
    v = w.modifyCollector k fun c ↦ { c with slots := c.slots.modify x fun _ ↦ some r } := by
  unfold store at h
  cases hc : w.collectors.get? k with
  | none => simp [hc] at h
  | some c =>
    simp only [hc, Collector.insert] at h
    by_cases hx : c.declares x
    · rw [if_pos hx] at h
      obtain rfl := Except.ok.inj h
      exact modifyCollector_congr hc rfl
    · simp [hx] at h

namespace Alike

variable {L : Lens} {w v : World} {k : Key}

theorem store (h : Alike L w v) (hk : L.owns k) (x : Activity) (r : Outcome) :
    (∃ w' v', w.store k x r = .ok w' ∧ v.store k x r = .ok v' ∧ Alike L w' v' ∧ w'.rest L = w.rest L ∧
      ∀ c, w.collectors.get? k = some c → c.declares x) ∨
      ∃ e, w.store k x r = .error e ∧ v.store k x r = .error e ∧
        ∀ c, w.collectors.get? k = some c → c.declares x = false := by
  simp only [World.store]
  cases hc : w.collectors.get? k with
  | none =>
    rw [h.collectors.get?_none hk hc]
    exact .inr ⟨_, rfl, rfl, by simp⟩
  | some c =>
    obtain ⟨d, hd, hcd⟩ := h.collectors.get?_some hk hc
    simp only [hd, Collector.insert, hcd.declares]
    by_cases hx : c.declares x
    · simp only [hx, if_true]
      exact .inl ⟨_, _, rfl, rfl, h.modifyCollector k fun _ _ _ ↦ hcd.write x _, rest_modifyCollector hk _,
        by simp [hx]⟩
    · simp only [hx, Bool.false_eq_true, if_false, hcd.undeclared]
      exact .inr ⟨_, rfl, rfl, by simpa using hx⟩

theorem store_right (h : Alike L w v) (hb : L.blind) {x : Activity} {r : Outcome} {v' : World}
    (hv : v.store k x r = .ok v') : Alike L w v' := by
  rw [store_modifies hv]
  exact { h with collectors := h.collectors.modify_right fun _ _ _ hcd ↦ hcd.write_right hb x _ }

end Alike

end World

end ActivityGraph
