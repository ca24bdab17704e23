import ActivityGraph.Proofs.Alike.World
import ActivityGraph.Proofs.Known

namespace ActivityGraph

def Source.site : Source → Site
  | .node k => .node k
  | .start k => .start k

def Waiter.site? : Waiter → Option Site
  | .node k => some (.node k)
  | .terminal k => some (.terminal k)
  | .probe _ => none

namespace Event

def places? : Event → Option Site
  | .placed s => some s
  | _ => none

def wires? : Event → Option (Site × Site)
  | .wired x s => x.site?.map fun t ↦ (s.site, t)
  | _ => none

end Event

namespace World

def place? (w : World) : Site → Option (Key × Nat)
  | .start k => (w.starts.get? k).map fun s ↦ (s.collector, s.vertex)
  | .node k => (w.nodes.get? k).map fun n ↦ (n.collector, n.vertex)
  | .terminal k => (w.terminals.get? k).map fun t ↦ (t.collector, t.vertex)

def vertex (w : World) : Site → Vertex
  | .start _ => ⟨"start", .start⟩
  | .node k => ⟨w.label (.node k), .activity⟩
  | .terminal _ => ⟨"joined", .joined⟩

def diagram? (w : World) (c : Key) : Option Diagram := (w.collectors.get? c).map Collector.diagram

end World

/-- The sites and the accepted dependencies in the order in which they came, and what became of them. -/
structure Sketch where
  placings : List Site
  wirings : List (Site × Site)
  place? : Site → Option (Key × Nat)
  vertex : Site → Vertex
  diagram? : Key → Option Diagram

def Machine.sketch (m : Machine) : Sketch where
  placings := (m.journal.filterMap Event.places?).reverse
  wirings := (m.journal.filterMap Event.wires?).reverse
  place? := m.world.place?
  vertex := m.world.vertex
  diagram? := m.world.diagram?

namespace Sketch

def home? (k : Sketch) (s : Site) : Option Key := (k.place? s).map Prod.fst

def sites (k : Sketch) (c : Key) : List Site := k.placings.filter fun s ↦ k.home? s = some c

def wires (k : Sketch) (c : Key) : List (Site × Site) :=
  k.wirings.filter fun e ↦ k.home? e.1 = some c ∧ k.home? e.2 = some c

def drawing (k : Sketch) (c : Key) : Diagram where
  vertices := (k.sites c).map k.vertex
  edges := (k.wires c).map fun e ↦ ((k.sites c).idxOf e.1, (k.sites c).idxOf e.2)

def collect (k : Sketch) (c : Key) : Sketch := { k with diagram? := Function.update k.diagram? c (some {}) }

def place (k : Sketch) (c : Key) (s : Site) (v : Vertex) : Sketch where
  placings := k.placings ++ [s]
  wirings := k.wirings
  place? := Function.update k.place? s (some (c, ((k.diagram? c).map Diagram.size).getD 0))
  vertex := Function.update k.vertex s v
  diagram? := Function.update k.diagram? c ((k.diagram? c).map fun d ↦ d.addVertex v)

def seat (k : Sketch) (s : Site) : Nat := ((k.place? s).map Prod.snd).getD 0

def wire (k : Sketch) (s t : Site) : Sketch :=
  { k with
    wirings := k.wirings ++ [(s, t)],
    diagram? := fun c ↦ (k.diagram? c).map fun d ↦
      if k.home? s = some c ∧ k.home? t = some c then d.addEdge (k.seat s) (k.seat t) else d }

/-- A sketch goes on by a new collector, a new site in a collector, or a dependency between two sites. -/
inductive Stroke (k : Sketch) : Sketch → Prop
  | collect {c : Key} (hc : k.diagram? c = none) : Stroke k (k.collect c)
  | place {c : Key} {s : Site} (hs : k.place? s = none) (hc : (k.diagram? c).isSome) (v : Vertex) :
      Stroke k (k.place c s v)
  | wire {s t : Site} (hs : (k.place? s).isSome) (ht : (k.place? t).isSome) : Stroke k (k.wire s t)

def Strokes : Sketch → Sketch → Prop := Relation.ReflTransGen Stroke

/-- The diagrams show what has come, and each site knows its vertex. -/
structure Sound (k : Sketch) : Prop where
  placed : ∀ s, s ∈ k.placings ↔ (k.place? s).isSome
  nodup : k.placings.Nodup
  housed : ∀ s c i, k.place? s = some (c, i) → (k.diagram? c).isSome
  seat : ∀ s c i, k.place? s = some (c, i) → (k.sites c)[i]? = some s
  wired : ∀ e ∈ k.wirings, (k.place? e.1).isSome ∧ (k.place? e.2).isSome
  drawn : ∀ c d, k.diagram? c = some d → d = k.drawing c

variable {k l : Sketch} {c d : Key} {s t : Site} {v : Vertex}

theorem mem_sites : s ∈ k.sites c ↔ s ∈ k.placings ∧ k.home? s = some c := by
  simp [sites]

theorem mem_wires {e : Site × Site} :
    e ∈ k.wires c ↔ e ∈ k.wirings ∧ k.home? e.1 = some c ∧ k.home? e.2 = some c := by
  simp [wires]

theorem home?_eq_some : k.home? s = some c ↔ ∃ i, k.place? s = some (c, i) := by
  simp [home?]

namespace Sound

theorem nodup_sites (h : k.Sound) (c : Key) : (k.sites c).Nodup := h.nodup.filter _

theorem mem_sites_iff (h : k.Sound) : s ∈ k.sites c ↔ k.home? s = some c := by
  refine mem_sites.trans (and_iff_right_of_imp fun hs ↦ (h.placed s).2 ?_)
  obtain ⟨i, hi⟩ := home?_eq_some.1 hs
  exact Option.isSome_of_eq_some hi

theorem sites_eq_nil (h : k.Sound) (hc : k.diagram? c = none) : k.sites c = [] := by
  refine List.eq_nil_iff_forall_not_mem.2 fun s hs ↦ ?_
  obtain ⟨i, hi⟩ := home?_eq_some.1 (mem_sites.1 hs).2
  simpa [hc] using h.housed s c i hi

theorem wires_eq_nil (h : k.Sound) (hc : k.diagram? c = none) : k.wires c = [] := by
  refine List.eq_nil_iff_forall_not_mem.2 fun e he ↦ ?_
  have hs := h.mem_sites_iff.2 (mem_wires.1 he).2.1
  simp [h.sites_eq_nil hc] at hs

theorem mem_of_wires (h : k.Sound) {e : Site × Site} (he : e ∈ k.wires c) : e.1 ∈ k.sites c ∧ e.2 ∈ k.sites c :=
  ⟨h.mem_sites_iff.2 (mem_wires.1 he).2.1, h.mem_sites_iff.2 (mem_wires.1 he).2.2⟩

theorem idxOf_eq (h : k.Sound) {i : Nat} (hs : k.place? s = some (c, i)) : (k.sites c).idxOf s = i := by
  obtain ⟨hi, he⟩ := List.getElem?_eq_some_iff.1 (h.seat s c i hs)
  rw [← he]
  exact (h.nodup_sites c).idxOf_getElem i hi

end Sound

@[simp] theorem diagram?_collect : (k.collect c).diagram? d = if d = c then some {} else k.diagram? d :=
  Function.update_apply ..

@[simp] theorem place?_place : (k.place c s v).place? t =
    if t = s then some (c, ((k.diagram? c).map Diagram.size).getD 0) else k.place? t := Function.update_apply ..

@[simp] theorem vertex_place : (k.place c s v).vertex t = if t = s then v else k.vertex t := Function.update_apply ..

@[simp] theorem diagram?_place : (k.place c s v).diagram? d =
    if d = c then (k.diagram? c).map fun g ↦ g.addVertex v else k.diagram? d := Function.update_apply ..

theorem diagram?_wire {i j : Nat} (hs : k.place? s = some (c, i)) (ht : k.place? t = some (d, j)) (e : Key) :
    (k.wire s t).diagram? e = if c = e ∧ d = e then (k.diagram? e).map fun g ↦ g.addEdge i j else k.diagram? e := by
  have hdef : (k.wire s t).diagram? e = (k.diagram? e).map fun g ↦
      if k.home? s = some e ∧ k.home? t = some e then g.addEdge (k.seat s) (k.seat t) else g := rfl
  rw [hdef]
  by_cases he : c = e ∧ d = e
  · simp [he, home?, seat, hs, ht]
  · simp [he, home?, hs, ht]

@[simp] theorem home?_place : (k.place c s v).home? t = if t = s then some c else k.home? t := by
  rw [home?, place?_place]
  split <;> rfl

theorem sites_place (h : k.Sound) (hs : k.place? s = none) (c d : Key) (v : Vertex) :
    (k.place c s v).sites d = k.sites d ++ if c = d then [s] else [] := by
  have hold : k.placings.filter (fun t ↦ (k.place c s v).home? t = some d) = k.sites d := by
    refine List.filter_congr fun t ht ↦ ?_
    have hts : t ≠ s := by
      rintro rfl
      simpa [hs] using (h.placed t).1 ht
    rw [home?_place, if_neg hts]
  rw [sites, place, List.filter_append, ← place, hold]
  by_cases hc : c = d <;> simp [hc]

theorem wires_place (h : k.Sound) (hs : k.place? s = none) (c d : Key) (v : Vertex) :
    (k.place c s v).wires d = k.wires d := by
  refine List.filter_congr fun e he ↦ ?_
  obtain ⟨h₁, h₂⟩ := h.wired e he
  have hne {t : Site} (ht : (k.place? t).isSome) : t ≠ s := by
    rintro rfl
    simp [hs] at ht
  rw [home?_place, home?_place, if_neg (hne h₁), if_neg (hne h₂)]

theorem wires_wire {i j : Nat} (hs : k.place? s = some (c, i)) (ht : k.place? t = some (d, j)) (e : Key) :
    (k.wire s t).wires e = k.wires e ++ if c = e ∧ d = e then [(s, t)] else [] := by
  have hs' : k.home? s = some c := home?_eq_some.2 ⟨i, hs⟩
  have ht' : k.home? t = some d := home?_eq_some.2 ⟨j, ht⟩
  have hhome (u : Site) : (k.wire s t).home? u = k.home? u := rfl
  simp only [wires, hhome]
  rw [wire, List.filter_append]
  by_cases hce : c = e ∧ d = e
  · simp [hs', ht', hce]
  · simp [hs', ht', hce]

theorem drawing_place (h : k.Sound) (hs : k.place? s = none) (c d : Key) (v : Vertex) :
    (k.place c s v).drawing d = if d = c then (k.drawing d).addVertex v else k.drawing d := by
  have hnew : s ∉ k.sites d := fun hm ↦ by simpa [hs] using (h.placed s).1 (mem_sites.1 hm).1
  have hold : (k.sites d).map (k.place c s v).vertex = (k.sites d).map k.vertex := by
    refine List.map_congr_left fun t ht ↦ Function.update_of_ne ?_ _ _
    rintro rfl
    exact hnew ht
  have hedges (l : List Site) : (k.wires d).map (fun e ↦ ((k.sites d ++ l).idxOf e.1, (k.sites d ++ l).idxOf e.2)) =
      (k.drawing d).edges := by
    refine List.map_congr_left fun e he ↦ ?_
    obtain ⟨h₁, h₂⟩ := h.mem_of_wires he
    rw [List.idxOf_append_of_mem h₁, List.idxOf_append_of_mem h₂]
  rw [drawing, sites_place h hs, wires_place h hs, List.map_append, hold, hedges]
  by_cases hc : d = c
  · simp [hc, Diagram.addVertex, drawing]
  · simp [hc, Ne.symm hc, drawing]

theorem drawing_wire (h : k.Sound) {i j : Nat} (hs : k.place? s = some (c, i)) (ht : k.place? t = some (d, j))
    (e : Key) : (k.wire s t).drawing e = if c = e ∧ d = e then (k.drawing e).addEdge i j else k.drawing e := by
  have hdraw : (k.wire s t).drawing e = ⟨(k.drawing e).vertices,
      ((k.wire s t).wires e).map fun u ↦ ((k.sites e).idxOf u.1, (k.sites e).idxOf u.2)⟩ := rfl
  rw [hdraw, wires_wire hs ht, List.map_append]
  by_cases he : c = e ∧ d = e
  · obtain ⟨rfl, rfl⟩ := he
    simp [Diagram.addEdge, drawing, h.idxOf_eq hs, h.idxOf_eq ht]
  · simp [he, drawing]

namespace Sound

theorem collect (h : k.Sound) (hc : k.diagram? c = none) : (k.collect c).Sound where
  placed := h.placed
  nodup := h.nodup
  housed s d i hs := by
    have hd := h.housed s d i hs
    rw [diagram?_collect]
    split
    · rfl
    · exact hd
  seat := h.seat
  wired := h.wired
  drawn d g hg := by
    rw [diagram?_collect] at hg
    split at hg
    · next hd =>
      have hn : k.drawing c = {} := by
        rw [drawing, h.sites_eq_nil hc, h.wires_eq_nil hc]
        rfl
      exact (Option.some.inj hg).symm.trans (hd ▸ hn.symm)
    · exact h.drawn d g hg

theorem place (h : k.Sound) (hs : k.place? s = none) (hc : (k.diagram? c).isSome) (v : Vertex) :
    (k.place c s v).Sound where
  placed t := by
    rw [place?_place]
    refine List.mem_append.trans ?_
    split
    · next he => simp [he]
    · next he => simp [he, h.placed t]
  nodup := by
    refine h.nodup.append (List.nodup_singleton s) (List.disjoint_singleton.2 fun hm ↦ ?_)
    simpa [hs] using (h.placed s).1 hm
  housed t d i ht := by
    rw [place?_place] at ht
    rw [diagram?_place]
    split
    · simpa using hc
    · next hd =>
      split at ht
      · exact absurd (Prod.mk.inj (Option.some.inj ht)).1.symm hd
      · exact h.housed t d i ht
  seat t d i ht := by
    obtain ⟨g, hg⟩ := Option.isSome_iff_exists.1 hc
    rw [sites_place h hs]
    rw [place?_place] at ht
    split at ht
    · next he =>
      obtain ⟨rfl, rfl⟩ := Prod.mk.inj (Option.some.inj ht)
      have hsize : ((k.diagram? c).map Diagram.size).getD 0 = (k.sites c).length := by
        rw [hg, h.drawn c g hg]
        simp [Diagram.size, drawing]
      simp [hsize, he]
    · have hold := h.seat t d i ht
      rw [List.getElem?_append_left (List.getElem?_eq_some_iff.1 hold).1, hold]
  wired e he := by
    obtain ⟨h₁, h₂⟩ := h.wired e he
    simp only [place?_place]
    constructor <;> split <;> simp [*]
  drawn d g hg := by
    rw [drawing_place h hs]
    rw [diagram?_place] at hg
    split at hg
    · next hd =>
      obtain ⟨f, hf, rfl⟩ := Option.map_eq_some_iff.1 hg
      rw [if_pos hd, h.drawn c f hf, hd]
    · next hd => rw [if_neg hd, h.drawn d g hg]

theorem wire (h : k.Sound) (hs : (k.place? s).isSome) (ht : (k.place? t).isSome) : (k.wire s t).Sound := by
  obtain ⟨⟨c, i⟩, hs⟩ := Option.isSome_iff_exists.1 hs
  obtain ⟨⟨d, j⟩, ht⟩ := Option.isSome_iff_exists.1 ht
  refine ⟨h.placed, h.nodup, fun u e l hu ↦ ?_, h.seat, fun e he ↦ ?_, fun e g hg ↦ ?_⟩
  · have he := h.housed u e l hu
    rw [diagram?_wire hs ht]
    split
    · simpa using he
    · exact he
  · rcases List.mem_append.1 he with he | he
    · exact h.wired e he
    · obtain rfl := List.mem_singleton.1 he
      exact ⟨Option.isSome_of_eq_some hs, Option.isSome_of_eq_some ht⟩
  · rw [drawing_wire h hs ht]
    rw [diagram?_wire hs ht] at hg
    split at hg
    · next hd =>
      obtain ⟨f, hf, rfl⟩ := Option.map_eq_some_iff.1 hg
      rw [if_pos hd, h.drawn e f hf]
    · next hd => rw [if_neg hd, h.drawn e g hg]

theorem stroke (h : k.Sound) (hl : k.Stroke l) : l.Sound := by
  cases hl with
  | collect hc => exact h.collect hc
  | place hs hc v => exact h.place hs hc v
  | wire hs ht => exact h.wire hs ht

theorem strokes (h : k.Sound) (hl : k.Strokes l) : l.Sound := by
  induction hl with
  | refl => exact h
  | tail _ hs ih => exact ih.stroke hs

end Sound

theorem Stroke.stays (h : k.Stroke l) {p : Key × Nat} (hs : k.place? s = some p) :
    l.place? s = some p ∧ l.vertex s = k.vertex s := by
  cases h with
  | collect | wire => exact ⟨hs, rfl⟩
  | @place c t ht hc v =>
    have hne : s ≠ t := by
      rintro rfl
      simp [hs] at ht
    rw [place?_place, vertex_place, if_neg hne, if_neg hne]
    exact ⟨hs, rfl⟩

theorem Strokes.stays (h : k.Strokes l) {p : Key × Nat} (hs : k.place? s = some p) :
    l.place? s = some p ∧ l.vertex s = k.vertex s := by
  induction h with
  | refl => exact ⟨hs, rfl⟩
  | tail _ hl ih =>
    obtain ⟨hp, hv⟩ := hl.stays ih.1
    exact ⟨hp, hv.trans ih.2⟩

theorem Strokes.diagram_isSome (h : k.Strokes l) (hc : (k.diagram? c).isSome) : (l.diagram? c).isSome := by
  induction h with
  | refl => exact hc
  | tail _ hl ih =>
    cases hl with
    | collect =>
      rw [diagram?_collect]
      split
      · rfl
      · exact ih
    | place =>
      rw [diagram?_place]
      split
      · next hd => simpa [← hd] using ih
      · exact ih
    | wire => exact Option.isSome_map.trans ih

theorem Strokes.wireAll (ss : List Source) (hs : ∀ s ∈ ss, (k.place? s.site).isSome) (ht : (k.place? t).isSome) :
    k.Strokes (ss.foldl (fun k s ↦ k.wire s.site t) k) := by
  induction ss generalizing k with
  | nil => exact .refl
  | cons s ss ih =>
    obtain ⟨h₁, h₂⟩ := List.forall_mem_cons.1 hs
    exact .head (.wire h₁ ht) (ih h₂ ht)

end Sketch

namespace World

variable {w : World} {k : Key}

theorem place?_isSome_site {s : Source} : (w.place? s.site).isSome ↔ w.Has s := by
  cases s <;> simp [place?, Source.site, Has]

theorem place?_modifyNode (w : World) (k : Key) {f : Node → Node} (hf : ∀ n, (f n).collector = n.collector)
    (hv : ∀ n, (f n).vertex = n.vertex) : (w.modifyNode k f).place? = w.place? := by
  funext s
  cases s with
  | node l =>
    simp only [place?, get?_modifyNode]
    split
    · simp [Function.comp_def, hf, hv]
    · rfl
  | _ => rfl

theorem vertex_modifyNode (w : World) (k : Key) {f : Node → Node} (hf : ∀ n, (f n).activity = n.activity) :
    (w.modifyNode k f).vertex = w.vertex := by
  funext s
  cases s with
  | node l =>
    simp only [vertex, label, get?_modifyNode]
    split
    · simp [Function.comp_def, hf]
    · rfl
  | _ => rfl

theorem place?_modifyStart (w : World) (k : Key) {f : Start → Start} (hf : ∀ n, (f n).collector = n.collector)
    (hv : ∀ n, (f n).vertex = n.vertex) : (w.modifyStart k f).place? = w.place? := by
  funext s
  cases s with
  | start l =>
    simp only [place?, modifyStart, Table.get?_modify]
    split
    · simp [Function.comp_def, hf, hv]
    · rfl
  | _ => rfl

theorem place?_modifyTerminal (w : World) (k : Key) {f : Terminal → Terminal}
    (hf : ∀ n, (f n).collector = n.collector) (hv : ∀ n, (f n).vertex = n.vertex) :
    (w.modifyTerminal k f).place? = w.place? := by
  funext s
  cases s with
  | terminal l =>
    simp only [place?, modifyTerminal, Table.get?_modify]
    split
    · simp [Function.comp_def, hf, hv]
    · rfl
  | _ => rfl

theorem place?_addStart {s : Start} (hk : w.starts.get? k = none) :
    (w.addStart k s).place? = Function.update w.place? (.start k) (some (s.collector, s.vertex)) := by
  funext t
  rw [Function.update_apply]
  cases t with
  | start l =>
    simp only [place?, addStart, Table.get?_insert_of_new hk, Site.start.injEq, eq_comm (a := l)]
    split <;> rfl
  | _ => rfl

theorem place?_addNode {n : Node} (hk : w.nodes.get? k = none) (count : Nat) :
    (w.addNode k n count).place? = Function.update w.place? (.node k) (some (n.collector, n.vertex)) := by
  funext t
  rw [Function.update_apply]
  cases t with
  | node l =>
    simp only [place?, addNode, Table.get?_insert_of_new hk, Site.node.injEq, eq_comm (a := l)]
    split <;> rfl
  | _ => rfl

theorem vertex_addNode {n : Node} (hk : w.nodes.get? k = none) (count : Nat) :
    (w.addNode k n count).vertex = Function.update w.vertex (.node k) ⟨n.activity.label, .activity⟩ := by
  funext t
  rw [Function.update_apply]
  cases t with
  | node l =>
    simp only [vertex, label, addNode, Table.get?_insert_of_new hk, Site.node.injEq, eq_comm (a := l)]
    split <;> rfl
  | _ => rfl

theorem place?_addTerminal {t : Terminal} (hk : w.terminals.get? k = none) (count : Nat) :
    (w.addTerminal k t count).place? = Function.update w.place? (.terminal k) (some (t.collector, t.vertex)) := by
  funext s
  rw [Function.update_apply]
  cases s with
  | terminal l =>
    simp only [place?, addTerminal, Table.get?_insert_of_new hk, Site.terminal.injEq, eq_comm (a := l)]
    split <;> rfl
  | _ => rfl

theorem diagram?_modifyCollector (w : World) (k : Key) (f : Collector → Collector) (g : Diagram → Diagram)
    (hf : ∀ c, (f c).diagram = g c.diagram) :
    (w.modifyCollector k f).diagram? = Function.update w.diagram? k ((w.diagram? k).map g) := by
  funext c
  rw [Function.update_apply, diagram?, modifyCollector, Table.get?_modify]
  by_cases hc : c = k
  · subst hc
    simp [diagram?, Function.comp_def, hf]
  · rw [if_neg (Ne.symm hc), if_neg hc, diagram?]

theorem diagram?_store {v : World} {x : Activity} {r : Outcome} (h : w.store k x r = .ok v) :
    v.diagram? = w.diagram? := by
  have hw := diagram?_modifyCollector w k (fun c ↦ { c with slots := c.slots.modify x fun _ ↦ some r }) id fun _ ↦ rfl
  rw [store_modifies h, hw, Option.map_id_fun, id, Function.update_eq_self]

theorem sourceVertex?_eq (w : World) (s : Source) : w.sourceVertex? s = w.place? s.site := by
  cases s <;> rfl

theorem waiterVertex?_eq (w : World) {x : Waiter} {t : Site} (ht : x.site? = some t) :
    w.waiterVertex? x = w.place? t := by
  cases x with
  | probe => simp [Waiter.site?] at ht
  | _ =>
    obtain rfl := Option.some.inj ht
    rfl

theorem diagram?_drawEdge (w : World) {s : Source} {x : Waiter} {c d : Key} {i j : Nat}
    (hs : w.sourceVertex? s = some (c, i)) (hx : w.waiterVertex? x = some (d, j)) (e : Key) :
    (w.drawEdge s x).diagram? e = if c = e ∧ d = e then (w.diagram? e).map fun g ↦ g.addEdge i j else w.diagram? e := by
  rw [drawEdge, hs, hx]
  dsimp only
  split
  · next hcd =>
    refine (congrFun (diagram?_modifyCollector w c _ (fun g ↦ g.addEdge i j) fun _ ↦ rfl) e).trans ?_
    rw [Function.update_apply]
    by_cases he : e = c
    · simp [he, hcd]
    · simp [he, Ne.symm he]
  · next hcd =>
    rw [if_neg]
    rintro ⟨rfl, rfl⟩
    exact hcd rfl

end World

namespace Machine

variable {m : Machine}

theorem sketch_wire {x : Waiter} {s : Source} {t : Site} (hx : x.site? = some t) (hs : (m.world.place? s.site).isSome)
    (ht : (m.world.place? t).isSome) : (m.wire x s).sketch = m.sketch.wire s.site t := by
  obtain ⟨⟨c, i⟩, hs⟩ := Option.isSome_iff_exists.1 hs
  obtain ⟨⟨d, j⟩, ht⟩ := Option.isSome_iff_exists.1 ht
  obtain ⟨u, -, hu⟩ := m.world.drawEdge_eq s x
  have hplace : (m.world.drawEdge s x).place? = m.world.place? := by
    rw [hu]
    rfl
  have hvertex : (m.world.drawEdge s x).vertex = m.world.vertex := by
    rw [hu]
    rfl
  have hwires : ((.wired x s :: m.journal).filterMap Event.wires?).reverse =
      (m.journal.filterMap Event.wires?).reverse ++ [(s.site, t)] := by
    simp [Event.wires?, hx]
  have hdraw : (m.world.drawEdge s x).diagram? = (m.sketch.wire s.site t).diagram? := by
    funext e
    rw [Sketch.diagram?_wire (k := m.sketch) hs ht]
    exact m.world.diagram?_drawEdge ((World.sourceVertex?_eq _ _).trans hs) ((World.waiterVertex?_eq _ hx).trans ht) e
  calc (m.wire x s).sketch = ⟨m.sketch.placings, ((.wired x s :: m.journal).filterMap Event.wires?).reverse,
        (m.world.drawEdge s x).place?, (m.world.drawEdge s x).vertex, (m.world.drawEdge s x).diagram?⟩ := rfl
    _ = m.sketch.wire s.site t := by
      rw [hwires, hplace, hvertex, hdraw]
      rfl

theorem sketch_asked (m : Machine) (k : Key) (as : List Asked) :
    Machine.sketch { m with journal := (as.map (Event.asked k)).reverse ++ m.journal } = m.sketch := by
  simp only [sketch, filterMap_asked k m.journal (f := Event.places?) (fun _ ↦ rfl),
    filterMap_asked k m.journal (f := Event.wires?) (fun _ ↦ rfl)]

theorem sketch_wireAll {x : Waiter} {t : Site} (ss : List Source) (hx : x.site? = some t)
    (hs : ∀ s ∈ ss, (m.world.place? s.site).isSome) (ht : (m.world.place? t).isSome) :
    (m.wireAll x ss).sketch = ss.foldl (fun k s ↦ k.wire s.site t) m.sketch := by
  induction ss generalizing m with
  | nil => rfl
  | cons s ss ih =>
    obtain ⟨h₁, h₂⟩ := List.forall_mem_cons.1 hs
    have hw := sketch_wire hx h₁ ht
    have hp : (m.wire x s).world.place? = m.world.place? := congrArg Sketch.place? hw
    have hall : ∀ r ∈ ss, ((m.wire x s).world.place? r.site).isSome := hp ▸ h₂
    exact (ih hall (hp ▸ ht)).trans (hw ▸ rfl)

theorem sketch_addCollector {k : Key} (hk : m.world.collectors.get? k = none) (name : String) (xs : List Activity)
    (context : Json) : (m.addCollector k name xs context).sketch = m.sketch.collect k := by
  have hd : (m.addCollector k name xs context).world.diagram? = Function.update m.world.diagram? k (some {}) := by
    funext c
    rw [Function.update_apply, World.diagram?]
    simp only [addCollector, log, note, mapWorld, World.addCollector, Table.get?_insert_of_new hk]
    by_cases hc : c = k
    · simp [hc, Collector.create]
    · rw [if_neg (Ne.symm hc), if_neg hc, World.diagram?]
  calc (m.addCollector k name xs context).sketch = ⟨m.sketch.placings, m.sketch.wirings, m.world.place?,
        m.world.vertex, (m.addCollector k name xs context).world.diagram?⟩ := rfl
    _ = m.sketch.collect k := by
      rw [hd]
      rfl

theorem sketch_placed {n : Machine} {s : Site} {c : Key} {v : Vertex} (hj : n.journal = .placed s :: m.journal)
    (hd : n.world.diagram? = (m.world.addVertex c v).diagram?)
    (hp : n.world.place? = Function.update m.world.place? s (some (c, m.world.nextVertex c)))
    (hv : n.world.vertex = Function.update m.world.vertex s v) : n.sketch = m.sketch.place c s v := by
  have hnext : m.world.nextVertex c = ((m.world.diagram? c).map Diagram.size).getD 0 := by
    rw [World.nextVertex, World.diagram?, Option.map_map]
    rfl
  have hplacings : (n.journal.filterMap Event.places?).reverse = m.sketch.placings ++ [s] := by
    rw [hj]
    simp [Event.places?, sketch]
  have hwirings : (n.journal.filterMap Event.wires?).reverse = m.sketch.wirings := by
    rw [hj]
    rfl
  have hdiagram : (m.world.addVertex c v).diagram? = (m.sketch.place c s v).diagram? :=
    World.diagram?_modifyCollector m.world c _ (fun g ↦ g.addVertex v) fun _ ↦ rfl
  rw [sketch, hplacings, hwirings, hd, hdiagram, hp, hv, hnext]
  rfl

theorem sketch_addStart {k : Key} (hk : m.world.starts.get? k = none) (c : Key) :
    (m.addStart k c).sketch = m.sketch.place c (.start k) ⟨"start", .start⟩ :=
  sketch_placed rfl rfl (World.place?_addStart (w := m.world.addVertex c ⟨"start", .start⟩) hk)
    (Function.update_eq_self (Site.start k) m.world.vertex).symm

theorem sketch_placed_wireAll {n : Machine} {x : Waiter} {t : Site} {c : Key} {v : Vertex} (hx : x.site? = some t)
    (hn : n.sketch = m.sketch.place c t v) {deps : List Source} (hd : ∀ s ∈ deps, m.world.Has s) :
    (n.wireAll x deps).sketch = deps.foldl (fun k s ↦ k.wire s.site t) (m.sketch.place c t v) := by
  have hp (s : Site) : n.world.place? s = (m.sketch.place c t v).place? s := congrFun (congrArg Sketch.place? hn) s
  rw [← hn]
  refine sketch_wireAll deps hx (fun s hs ↦ ?_) ?_
  · rw [hp, Sketch.place?_place]
    split
    · rfl
    · exact World.place?_isSome_site.2 (hd s hs)
  · rw [hp, Sketch.place?_place, if_pos rfl]
    rfl

theorem sketch_addNode {id : String} (hk : m.world.nodes.get? (m.world.nodes.fresh id) = none) (x : Activity) (c : Key)
    {deps : List Source} (hd : ∀ s ∈ deps, m.world.Has s) (u : Setup Script) (work : Work Script) :
    (m.addNode id x c deps u work).sketch = deps.foldl (fun k s ↦ k.wire s.site (.node (m.world.nodes.fresh id)))
      (m.sketch.place c (.node (m.world.nodes.fresh id)) ⟨x.label, .activity⟩) := by
  let w := m.world.addVertex c ⟨x.label, .activity⟩
  let n := (m.mapWorld fun w ↦ (w.addVertex c ⟨x.label, .activity⟩).addNode (m.world.nodes.fresh id)
    (m.newNode x c u work) deps.length).note (.placed (.node (m.world.nodes.fresh id)))
  have hn : n.sketch = m.sketch.place c (.node (m.world.nodes.fresh id)) ⟨x.label, .activity⟩ :=
    sketch_placed rfl rfl (World.place?_addNode (w := w) hk _) (World.vertex_addNode (w := w) hk _)
  exact sketch_placed_wireAll rfl hn hd

theorem sketch_placeTerminal {id : String} (hk : m.world.terminals.get? (m.world.terminals.fresh id) = none) (c : Key)
    {deps : List Source} (hd : ∀ s ∈ deps, m.world.Has s) (body : Script) :
    (m.placeTerminal id c deps body).sketch =
      deps.foldl (fun k s ↦ k.wire s.site (.terminal (m.world.terminals.fresh id)))
        (m.sketch.place c (.terminal (m.world.terminals.fresh id)) ⟨"joined", .joined⟩) := by
  let w := m.world.addVertex c ⟨"joined", .joined⟩
  let n := (m.mapWorld fun w ↦ (w.addVertex c ⟨"joined", .joined⟩).addTerminal (m.world.terminals.fresh id)
    (m.newTerminal c body) deps.length).note (.placed (.terminal (m.world.terminals.fresh id)))
  have hn : n.sketch = m.sketch.place c (.terminal (m.world.terminals.fresh id)) ⟨"joined", .joined⟩ :=
    sketch_placed rfl rfl (World.place?_addTerminal (w := w) hk _)
      (Function.update_eq_self (Site.terminal (m.world.terminals.fresh id)) m.world.vertex).symm
  exact sketch_placed_wireAll rfl hn hd

end Machine

theorem Sketch.strokes_placed {k : Sketch} {c : Key} {t : Site} {v : Vertex} {deps : List Source}
    (ht : k.place? t = none) (hc : (k.diagram? c).isSome) (hd : ∀ s ∈ deps, (k.place? s.site).isSome) :
    k.Strokes (deps.foldl (fun k s ↦ k.wire s.site t) (k.place c t v)) := by
  refine .head (.place ht hc v) (Strokes.wireAll deps (fun s hs ↦ ?_) ?_)
  · rw [place?_place]
    split
    · rfl
    · exact hd s hs
  · rw [place?_place, if_pos rfl]
    rfl

theorem Stride.strokes {a b : Stage} (hs : Stride a b) (ha : a.Reached) :
    a.machine.sketch.Strokes b.machine.sketch := by
  have same {k l : Sketch} (h : l = k) : k.Strokes l := h ▸ .refl
  have placed {k : Sketch} {p : Site → Option (Key × Nat)} (h : p = k.place?) : k.Strokes { k with place? := p } :=
    h ▸ .refl
  have noded {m : Machine} (k : Key) (f : Node → Node) (hc : ∀ n, (f n).collector = n.collector)
      (hv : ∀ n, (f n).vertex = n.vertex) (hx : ∀ n, (f n).activity = n.activity) :
      m.sketch.Strokes (m.modifyNode k f).sketch := by
    refine same ?_
    rw [Machine.sketch, Machine.modifyNode, Machine.mapWorld, World.place?_modifyNode _ k hc hv,
      World.vertex_modifyNode _ k hx]
    rfl
  have housed {m : Machine} {c : Key} (h : (m.world.collectors.get? c).isSome) : (m.sketch.diagram? c).isSome :=
    Option.isSome_map.trans h
  have has {m : Machine} {ss : List Source} (h : ∀ s ∈ ss, m.world.Has s) :
      ∀ s ∈ ss, (m.sketch.place? s.site).isSome := fun s hs ↦ World.place?_isSome_site.2 (h s hs)
  have hq := ha.sound
  cases hs with
  | @note m e he =>
    cases e with
    | described | replied => exact .refl
    | _ => simp [Event.mute] at he
  | insert hw | stored _ hw =>
    have hd := World.diagram?_store hw
    obtain rfl := World.store_modifies hw
    exact same (congrArg (fun d ↦ Sketch.mk _ _ _ _ d) hd)
  | @addCollector m id name xs context =>
    have hk := hq.collectors.get?_fresh id
    rw [Machine.sketch_addCollector hk]
    exact .single (.collect (by simp [Machine.sketch, World.diagram?, hk]))
  | @addStart m c id hc =>
    have hk := hq.starts.get?_fresh id
    rw [Machine.sketch_addStart hk]
    exact .single (.place (by simp [Machine.sketch, World.place?, hk]) (housed hc) _)
  | @addNode m col x c deps id u work hc hx hd =>
    have hk := hq.nodes.get?_fresh id
    have hd' : ∀ s ∈ deps, m.world.Has s := fun s hs ↦ ha.grounded.named s (hd s hs)
    rw [Machine.sketch_addNode hk x c hd']
    exact Sketch.strokes_placed (by simp [Machine.sketch, World.place?, hk]) (housed (Option.isSome_of_eq_some hc))
      (has hd')
  | @addTerminal m c deps id body hc hd =>
    have hk := hq.terminals.get?_fresh id
    have hd' : ∀ s ∈ deps, m.world.Has s := fun s hs ↦ ha.grounded.named s (hd s hs)
    exact Machine.sketch_placeTerminal hk c hd' body ▸
      Sketch.strokes_placed (by simp [Machine.sketch, World.place?, hk]) (housed hc) (has hd')
  | @addRoot m c id body hc =>
    have hk := hq.terminals.get?_fresh id
    rw [Machine.sketch_placeTerminal hk c (List.forall_mem_nil _) body]
    exact .single (.place (by simp [Machine.sketch, World.place?, hk]) (housed hc) _)
  | @depend m k s b c hb hc hd =>
    have hk : (m.world.nodes.get? k).isSome := hq.isSome_node k ▸ Option.isSome_of_eq_some hb
    have hn : (m.world.place? (.node k)).isSome := by simpa [World.place?] using hk
    have hr : (m.world.place? s.site).isSome := World.place?_isSome_site.2 (ha.grounded.named s hd)
    have hw := Machine.sketch_wire (m := m.mapWorld fun w ↦ w.setBarrier (.node k) c) (x := .node k) rfl hr hn
    exact (Relation.ReflTransGen.single (.wire (k := m.sketch) hr hn)).trans (same hw)
  | fired | join => exact placed (World.place?_modifyTerminal _ _ (fun _ ↦ rfl) fun _ ↦ rfl)
  | listed | abandon | begin => exact noded _ _ (fun _ ↦ rfl) (fun _ ↦ rfl) fun _ ↦ rfl
  | waiting | ran => exact placed (World.place?_modifyStart _ _ (fun _ ↦ rfl) fun _ ↦ rfl)
  | @astray m x s | @refused m x s | @arrived m x s | @closed m x s => cases s <;> exact .refl
  | @broken m k n r o text hk hr hg =>
    refine (noded k (fun n' ↦ { n' with record := (n.policy.rule o).record }) (fun _ ↦ rfl) (fun _ ↦ rfl)
      fun _ ↦ rfl).trans (same ?_)
    exact Machine.sketch_asked ((m.modifyNode k fun n' ↦ { n' with record := (n.policy.rule o).record }).note
      (.reported k r)) k (n.policy.rule o).asked
  | @completed m k n r o g hk hr hg ending =>
    refine (noded k (fun n' ↦ { n' with record := (n.policy.rule o).record }) (fun _ ↦ rfl) (fun _ ↦ rfl)
      fun _ ↦ rfl).trans (same ?_)
    exact Machine.sketch_asked ((m.modifyNode k fun n' ↦ { n' with record := (n.policy.rule o).record }).note
      (.reported k r)) k (n.policy.rule o).asked
  | @announce m k n g =>
    cases g <;> exact noded _ _ (fun _ ↦ rfl) (fun _ ↦ rfl) fun _ ↦ rfl
  | @unwound m f t => cases t.scope? <;> exact .refl
  | _ => exact .refl

theorem Stage.Before.strokes {a b : Stage} (h : a.Before b) (ha : a.Reached) :
    a.machine.sketch.Strokes b.machine.sketch := by
  induction h with
  | refl => exact .refl
  | tail hb hs ih => exact ih.trans (hs.strokes (ha.before hb))

theorem Sketch.sound_empty (catalogue : List (String × Activity)) :
    (Machine.sketch { catalogue := catalogue }).Sound where
  placed s := by cases s <;> simp [Machine.sketch, World.place?, Table.get?]
  nodup := List.nodup_nil
  housed s c i hs := by cases s <;> simp [Machine.sketch, World.place?, Table.get?] at hs
  seat s c i hs := by cases s <;> simp [Machine.sketch, World.place?, Table.get?] at hs
  wired := List.forall_mem_nil _
  drawn c d hd := by simp [Machine.sketch, World.diagram?, Table.get?] at hd

theorem Stage.Reached.sketched {a : Stage} (h : a.Reached) : a.machine.sketch.Sound :=
  h.invariant (P := fun a ↦ a.machine.sketch.Sound) Sketch.sound_empty
    fun _ _ ha ih hs ↦ ih.strokes (hs.strokes ha)

end ActivityGraph
