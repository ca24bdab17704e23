import ActivityGraph.Proofs.Bytes
import ActivityGraph.Proofs.Cell
import ActivityGraph.Proofs.Gating
import ActivityGraph.Proofs.Sketch
import ActivityGraph.Proofs.Terminal

namespace ActivityGraph

theorem flatMap_filter_perm {is : List Nat} (h : is.Nodup) (es : List (Nat × Nat)) :
    (is.flatMap fun i ↦ es.filter fun e ↦ e.2 = i).Perm (es.filter fun e ↦ e.2 ∈ is) := by
  induction is with
  | nil => simp
  | cons i is ih =>
    obtain ⟨hi, his⟩ := List.nodup_cons.1 h
    rw [List.flatMap_cons]
    refine ((ih his).append_left _).trans ?_
    have hsplit := List.filter_append_perm (fun e : Nat × Nat ↦ decide (e.2 = i)) (es.filter fun e ↦ e.2 ∈ i :: is)
    rw [List.filter_filter, List.filter_filter] at hsplit
    refine .trans (.of_eq ?_) hsplit
    congr 1 <;> refine List.filter_congr fun e _ ↦ ?_
    · by_cases he : e.2 = i <;> simp [he]
    · by_cases he : e.2 = i <;> simp [he, hi]

namespace Diagram

variable (d : Diagram) (name : String)

theorem mem_called {i : Nat} : i ∈ d.called name ↔ (d.vertices[i]?.map Vertex.name) = some name := by
  simp [called, List.mem_zipIdx_iff_getElem?]

theorem nodup_called : (d.called name).Nodup := by
  refine (List.filter_sublist.map Prod.snd).nodup ?_
  rw [List.zipIdx_map_snd]
  exact List.nodup_range'

theorem pairwise_dependenciesOf : (d.dependenciesOf name).Pairwise fun a b ↦ Text.bytes a ≤ Text.bytes b := by
  have h : (d.dependenciesOf name).Pairwise fun x y ↦ decide (x ≤ y) = true := List.pairwise_mergeSort
    (fun a b c hab hbc ↦ by simpa using Std.le_trans (of_decide_eq_true hab) (of_decide_eq_true hbc))
    (fun a b ↦ by simpa using Std.le_total) ((d.called name).flatMap d.incoming)
  exact h.imp fun hab ↦ Text.bytes_le_iff.2 (of_decide_eq_true hab)

theorem dependenciesOf_perm : (d.dependenciesOf name).Perm
    ((d.edges.filter fun e ↦ e.2 ∈ d.called name).filterMap fun e ↦ (d.vertices[e.1]?).map Vertex.name) := by
  refine (List.mergeSort_perm _ _).trans ?_
  refine .trans (.of_eq ?_) ((flatMap_filter_perm (d.nodup_called name) d.edges).filterMap _)
  rw [List.filterMap_flatMap]
  rfl

end Diagram

namespace Sketch

variable {k : Sketch} {c : Key}

def dependencies (k : Sketch) (c : Key) (name : String) : List String :=
  ((k.wires c).filter fun e ↦ (k.vertex e.2).name = name).map fun e ↦ (k.vertex e.1).name

theorem getElem?_idxOf {s : Site} (hs : s ∈ k.sites c) :
    (k.drawing c).vertices[(k.sites c).idxOf s]? = some (k.vertex s) := by
  have hlt := List.idxOf_lt_length_of_mem hs
  rw [drawing, List.getElem?_map, List.getElem?_eq_getElem hlt, List.getElem_idxOf, Option.map_some]

theorem Sound.dependenciesOf_perm (h : k.Sound) (c : Key) (name : String) :
    ((k.drawing c).dependenciesOf name).Perm (k.dependencies c name) := by
  refine ((k.drawing c).dependenciesOf_perm name).trans (.of_eq ?_)
  have hedges : (k.drawing c).edges = (k.wires c).map fun e ↦ ((k.sites c).idxOf e.1, (k.sites c).idxOf e.2) := rfl
  have hfilter : ((k.wires c).filter fun e ↦ (k.sites c).idxOf e.2 ∈ (k.drawing c).called name) =
      (k.wires c).filter fun e ↦ (k.vertex e.2).name = name := by
    refine List.filter_congr fun e he ↦ ?_
    simp [Diagram.mem_called, getElem?_idxOf (h.mem_of_wires he).2]
  rw [hedges, List.filter_map, List.filterMap_map]
  refine (congrArg _ hfilter).trans ?_
  rw [dependencies, ← List.filterMap_eq_map]
  refine List.filterMap_congr fun e he ↦ ?_
  simp [getElem?_idxOf (h.mem_of_wires (List.mem_of_mem_filter he)).1]

def figures (k : Sketch) (c : Key) : List (Site × Vertex) := (k.sites c).map fun s ↦ (s, k.vertex s)

theorem fst_figures (k : Sketch) (c : Key) : (k.figures c).map Prod.fst = k.sites c := by
  simp [figures, Function.comp_def]

theorem drawing_congr {l : Sketch} (hf : l.figures c = k.figures c) (hw : l.wires c = k.wires c) :
    l.drawing c = k.drawing c := by
  have hs : l.sites c = k.sites c := by rw [← fst_figures, hf, fst_figures]
  have hv : (l.sites c).map l.vertex = (k.sites c).map k.vertex := by
    simpa [figures, Function.comp_def] using congrArg (List.map Prod.snd) hf
  rw [drawing, drawing, hv, hw, hs]

end Sketch

namespace Machine

/-- What an action is about to place, in which collector, and what it is drawn as, if the action finds all that it
looks for. -/
def placement? (m : Machine) : Action → Except String (Option (Key × Site × Vertex))
  | .start id _ keys _ => do
    let _ ← m.activities keys
    return some (m.world.collectors.fresh id, .start (m.world.starts.fresh id), ⟨"start", .start⟩)
  | .perform id key coll deps _ _ => do
    let x ← m.activity key
    let (k, col) ← m.collectorAt coll
    let _ ← m.sources deps
    return if col.declares x then some (k, .node (m.world.nodes.fresh id), ⟨x.label, .activity⟩) else none
  | .finish id coll deps _ => do
    let (k, _) ← m.collectorAt coll
    let _ ← m.sources deps
    return some (k, .terminal (m.world.terminals.fresh id), ⟨"joined", .joined⟩)
  | _ => return none

def placement (m : Machine) (a : Action) : Option (Key × Site × Vertex) := (m.placement? a).toOption.join

theorem placement_eq_some {m : Machine} {a : Action} {p : Key × Site × Vertex} :
    m.placement a = some p ↔ m.placement? a = .ok (some p) := by
  unfold placement
  cases m.placement? a <;> simp [Except.toOption]

theorem deeds_places (m : Machine) (a : Action) :
    (m.deeds a).filterMap Event.places? = (m.placement a).toList.map fun p ↦ p.2.1 := by
  cases a with
  | start id name keys context =>
    simp only [deeds, deeds?, placement, placement?]
    rcases m.activities keys with _ | xs <;> rfl
  | perform id key coll deps setup work =>
    simp only [deeds, deeds?, placement, placement?]
    rcases m.activity key with _ | x
    · rfl
    rcases m.collectorAt coll with _ | ⟨k, col⟩
    · rfl
    rcases m.sources deps with _ | ss
    · rfl
    by_cases hx : col.declares x <;>
      simp [bind, Except.bind, pure, Except.pure, Except.toOption, Event.places?, hx]
  | finish id coll deps body =>
    simp only [deeds, deeds?, placement, placement?]
    rcases m.collectorAt coll with _ | ⟨k, col⟩
    · rfl
    rcases m.sources deps with _ | ss
    · rfl
    simp [bind, Except.bind, pure, Except.pure, Except.toOption, Event.places?]
  | insert id key r =>
    simp only [deeds, deeds?]
    rcases m.collectorAt id with _ | ⟨k, col⟩
    · rfl
    rcases m.activity key with _ | x
    · rfl
    by_cases hx : col.declares x <;>
      simp [bind, Except.bind, pure, Except.pure, Except.toOption, Event.places?, placement, placement?, hx]
  | set id key r =>
    simp only [deeds, deeds?]
    rcases m.viewAt id with _ | ⟨v, col⟩
    · rfl
    rcases m.activity key with _ | x
    · rfl
    by_cases hx : v.contains x ∧ col.declares x <;>
      simp [bind, Except.bind, pure, Except.pure, Except.toOption, Event.places?, placement, placement?, hx]
  | after id dep =>
    simp only [deeds, deeds?]
    rcases find m.desk.nodes id with _ | k
    · rfl
    rcases m.source dep with _ | s
    · rfl
    by_cases hx : m.world.takes (.node k) <;>
      simp [bind, Except.bind, pure, Except.pure, Except.toOption, Event.places?, placement, placement?, hx]
  | done id next =>
    simp only [deeds, deeds?]
    rcases find m.desk.nodes id with _ | k
    · rfl
    rcases find m.desk.nodes next with _ | l
    · rfl
    by_cases hx : m.world.takes (.node l) <;>
      simp [bind, Except.bind, pure, Except.pure, Except.toOption, Event.places?, placement, placement?, hx]
  | _ => rfl

theorem placement_stack (m : Machine) (ts : List Task) (a : Action) :
    placement { m with stack := ts } a = m.placement a := by
  cases a <;> rfl

theorem Move.acts {m n : Machine} {l : Line Action} (h : m.Move (some l) n) : ∃ f c ts,
    act { m with stack := ts } f c l.action = .ok n ∨ ∃ id, act { m with stack := ts } f c l.action = .error id := by
  generalize ho : some l = o at h
  cases h with
  | line hm f l' =>
    obtain rfl := Option.some.inj ho
    obtain ⟨ts, h⟩ := execute_acts { m with stack := [.guard ⟨f.owner, l.verb⟩] } f l
    exact ⟨f, _, ts, h⟩
  | step hm =>
    unfold upcoming at ho
    split at ho
    · next f l' rest exit ts hst =>
      obtain rfl := Option.some.inj ho
      rw [step_of_stack hst]
      obtain ⟨us, h⟩ := execute_acts (Machine.push { m with stack := ts }
        (.script { f with register := Machine.registerAfter { m with stack := ts } f l.action } rest exit)) f l
      exact ⟨f, _, us, h⟩
    · simp at ho

theorem sketch_conclude (m : Machine) (c : Caller) (a : Answer) : (m.conclude c a).sketch = m.sketch := by
  unfold conclude
  split <;> rfl

theorem sketch_dropCompletion (m : Machine) (id : String) : (m.dropCompletion id).sketch = m.sketch := by
  unfold dropCompletion
  split <;> rfl

theorem sketch_unwind (f : Fault) (ts : List Task) (m : Machine) : (unwind f ts m).sketch = m.sketch := by
  have hn (m : Machine) (o : Option Scope) : (m.noteAll (o.toList.map (.unwound f))).sketch = m.sketch := by
    cases o <;> rfl
  induction ts generalizing m with
  | nil => rfl
  | cons t ts ih =>
    cases t with
    | guard c => exact sketch_conclude _ c _
    | contain => rfl
    | relinquish id => exact (ih _).trans (sketch_dropCompletion m id)
    | _ => exact (ih _).trans (hn m _)

theorem sketch_release (m : Machine) (t : Key) : (m.release (.terminal t)).sketch = m.sketch := by
  have hjoin (m : Machine) : (m.join t).sketch = m.sketch := by
    unfold join
    split
    · rfl
    · split
      · exact congrArg (fun p ↦ Sketch.mk _ _ p _ _) (World.place?_modifyTerminal _ _ (fun _ ↦ rfl) fun _ ↦ rfl)
      · rfl
  unfold release
  split
  · rfl
  · split
    · exact sketch_unwind _ _ m
    · exact sketch_unwind _ _ m
    · exact hjoin _

theorem sketch_addTerminal {m : Machine} {id : String} (hk : m.world.terminals.get? (m.world.terminals.fresh id) = none)
    (c : Key) {deps : List Source} (hd : ∀ s ∈ deps, m.world.Has s) (body : Script) :
    (m.addTerminal id c deps body).sketch =
      deps.foldl (fun k s ↦ k.wire s.site (.terminal (m.world.terminals.fresh id)))
        (m.sketch.place c (.terminal (m.world.terminals.fresh id)) ⟨"joined", .joined⟩) := by
  rw [← sketch_placeTerminal hk c hd body, addTerminal_eq]
  split
  · exact sketch_release _ _
  · rfl

end Machine

namespace Sketch

theorem shows_placed (k : Sketch) (c : Key) (s : Site) (v : Vertex) (ss : List Source) :
    (ss.foldl (fun k r ↦ k.wire r.site s) (k.place c s v)).home? s = some c ∧
      (ss.foldl (fun k r ↦ k.wire r.site s) (k.place c s v)).vertex s = v := by
  have hall (l : Sketch) : (ss.foldl (fun k r ↦ k.wire r.site s) l).home? = l.home? ∧
      (ss.foldl (fun k r ↦ k.wire r.site s) l).vertex = l.vertex := by
    induction ss generalizing l with
    | nil => exact ⟨rfl, rfl⟩
    | cons r ss ih => exact ih (l.wire r.site s)
  obtain ⟨hh, hv⟩ := hall (k.place c s v)
  rw [hh, hv, home?_place, vertex_place, if_pos rfl, if_pos rfl]
  exact ⟨rfl, rfl⟩

end Sketch

namespace Machine

theorem sketch_collect {m n : Machine} {f : Frame} {c : Caller} {id name : String} {keys : List String} {context : Json}
    (hq : m.world.Sound) (h : m.act f c (.collect id name keys context) = .ok n) :
    n.sketch = m.sketch.collect (m.world.collectors.fresh id) := by
  obtain ⟨xs, -, h⟩ := bind_ok h
  obtain rfl := Except.ok.inj h
  exact sketch_addCollector (hq.collectors.get?_fresh id) name xs context

theorem sketch_start {m n : Machine} {f : Frame} {c : Caller} {id name : String} {keys : List String} {context : Json}
    (hq : m.world.Sound) (h : m.act f c (.start id name keys context) = .ok n) :
    n.sketch = (m.sketch.collect (m.world.collectors.fresh id)).place (m.world.collectors.fresh id)
      (.start (m.world.starts.fresh id)) ⟨"start", .start⟩ := by
  obtain ⟨xs, -, h⟩ := bind_ok h
  obtain rfl := Except.ok.inj h
  rw [← sketch_addCollector (hq.collectors.get?_fresh id) name xs context]
  exact sketch_addStart (m := m.addCollector (m.world.collectors.fresh id) name xs context) (hq.starts.get?_fresh id) _

theorem act_placement {m n : Machine} {f : Frame} {c : Caller} {a : Action} (hq : m.world.Sound)
    (hs : ∀ s, m.Names s → m.world.Has s) (h : m.act f c a = .ok n) {d : Key} {s : Site} {v : Vertex}
    (hp : m.placement a = some (d, s, v)) : n.sketch.home? s = some d ∧ n.sketch.vertex s = v := by
  cases a with
  | start id name keys context =>
    have hsk := sketch_start hq h
    obtain ⟨xs, hx, -⟩ := bind_ok h
    have hd : m.placement (.start id name keys context) =
        some (m.world.collectors.fresh id, .start (m.world.starts.fresh id), ⟨"start", .start⟩) := by
      simp [placement, placement?, hx, bind, Except.bind, pure, Except.pure, Except.toOption]
    obtain ⟨rfl, rfl, rfl⟩ : _ ∧ _ ∧ _ := by simpa using hd.symm.trans hp
    exact hsk ▸ Sketch.shows_placed _ _ _ _ []
  | perform id key coll deps setup work =>
    obtain ⟨x, hx, h⟩ := bind_ok h
    obtain ⟨⟨k, col⟩, hk, h⟩ := bind_ok h
    dsimp only at h
    have hw : (m.describeSetup x setup).world = m.world := by cases setup <;> rfl
    have hsources : (m.describeSetup x setup).sources deps = m.sources deps := by cases setup <;> rfl
    rw [hsources] at h
    cases hss : m.sources deps with
    | error e => simp [placement, placement?, hx, hk, hss, bind, Except.bind, Except.toOption] at hp
    | ok ss =>
      by_cases hdec : col.declares x
      · simp only [hss, if_pos hdec] at h
        obtain rfl := Except.ok.inj h
        have hd : m.placement (.perform id key coll deps setup work) =
            some (k, .node (m.world.nodes.fresh id), ⟨x.label, .activity⟩) := by
          simp [placement, placement?, hx, hk, hss, hdec, bind, Except.bind, pure, Except.pure, Except.toOption]
        obtain ⟨rfl, rfl, rfl⟩ : _ ∧ _ ∧ _ := by simpa using hd.symm.trans hp
        have hpw (t : Task) : ((m.describeSetup x setup).push t).world = m.world := hw
        have hnew (t : Task) : ((m.describeSetup x setup).push t).world.nodes.get?
            (((m.describeSetup x setup).push t).world.nodes.fresh id) = none := by
          rw [hpw]
          exact hq.nodes.get?_fresh id
        have hdeps (t : Task) : ∀ s ∈ ss, ((m.describeSetup x setup).push t).world.Has s := by
          rw [hpw]
          exact fun s h ↦ hs s (names_of_sources hss s h)
        rw [sketch_addNode (hnew _) x k (hdeps _), hpw]
        exact Sketch.shows_placed _ _ _ _ ss
      · simp [placement, placement?, hx, hk, hss, hdec, bind, Except.bind, pure, Except.pure, Except.toOption] at hp
  | finish id coll deps body =>
    obtain ⟨⟨k, col⟩, hk, h⟩ := bind_ok h
    obtain ⟨ss, hss, h⟩ := bind_ok h
    obtain rfl := Except.ok.inj h
    have hd : m.placement (.finish id coll deps body) =
        some (k, .terminal (m.world.terminals.fresh id), ⟨"joined", .joined⟩) := by
      simp [placement, placement?, hk, hss, bind, Except.bind, pure, Except.pure, Except.toOption]
    obtain ⟨rfl, rfl, rfl⟩ : _ ∧ _ ∧ _ := by simpa using hd.symm.trans hp
    have hnew : (m.push (.answer c (.fired (m.world.terminals.fresh id)))).world.terminals.get?
        (m.world.terminals.fresh id) = none := hq.terminals.get?_fresh id
    have hdeps : ∀ s ∈ ss, (m.push (.answer c (.fired (m.world.terminals.fresh id)))).world.Has s :=
      fun s h ↦ hs s (names_of_sources hss s h)
    have hadd := sketch_addTerminal hnew k hdeps body
    rw [hadd]
    exact Sketch.shows_placed _ _ _ _ ss
  | _ => simp [placement, placement?, pure, Except.pure, Except.toOption] at hp

/-- The accepted dependencies among the deeds of a line, in the order in which they come. -/
def wiring (m : Machine) (l : Option (Line Action)) : List (Site × Site) :=
  (l.elim [] fun l ↦ m.deeds l.action).reverse.filterMap Event.wires?

theorem fresh_of_placement {m : Machine} {a : Action} {c k : Key} {v : Vertex}
    (h : m.placement a = some (c, .start k, v)) : ∃ id, c = m.world.collectors.fresh id := by
  rw [placement_eq_some] at h
  cases a with
  | start id name keys context =>
    obtain ⟨xs, -, h⟩ := bind_ok h
    exact ⟨id, (Prod.mk.inj (Option.some.inj (Except.ok.inj h))).1.symm⟩
  | perform id key coll deps setup work =>
    obtain ⟨x, -, h⟩ := bind_ok h
    obtain ⟨⟨l, col⟩, -, h⟩ := bind_ok h
    obtain ⟨ss, -, h⟩ := bind_ok h
    obtain ⟨-, h⟩ := Option.ite_none_right_eq_some.1 (Except.ok.inj h)
    cases h
  | finish id coll deps body =>
    obtain ⟨⟨l, col⟩, -, h⟩ := bind_ok h
    obtain ⟨ss, -, h⟩ := bind_ok h
    cases h
  | _ => cases h

/-- What a move draws. Each collector gets the site that the line places in it, if it places one there, and the
accepted dependencies of the line that lead from this collector to it; all that was there stays. If the line
does no deeds, the diagrams stay as they are. A start is drawn in a new collector only. -/
structure Drew (m : Machine) (l : Option (Line Action)) (n : Machine) : Prop where
  figures : ∀ c, n.sketch.figures c = m.sketch.figures c ++
    (l.bind fun l ↦ m.placement l.action).toList.filterMap fun p ↦ if p.1 = c then some p.2 else none
  wires : ∀ c, n.sketch.wires c = m.sketch.wires c ++
    (m.wiring l).filter fun e ↦ n.sketch.home? e.1 = some c ∧ n.sketch.home? e.2 = some c
  idle : (l.elim [] fun l ↦ m.deeds l.action) = [] →
    ∀ c d, m.world.diagram? c = some d → n.world.diagram? c = some d
  collected : ∀ i id name keys context xs, l = some i → m.activities keys = .ok xs →
    i.action = .collect id name keys context → n.world.diagram? (m.world.collectors.fresh id) = some {}
  started : ∀ i id name keys context xs, l = some i → m.activities keys = .ok xs →
    i.action = .start id name keys context →
    n.world.diagram? (m.world.collectors.fresh id) = some ⟨[⟨"start", .start⟩], []⟩
  starts : ∀ c, (m.world.diagram? c).isSome → ∀ k, .start k ∈ n.sketch.sites c → .start k ∈ m.sketch.sites c

theorem filterMap_deed {α : Type} {f : Event → Option α} (hf : ∀ e, e.deed = false → f e = none) (es : List Event) :
    (es.filter Event.deed).filterMap f = es.filterMap f := by
  rw [List.filterMap_filter]
  refine List.filterMap_congr fun e _ ↦ ?_
  cases he : e.deed with
  | true => rfl
  | false => exact (hf e he).symm

theorem Move.sketched {m n : Machine} {l : Option (Line Action)} (h : m.Move l n) :
    n.sketch.placings = m.sketch.placings ++ (l.bind fun l ↦ m.placement l.action).toList.map (fun p ↦ p.2.1) ∧
      n.sketch.wirings = m.sketch.wirings ++ m.wiring l := by
  obtain ⟨es, hj, hd⟩ := h.deeds
  constructor
  · have hp := filterMap_deed (f := Event.places?) (fun e he ↦ by cases e <;> first | rfl | simp [Event.deed] at he) es
    have hl : (l.elim [] fun l ↦ m.deeds l.action).filterMap Event.places? =
        (l.bind fun l ↦ m.placement l.action).toList.map fun p ↦ p.2.1 := by
      cases l with
      | none => rfl
      | some l => exact m.deeds_places l.action
    show (n.journal.filterMap Event.places?).reverse = _
    rw [hj, List.filterMap_append, List.reverse_append, ← hp, hd, hl]
    congr 1
    cases l.bind fun l ↦ m.placement l.action <;> rfl
  · have hp := filterMap_deed (f := Event.wires?) (fun e he ↦ by cases e <;> first | rfl | simp [Event.deed] at he) es
    show (n.journal.filterMap Event.wires?).reverse = _
    rw [hj, List.filterMap_append, List.reverse_append, ← hp, hd, wiring, List.filterMap_reverse]
    rfl

theorem Move.strokes {m n : Machine} {l : Option (Line Action)} (h : m.Move l n) (hm : m.Reachable) :
    m.sketch.Strokes n.sketch := h.next.ends.before.strokes hm.reached

theorem deeds_missing_placement {m : Machine} {f : Frame} {c : Caller} {a : Action} {id : String}
    (h : m.act f c a = .error id) : m.placement a = none := by
  have hd := m.deeds_places a
  rw [deeds_missing h] at hd
  cases hp : m.placement a with
  | none => rfl
  | some p => simp [hp] at hd

theorem Move.shows {m n : Machine} {l : Option (Line Action)} (h : m.Move l n) (hm : m.Reachable) {c : Key} {s : Site}
    {v : Vertex} (hp : (l.bind fun l ↦ m.placement l.action) = some (c, s, v)) :
    n.sketch.home? s = some c ∧ n.sketch.vertex s = v := by
  obtain ⟨l, rfl, hp⟩ := Option.bind_eq_some_iff.1 hp
  obtain ⟨f, g, ts, hact | ⟨id, hact⟩⟩ := h.acts
  · exact act_placement (m := { m with stack := ts }) hm.reached.sound hm.reached.grounded.named hact
      ((placement_stack ..).trans hp)
  · have hnone := (placement_stack ..).symm.trans (deeds_missing_placement hact)
    exact absurd (hnone.symm.trans hp) (by simp)

theorem Move.drew {m n : Machine} {l : Option (Line Action)} (h : m.Move l n) (hm : m.Reachable) : m.Drew l n := by
  have hk := hm.reached.sketched
  have hn := (hm.later (.single h.next)).reached.sketched
  obtain ⟨hplacings, hwirings⟩ := h.sketched
  have hstays {s : Site} (hs : s ∈ m.sketch.placings) :
      n.sketch.home? s = m.sketch.home? s ∧ n.sketch.vertex s = m.sketch.vertex s := by
    obtain ⟨p, hp⟩ := Option.isSome_iff_exists.1 ((hk.placed s).1 hs)
    obtain ⟨hp', hv⟩ := (h.strokes hm).stays hp
    exact ⟨by rw [Sketch.home?, Sketch.home?, hp, hp'], hv⟩
  have figures (c : Key) : n.sketch.figures c = m.sketch.figures c ++
      (l.bind fun l ↦ m.placement l.action).toList.filterMap fun p ↦ if p.1 = c then some p.2 else none := by
    have hold : (m.sketch.placings.filter fun s ↦ n.sketch.home? s = some c).map (fun s ↦ (s, n.sketch.vertex s)) =
        m.sketch.figures c := by
      rw [Sketch.figures, Sketch.sites, List.filter_congr fun s hs ↦ by rw [(hstays hs).1]]
      refine List.map_congr_left fun s hs ↦ ?_
      rw [(hstays (List.mem_of_mem_filter hs)).2]
    rw [Sketch.figures, Sketch.sites, hplacings, List.filter_append, List.map_append, hold]
    congr 1
    cases hp : l.bind fun l ↦ m.placement l.action with
    | none => rfl
    | some p =>
      obtain ⟨d, s, v⟩ := p
      obtain ⟨hh, hv⟩ := h.shows hm hp
      by_cases hd : d = c <;> simp [hh, hv, hd]
  have wires (c : Key) : n.sketch.wires c = m.sketch.wires c ++
      (m.wiring l).filter fun e ↦ n.sketch.home? e.1 = some c ∧ n.sketch.home? e.2 = some c := by
    rw [Sketch.wires, hwirings, List.filter_append]
    congr 1
    refine List.filter_congr fun e he ↦ ?_
    obtain ⟨h₁, h₂⟩ := hk.wired e he
    rw [(hstays ((hk.placed _).2 h₁)).1, (hstays ((hk.placed _).2 h₂)).1]
  refine ⟨figures, wires, fun hnone c d hd ↦ ?_, fun i id name keys context xs hi hx ha ↦ ?_,
    fun i id name keys context xs hi hx ha ↦ ?_, fun c hc k hs ↦ ?_⟩
  · have hp : (l.bind fun l ↦ m.placement l.action) = none := by
      cases l with
      | none => rfl
      | some l =>
        have hpl := m.deeds_places l.action
        rw [show m.deeds l.action = [] from hnone] at hpl
        cases hp : m.placement l.action with
        | none => exact hp
        | some p => simp [hp] at hpl
    have hf : n.sketch.figures c = m.sketch.figures c := by simp [figures, hp]
    have hw : n.sketch.wires c = m.sketch.wires c := by simp [wires, wiring, hnone]
    obtain ⟨g, hg⟩ := Option.isSome_iff_exists.1 ((h.strokes hm).diagram_isSome (Option.isSome_of_eq_some hd))
    exact hg.trans (congrArg some ((hn.drawn c g hg).trans ((Sketch.drawing_congr hf hw).trans (hk.drawn c d hd).symm)))
  · subst hi
    obtain ⟨f, g, ts, hact | ⟨e, hact⟩⟩ := h.acts
    · rw [ha] at hact
      have hsk := sketch_collect (m := { m with stack := ts }) hm.reached.sound hact
      refine (congrFun (congrArg Sketch.diagram? hsk) _).trans ?_
      simp
    · rw [ha] at hact
      rcases bind_error hact with he | ⟨ys, -, he⟩
      · exact absurd (hx.symm.trans he) (by simp)
      · cases he
  · subst hi
    obtain ⟨f, g, ts, hact | ⟨e, hact⟩⟩ := h.acts
    · rw [ha] at hact
      have hsk := sketch_start (m := { m with stack := ts }) hm.reached.sound hact
      refine (congrFun (congrArg Sketch.diagram? hsk) _).trans ?_
      simp [Diagram.addVertex]
    · rw [ha] at hact
      rcases bind_error hact with he | ⟨ys, -, he⟩
      · exact absurd (hx.symm.trans he) (by simp)
      · cases he
  · rw [← Sketch.fst_figures, figures, List.map_append, Sketch.fst_figures] at hs
    refine (List.mem_append.1 hs).resolve_right fun hnew ↦ ?_
    obtain ⟨e, he, hk'⟩ := List.mem_map.1 hnew
    obtain ⟨⟨d, s, v⟩, hp, hd⟩ := List.mem_filterMap.1 he
    obtain ⟨rfl, hde⟩ := Option.ite_none_right_eq_some.1 hd
    obtain rfl := Option.some.inj hde
    obtain rfl : s = .start k := hk'
    obtain ⟨i, -, hi⟩ := Option.bind_eq_some_iff.1 (Option.mem_toList.1 hp)
    obtain ⟨id, rfl⟩ := fresh_of_placement hi
    simp [World.diagram?, hm.reached.sound.collectors.get?_fresh id] at hc

def StartsFirst (m : Machine) : Prop := ∀ c i k, (m.sketch.sites c)[i]? = some (.start k) → i = 0

theorem Move.startsFirst {m n : Machine} {l : Option (Line Action)} (h : m.Move l n) (hm : m.Reachable)
    (hf : m.StartsFirst) : n.StartsFirst := by
  intro c i k hi
  have hd := h.drew hm
  have hsites : n.sketch.sites c = m.sketch.sites c ++ ((l.bind fun l ↦ m.placement l.action).toList.filterMap
      fun p ↦ if p.1 = c then some p.2 else none).map Prod.fst := by
    rw [← Sketch.fst_figures, hd.figures, List.map_append, Sketch.fst_figures]
  cases hc : m.world.diagram? c with
  | none =>
    rw [hsites, hm.reached.sketched.sites_eq_nil hc, List.nil_append] at hi
    cases hp : l.bind fun l ↦ m.placement l.action with
    | none => simp [hp] at hi
    | some p =>
      by_cases hpc : p.1 = c
      · simp only [hp, Option.toList_some, List.filterMap_cons, hpc, if_true, List.filterMap_nil, List.map_cons,
          List.map_nil, List.getElem?_singleton, Option.ite_none_right_eq_some] at hi
        exact hi.1
      · simp [hp, hpc] at hi
  | some d =>
    have hold := hd.starts c (Option.isSome_of_eq_some hc) k (List.mem_of_getElem? hi)
    obtain ⟨j, hj⟩ := List.getElem?_of_mem hold
    obtain rfl := hf c j k hj
    have hj' : (n.sketch.sites c)[0]? = some (.start k) := by
      rw [hsites, List.getElem?_append_left (List.getElem?_eq_some_iff.1 hj).1, hj]
    have hn := (hm.later (.single h.next)).reached.sketched.nodup_sites c
    exact (List.getElem?_inj (List.getElem?_eq_some_iff.1 hi).1 hn).1 (hi.trans hj'.symm)

theorem Reachable.startsFirst {m : Machine} (hm : m.Reachable) : m.StartsFirst := by
  obtain ⟨catalogue, hm⟩ := hm
  induction hm with
  | refl =>
    intro c i k hi
    simp [sketch, Sketch.sites] at hi
  | tail hb hs ih =>
    obtain ⟨l, hl⟩ := hs.move
    exact hl.startsFirst ⟨catalogue, hb⟩ ih

/-- Every diagram is the wiring of its collector, and so it is shown: the sites in the order in which they came,
a start first, and the accepted dependencies between them in the order in which they were accepted.
Dependencies on what is elsewhere are not drawn, but nothing starts and no terminal calls back before they
are final. -/
theorem Reachable.diagram_shows_wiring {m : Machine} (hm : m.Reachable) :
    (∀ c col, m.world.collectors.get? c = some col →
      col.diagram = m.sketch.drawing c ∧ (m.sketch.sites c).Nodup ∧
      (∀ i k, (m.sketch.sites c)[i]? = some (.start k) → i = 0) ∧
      (∀ name, (col.diagram.dependenciesOf name).Pairwise (fun a b ↦ Text.bytes a ≤ Text.bytes b) ∧
        (col.diagram.dependenciesOf name).Perm (m.sketch.dependencies c name)) ∧
      ∀ f id names, m.desk.collectors.get? id = some c →
        m.ask f (.diagram id names) = .ok (.diagram col.name col.diagram names)) ∧
    (∀ k, 0 < startings k m.journal → ∀ s ∈ accepted (.node k) m.journal, m.world.final? s = some .done) ∧
    (∀ k, 0 < callings k m.journal → ∀ s ∈ accepted (.terminal k) m.journal, (m.world.final? s).isSome) ∧
    ∀ l n, m.Move l n → m.Drew l n := by
  have hk := hm.reached.sketched
  refine ⟨fun c col hc ↦ ?_, fun k hs s ha ↦ ?_, fun k ht s ha ↦ ?_, fun l n h ↦ h.drew hm⟩
  · have hd : col.diagram = m.sketch.drawing c :=
      hk.drawn c _ (by simp [sketch, World.diagram?, hc])
    refine ⟨hd, hk.nodup_sites c, hm.startsFirst c, fun name ↦ ⟨Diagram.pairwise_dependenciesOf _ _, ?_⟩,
      fun f _ names hid ↦ ask_diagram f names hid hc⟩
    rw [hd]
    exact hk.dependenciesOf_perm c name
  · rcases hm.reached.started hs with ⟨he, -⟩ | ⟨-, hd⟩
    · exact absurd (he ▸ ha) List.not_mem_nil
    · exact hd s ha
  · obtain ⟨c, hc⟩ := hm.reached.called_shut ht
    obtain ⟨d, hd, -⟩ := hm.reached.resolved rfl hc ha
    exact Option.isSome_of_eq_some hd

end Machine

namespace Sample

/-- A node of one collector between two nodes of another one, the last of which also waits for itself. -/
def crossing : Script := [
  ⟨"start", false, .start "g" "g" ["work"] .null⟩,
  ⟨"collector", false, .collect "h" "h" ["work"] .null⟩,
  ⟨"perform", false, .perform "a" "work" "g" ["g"] none (.script [] true .null)⟩,
  ⟨"perform", false, .perform "b" "work" "h" ["a", "g"] none (.script [] true .null)⟩,
  ⟨"perform", false, .perform "c" "work" "g" ["a", "b", "a"] none (.script [] true .null)⟩,
  ⟨"after", false, .after "c" "c"⟩,
  ⟨"finish", false, .finish "t" "g" ["c", "b"] []⟩]

def crossed : Machine := Machine.play { catalogue := [("work", activity)] } crossing

theorem crossed_reachable : crossed.Reachable := ⟨_, .play rfl _⟩

end Sample

/-- Only what leads from a collector to itself is drawn in it, as often as it was accepted. -/
theorem Sample.crossing_drawn :
    (∃ col, crossed.world.collectors.get? ⟨"g", 0⟩ = some col ∧
      col.diagram = ⟨[⟨"start", .start⟩, ⟨"work", .activity⟩, ⟨"work", .activity⟩, ⟨"joined", .joined⟩],
        [(0, 1), (1, 2), (1, 2), (2, 2), (2, 3)]⟩ ∧
      (col.diagram.dependenciesOf "work").Perm ["start", "work", "work", "work"]) ∧
    crossed.Drew (some ⟨"after", false, .after "b" "c"⟩)
      (Scenario.start crossed {} ⟨"after", false, .after "b" "c"⟩) := by
  obtain ⟨hdrawn, -, -, hmoves⟩ := crossed_reachable.diagram_shows_wiring
  have hcol : (crossed.world.collectors.get? ⟨"g", 0⟩).isSome := by decide +kernel
  have hdrawing : crossed.sketch.drawing ⟨"g", 0⟩ =
      ⟨[⟨"start", .start⟩, ⟨"work", .activity⟩, ⟨"work", .activity⟩, ⟨"joined", .joined⟩],
        [(0, 1), (1, 2), (1, 2), (2, 2), (2, 3)]⟩ := by decide +kernel
  have hnames : crossed.sketch.dependencies ⟨"g", 0⟩ "work" = ["start", "work", "work", "work"] := by decide +kernel
  obtain ⟨col, hc⟩ := Option.isSome_iff_exists.1 hcol
  obtain ⟨hd, -, -, hdeps, -⟩ := hdrawn _ col hc
  exact ⟨⟨col, hc, hd.trans hdrawing, hnames ▸ (hdeps "work").2⟩, hmoves _ _ (.line (Machine.stack_play rfl _) {} _)⟩

end ActivityGraph
