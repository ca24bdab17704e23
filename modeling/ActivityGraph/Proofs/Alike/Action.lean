import ActivityGraph.Proofs.Alike.Cascade
import ActivityGraph.Proofs.Alike.Query
import ActivityGraph.Proofs.Course.Step

namespace ActivityGraph

structure Setup.Similar (L : Lens) (home : String) (s t : Setup Script) : Prop where
  policy : t.policy = s.policy
  preparators : List.Forall₂ (fun a b ↦ a.1 = b.1 ∧ Script.Alike L home a.2 b.2) s.preparators t.preparators

theorem Setup.Similar.add {L : Lens} {home : String} {s t : Setup Script} (h : Similar L home s t)
    {x : Step Script} (hx : x.plain) : Similar L home (s.add x) (t.add x) := by
  cases x with
  | prepare place code => simp [Step.plain] at hx
  | _ => exact ⟨by simp only [Setup.add, h.policy], h.preparators⟩

theorem Setup.similar_foldl {L : Lens} {home : String} {ss ts : List (Step Script)} (h : Steps.Alike L home ss ts)
    {s t : Setup Script} (hst : Similar L home s t) : Similar L home (ss.foldl Setup.add s) (ts.foldl Setup.add t) := by
  induction ss generalizing ts s t with
  | nil =>
    cases h
    exact hst
  | cons x ss ih =>
    cases h with
    | same hx h => exact ih h (hst.add hx)
    | prepare hx h =>
      refine ih h ⟨hst.policy, ?_⟩
      exact List.rel_append hst.preparators (.cons ⟨rfl, hx⟩ .nil)

theorem Setup.similar_ofSteps {L : Lens} {home : String} {ss ts : List (Step Script)} (h : Steps.Alike L home ss ts) :
    Similar L home (.ofSteps ss) (.ofSteps ts) := similar_foldl h ⟨rfl, .nil⟩

theorem Setup.similar_getD {L : Lens} {home : String} {u v : Option (List (Step Script))}
    (h : Setup.Alike L home u v) : Similar L home (.ofSteps (u.getD [])) (.ofSteps (v.getD [])) := by
  cases h with
  | none => exact ⟨rfl, .nil⟩
  | some h => exact similar_ofSteps h

theorem Setup.Similar.describe {L : Lens} {home : String} {s t : Setup Script} (h : Similar L home s t)
    (x : Activity) : t.describe x = s.describe x := by
  rw [Setup.describe, Setup.describe, h.policy, h.preparators.length_eq]

/-- What an action is about to write down as its deeds, latest first, if it finds all that it looks for. -/
def Machine.deeds? (m : Machine) : Action → Except String (List Event)
  | .insert id key r => do
    let (k, col) ← m.collectorAt id
    let x ← m.activity key
    return if col.declares x then [.wrote none k x (r.record x)] else []
  | .set id key r => do
    let (v, col) ← m.viewAt id
    let x ← m.activity key
    return if v.contains x ∧ col.declares x then [.wrote none v.collector x (r.record x)] else []
  | .start id _ keys _ => do
    let _ ← m.activities keys
    return [.placed (.start (m.world.starts.fresh id))]
  | .perform id key coll deps _ _ => do
    let x ← m.activity key
    let (_, col) ← m.collectorAt coll
    let ss ← m.sources deps
    let k := m.world.nodes.fresh id
    return if col.declares x then (ss.map (.wired (.node k))).reverse ++ [.placed (.node k)] else []
  | .finish id coll deps _ => do
    let _ ← m.collectorAt coll
    let ss ← m.sources deps
    let k := m.world.terminals.fresh id
    return (ss.map (.wired (.terminal k))).reverse ++ [.placed (.terminal k)]
  | .after id dep => do
    let k ← find m.desk.nodes id
    let s ← m.source dep
    return if m.world.takes (.node k) then [.wired (.node k) s] else []
  | .done id next => do
    let k ← find m.desk.nodes id
    let l ← find m.desk.nodes next
    return if m.world.takes (.node l) then [.wired (.node l) (.node k)] else []
  | _ => return []

def Machine.deeds (m : Machine) (a : Action) : List Event :=
  match m.deeds? a with
  | .ok es => es
  | .error _ => []

namespace Machine

theorem deeds_ok {m : Machine} {a : Action} {es : List Event} (h : m.deeds? a = .ok es) : m.deeds a = es := by
  rw [deeds, h]

theorem bind_error {α β : Type} {x : Except String α} {f : α → Except String β} {id : String}
    (h : (x >>= f) = .error id) : x = .error id ∨ ∃ a, x = .ok a ∧ f a = .error id := by
  cases x with
  | error e => exact .inl (congrArg _ (Except.error.inj h))
  | ok a => exact .inr ⟨a, rfl, h⟩

theorem deeds_error {m : Machine} {a : Action} {id : String} (h : m.deeds? a = .error id) : m.deeds a = [] := by
  rw [deeds, h]

theorem deeds_missing {m : Machine} {f : Frame} {c : Caller} {a : Action} {id : String}
    (h : m.act f c a = .error id) : m.deeds a = [] := by
  cases a with
  | insert i key r =>
    rcases bind_error h with hk | ⟨k, hk, h⟩
    · exact deeds_error (by simp only [deeds?, hk]; rfl)
    rcases bind_error h with hx | ⟨x, -, h⟩
    · exact deeds_error (by simp only [deeds?, hk, hx]; rfl)
    · split at h <;> cases h
  | set i key r =>
    rcases bind_error h with hk | ⟨k, hk, h⟩
    · exact deeds_error (by simp only [deeds?, hk]; rfl)
    rcases bind_error h with hx | ⟨x, -, h⟩
    · exact deeds_error (by simp only [deeds?, hk, hx]; rfl)
    · split at h
      · split at h <;> cases h
      · cases h
  | start i name keys context =>
    rcases bind_error h with hk | ⟨k, -, h⟩
    · exact deeds_error (by simp only [deeds?, hk]; rfl)
    · cases h
  | perform i key coll deps setup work =>
    rcases bind_error h with hx | ⟨x, hx, h⟩
    · exact deeds_error (by simp only [deeds?, hx]; rfl)
    rcases bind_error h with hk | ⟨k, -, h⟩
    · exact deeds_error (by simp only [deeds?, hx, hk]; rfl)
    · dsimp only at h
      split at h
      · cases h
      · split at h <;> cases h
  | finish i coll deps body =>
    rcases bind_error h with hk | ⟨k, hk, h⟩
    · exact deeds_error (by simp only [deeds?, hk]; rfl)
    rcases bind_error h with hs | ⟨ss, -, h⟩
    · exact deeds_error (by simp only [deeds?, hk, hs]; rfl)
    · cases h
  | after i dep =>
    rcases bind_error h with hk | ⟨k, hk, h⟩
    · exact deeds_error (by simp only [deeds?, hk]; rfl)
    rcases bind_error h with hs | ⟨s, -, h⟩
    · exact deeds_error (by simp only [deeds?, hk, hs]; rfl)
    · cases h
  | done i next =>
    rcases bind_error h with hk | ⟨k, hk, h⟩
    · exact deeds_error (by simp only [deeds?, hk]; rfl)
    rcases bind_error h with hl | ⟨l, -, h⟩
    · exact deeds_error (by simp only [deeds?, hk, hl]; rfl)
    · cases h
  | _ => rfl

namespace Alike

variable {L : Lens} {q p m n : Machine} {old late : Bool} {d : List Event}

theorem addCollector (h : Alike L q p old d m n) {k : Key} (hk : L.owns k) (name : String) (xs : List Activity)
    (context : Json) : Alike L q p old d (m.addCollector k name xs context) (n.addCollector k name xs context) :=
  (h.mapWorld (h.world.addCollector k _) (World.rest_addCollector hk _)).log _

theorem addStart (h : Alike L q p old d m n) {k c : Key} (hk : L.owns k) (hc : L.owns c) :
    Alike L q p old (.placed (.start k) :: d) (m.addStart k c) (n.addStart k c) := by
  unfold Machine.addStart
  rw [h.world.nextVertex hc]
  refine (h.mapWorld ((h.world.addVertex c _).addStart k ⟨rfl, hc, by simp⟩) ?_).note_deed rfl
  exact (World.rest_addStart hk _).trans (World.rest_modifyCollector hc _)

theorem placeNode (h : Alike L q p old d m n) {k c : Key} (hk : L.owns k) (hc : L.owns c) (x : Vertex) {a b : Node}
    (hab : Node.Alike L k.handle a b) (count : Nat) :
    Alike L q p old (.placed (.node k) :: d)
      ((m.mapWorld fun w ↦ (w.addVertex c x).addNode k a count).note (.placed (.node k)))
      ((n.mapWorld fun w ↦ (w.addVertex c x).addNode k b count).note (.placed (.node k))) :=
  (h.mapWorld ((h.world.addVertex c x).addNode k hab count)
    ((World.rest_addNode hk _ _).trans (World.rest_modifyCollector hc _))).note_deed rfl

theorem placeTerminal (h : Alike L q p old d m n) {k c : Key} (hk : L.owns k) (hc : L.owns c) (x : Vertex)
    {t u : Terminal} (htu : Terminal.Alike L k.handle t u) (count : Nat) :
    Alike L q p old (.placed (.terminal k) :: d)
      ((m.mapWorld fun w ↦ (w.addVertex c x).addTerminal k t count).note (.placed (.terminal k)))
      ((n.mapWorld fun w ↦ (w.addVertex c x).addTerminal k u count).note (.placed (.terminal k))) :=
  (h.mapWorld ((h.world.addVertex c x).addTerminal k htu count)
    ((World.rest_addTerminal hk _ _).trans (World.rest_modifyCollector hc _))).note_deed rfl

theorem addNode (h : Alike L q p old d m n) {id : String} {c : Key} {deps : List Source} {s t : Setup Script}
    {w x : Work Script} (hid : L.own id) (hc : L.owns c) (hdeps : ∀ s ∈ deps, L.owns s.key)
    (hst : Setup.Similar L id s t) (hw : Work.Alike L id w x) (a : Activity) :
    Alike L q p old ((deps.map (.wired (.node (m.world.nodes.fresh id)))).reverse ++
        .placed (.node (m.world.nodes.fresh id)) :: d)
      (m.addNode id a c deps s w) (n.addNode id a c deps t x) := by
  unfold Machine.addNode
  rw [h.world.nodes.fresh hid, h.world.nextVertex hc]
  have hk : L.owns (m.world.nodes.fresh id) := hid
  have hn := h.placeNode hk hc ⟨a.label, .activity⟩
    (a := { activity := a, collector := c, vertex := m.world.nextVertex c, policy := s.policy,
            job := some ⟨s.preparators, w⟩ })
    (b := { activity := a, collector := c, vertex := m.world.nextVertex c, policy := t.policy,
            job := some ⟨t.preparators, x⟩ })
    ⟨by rw [hst.policy], .some ⟨hst.preparators, hw⟩, hc, by simp⟩ deps.length
  have hw := hn.wireAll (x := .node (m.world.nodes.fresh id)) hk hdeps
  exact (hw.push (.keep hid (h := .node (m.world.nodes.fresh id)) hk)).push (.attach hk hdeps)

theorem addTerminal (h : Alike L q p old d m n) {id : String} {c : Key} {deps : List Source} {s t : Script}
    (hid : L.own id) (hv : L.own ("@" ++ id)) (hc : L.owns c) (hdeps : ∀ s ∈ deps, L.owns s.key)
    (hst : Script.Alike L id s t) :
    Alike L q p old ((deps.map (.wired (.terminal (m.world.terminals.fresh id)))).reverse ++
        .placed (.terminal (m.world.terminals.fresh id)) :: d)
      (m.addTerminal id c deps s) (n.addTerminal id c deps t) := by
  unfold Machine.addTerminal
  rw [h.world.terminals.fresh hid, h.world.nextVertex hc]
  have hk : L.owns (m.world.terminals.fresh id) := hid
  have hn := h.placeTerminal hk hc ⟨"joined", .joined⟩
    (t := { collector := c, vertex := m.world.nextVertex c, callback := some s })
    (u := { collector := c, vertex := m.world.nextVertex c, callback := some t })
    ⟨rfl, .some hst, hc, hv⟩ deps.length
  have hw := hn.wireAll (x := .terminal (m.world.terminals.fresh id)) hk hdeps
  have hp := hw.push (.keep hid (h := .terminal (m.world.terminals.fresh id)) hk)
  dsimp only
  split
  · exact hp.release hk
  · exact hp.push (.attach hk hdeps)

theorem addProbe (h : Alike L q p old d m n) {id name : String} {count : Nat} {s t u v : Script} (hid : L.own id)
    (hst : Script.Alike L id s t) (huv : Script.Alike L id u v) :
    Alike L q p old d (m.addProbe id name count s u) (n.addProbe id name count t v) := by
  unfold Machine.addProbe
  rw [h.world.probes.fresh hid]
  have hk : L.owns (m.world.probes.fresh id) := hid
  exact (h.mapWorld (h.world.addProbe (m.world.probes.fresh id)
    (p := { name := name, scripts := some (s, u) }) (q := { name := name, scripts := some (t, v) })
    ⟨rfl, .some ⟨hst, huv⟩⟩ count) (World.rest_addProbe hk _ _)).keep hid hk

theorem describeSetup (h : Alike L q p old d m n) {home : String} {u v : Option (List (Step Script))}
    (huv : Setup.Alike L home u v) (x : Activity) : Alike L q p old d (m.describeSetup x u) (n.describeSetup x v) := by
  cases huv with
  | none => exact h
  | some hs =>
    unfold Machine.describeSetup
    dsimp only
    rw [(Setup.similar_ofSteps hs).describe]
    exact h.note rfl

theorem agree_clone (h : Alike L q p old d m n) {id copy : String} (hid : L.own id) (hcopy : L.own copy) :
    Agree (Alike L q p old d) (m.clone id copy) (n.clone id copy) := by
  unfold Machine.clone
  cases hn : m.desk.nodes.get? id with
  | some k =>
    obtain ⟨l, hl, rfl, hk⟩ := h.desk.nodes.get?_some hid hn
    rw [hl]
    exact .found (h.keep hcopy hk)
  | none =>
  rw [h.desk.nodes.get?_none hid hn]
  cases hs : m.desk.starts.get? id with
  | some k =>
    obtain ⟨l, hl, rfl, hk⟩ := h.desk.starts.get?_some hid hs
    rw [hl]
    refine (agree_fetch h.world.starts hk).bind fun s t _ hst ↦ ?_
    obtain rfl := hst.same
    exact .found ((h.keep hcopy (x := .start l) hk).keep hcopy hst.collector)
  | none =>
  rw [h.desk.starts.get?_none hid hs]
  cases hc : m.desk.collectors.get? id with
  | some k =>
    obtain ⟨l, hl, rfl, hk⟩ := h.desk.collectors.get?_some hid hc
    rw [hl]
    exact .found (h.keep hcopy hk)
  | none =>
  rw [h.desk.collectors.get?_none hid hc]
  cases hv : m.desk.views.get? id with
  | some v =>
    obtain ⟨l, hl, rfl, hk⟩ := h.desk.views.get?_some hid hv
    rw [hl]
    exact .found (h.keep hcopy hk)
  | none =>
  rw [h.desk.views.get?_none hid hv]
  cases ht : m.desk.terminals.get? id with
  | some k =>
    obtain ⟨l, hl, rfl, hk⟩ := h.desk.terminals.get?_some hid ht
    rw [hl]
    exact .found (h.keep hcopy hk)
  | none =>
  rw [h.desk.terminals.get?_none hid ht]
  exact .missing id

theorem reply (h : Alike L q p old d m n) (c : Caller) (a : Answer) :
    Alike L q p late d (m.push (.answer c (.now a))) (n.push (.answer c (.now a))) :=
  h.owe (.answer fun _ ↦ ⟨rfl, trivial⟩) rfl

theorem watch (h : Alike L q p old d m n) (c : Caller) {k : Key} (hk : L.owns k) :
    Alike L q p late d (m.push (.answer c (.barrier k))) (n.push (.answer c (.barrier k))) :=
  h.owe (.answer fun _ ↦ ⟨rfl, hk⟩) rfl

theorem agree_insert (h : Alike L q p old d m n) {id : String} (hid : L.own id) (f : Frame) (c : Caller) (key : String)
    (r : Draft) : Agree (Alike L q p late (m.deeds (.insert id key r) ++ d)) (m.act f c (.insert id key r))
      (n.act f c (.insert id key r)) := by
  refine (h.agree_collectorAt hid).bind ?_
  rintro ⟨k, col⟩ ⟨l, col'⟩ hk ⟨rfl, hown, -⟩
  refine (h.agree_activity key).bind ?_
  rintro x y hx rfl
  have hd : m.deeds (.insert id key r) = if col.declares y then [.wrote none l y (r.record y)] else [] := by
    apply deeds_ok
    simp only [deeds?, hk, hx]
    rfl
  have hcol : m.world.collectors.get? l = some col := get?_of_collectorAt hk
  rcases h.store hown none y (r.record y) with ⟨m', n', hm, hn, h', hdec⟩ | ⟨e, hm, hn, hdec⟩
  · rw [hd, if_pos (hdec col hcol)]
    simp only [hm, hn]
    exact .found (h'.reply c .ok)
  · rw [hd, if_neg (by simp [hdec col hcol])]
    simp only [hm, hn]
    exact .found (h.reply c (.refused e))

theorem agree_set (h : Alike L q p old d m n) {id : String} (hid : L.own id) (f : Frame) (c : Caller) (key : String)
    (r : Draft) : Agree (Alike L q p late (m.deeds (.set id key r) ++ d)) (m.act f c (.set id key r))
      (n.act f c (.set id key r)) := by
  refine (h.agree_viewAt hid).bind ?_
  rintro ⟨v, col⟩ ⟨u, col'⟩ hv ⟨rfl, hown, (hc : Collector.Alike L col col')⟩
  refine (h.agree_activity key).bind ?_
  rintro x y hx rfl
  have hd : m.deeds (.set id key r) =
      if u.contains y ∧ col.declares y then [.wrote none u.collector y (r.record y)] else [] := by
    apply deeds_ok
    simp only [deeds?, hv, hx]
    rfl
  obtain ⟨-, hcol⟩ := get?_of_viewAt hv
  rw [hd]
  by_cases hu : u.contains y
  · simp only [hu, if_true, true_and]
    rcases h.store hown none y (r.record y) with ⟨m', n', hm, hn, h', hdec⟩ | ⟨e, hm, hn, hdec⟩
    · simp only [hm, hn, hdec col hcol, if_true]
      exact .found (h'.reply c .ok)
    · simp only [hm, hn, hdec col hcol, Bool.false_eq_true, if_false]
      exact .found (h.reply c (.refused e))
  · simp only [hu, Bool.false_eq_true, if_false, false_and, hc.name]
    exact .found (h.reply c _)

theorem agree_plain (h : Alike L q p old d m n) (f : Frame) (c : Caller) {a : Action} (ha : a.plain)
    (hown : ∀ id ∈ a.names f.home, L.own id) (hs : L.blind → a.loads = false) :
    Agree (Alike L q p late (m.deeds a ++ d)) (m.act f c a) (n.act f c a) := by
  cases a with
  | collect id name keys context =>
    have hid : L.own id := hown id (by simp [Action.names])
    refine (h.agree_activities keys).bind ?_
    rintro xs ys - rfl
    rw [h.world.collectors.fresh hid]
    have hk : L.owns (m.world.collectors.fresh id) := hid
    have hm := (h.addCollector hk name ys context).keep hid (x := .collector (m.world.collectors.fresh id)) hk
    exact .found (hm.owe (.answer fun hb ↦ ⟨by rw [hm.world.describeCollector hb hk], trivial⟩) rfl)
  | start id name keys context =>
    have hid : L.own id := hown id (by simp [Action.names])
    refine (h.agree_activities keys).bind ?_
    rintro xs ys hxs rfl
    have hd : m.deeds (.start id name keys context) = [.placed (.start (m.world.starts.fresh id))] := by
      apply deeds_ok
      simp only [deeds?, hxs]
      rfl
    rw [hd, h.world.collectors.fresh hid, h.world.starts.fresh hid]
    have hk : L.owns (m.world.collectors.fresh id) := hid
    have hl : L.owns (m.world.starts.fresh id) := hid
    have hm := ((h.addCollector hk name ys context).addStart hl hk).keep hid
      (x := .collector (m.world.collectors.fresh id)) hk
    have hn := hm.keep hid (x := .start (m.world.starts.fresh id)) hl
    exact .found (hn.owe (.answer fun hb ↦ ⟨by rw [hm.world.describeCollector hb hk], trivial⟩) rfl)
  | run id =>
    refine (agree_find h.desk.starts (hown id (by simp [Action.names]))).bind ?_
    rintro k l - ⟨rfl, hk⟩
    exact .found ((h.reply c .nothing).fire hk)
  | ask x =>
    refine (h.agree_ask f hown).bind fun a b _ hab ↦ ?_
    exact .found (h.owe (.answer fun hb ↦ ⟨by rw [hab hb], trivial⟩) rfl)
  | grant id g =>
    have hid : L.own id := hown id (by simp [Action.names])
    refine (h.agree_grant f fun i hi ↦ hown i (List.mem_cons_of_mem id hi)).bind ?_
    rintro v u - ⟨rfl, hv⟩
    cases u with
    | error e => exact .found (h.reply c (.refused e))
    | ok u =>
      dsimp only
      rw [h.world.describeView (hv u rfl)]
      exact .found ((h.keep hid (x := .view u) (hv u rfl)).reply c _)
  | insert id key r => exact h.agree_insert (hown id (by simp [Action.names])) f c key r
  | set id key r => exact h.agree_set (hown id (by simp [Action.names])) f c key r
  | begin id =>
    refine (agree_find h.desk.nodes (hown id (by simp [Action.names]))).bind ?_
    rintro k l - ⟨rfl, hk⟩
    exact .found ((h.reply c .nothing).release hk)
  | after id dep =>
    refine (agree_find h.desk.nodes (hown id (by simp [Action.names]))).bind ?_
    rintro k l hk ⟨rfl, hown₁⟩
    refine (h.agree_source (hown dep (by simp [Action.names]))).bind ?_
    rintro s r hs ⟨rfl, hown₂⟩
    have hd : m.deeds (.after id dep) = if m.world.takes (.node l) then [.wired (.node l) r] else [] := by
      apply deeds_ok
      simp only [deeds?, hk, hs]
      rfl
    rw [hd]
    exact .found ((h.reply c .nothing).depend (x := .node l) hown₁ hown₂)
  | done id next =>
    refine (agree_find h.desk.nodes (hown id (by simp [Action.names]))).bind ?_
    rintro k i hk ⟨rfl, hown₁⟩
    refine (agree_find h.desk.nodes (hown next (by simp [Action.names]))).bind ?_
    rintro l j hl ⟨rfl, hown₂⟩
    have hd : m.deeds (.done id next) = if m.world.takes (.node j) then [.wired (.node j) (.node i)] else [] := by
      apply deeds_ok
      simp only [deeds?, hk, hl]
      rfl
    rw [hd]
    exact .found ((h.reply c .nothing).depend (x := .node j) (s := .node i) hown₂ hown₁)
  | report node r =>
    refine (h.agree_completionAt (hown _ (by simp [Action.names]))).bind ?_
    rintro ⟨k, a⟩ ⟨l, b⟩ - ⟨rfl, hk, (hab : Node.Alike L _ a b)⟩
    dsimp only
    rw [hab.activity]
    exact .found (((h.takeCompletion (hown _ (by simp [Action.names]))).reply c .nothing).complete hk _)
  | drop node =>
    have hid : L.own (node.getD f.home) := hown _ (by simp [Action.names])
    exact (h.agree_completionAt hid).bind fun _ _ _ _ ↦ .found ((h.dropCompletion hid).reply c .nothing)
  | change how o =>
    refine (Agree.of_eq (h.operand (o := o) hown hs)).bind fun _ _ _ _ ↦ ?_
    exact .found (h.reply c .nothing)
  | panic message => exact .found (h.raise _)
  | arrive id canceled =>
    refine (agree_find h.desk.probes (hown id (by simp [Action.names]))).bind ?_
    rintro k l - ⟨rfl, hk⟩
    exact .found ((h.watch c hk).arrive (x := .probe l) hk canceled)
  | expect id =>
    refine (agree_find h.desk.probes (hown id (by simp [Action.names]))).bind ?_
    rintro k l - ⟨rfl, hk⟩
    exact .found ((h.watch c hk).expect (x := .probe l) hk)
  | release id =>
    refine (agree_find h.desk.probes (hown id (by simp [Action.names]))).bind ?_
    rintro k l - ⟨rfl, hk⟩
    exact .found ((h.watch c hk).release (x := .probe l) hk)
  | listen id dep =>
    refine (h.agree_source (hown dep (by simp [Action.names]))).bind ?_
    rintro s r - ⟨rfl, hs⟩
    refine (agree_find h.desk.probes (hown id (by simp [Action.names]))).bind ?_
    rintro k l - ⟨rfl, hk⟩
    exact .found ((h.reply c .nothing).listen hs hk)
  | clone id copy =>
    refine (h.agree_clone (hown id (by simp [Action.names])) (hown copy (by simp [Action.names]))).bind ?_
    exact fun m' n' _ h' ↦ .found (h'.reply c .nothing)
  | advance span runtime =>
    refine .found ((h.reply c .nothing).push (.elapse fun ht ↦ ⟨?_, rfl⟩))
    rw [h.clock ht]
  | unsupported => exact .found (h.reply c _)
  | perform | finish | probe => simp [Action.plain] at ha

theorem agree_perform (h : Alike L q p old d m n) (f : Frame) (c : Caller) {id key collector : String}
    {deps : List String} {u v : Option (List (Step Script))} {w x : Work Script}
    (hown : ∀ i ∈ id :: collector :: deps, L.own i) (huv : Setup.Alike L id u v) (hwx : Work.Alike L id w x) :
    Agree (Alike L q p late (m.deeds (.perform id key collector deps u w) ++ d))
      (m.act f c (.perform id key collector deps u w)) (n.act f c (.perform id key collector deps v x)) := by
  refine (h.agree_activity key).bind ?_
  rintro a b ha rfl
  refine (h.agree_collectorAt (hown collector (by simp))).bind ?_
  rintro ⟨k, col⟩ ⟨l, col'⟩ hk ⟨rfl, hl, (hc : Collector.Alike L col col')⟩
  have hm := h.describeSetup huv b
  have hdeps : ∀ i ∈ deps, L.own i := fun i hi ↦ hown i (by simp [hi])
  have hss := hm.agree_sources hdeps
  have he : (m.describeSetup b u).sources deps = m.sources deps := by cases u <;> rfl
  have hw : (m.describeSetup b u).world = m.world := by cases u <;> rfl
  dsimp only
  rw [he] at hss ⊢
  generalize hx : m.sources deps = ss, (n.describeSetup b v).sources deps = rs at hss
  cases hss with
  | missing i =>
    have hd : m.deeds (.perform id key collector deps u w) = [] := by
      have he : m.deeds? (.perform id key collector deps u w) = .error i := by
        simp only [deeds?, ha, hk, hx]
        rfl
      exact deeds_error he
    rw [hd]
    exact .found (hm.reply c _)
  | @found ss rs hs =>
    obtain ⟨rfl, hs⟩ := hs
    have hd : m.deeds (.perform id key collector deps u w) = if col.declares b then
        (rs.map (.wired (.node (m.world.nodes.fresh id)))).reverse ++ [.placed (.node (m.world.nodes.fresh id))]
        else [] := by
      apply deeds_ok
      simp only [deeds?, ha, hk, hx]
      rfl
    rw [hd]
    simp only [hc.declares, hc.undeclared]
    split
    · have hr : Alike L q p late d _ _ := hm.reply c (.text b.label)
      have hn := hr.addNode (hown id (by simp)) hl hs (Setup.similar_getD huv) hwx b
      rw [List.append_assoc]
      rw [← hw]
      exact .found hn
    · exact .found (hm.raise _)

theorem agree_finish (h : Alike L q p old d m n) (f : Frame) (c : Caller) {id collector : String} {deps : List String}
    {s t : Script} (hown : ∀ i ∈ id :: ("@" ++ id) :: collector :: deps, L.own i) (hst : Script.Alike L id s t) :
    Agree (Alike L q p late (m.deeds (.finish id collector deps s) ++ d)) (m.act f c (.finish id collector deps s))
      (n.act f c (.finish id collector deps t)) := by
  refine (h.agree_collectorAt (hown collector (by simp))).bind ?_
  rintro ⟨k, col⟩ ⟨l, col'⟩ hk ⟨rfl, hl, -⟩
  refine (h.agree_sources fun i hi ↦ hown i (by simp [hi])).bind ?_
  rintro ss rs hss ⟨rfl, hs⟩
  have hd : m.deeds (.finish id collector deps s) =
      (rs.map (.wired (.terminal (m.world.terminals.fresh id)))).reverse ++
        [.placed (.terminal (m.world.terminals.fresh id))] := by
    apply deeds_ok
    simp only [deeds?, hk, hss]
    rfl
  have hid : L.own id := hown id (by simp)
  rw [hd, List.append_assoc, h.world.terminals.fresh hid]
  have hm : Alike L q p late d (m.push (.answer c (.fired (m.world.terminals.fresh id))))
      (n.push (.answer c (.fired (m.world.terminals.fresh id)))) := h.owe (.answer fun _ ↦ ⟨rfl, hid⟩) rfl
  exact .found (hm.addTerminal hid (hown _ (by simp)) hl hs hst)

/-- Actions that are alike do alike, and the first one does just the deeds that could be told before. -/
theorem agree_act (h : Alike L q p old d m n) (f : Frame) (c : Caller) {a b : Action}
    (hab : Action.Alike L f.home a b) :
    Agree (Alike L q p late (m.deeds a ++ d)) (m.act f c a) (n.act f c b) := by
  cases hab with
  | plain ha own sees => exact h.agree_plain f c ha own sees
  | perform own hu hw => exact h.agree_perform f c own hu hw
  | finish own hs => exact h.agree_finish f c own hs
  | probe own hs hu =>
    refine .found ((h.addProbe own hs hu).owe (.answer fun _ ↦ ⟨?_, own⟩) rfl)
    rw [h.world.probes.fresh own]

theorem execute (h : Alike L q p old d m n) (late : Bool) (f : Frame) (verb : String) (caught : Bool)
    {a b : Action} (hab : Action.Alike L f.home a b) :
    Alike L q p late (m.deeds a ++ d) (m.execute f ⟨verb, caught, a⟩) (n.execute f ⟨verb, caught, b⟩) := by
  have hg : Alike L q p old d (if caught then m.push (.guard ⟨f.owner, verb⟩) else m)
      (if caught then n.push (.guard ⟨f.owner, verb⟩) else n) := by
    split
    · exact h.push .guard
    · exact h
  have hd : (if caught then m.push (.guard ⟨f.owner, verb⟩) else m).deeds a = m.deeds a := by
    cases caught <;> rfl
  have hact : Agree (Alike L q p late _) _ _ := hg.agree_act f ⟨f.owner, verb⟩ hab
  unfold Machine.execute
  dsimp only
  generalize hx : Machine.act _ f ⟨f.owner, verb⟩ a = x, Machine.act _ f ⟨f.owner, verb⟩ b = y at hact
  rw [← hd]
  cases hact with
  | missing id =>
    rw [deeds_missing hx]
    exact hg.reply _ _
  | found h' => exact h'

end Alike

end Machine

end ActivityGraph
