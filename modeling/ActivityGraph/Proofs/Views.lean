import ActivityGraph.Proofs.Cell
import ActivityGraph.Proofs.Declared

namespace ActivityGraph

open Relation

/-- What comes of a choice of activities that all have to be good: a view of just these, or an error that
names the first that is not. -/
inductive View.Chosen (k : Key) (good : Activity → Prop) (err : Activity → AccessError) (xs : List Activity) :
    Except AccessError View → Prop
  | all (h : ∀ x ∈ xs, good x) : Chosen k good err xs (.ok ⟨k, xs⟩)
  | offends {x : Activity} {front back : List Activity} (hxs : xs = front ++ x :: back)
      (hfront : ∀ y ∈ front, good y) (hx : ¬ good x) : Chosen k good err xs (.error (err x))

namespace View

variable {k : Key} {err : Activity → AccessError} {xs : List Activity} {o : Except AccessError View}

theorem chosen_of_find {p : Activity → Bool} :
    (xs.find? (fun x ↦ !p x) = none → Chosen k (fun x ↦ p x) err xs (.ok ⟨k, xs⟩)) ∧
    ∀ x, xs.find? (fun x ↦ !p x) = some x → Chosen k (fun x ↦ p x) err xs (.error (err x)) := by
  constructor
  · intro h
    refine .all fun x hx ↦ ?_
    simpa using List.find?_eq_none.1 h x hx
  · intro x h
    obtain ⟨hx, front, back, hxs, hfront⟩ := List.find?_eq_some_iff_append.1 h
    refine .offends hxs (fun y hy ↦ ?_) (by simpa using hx)
    simpa using hfront y hy

theorem Chosen.unique {good : Activity → Prop} {o' : Except AccessError View} (h : Chosen k good err xs o)
    (h' : Chosen k good err xs o') : o = o' := by
  cases h with
  | all hall =>
    cases h' with
    | all => rfl
    | offends hxs _ hx => exact absurd (hall _ (by simp [hxs])) hx
  | @offends x front back hxs hfront hx =>
    cases h' with
    | all hall => exact absurd (hall _ (by simp [hxs])) hx
    | @offends y front' back' hys hfront' hy =>
      -- whichever of the two comes earlier is good for the other one
      have hlist : front ++ x :: back = front' ++ y :: back' := hxs.symm.trans hys
      rcases List.append_eq_append_iff.1 hlist with ⟨mid, rfl, he⟩ | ⟨mid, rfl, he⟩
      · cases mid with
        | nil => rw [(List.cons.inj he).1]
        | cons z mid =>
          obtain ⟨rfl, -⟩ := List.cons.inj he
          exact absurd (hfront' x (by simp)) hx
      · cases mid with
        | nil => rw [(List.cons.inj he).1]
        | cons z mid =>
          obtain ⟨rfl, -⟩ := List.cons.inj he
          exact absurd (hfront y (by simp)) hy

theorem within_iff {c : Collector} :
    within k c xs = o ↔ Chosen k (fun x ↦ c.declares x) c.undeclared xs o := by
  have hc : Chosen k (fun x ↦ c.declares x) c.undeclared xs (within k c xs) := by
    unfold within
    split
    · next x hx => exact chosen_of_find.2 x hx
    · next hx => exact chosen_of_find.1 hx
  constructor
  · intro h
    exact h ▸ hc
  · intro h
    exact hc.unique h

theorem narrow_iff {v : View} {c : Collector} :
    v.narrow c xs = o ↔ Chosen v.collector (· ∈ v.activities) (fun x ↦ .outOfView x.name c.name) xs o := by
  have hin : (fun x ↦ (v.contains x : Prop)) = (· ∈ v.activities) :=
    funext fun x ↦ propext List.contains_iff_mem
  have hc : Chosen v.collector (· ∈ v.activities) (fun x ↦ .outOfView x.name c.name) xs (v.narrow c xs) := by
    rw [← hin]
    unfold narrow
    split
    · next x hx => exact chosen_of_find.2 x hx
    · next hx => exact chosen_of_find.1 hx
  constructor
  · intro h
    exact h ▸ hc
  · intro h
    exact hc.unique h

theorem narrow_eq_ok {v u : View} {c : Collector} :
    v.narrow c xs = .ok u ↔ xs ⊆ v.activities ∧ u = ⟨v.collector, xs⟩ := by
  rw [narrow_iff]
  constructor
  · intro h
    cases h with
    | all h => exact ⟨h, rfl⟩
  · rintro ⟨h, rfl⟩
    exact .all h

/-- One view comes of another by narrowing it, whatever the collector holds by then. -/
def Narrows (v u : View) : Prop := ∃ c xs, v.narrow c xs = .ok u

theorem subset_of_narrows {v u : View} (h : ReflTransGen Narrows v u) :
    u.collector = v.collector ∧ u.activities ⊆ v.activities := by
  induction h with
  | refl => exact ⟨rfl, List.Subset.refl _⟩
  | tail _ hn ih =>
    obtain ⟨c, xs, hxs⟩ := hn
    obtain ⟨hsub, rfl⟩ := narrow_eq_ok.1 hxs
    exact ⟨ih.1, List.Subset.trans hsub ih.2⟩

end View

/-- All that can be read of an activity: its record is `o`, and it is said to be written or not. -/
structure Reading.Reads (r : Reading) (x : Activity) (written : Bool) (o : Outcome) : Prop where
  written : r.written = written
  get : r.get = o
  completed : r.completed = o.completed
  canceled : r.canceled = o.canceled
  failed : r.failed = o.failed
  okay : r.okay = o.okay
  success : r.success = o.success?.getD x.noSuccess
  failure : r.failure = o.failure?.getD x.noFailure
  apply : ∀ (α : Type) (f : Resolution Payload Payload → α), r.apply f = f (x.resolution o)

theorem Reading.reads (name : String) (x : Activity) (c : Bool) (o : Option Outcome) :
    (Reading.mk name x c o).Reads x o.isSome (o.getD {}) :=
  ⟨rfl, rfl, rfl, rfl, rfl, rfl, rfl, rfl, fun _ _ ↦ rfl⟩

/-- What holds of a view whenever its collector is looked at. -/
structure View.Law (v : View) (c : Collector) : Prop where
  declared : v.activities ⊆ c.declared
  narrow : ∀ xs o, v.narrow c xs = o ↔ Chosen v.collector (· ∈ v.activities) (fun x ↦ .outOfView x.name c.name) xs o
  direct : ∀ d e xs ys u w, v.narrow d xs = .ok u → u.narrow e ys = .ok w → v.narrow c ys = .ok w
  shown : ∀ x ∈ v.activities, ∃ r, c.extract x = .ok r ∧ (Machine.read v c x).Reads x (c.slot? x).isSome r
  hidden : ∀ x, x ∉ v.activities → (Machine.read v c x).Reads x false {}

namespace View

variable {v : View} {c : Collector} {x : Activity}

theorem read?_of_mem (hx : x ∈ v.activities) : v.read? c x = c.slot? x := if_pos (List.contains_iff_mem.2 hx)

theorem read?_of_not_mem (hx : x ∉ v.activities) : v.read? c x = none :=
  if_neg fun h ↦ hx (List.contains_iff_mem.1 h)

theorem law_of_declared (h : ∀ x ∈ v.activities, c.declares x) : v.Law c where
  declared x hx := Table.isSome_get?_iff.1 (h x hx)
  narrow _ _ := narrow_iff
  direct := by
    intro d e xs ys u w hu hw
    obtain ⟨hxs, rfl⟩ := narrow_eq_ok.1 hu
    obtain ⟨hys, rfl⟩ := narrow_eq_ok.1 hw
    exact narrow_eq_ok.2 ⟨List.Subset.trans hys hxs, rfl⟩
  shown := by
    intro x hx
    refine ⟨_, if_pos (h x hx), ?_⟩
    rw [← read?_of_mem hx]
    exact Reading.reads c.name x _ _
  hidden := by
    intro x hx
    have hr := Reading.reads c.name x (v.contains x) (v.read? c x)
    rw [read?_of_not_mem hx] at hr
    rw [Machine.read, read?_of_not_mem hx]
    exact hr

end View

namespace Machine

/-- A view that a script holds, or that it is granted if it asks for it. -/
def Holds (m : Machine) (v : View) : Prop := (∃ id, m.desk.views.get? id = some v) ∨ ∃ f g, m.grant f g = .ok (.ok v)

theorem Holds.houses {m : Machine} {v : View} (h : m.Holds v) (hm : m.Reachable) : m.world.Houses v := by
  rcases h with ⟨id, hv⟩ | ⟨f, g, hv⟩
  · exact hm.first_housed.2 id v hv
  · exact houses_grant hm.course.2 hv

/-- What comes of asking for a view. -/
inductive Granted (m : Machine) (f : Frame) : Grant → Except AccessError View → Prop
  | whole {id : String} {k : Key} {c : Collector} (hc : m.collectorAt id = .ok (k, c)) :
    Granted m f (.whole id) (.ok ⟨k, c.declared⟩)
  | ofStart {id : String} {k : Key} {s : Start} {c : Collector} (hk : m.desk.starts.get? id = some k)
      (hs : m.world.starts.get? k = some s) (hc : m.world.collectors.get? s.collector = some c) :
    Granted m f (.ofStart id) (.ok ⟨s.collector, c.declared⟩)
  | within {id : String} {keys : List String} {k : Key} {c : Collector} {xs : List Activity}
      {o : Except AccessError View} (hc : m.collectorAt id = .ok (k, c)) (hxs : m.activities keys = .ok xs)
      (ho : View.Chosen k (fun x ↦ c.declares x) (fun x ↦ .undeclared x.name c.name) xs o) :
    Granted m f (.within id keys) o
  | narrow {id : String} {keys : List String} {v : View} {c : Collector} {xs : List Activity}
      {o : Except AccessError View} (hv : m.viewAt id = .ok (v, c)) (hxs : m.activities keys = .ok xs)
      (ho : View.Chosen v.collector (· ∈ v.activities) (fun x ↦ .outOfView x.name c.name) xs o) :
    Granted m f (.narrow id keys) o
  | ofCompletion {node : Option String} {keys : List String} {k : Key} {p : Node} {c : Collector}
      {xs : List Activity} {o : Except AccessError View} (hn : m.completionAt (node.getD f.home) = .ok (k, p))
      (hc : m.world.collectors.get? p.collector = some c) (hxs : m.activities keys = .ok xs)
      (ho : View.Chosen p.collector (fun x ↦ c.declares x) (fun x ↦ .undeclared x.name c.name) xs o) :
    Granted m f (.ofCompletion node keys) o

variable {m n p : Machine}

theorem fetch_of_get? {α : Type} {t : Table Key α} {k : Key} {a : α} (h : t.get? k = some a) :
    fetch t k = .ok a := by
  rw [fetch, h]

theorem find_of_get? {α : Type} {t : Table String α} {id : String} {a : α} (h : t.get? id = some a) :
    find t id = .ok a := by
  rw [find, h]

theorem grant_iff {f : Frame} {g : Grant} {o : Except AccessError View} :
    m.grant f g = .ok o ↔ m.Granted f g o := by
  constructor
  · intro h
    cases g with
    | whole id =>
      obtain ⟨⟨k, c⟩, hc, h⟩ := bind_ok h
      obtain rfl := Except.ok.inj h
      exact .whole hc
    | ofStart id =>
      obtain ⟨k, hk, h⟩ := bind_ok h
      obtain ⟨s, hs, h⟩ := bind_ok h
      obtain ⟨c, hc, h⟩ := bind_ok h
      obtain rfl := Except.ok.inj h
      exact .ofStart (get?_of_find hk) (get?_of_fetch hs) (get?_of_fetch hc)
    | within id keys =>
      obtain ⟨⟨k, c⟩, hc, h⟩ := bind_ok h
      obtain ⟨xs, hxs, h⟩ := bind_ok h
      exact .within hc hxs (View.within_iff.1 (Except.ok.inj h))
    | narrow id keys =>
      obtain ⟨⟨v, c⟩, hv, h⟩ := bind_ok h
      obtain ⟨xs, hxs, h⟩ := bind_ok h
      exact .narrow hv hxs (View.narrow_iff.1 (Except.ok.inj h))
    | ofCompletion node keys =>
      obtain ⟨⟨k, p⟩, hn, h⟩ := bind_ok h
      obtain ⟨c, hc, h⟩ := bind_ok h
      obtain ⟨xs, hxs, h⟩ := bind_ok h
      exact .ofCompletion hn (get?_of_fetch hc) hxs (View.within_iff.1 (Except.ok.inj h))
  · intro h
    cases h with
    | whole hc => simp [grant, hc, bind, Except.bind, pure, Except.pure]
    | ofStart hk hs hc =>
      simp [grant, find_of_get? hk, fetch_of_get? hs, fetch_of_get? hc, bind, Except.bind, pure, Except.pure]
    | within hc hxs ho => simp [grant, hc, hxs, View.within_iff.2 ho, bind, Except.bind, pure, Except.pure]
    | narrow hv hxs ho => simp [grant, hv, hxs, View.narrow_iff.2 ho, bind, Except.bind, pure, Except.pure]
    | ofCompletion hn hc hxs ho =>
      simp [grant, hn, fetch_of_get? hc, hxs, View.within_iff.2 ho, bind, Except.bind, pure, Except.pure]

/-- A script asked for a view under a handle: it has the view, or only learns why not. -/
inductive Gives (n p : Machine) (id : String) : Except AccessError View → Prop
  | view {v : View} (ha : p.Answers (.text (n.world.describeView v))) (hw : p.world = n.world)
      (hd : p.desk = n.desk.keep id (.view v)) : Gives n p id (.ok v)
  | refused {e : AccessError} (ha : p.Answers (.refused e)) (hw : p.world = n.world) (hd : p.desk = n.desk) :
    Gives n p id (.error e)

/-- A record was set through a view: whoever shows the activity reads it until it is written again, and
nothing else has changed. -/
structure Sets (n p : Machine) (c : Key) (x : Activity) (r : Outcome) : Prop where
  answer : p.Answers .ok
  desk : p.desk = n.desk
  other : ∀ d y, ¬ (d = c ∧ y = x) → p.world.slot? d y = n.world.slot? d y
  visible : ∀ u q es, u.collector = c → x ∈ u.activities → Later p q → q.journal = es ++ p.journal →
    (∀ w s, .wrote w c x s ∉ es) → ∃ col, q.world.collectors.get? c = some col ∧ (read u col x).Reads x true r

theorem Takes.grants {f : Frame} {l : Line Action} {id : String} {g : Grant} {o : Except AccessError View}
    (h : n.Takes f l p) (hl : l.action = .grant id g) (ho : n.grant f g = .ok o) : n.Gives p id o := by
  obtain ⟨ts, hp⟩ := h.acts
  rw [hl] at hp
  have hg : Machine.grant { n with stack := ts } f g = .ok o := by
    rw [← ho]
    cases g <;> rfl
  cases o with
  | error e =>
    obtain rfl := hp { n with stack := .answer ⟨f.owner, l.verb⟩ (.now (.refused e)) :: ts } (by
      simp only [act, hg, bind, Except.bind]
      rfl)
    exact .refused ⟨_, _, rfl⟩ rfl rfl
  | ok v =>
    obtain rfl := hp _ (by
      simp only [act, hg, bind, Except.bind]
      rfl)
    exact .view ⟨_, _, rfl⟩ rfl rfl

theorem Takes.clones {f : Frame} {l : Line Action} {id copy : String} {v : View} (h : n.Takes f l p)
    (hl : l.action = .clone id copy) (hv : n.desk.views.get? id = some v) (hnode : n.desk.nodes.get? id = none)
    (hstart : n.desk.starts.get? id = none) (hcol : n.desk.collectors.get? id = none) :
    p.Answers .nothing ∧ p.world = n.world ∧ p.desk = n.desk.keep copy (.view v) := by
  obtain ⟨ts, hp⟩ := h.acts
  rw [hl] at hp
  obtain rfl := hp _ (by
    simp only [act, clone, hv, hnode, hstart, hcol, bind, Except.bind]
    rfl)
  exact ⟨⟨_, _, rfl⟩, rfl, rfl⟩

theorem Takes.reads {f : Frame} {l : Line Action} {id key : String} {v : View} {col : Collector} {x : Activity}
    (h : n.Takes f l p) (hl : l.action = .ask (.read id key)) (hv : n.viewAt id = .ok (v, col))
    (hx : n.activity key = .ok x) :
    p.Answers (.reading (read v col x)) ∧ p.world = n.world ∧ p.desk = n.desk := by
  obtain ⟨ts, hp⟩ := h.acts
  rw [hl] at hp
  have hv' : Machine.viewAt { n with stack := ts } id = .ok (v, col) := hv
  have hx' : Machine.activity { n with stack := ts } key = .ok x := hx
  obtain rfl := hp _ (by
    simp only [act, ask, hv', hx', bind, Except.bind]
    rfl)
  exact ⟨⟨_, _, rfl⟩, rfl, rfl⟩

theorem Later.slot_eq {q : Machine} (h : Later p q) (hp : p.Reachable) {c : Key} {x : Activity} {es : List Event}
    (hj : q.journal = es ++ p.journal) (hes : ∀ w s, .wrote w c x s ∉ es) :
    q.world.slot? c x = p.world.slot? c x := by
  rw [(hp.later h).reached.slot_eq_lastWrite, hp.reached.slot_eq_lastWrite, hj, lastWrite_append,
    lastWrite_eq_none hes, Option.none_or]

theorem Takes.sets {f : Frame} {l : Line Action} {id key : String} {d : Draft} {v : View} {col : Collector}
    {x : Activity} (h : n.Takes f l p) (hn : n.Reachable) (hl : l.action = .set id key d)
    (hv : n.viewAt id = .ok (v, col)) (hx : n.activity key = .ok x) :
    (x ∈ v.activities ∧ n.Sets p v.collector x (d.record x)) ∨
    (x ∉ v.activities ∧ p.Answers (.refused (.outOfView x.name col.name)) ∧ p.world = n.world ∧ p.desk = n.desk) := by
  obtain ⟨ts, hp⟩ := h.acts
  rw [hl] at hp
  have hb : Machine.Backed { n with stack := ts } := hn.course.2
  have hpr : p.Reachable := hn.later (.single h.next)
  rcases act_set (m := { n with stack := ts }) hb hv hx f ⟨f.owner, l.verb⟩ d with ⟨hmem, w, hw, hact⟩ | ⟨hmem, hact⟩
  · obtain rfl := hp _ hact
    refine .inl ⟨hmem, ⟨_, _, rfl⟩, rfl, ?_, ?_⟩
    · intro e y hne
      refine (World.slot?_store hw e y).trans (if_neg ?_)
      rintro ⟨rfl, rfl⟩
      exact hne ⟨rfl, rfl⟩
    · intro u q es hu hxu hq hj hes
      obtain ⟨c, hc, -⟩ := (h.next.ends.before).remains hn.reached (get?_of_viewAt hv).2
      obtain ⟨e, he, -⟩ := hq.before.remains hpr.reached hc
      have hslot : e.slot? x = some (d.record x) := by
        rw [← World.slot?_of_collector he, hq.slot_eq hpr hj hes]
        exact (World.slot?_store hw v.collector x).trans (if_pos ⟨rfl, rfl⟩)
      have hr := Reading.reads e.name x (u.contains x) (u.read? e x)
      rw [View.read?_of_mem hxu, hslot] at hr
      refine ⟨e, he, ?_⟩
      rw [read, View.read?_of_mem hxu, hslot]
      exact hr
  · obtain rfl := hp _ hact
    exact .inr ⟨hmem, ⟨_, _, rfl⟩, rfl, rfl⟩

/-- Views are granted, narrowed, copied, read and written as they show. A view shows only what its collector
declares, and still does at any time later. What comes of a chain of views shows no more than the first one.
To narrow comes to the view of just the activities that are listed, or to the first that is out of view. What
is in view reads as the collector has it, and all else as if it were never written. -/
theorem Reachable.view_law {m n : Machine} (hm : m.Reachable) (hn : Later m n) :
    (∀ v, m.Holds v → ∀ u, ReflTransGen View.Narrows v u → u.collector = v.collector ∧
      u.activities ⊆ v.activities ∧ ∃ col, n.world.collectors.get? v.collector = some col ∧ u.Law col) ∧
    (∀ f g o, n.grant f g = .ok o ↔ n.Granted f g o) ∧
    ∀ f l p, n.Takes f l p →
      (∀ id g o, l.action = .grant id g → n.Granted f g o → n.Gives p id o) ∧
      (∀ id copy v, l.action = .clone id copy → n.desk.views.get? id = some v → n.desk.nodes.get? id = none →
        n.desk.starts.get? id = none → n.desk.collectors.get? id = none →
        p.Answers .nothing ∧ p.world = n.world ∧ p.desk = n.desk.keep copy (.view v)) ∧
      ∀ id key v col x, n.viewAt id = .ok (v, col) → n.activity key = .ok x →
        (l.action = .ask (.read id key) →
          p.Answers (.reading (read v col x)) ∧ p.world = n.world ∧ p.desk = n.desk) ∧
        ∀ d, l.action = .set id key d →
          (x ∈ v.activities ∧ n.Sets p v.collector x (d.record x)) ∨
          (x ∉ v.activities ∧ p.Answers (.refused (.outOfView x.name col.name)) ∧ p.world = n.world ∧
            p.desk = n.desk) := by
  refine ⟨?_, fun f g o ↦ grant_iff, ?_⟩
  · intro v hv u hu
    obtain ⟨hcol, hsub⟩ := View.subset_of_narrows hu
    have hv := hv.houses hm
    obtain ⟨c, hc⟩ := Option.isSome_iff_exists.1 hv.slots
    obtain ⟨d, hd, -⟩ := Option.map_eq_some_iff.1 hc
    obtain ⟨e, he, -⟩ := hn.before.remains hm.reached hd
    refine ⟨hcol, hsub, e, he, View.law_of_declared fun x hx ↦ ?_⟩
    exact (World.declares_iff he).1 (hn.before.declares hm.reached (hv.backs x (hsub hx)))
  · intro f l p h
    refine ⟨fun id g o hl ho ↦ h.grants hl (grant_iff.2 ho), fun id copy v hl ↦ h.clones hl, ?_⟩
    intro id key v col x hv hx
    exact ⟨fun hl ↦ h.reads hl hv hx, fun d hl ↦ h.sets (hm.later hn) hl hv hx⟩

end Machine

namespace Sample

/-- A view of the first activity does not show that the second has succeeded, and cannot be made to; what is set
through it is read by whoever shows the first. -/
theorem viewed_view_law :
    (∃ col, viewed.viewAt "v" = .ok (⟨⟨"s", 0⟩, [alpha]⟩, col) ∧ col.extract beta = .ok ⟨.success (.int 1), false⟩ ∧
      (Machine.read ⟨⟨"s", 0⟩, [alpha]⟩ col beta).Reads beta false {}) ∧
    (∃ p, viewed.Takes {} ⟨"narrow", false, .grant "u" (.narrow "v" ["alpha", "beta"])⟩ p ∧
      p.Answers (.refused (.outOfView "beta" "s")) ∧ p.desk = viewed.desk) ∧
    ∃ p, viewed.Takes {} ⟨"set", false, .set "v" "alpha" {}⟩ p ∧ viewed.Sets p ⟨"s", 0⟩ alpha {} := by
  have hm : viewed.Reachable := ⟨_, .play rfl _⟩
  have hdone : viewed.stack = [] := Machine.stack_play rfl _
  have hview : viewed.desk.views.get? "v" = some ⟨⟨"s", 0⟩, [alpha]⟩ := by decide +kernel
  have hshown : (viewed.world.collectors.get? ⟨"s", 0⟩).map (fun c ↦ (c.name, c.extract beta)) =
      some ("s", .ok ⟨.success (.int 1), false⟩) := by decide +kernel
  obtain ⟨col, hcol, hshown⟩ := Option.map_eq_some_iff.1 hshown
  obtain ⟨hname, hbeta⟩ := Prod.mk.inj hshown
  have hv : viewed.viewAt "v" = .ok (⟨⟨"s", 0⟩, [alpha]⟩, col) := by
    simp only [Machine.viewAt, Machine.find, Machine.fetch, hview, hcol, bind, Except.bind]
    rfl
  obtain ⟨hheld, -, hlines⟩ := hm.view_law (.refl)
  obtain ⟨-, -, c, hc, hlaw⟩ := hheld _ (.inl ⟨"v", hview⟩) _ .refl
  obtain rfl := Option.some.inj (hcol.symm.trans hc)
  refine ⟨⟨col, hv, hbeta, hlaw.hidden beta (by decide)⟩, ⟨_, .outer hdone, ?_⟩, ⟨_, .outer hdone, ?_⟩⟩
  · have hgrant : viewed.Granted {} (.narrow "v" ["alpha", "beta"]) (.error (.outOfView "beta" col.name)) := by
      have hxs : viewed.activities ["alpha", "beta"] = .ok [alpha, beta] := by decide +kernel
      have hsplit : [alpha, beta] = [alpha] ++ beta :: [] := rfl
      exact .narrow hv hxs (.offends hsplit (by simp) (by decide))
    have hgives := (hlines {} ⟨"narrow", false, .grant "u" (.narrow "v" ["alpha", "beta"])⟩ _ (.outer hdone)).1 "u" _ _
      rfl hgrant
    cases hgives with
    | refused ha hw hd => exact ⟨hname ▸ ha, hd⟩
  · have hset := ((hlines {} ⟨"set", false, .set "v" "alpha" {}⟩ _ (.outer hdone)).2.2 "v" "alpha" _ col alpha hv
      (by decide +kernel)).2 {} rfl
    exact (hset.resolve_right fun h ↦ h.1 List.mem_cons_self).2

end Sample

end ActivityGraph
