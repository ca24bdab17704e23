import ActivityGraph.Proofs.Refusal
import ActivityGraph.Proofs.Stored

namespace ActivityGraph

namespace Stage.Reached

variable {a : Stage}

theorem not_notStored (h : a.Reached) (k : Key) (e : AccessError) :
    .logged (.notStored k e) ∉ a.machine.journal := by
  refine h.invariant (P := fun a ↦ .logged (.notStored k e) ∉ a.machine.journal) (by simp) fun a b h ih hs hb ↦ ?_
  obtain ⟨n, hn, hw⟩ := hs.marks_of_new hb ih
  obtain ⟨w, hw'⟩ := World.exists_store (h.declares hn) n.record
  exact absurd (hw.symm.trans hw') (by simp)

theorem level_ne_error (h : a.Reached) {e : Entry} (he : .logged e ∈ a.machine.journal) : e.level ≠ .error := by
  cases e with
  | notStored k e => exact absurd he (h.not_notStored k e)
  | _ => simp [Entry.level]

theorem stores (h : a.Reached) {k : Key} {g : Signal} (hc : a.call = some (.resolve k g)) :
    ∃ n w, a.machine.world.nodes.get? k = some n ∧
      a.machine.world.store n.collector n.activity n.record = .ok w := by
  have hle := h.say_le k
  cases hn : a.machine.world.nodes.get? k with
  | none =>
    -- only a node that is there can be about to be final
    simp [World.knows, hn, Stage.after, hc, Call.settles] at hle
  | some n =>
    obtain ⟨w, hw⟩ := World.exists_store (h.declares hn) n.record
    exact ⟨n, w, rfl, hw⟩

end Stage.Reached

theorem Stage.Before.declares {a b : Stage} (h : a.Before b) (ha : a.Reached) {c : Key} {x : Activity}
    (hx : a.machine.world.Declares c x) : b.machine.world.Declares c x := by
  induction h with
  | refl => exact hx
  | tail hb hs ih => exact hs.declares (ha.before hb) ih

theorem World.Backs.set_error {w : World} {v : View} (hv : w.Backs v) {col : Collector}
    (hc : w.collectors.get? v.collector = some col) (x : Activity) (r : Outcome) (e : AccessError) :
    v.set col x r = .error e ↔ x ∉ v.activities ∧ e = .outOfView x.name col.name := by
  unfold View.set
  by_cases hx : x ∈ v.activities
  · have hin : v.contains x := List.contains_iff_mem.2 hx
    have hd : col.declares x := (World.declares_iff hc).1 (hv x hx)
    simp [hin, hx, Collector.insert, hd]
  · have hin : ¬ v.contains x := fun h ↦ hx (List.contains_iff_mem.1 h)
    simp [hin, hx, eq_comm]

namespace Machine

theorem act_set {m : Machine} (hm : m.Backed) {id key : String} {v : View} {col : Collector} {x : Activity}
    (hv : m.viewAt id = .ok (v, col)) (hx : m.activity key = .ok x) (f : Frame) (c : Caller) (d : Draft) :
    (x ∈ v.activities ∧ ∃ w, m.world.store v.collector x (d.record x) = .ok w ∧
      m.act f c (.set id key d) = .ok { m with
        world := w,
        stack := .answer c (.now .ok) :: m.stack,
        journal := .wrote none v.collector x (d.record x) :: m.journal }) ∨
    (x ∉ v.activities ∧
      m.act f c (.set id key d) = .ok { m with
        stack := .answer c (.now (.refused (.outOfView x.name col.name))) :: m.stack }) := by
  obtain ⟨hdesk, hcol⟩ := get?_of_viewAt hv
  have hin : v.contains x ↔ x ∈ v.activities := List.contains_iff_mem
  simp only [act, hv, hx, bind, Except.bind]
  by_cases hmem : x ∈ v.activities
  · obtain ⟨w, hw⟩ := World.exists_store (hm id v hdesk x hmem) (d.record x)
    refine .inl ⟨hmem, w, hw, ?_⟩
    rw [if_pos (hin.2 hmem), Machine.store, hw]
    rfl
  · refine .inr ⟨hmem, ?_⟩
    rw [if_neg fun hc ↦ hmem (hin.1 hc)]
    rfl

/-- The log of a run has no errors: a node that is about to store its record finds its activity declared,
in the middle of a step too. Whichever view a script holds or is granted, at any time later to set a record
through it is refused only for what is out of view, and never for what is not declared. -/
theorem Reachable.never_undeclared {m : Machine} (hm : m.Reachable) :
    (∀ e, .logged e ∈ m.journal → e.level ≠ .error) ∧
    (∀ a : Stage, Stage.Before ⟨none, m⟩ a → ∀ k g, a.call = some (.resolve k g) →
      ∃ n w, a.machine.world.nodes.get? k = some n ∧
        a.machine.world.store n.collector n.activity n.record = .ok w) ∧
    (∀ v, (∃ id, m.desk.views.get? id = some v) ∨ (∃ f g, m.grant f g = .ok (.ok v)) →
      ∀ n, Later m n → ∀ col, n.world.collectors.get? v.collector = some col → ∀ x r e,
        v.set col x r = .error e ↔ x ∉ v.activities ∧ e = .outOfView x.name col.name) ∧
    ∀ ts f c id key d v col x, m.viewAt id = .ok (v, col) → m.activity key = .ok x →
      (x ∈ v.activities ∧ ∃ w, m.world.store v.collector x (d.record x) = .ok w ∧
        Machine.act { m with stack := ts } f c (.set id key d) = .ok { m with
          world := w,
          stack := .answer c (.now .ok) :: ts,
          journal := .wrote none v.collector x (d.record x) :: m.journal }) ∨
      (x ∉ v.activities ∧
        Machine.act { m with stack := ts } f c (.set id key d) = .ok { m with
          stack := .answer c (.now (.refused (.outOfView x.name col.name))) :: ts }) := by
  have hr := hm.reached
  have hb : m.Backed := hm.course.2
  refine ⟨fun e he ↦ hr.level_ne_error he, fun a ha k g hc ↦ (hr.before ha).stores hc, ?_, ?_⟩
  · intro v hv n hn col hcol x r e
    have hback : m.world.Backs v := by
      rcases hv with ⟨id, hv⟩ | ⟨f, g, hv⟩
      · exact hb id v hv
      · exact backs_grant hb hv
    have hlater : n.world.Backs v := fun y hy ↦ hn.before.declares hr (hback y hy)
    exact hlater.set_error hcol x r e
  · intro ts f c id key d v col x hv hx
    exact act_set (m := { m with stack := ts }) hb hv hx f c d

end Machine

namespace Sample

def viewed : Machine := Machine.play { catalogue := [("alpha", alpha), ("beta", beta)] } <|
  pair [⟨"success", false, .report none ⟨.success, some (.int 7)⟩⟩] "a" ++
    [⟨"within", false, .grant "v" (.within "s" ["alpha"])⟩]

/-- Both nodes are final and nothing went wrong. The view takes a record of the first activity, and refuses
one of the second, which is declared, for being out of view. -/
theorem viewed_never_undeclared :
    (∀ e, .logged e ∈ viewed.journal → e.level ≠ .error) ∧
    (viewed.world.final? (.node ⟨"a", 0⟩)).isSome ∧ (viewed.world.final? (.node ⟨"b", 0⟩)).isSome ∧
    (∃ n, Machine.act { viewed with stack := [] } {} ⟨none, "set"⟩ (.set "v" "alpha" {}) = .ok n ∧
      n.stack = [.answer ⟨none, "set"⟩ (.now .ok)]) ∧
    ∃ n, Machine.act { viewed with stack := [] } {} ⟨none, "set"⟩ (.set "v" "beta" {}) = .ok n ∧
      n.stack = [.answer ⟨none, "set"⟩ (.now (.refused (.outOfView "beta" "s")))] := by
  have hm : viewed.Reachable := ⟨_, .play rfl _⟩
  have hview : viewed.desk.views.get? "v" = some ⟨⟨"s", 0⟩, [alpha]⟩ := by decide +kernel
  have hname : (viewed.world.collectors.get? ⟨"s", 0⟩).map Collector.name = some "s" := by decide +kernel
  obtain ⟨col, hcol, hname⟩ := Option.map_eq_some_iff.1 hname
  have hv : viewed.viewAt "v" = .ok (⟨⟨"s", 0⟩, [alpha]⟩, col) := by
    simp only [Machine.viewAt, Machine.find, Machine.fetch, hview, hcol, bind, Except.bind]
    rfl
  have ha : viewed.activity "alpha" = .ok alpha := by decide +kernel
  have hb : viewed.activity "beta" = .ok beta := by decide +kernel
  obtain ⟨herror, -, -, hset⟩ := hm.never_undeclared
  have hin := (hset [] {} ⟨none, "set"⟩ "v" "alpha" {} _ col alpha hv ha).resolve_right fun h ↦
    h.1 List.mem_cons_self
  have hout := (hset [] {} ⟨none, "set"⟩ "v" "beta" {} _ col beta hv hb).resolve_left fun h ↦
    absurd h.1 (by decide)
  obtain ⟨-, w, -, hin⟩ := hin
  obtain ⟨-, hout⟩ := hout
  rw [hname] at hout
  exact ⟨herror, by decide +kernel, by decide +kernel, ⟨_, hin, rfl⟩, _, hout, rfl⟩

end Sample

end ActivityGraph
