import ActivityGraph.Proofs.Alike.Run
import ActivityGraph.Proofs.Alike.Self
import ActivityGraph.Proofs.Run

namespace ActivityGraph

def Lens.whole : Lens where
  own := fun _ ↦ true

namespace Machine

theorem Alike.whole (m : Machine) : Alike .whole m m false [] m m := .self (fun _ ↦ rfl) rfl nofun

/-- A move: a machine goes on with its stack, or takes a line at the outermost level if it is done. With
the move comes the line that it executes, if there is one. -/
inductive Move (m : Machine) : Option (Line Action) → Machine → Prop
  | step (hm : m.stack ≠ []) : Move m m.upcoming m.step
  | line (hm : m.stack = []) (f : Frame) (l : Line Action) : Move m (some l) (Scenario.start m f l)

theorem Move.next {m n : Machine} {l : Option (Line Action)} (h : m.Move l n) : Next m n := by
  cases h with
  | step hm => exact .step hm
  | line hm f l => exact .line hm f l

theorem Next.move {m n : Machine} (h : Next m n) : ∃ l, m.Move l n := by
  cases h with
  | step hm => exact ⟨_, .step hm⟩
  | line hm f l => exact ⟨_, .line hm f l⟩

/-- A machine takes a line in a frame: the next line of the script that it is in, or any line if it is done. -/
inductive Takes (m : Machine) (f : Frame) (l : Line Action) : Machine → Prop
  | inner {rest : Script} {exit : Exit} {ts : List Task} (hm : m.stack = .script f (l :: rest) exit :: ts) :
    Takes m f l m.step
  | outer (hm : m.stack = []) : Takes m f l (Scenario.start m f l)

theorem Takes.next {m n : Machine} {f : Frame} {l : Line Action} (h : m.Takes f l n) : Next m n := by
  cases h with
  | inner hm => exact .step (by simp [hm])
  | outer hm => exact .line hm f l

theorem execute_acts (m : Machine) (f : Frame) (l : Line Action) : ∃ ts,
    Machine.act { m with stack := ts } f ⟨f.owner, l.verb⟩ l.action = .ok (m.execute f l) ∨
      ∃ id, Machine.act { m with stack := ts } f ⟨f.owner, l.verb⟩ l.action = .error id := by
  have hg : ∃ ts, (if l.caught then m.push (.guard ⟨f.owner, l.verb⟩) else m) = { m with stack := ts } := by
    split <;> exact ⟨_, rfl⟩
  obtain ⟨ts, hg⟩ := hg
  refine ⟨ts, ?_⟩
  unfold Machine.execute
  dsimp only
  rw [hg]
  split
  · next hact => exact .inl hact
  · next hact => exact .inr ⟨_, hact⟩

theorem Takes.acts {m n : Machine} {f : Frame} {l : Line Action} (h : m.Takes f l n) :
    ∃ ts, ∀ p, Machine.act { m with stack := ts } f ⟨f.owner, l.verb⟩ l.action = .ok p → n = p := by
  have executed (ts : List Task) : ∃ us, ∀ p,
      Machine.act { m with stack := us } f ⟨f.owner, l.verb⟩ l.action = .ok p →
        Machine.execute { m with stack := ts } f l = p := by
    obtain ⟨us, h | ⟨id, h⟩⟩ := execute_acts { m with stack := ts } f l
    · exact ⟨us, fun p hp ↦ Except.ok.inj (h.symm.trans hp)⟩
    · exact ⟨us, fun p hp ↦ absurd (h.symm.trans hp) (by simp)⟩
  cases h with
  | @inner rest exit ts hm =>
    rw [step_of_stack hm]
    exact executed _
  | outer hm => exact executed _

/-- A line performs an activity under a handle, with dependencies and a setup, and finds all that it looks for. -/
structure Performs (m : Machine) (l : Line Action) (id : String) (deps : List String)
    (setup : Option (List (Step Script))) (work : Work Script) (x : Activity) (c : Key) (ss : List Source) : Prop where
  action : ∃ key coll, l.action = .perform id key coll deps setup work ∧ m.activity key = .ok x ∧
    ∃ col, m.collectorAt coll = .ok (c, col) ∧ col.declares x
  sources : m.sources deps = .ok ss

theorem performs_of_find {m : Machine} {l : Line Action} {id key coll : String} {deps : List String}
    {setup : Option (List (Step Script))} {work : Work Script} {x : Activity} {c : Key} {ss : List Source}
    (hl : l.action = .perform id key coll deps setup work) (hx : m.activity key = .ok x)
    (hc : (m.collectorAt coll).toOption.map (fun p ↦ (p.1, p.2.declares x)) = some (c, true))
    (hs : m.sources deps = .ok ss) : m.Performs l id deps setup work x c ss := by
  refine ⟨⟨key, coll, hl, hx, ?_⟩, hs⟩
  cases he : m.collectorAt coll with
  | error e => simp [he, Except.toOption] at hc
  | ok p =>
    rw [he] at hc
    obtain ⟨hk, hd⟩ := Prod.mk.inj (Option.some.inj hc)
    exact ⟨p.2, by rw [← hk], hd⟩

theorem Performs.act {m : Machine} {l : Line Action} {id : String} {deps : List String}
    {setup : Option (List (Step Script))} {work : Work Script} {x : Activity} {c : Key} {ss : List Source}
    (hl : m.Performs l id deps setup work x c ss) (ts : List Task) (f : Frame) (d : Caller) :
    ∃ es, Machine.act { m with stack := ts } f d l.action = .ok (Machine.addNode { m with
      stack := .answer d (.now (.text x.label)) :: ts
      journal := es ++ m.journal } id x c ss (.ofSteps (setup.getD [])) work) := by
  obtain ⟨key, coll, he, hx, col, hc, hd⟩ := hl.action
  have hx' : Machine.activity { m with stack := ts } key = .ok x := hx
  have hc' : Machine.collectorAt { m with stack := ts } coll = .ok (c, col) := hc
  have hss (es : List Event) : Machine.sources { m with stack := ts, journal := es } deps = .ok ss := hl.sources
  rw [he]
  cases setup with
  | none =>
    refine ⟨[], ?_⟩
    simp only [Machine.act, hx', hc', describeSetup, hss, hd, bind, Except.bind]
    rfl
  | some steps =>
    refine ⟨[.described ((Setup.ofSteps steps).describe x)], ?_⟩
    simp only [Machine.act, hx', hc', describeSetup, note, hss, hd, bind, Except.bind]
    rfl

theorem Takes.performs {m n : Machine} {f : Frame} {l : Line Action} (h : m.Takes f l n) {id : String}
    {deps : List String} {setup : Option (List (Step Script))} {work : Work Script} {x : Activity} {c : Key}
    {ss : List Source} (hl : m.Performs l id deps setup work x c ss) :
    ∃ ts es, n = Machine.addNode { m with
      stack := .answer ⟨f.owner, l.verb⟩ (.now (.text x.label)) :: ts
      journal := es ++ m.journal } id x c ss (.ofSteps (setup.getD [])) work := by
  obtain ⟨ts, hp⟩ := h.acts
  obtain ⟨es, he⟩ := hl.act ts f ⟨f.owner, l.verb⟩
  exact ⟨ts, es, hp _ he⟩

def Answers (m : Machine) (a : Answer) : Prop := ∃ c ts, m.stack = .answer c (.now a) :: ts

theorem Reachable.later {m n : Machine} (hm : m.Reachable) (h : Later m n) : n.Reachable := by
  obtain ⟨catalogue, hm⟩ := hm
  exact ⟨catalogue, hm.trans h⟩

theorem Move.deeds {m n : Machine} {l : Option (Line Action)} (h : m.Move l n) :
    ∃ es, n.journal = es ++ m.journal ∧ es.filter Event.deed = l.elim [] fun l ↦ m.deeds l.action := by
  cases h with
  | step hm =>
    obtain ⟨i, h⟩ := (Alike.whole m).step
    obtain ⟨es, -, hj, -, -, hd⟩ := h.journal
    exact ⟨es, hj, hd.trans (List.append_nil _)⟩
  | line hm f l =>
    obtain ⟨verb, caught, a⟩ := l
    have hab : Action.Alike .whole f.home a a := Action.alike_self (fun _ _ ↦ rfl) nofun (.inl rfl)
    obtain ⟨es, -, hj, -, -, hd⟩ := ((Alike.whole m).start false f verb caught hab).journal
    exact ⟨es, hj, hd.trans (List.append_nil _)⟩

theorem Later.suffix {m n : Machine} (h : Later m n) : m.journal <:+ n.journal := by
  induction h with
  | refl => exact List.suffix_rfl
  | tail _ hn ih =>
    obtain ⟨l, hl⟩ := hn.move
    obtain ⟨es, hj, -⟩ := hl.deeds
    exact ih.trans ⟨es, hj.symm⟩

theorem Later.countP_le {m n : Machine} (h : Later m n) (p : Event → Bool) : m.journal.countP p ≤ n.journal.countP p :=
  h.suffix.sublist.countP_le

end Machine

end ActivityGraph
