import ActivityGraph.Proofs.Alike.Run

namespace ActivityGraph

def Lens.ofScript (s : Script) : Lens where
  own h := h ∈ Script.names "" s
  timed := false

namespace Scenario

/-- What is marked for one of two sides. -/
def side {α : Type} (b : Bool) (s : List (Bool × α)) : List α := (s.filter fun x ↦ x.1 = b).map Prod.snd

/-- The reports on the lines of two sides that take turns in any order, and the machine after them. Each side
has a register of its own. -/
def duet (m : Machine) (r : Bool → Json) : List (Bool × Line Action) → List (Bool × LineReport) × Machine
  | [] => ([], m)
  | (b, l) :: s =>
    let rest := duet (report m { register := r b } l).2
      (Function.update r b (m.registerAfter { register := r b } l.action)) s
    ((b, (report m { register := r b } l).1) :: rest.1, rest.2)

theorem side_cons_self {α : Type} (b : Bool) (a : α) (s : List (Bool × α)) :
    side b ((b, a) :: s) = a :: side b s := by simp [side]

theorem side_cons_other {α : Type} {b c : Bool} (h : c ≠ b) (a : α) (s : List (Bool × α)) :
    side b ((c, a) :: s) = side b s := by simp [side, h]

theorem changes_filter {a b c d : List (String × Status)} {p : String × Status → Bool} (ha : a.filter p = c)
    (hb : b.filter p = d) (hab : b.filter (fun e ↦ !p e) = a.filter fun e ↦ !p e) :
    changes a b = changes c d := by
  have hc (e : String × Status) (he : p e) : c.contains e = a.contains e := by
    rw [← ha, Bool.eq_iff_iff, List.contains_iff_mem, List.contains_iff_mem, List.mem_filter, and_iff_left he]
  have hk (e : String × Status) (he : e ∈ b) (hn : (!a.contains e) = true) : p e := by
    by_contra hp
    have : e ∈ a.filter fun e ↦ !p e := hab ▸ List.mem_filter.2 ⟨he, by simpa using hp⟩
    simp [(List.mem_filter.1 this).1] at hn
  rw [changes, changes, ← hb, List.filter_filter]
  refine List.filter_congr fun e he ↦ ?_
  cases hp : p e with
  | true => rw [hc e hp, Bool.and_true]
  | false =>
    rw [Bool.and_false]
    by_contra hn
    rw [hk e he (by simpa using hn)] at hp
    simp at hp

end Scenario

namespace Machine

section

variable {α : Type}

def tally (status : α → Status) (t : Table String Key) (w : Table Key α) : List (String × Status) :=
  t.entries.filterMap fun e ↦ (w.get? e.2).map fun a ↦ (e.1, status a)

theorem tally_filter (status : α → Status) (own : String → Bool) (t : Table String Key) (w : Table Key α) :
    (tally status t w).filter (fun e ↦ own e.1) = tally status (t.restrict own) w := by
  obtain ⟨es⟩ := t
  simp only [tally, Table.restrict]
  induction es with
  | nil => rfl
  | cons e es ih => cases hw : w.get? e.2 <;> cases ho : own e.1 <;> simp [hw, ho, ih]

theorem tally_eq {L : Lens} {status : α → Status} {t u : Table String Key} {w v : Table Key α}
    (ht : t.Alike L.own (fun _ k l ↦ l = k ∧ L.owns k) u)
    (hw : ∀ k, L.owns k → (v.get? k).map status = (w.get? k).map status) :
    tally status (u.restrict L.own) v = tally status (t.restrict L.own) w := by
  unfold Table.Alike at ht
  simp only [tally]
  generalize (t.restrict L.own).entries = es, (u.restrict L.own).entries = fs at ht
  induction ht with
  | nil => rfl
  | @cons a b es fs hab _ ih =>
    have he : (v.get? b.2).map (fun x ↦ (b.1, status x)) = (w.get? a.2).map fun x ↦ (a.1, status x) := by
      have hs := congrArg (Option.map (Prod.mk a.1)) (hw a.2 hab.2.2)
      rw [Option.map_map, Option.map_map] at hs
      rw [← hab.1, show b.2 = a.2 from hab.2.1]
      exact hs
    simp only [List.filterMap_cons, he, ih]

end

theorem board_eq (m : Machine) : m.board =
    tally (fun n ↦ .node n.record.state.ending? n.record.canceled) m.desk.nodes m.world.nodes ++
      tally (fun t ↦ .terminal t.fired) m.desk.terminals m.world.terminals := rfl

variable {L : Lens} {q p m n : Machine} {old : Bool} {d : List Event}

namespace Alike

theorem board_filter (hw : World.Alike L m.world n.world) (hd : Desk.Alike L m.desk n.desk) :
    n.board.filter (fun e ↦ L.own e.1) = m.board.filter fun e ↦ L.own e.1 := by
  simp only [board_eq, List.filter_append, tally_filter]
  congr 1
  · refine tally_eq hd.nodes fun k hk ↦ hw.nodes.map_eq hk fun a b hab ↦ ?_
    rw [hab.record]
  · refine tally_eq hd.terminals fun k hk ↦ hw.terminals.map_eq hk fun t u htu ↦ ?_
    rw [htu.fired]

theorem of_untouched {m' n' : Machine} (h : Alike L q p old d m n) (ht : L.timed = false)
    (hm : Untouched L.other m m') (hn : Untouched L.other n n') (hms : m'.stack = []) (hns : n'.stack = [])
    (hmt : m'.timers = []) (hnt : n'.timers = []) : Alike L m' n' true [] m' n' where
  catalogue := by rw [hn.catalogue, hm.catalogue, h.catalogue]
  world := h.world.of_part (by simpa only [World.rest_other] using hm.world)
    (by simpa only [World.rest_other] using hn.world)
  desk := h.desk.of_part (by simpa only [Desk.rest_other] using hm.desk)
    (by simpa only [Desk.rest_other] using hn.desk)
  clock := by simp [ht]
  timers := by rw [hmt, hnt]
  due := by simp [hmt]
  stack := by simp [hms, hns]
  answer _ := .inr ⟨ht, rfl⟩
  journal := .refl _ _ _
  rest := .refl _ _

end Alike

/-- Two machines at rest, of which the second one has nothing but what is looked at. -/
structure Beside (L : Lens) (m p : Machine) : Prop where
  alike : Alike L m p true [] m p
  other : Alike L.other m m true [] m m
  alone : Alike L p p true [] p p
  world : p.world.rest L = {}
  desk : p.desk.rest L = {}
  idle : m.stack = [] ∧ p.stack = []

namespace Beside

variable {f : Frame} {l : Line Action}

theorem idle_report (m : Machine) (f : Frame) (l : Line Action) : (Scenario.report m f l).2.stack = [] :=
  stack_finish _

theorem line_other (h : Beside L m p) (ht : L.timed = false)
    (hl : Action.Alike L.other f.home l.action l.action) : Beside L (Scenario.report m f l).2 p := by
  obtain ⟨verb, caught, a⟩ := l
  obtain ⟨d, hm⟩ := h.other.report true f verb caught hl
  have hs := idle_report m f ⟨verb, caught, a⟩
  have ht' : L.other.timed = false := ht
  exact { h with
    alike := h.alike.of_untouched ht hm.rest (.refl _ _) hs h.idle.2 (hm.timers_eq_nil ht') (h.alone.timers_eq_nil ht),
    other := hm.rebase,
    idle := ⟨hs, h.idle.2⟩ }

theorem line_own (h : Beside L m p) (ht : L.timed = false)
    (hl : Action.Alike L f.home l.action l.action) : Beside L (Scenario.report m f l).2 (Scenario.report p f l).2 := by
  obtain ⟨verb, caught, a⟩ := l
  obtain ⟨d, hm⟩ := h.alike.report true f verb caught hl
  obtain ⟨d', hp⟩ := h.alone.report true f verb caught hl
  have hs := idle_report m f ⟨verb, caught, a⟩
  have hr : Untouched L.other.other m (Scenario.report m f ⟨verb, caught, a⟩).2 := by
    rw [Lens.other_other]
    exact hm.rest
  exact {
    alike := hm.rebase,
    other := h.other.of_untouched ht hr hr hs hs (hm.timers_eq_nil ht) (hm.timers_eq_nil ht),
    alone := hp.rebase,
    world := hp.rest.world.trans h.world,
    desk := hp.rest.desk.trans h.desk,
    idle := ⟨hs, idle_report p f _⟩ }

theorem fresh (L : Lens) (catalogue : List (String × Activity)) :
    Beside L { catalogue := catalogue } { catalogue := catalogue } := by
  have hw (L : Lens) : World.Alike L {} {} := ⟨.empty, .empty, .empty, .empty, .empty, .empty⟩
  have hd (L : Lens) : Desk.Alike L {} {} := ⟨.empty, .empty, .empty, .empty, .empty, .empty, .empty⟩
  have h (L : Lens) : Alike L { catalogue := catalogue } { catalogue := catalogue } true [] { catalogue := catalogue }
      { catalogue := catalogue } :=
    ⟨rfl, hw L, hd L, fun _ ↦ rfl, rfl, by simp, .nil, fun _ ↦ .inl rfl, .refl _ _ _, .refl _ _⟩
  exact ⟨h L, h L.other, h L, rfl, rfl, rfl, rfl⟩

theorem board (h : Beside L m p) : m.board.filter (fun e ↦ L.own e.1) = p.board := by
  have hd := Desk.part_eq_self h.desk
  have hn : p.desk.nodes.restrict L.own = p.desk.nodes := congrArg Desk.nodes hd
  have ht : p.desk.terminals.restrict L.own = p.desk.terminals := congrArg Desk.terminals hd
  rw [← Alike.board_filter h.alike.world h.alike.desk, board_eq, List.filter_append, tally_filter, tally_filter, hn, ht]

theorem report_eq (h : Beside L m p) (hb : L.blind = false) (ht : L.timed = false)
    (hl : Action.Alike L f.home l.action l.action) : (Scenario.report m f l).1 = (Scenario.report p f l).1 := by
  have h' := h.line_own ht hl
  obtain ⟨verb, caught, a⟩ := l
  obtain ⟨d, hm⟩ := h.alike.report false f verb caught hl
  have ha := hm.answer_eq hb (idle_report m f _)
  obtain ⟨es, hj, hk⟩ := hm.journal_eq hb
  have hc := Scenario.changes_filter h.board h'.board
    (Alike.board_filter (h.other.world.of_part rfl hm.rest.world) (h.other.desk.of_part rfl hm.rest.desk))
  simp only [Scenario.report] at ha hj hk hc ⊢
  rw [ha, hc, hj, hk]
  simp

end Beside

end Machine

theorem Script.alike_cons {L : Lens} (hb : L.blind = false) {home : String} {l : Line Action} {s : Script}
    (own : ∀ h ∈ Script.names home (l :: s), L.own h) (time : Script.timeless (l :: s)) :
    Action.Alike L home l.action l.action ∧ (∀ h ∈ Script.names home s, L.own h) ∧ Script.timeless s := by
  obtain ⟨verb, caught, a⟩ := l
  simp only [Script.names, Line.names, List.forall_mem_append] at own
  simp only [Script.timeless, Line.timeless, Bool.and_eq_true] at time
  exact ⟨Action.alike_self own.1 (by simp [hb]) (.inr time.1), own.2, time.2⟩

namespace Scenario

variable {L : Lens} {m p : Machine}

theorem duet_side (hb : L.blind = false) (ht : L.timed = false) (b : Bool) (s : List (Bool × Line Action))
    (r : Bool → Json) (h : m.Beside L p) (hP : ∀ i ∈ Script.names "" (side b s), L.own i)
    (hQ : ∀ i ∈ Script.names "" (side (!b) s), L.other.own i) (tP : Script.timeless (side b s))
    (tQ : Script.timeless (side (!b) s)) :
    side b (duet m r s).1 = reports p { register := r b } (side b s) ∧
      (duet m r s).2.Beside L (after p { register := r b } (side b s)) := by
  induction s generalizing m p r with
  | nil => exact ⟨rfl, h⟩
  | cons x s ih =>
    obtain ⟨c, l⟩ := x
    by_cases hc : c = b
    · subst hc
      rw [side_cons_self] at hP tP ⊢
      rw [side_cons_other (by simp)] at hQ tQ
      obtain ⟨hl, hP, tP⟩ := Script.alike_cons hb hP tP
      have hr := h.alike.registerAfter { register := r c } hl
      have hs := ih (Function.update r c (m.registerAfter { register := r c } l.action))
        (h.line_own (f := { register := r c }) ht hl) hP hQ tP tQ
      rw [Function.update_self] at hs
      have hl' := h.report_eq (f := { register := r c }) hb ht hl
      simp only [duet, side_cons_self, reports, after, hr]
      exact ⟨congrArg₂ List.cons hl' hs.1, hs.2⟩
    · obtain rfl : c = !b := by cases c <;> cases b <;> simp_all
      rw [side_cons_other hc] at hP tP ⊢
      rw [side_cons_self] at hQ tQ
      obtain ⟨hl, hQ, tQ⟩ := Script.alike_cons (L := L.other) hb hQ tQ
      have hs := ih (Function.update r (!b) (m.registerAfter { register := r (!b) } l.action))
        (h.line_other (f := { register := r (!b) }) ht hl) hP hQ tP tQ
      rw [Function.update_of_ne (Ne.symm hc)] at hs
      simp only [duet, side_cons_other hc]
      exact hs

/-- What a side of a run gets is what its script gets alone: the reports on its lines, and in the end all that
goes by its handles. -/
structure Undisturbed (m : Machine) (b : Bool) (s : Script) (run : List (Bool × LineReport) × Machine) : Prop where
  reports : side b run.1 = reports m {} s
  world : run.2.world.part (.ofScript s) = (after m {} s).world
  desk : run.2.desk.part (.ofScript s) = (after m {} s).desk

theorem undisturbed (catalogue : List (String × Activity)) (b : Bool) {s : List (Bool × Line Action)}
    (hd : ∀ i ∈ Script.names "" (side b s), i ∉ Script.names "" (side (!b) s)) (tP : Script.timeless (side b s))
    (tQ : Script.timeless (side (!b) s)) :
    Undisturbed { catalogue := catalogue } b (side b s) (duet { catalogue := catalogue } (fun _ ↦ .null) s) := by
  have hQ (i : String) (hi : i ∈ Script.names "" (side (!b) s)) : (Lens.ofScript (side b s)).other.own i := by
    simpa [Lens.ofScript] using fun hP ↦ hd i hP hi
  obtain ⟨hr, h⟩ := duet_side (L := .ofScript (side b s)) rfl rfl b s (fun _ ↦ .null) (.fresh _ catalogue)
    (by simp [Lens.ofScript]) hQ tP tQ
  exact ⟨hr, (h.alike.world.part_eq rfl).symm.trans (World.part_eq_self h.world),
    h.alike.desk.part_eq.symm.trans (Desk.part_eq_self h.desk)⟩

theorem registerAfter_eq {m : Machine} {f : Frame} {a : Action} (ha : ∀ how o, a ≠ .change how o) :
    m.registerAfter f a = f.register := by
  cases a with
  | change how o => exact absurd rfl (ha how o)
  | _ => rfl

theorem duet_eq {m : Machine} {s : List (Bool × Line Action)} (hs : ∀ x ∈ s, ∀ how o, x.2.action ≠ .change how o)
    (j : Json) : (duet m (fun _ ↦ j) s).1.map Prod.snd = reports m { register := j } (s.map Prod.snd) ∧
      (duet m (fun _ ↦ j) s).2 = after m { register := j } (s.map Prod.snd) := by
  induction s generalizing m with
  | nil => exact ⟨rfl, rfl⟩
  | cons x s ih =>
    obtain ⟨b, l⟩ := x
    obtain ⟨hl, hs⟩ := List.forall_mem_cons.1 hs
    have hr : m.registerAfter { register := j } l.action = j := registerAfter_eq hl
    obtain ⟨h, h'⟩ := ih hs (m := (report m { register := j } l).2)
    simp only [duet, List.map_cons, reports, after, hr, Function.update_eq_self, h, h', and_self]

/-- Two sides that share no handles leave each other alone, whatever the order of their lines, as long as nothing
waits for time; a fault on one side makes no difference to the other one. -/
theorem sides_independent (catalogue : List (String × Activity)) {P Q : Script} {s : List (Bool × Line Action)}
    (hP : side true s = P) (hQ : side false s = Q) (hd : ∀ i ∈ Script.names "" P, i ∉ Script.names "" Q)
    (tP : Script.timeless P) (tQ : Script.timeless Q) :
    let m : Machine := { catalogue := catalogue }
    let run := duet m (fun _ ↦ .null) s
    Undisturbed m true P run ∧ Undisturbed m false Q run ∧
      ((∀ x ∈ s, ∀ how o, x.2.action ≠ .change how o) →
        run.1.map Prod.snd = reports m {} (s.map Prod.snd) ∧ run.2 = after m {} (s.map Prod.snd)) := by
  subst hP hQ
  exact ⟨undisturbed catalogue true hd tP tQ, undisturbed catalogue false (fun i hi hi' ↦ hd i hi' hi) tQ tP,
    fun h ↦ duet_eq h .null⟩

end Scenario

namespace Sample

def broken : Script := pair [⟨"panic", false, .panic "boom"⟩] "s"

def sound : Script := [
  ⟨"start", false, .start "u" "u" ["alpha"] .null⟩,
  ⟨"perform", false, .perform "c" "alpha" "u" ["u"] none
    (.script [⟨"success", false, .report none ⟨.success, some (.int 1)⟩⟩] false .null)⟩,
  ⟨"finish", false, .finish "v" "u" ["c"] []⟩,
  ⟨"run", false, .run "u"⟩,
  ⟨"result", false, .ask (.result "c")⟩]

def turns : List (Bool × Line Action) := (List.zipWith (fun l k ↦ [(true, l), (false, k)]) broken sound).flatten

end Sample

/-- A node that breaks down on one side is not noticed on the other one. -/
theorem Sample.sound_beside_broken :
    let m : Machine := { catalogue := [("alpha", alpha), ("beta", beta)] }
    let run := Scenario.duet m (fun _ ↦ .null) turns
    (Scenario.after m {} broken).journal.any Event.undoes ∧
      Scenario.Undisturbed m true broken run ∧ Scenario.Undisturbed m false sound run := by
  intro m run
  have hbroken : (Scenario.after m {} broken).journal.any Event.undoes := by decide +kernel
  obtain ⟨hP, hQ, -⟩ := Scenario.sides_independent m.catalogue (s := turns) rfl rfl (by decide +kernel)
    (by decide +kernel) (by decide +kernel)
  exact ⟨hbroken, hP, hQ⟩

end ActivityGraph
