import ActivityGraph.Proofs.Breakdown
import ActivityGraph.Proofs.Preparation

namespace ActivityGraph

namespace Stride

variable {a b : Stage} {k : Key} (hs : Stride a b)

include hs

theorem clock_le : a.machine.clock ≤ b.machine.clock := by
  cases hs with
  | tick ht => exact ht
  | timer => exact Nat.le_max_left ..
  | addNode => rw [Machine.clock_addNode]
  | addTerminal => exact Nat.le_of_eq (Machine.clock_placeTerminal ..).symm
  | addRoot => rw [Machine.clock_placeTerminal]
  | _ => exact Nat.le_refl _

theorem of_launch {j : Job} (hc : b.call = some (.launch k j)) :
    (∃ n, a.machine.world.nodes.get? k = some n ∧ n.job = some j) ∨
      ∃ f i, .script f [] (.job k i) ∈ a.machine.stack ∧ j = { i with work := i.work.withRegister f.register } := by
  cases hs with
  | begin hn hj =>
    obtain ⟨rfl, rfl⟩ := Call.launch.inj (Option.some.inj hc)
    exact .inl ⟨_, hn, hj⟩
  | resume hm =>
    obtain ⟨rfl, rfl⟩ := Call.launch.inj (Option.some.inj hc)
    exact .inr ⟨_, _, hm ▸ List.mem_cons_self, rfl⟩
  | relinquish hr => exact absurd (hr _ hc) (by simp)
  | _ => simp at hc

theorem of_entrust {body : Script} {hold : Bool} {r : Json} (hc : b.call = some (.entrust k body hold r)) :
    a.call = some (.entrust k body hold r) ∨ a.call = some (.launch k ⟨[], .script body hold r⟩) := by
  cases hs with
  | start =>
    obtain ⟨rfl, rfl, rfl, rfl⟩ := Call.entrust.inj (Option.some.inj hc)
    exact .inr rfl
  | relinquish => exact .inl hc
  | _ => simp at hc

theorem of_completion (hk : k ∈ b.machine.desk.completions.values) :
    k ∈ a.machine.desk.completions.values ∨ ∃ body hold r, a.call = some (.entrust k body hold r) := by
  have erased {t : Table String Key} {id : String} (h : k ∈ (t.erase id).values) : k ∈ t.values :=
    List.count_pos_iff.1 (Nat.lt_of_lt_of_le (List.count_pos_iff.2 h) (Table.count_values_erase_le ..))
  cases hs with
  | keep | kept | join => exact .inl (Desk.completions_keep .. ▸ hk)
  | addNode => exact .inl (Machine.desk_addNode .. ▸ hk)
  | @addTerminal m c deps i body => exact .inl (m.desk_placeTerminal i c deps body ▸ hk)
  | addRoot => exact .inl (Machine.desk_placeTerminal .. ▸ hk)
  | relinquish | report => exact .inl (erased hk)
  | @entrust m l body hold r =>
    by_cases hl : l = k
    · exact .inr ⟨body, hold, r, by rw [hl]⟩
    · have hle := Table.count_values_put_le m.desk.completions l.handle l k
      rw [if_neg hl] at hle
      exact .inl (List.count_pos_iff.1 (Nat.lt_of_lt_of_le (List.count_pos_iff.2 hk) hle))
  | _ => exact .inl hk

theorem of_timer {t : Timer} (ht : t ∈ b.machine.timers) :
    t ∈ a.machine.timers ∨
      a.call = some (.launch t.node ⟨[], .timer t.after⟩) ∧ t.due = a.machine.clock + t.after.nanos := by
  cases hs with
  | addNode => exact .inl (Machine.timers_addNode .. ▸ ht)
  | @addTerminal m c deps i body => exact .inl (m.timers_placeTerminal i c deps body ▸ ht)
  | addRoot => exact .inl (Machine.timers_placeTerminal .. ▸ ht)
  | timer => exact .inl (List.mem_of_mem_filter ht)
  | timed =>
    refine (List.mem_append.1 ht).imp_right fun ht ↦ ?_
    obtain rfl := List.mem_singleton.1 ht
    exact ⟨rfl, rfl⟩
  | _ => exact .inl ht

theorem of_complete {r : Except Payload Payload} (hc : b.call = some (.complete k r)) :
    k ∈ a.machine.desk.completions.values ∨
      ∃ t ∈ a.machine.timers, t.node = k ∧ r = .error (.elapsed t.after) ∧ t.due ≤ b.machine.clock := by
  cases hs with
  | timer ht hi =>
    obtain ⟨rfl, rfl⟩ := Call.complete.inj (Option.some.inj hc)
    exact .inr ⟨_, ht, rfl, rfl, hi.trans (Nat.le_max_right ..)⟩
  | report _ hk =>
    obtain ⟨rfl, rfl⟩ := Call.complete.inj (Option.some.inj hc)
    exact .inl (List.mem_map.2 ⟨_, Table.mem_of_get? hk, rfl⟩)
  | relinquish hr => exact absurd (hr _ hc) (by simp)
  | _ => simp at hc

theorem of_timed {after : Duration} (hk : .timed k after ∈ b.machine.journal) :
    .timed k after ∈ a.machine.journal ∨ a.call = some (.launch k ⟨[], .timer after⟩) :=
  or_iff_not_imp_left.2 (hs.marks_of_new hk)

theorem timed_eq {after : Duration} (hc : a.call = some (.launch k ⟨[], .timer after⟩)) :
    b.machine.journal =
      .timed k after :: .logged (.started k (a.machine.world.label (.node k))) :: a.machine.journal := by
  obtain ⟨c, m⟩ := a
  obtain rfl : c = some (.launch k ⟨[], .timer after⟩) := hc
  cases hs with
  | lost hc => exact hc.elim
  | relinquish hr => exact absurd (hr _ rfl) (by simp)
  | timed => rfl

end Stride

/-- Whoever is to go on with the job of a node has a job of some kind, and if the node waits, its work was of that
kind as well. -/
structure Stage.Jobs (a : Stage) (k : Key) (P : Job → Prop) : Prop where
  node : ∃ n, a.machine.world.nodes.get? k = some n ∧ ∀ j, n.job = some j → P j
  /-- A preparator that runs is no longer on the list. -/
  stack : ∀ f ls j, .script f ls (.job k j) ∈ a.machine.stack → ∃ p, P ⟨p :: j.preparators, j.work⟩
  launch : ∀ j, a.call = some (.launch k j) → P j
  timed : ∀ after, .timed k after ∈ a.machine.journal → P ⟨[], .timer after⟩

/-- The end of a span that a node waited for, and that began at some time or later. -/
def Stage.Elapses (a : Stage) (k : Key) (since : Nat) (r : Except Payload Payload) : Prop :=
  ∃ after, r = .error (.elapsed after) ∧ .timed k after ∈ a.machine.journal ∧ since + after.nanos ≤ a.machine.clock

/-- A node whose work is a timer is completed by this timer only, with the span that the node waits for, which does
not begin before some time. -/
structure Stage.Ticks (a : Stage) (k : Key) (since : Nat) : Prop where
  jobs : a.Jobs k fun j ↦ ∃ after, j.work = .timer after
  unheld : k ∉ a.machine.desk.completions.values
  unentrusted : ∀ body hold r, a.call ≠ some (.entrust k body hold r)
  /-- A start that is still to come is no exception. -/
  clock : since ≤ a.machine.clock
  timers : ∀ t ∈ a.machine.timers, t.node = k → .timed k t.after ∈ a.machine.journal ∧ since + t.after.nanos ≤ t.due
  complete : ∀ r, a.call = some (.complete k r) → a.Elapses k since r
  reported : ∀ r, .reported k r ∈ a.machine.journal → a.Elapses k since r

namespace Stride

variable {a b : Stage} {k : Key} {since : Nat}

theorem jobs (hs : Stride a b) (ha : a.Reached) {P : Job → Prop}
    (hP : ∀ p ps w r, P ⟨p :: ps, w⟩ → P ⟨ps, w.withRegister r⟩) (h : a.Jobs k P) : b.Jobs k P where
  node := by
    obtain ⟨n, hn, hw⟩ := h.node
    obtain ⟨p, hp, hk⟩ := hs.node ha hn
    refine ⟨p, hp, fun j hj ↦ ?_⟩
    rcases hk.job with hsame | hnone
    · exact hw j (hsame ▸ hj)
    · simp [hnone] at hj
  stack f ls j ht := by
    rcases hs.stacks _ ht with ho | ⟨⟨p, hc⟩, -⟩ | ⟨g, ls', ho⟩
    · exact h.stack f ls j ho
    · exact ⟨p, h.launch _ hc⟩
    · exact h.stack g ls' j ho
  launch j hc := by
    rcases hs.of_launch hc with ⟨p, hp, hj⟩ | ⟨f, i, ht, rfl⟩
    · obtain ⟨n, hn, hw⟩ := h.node
      obtain rfl := Option.some.inj (hn.symm.trans hp)
      exact hw j hj
    · obtain ⟨p, hp⟩ := h.stack f [] i ht
      exact hP p i.preparators i.work f.register hp
  timed after hk := (hs.of_timed hk).elim (h.timed after) (h.launch _)

theorem elapses (hs : Stride a b) {r : Except Payload Payload} (h : a.Elapses k since r) : b.Elapses k since r := by
  obtain ⟨after, hr, hk, hle⟩ := h
  exact ⟨after, hr, hs.mem_journal hk, hle.trans hs.clock_le⟩

theorem ticks (hs : Stride a b) (ha : a.Reached) (h : a.Ticks k since) : b.Ticks k since where
  jobs := by
    refine hs.jobs ha ?_ h.jobs
    rintro p ps w r ⟨after, rfl⟩
    exact ⟨_, rfl⟩
  unheld hk := by
    rcases hs.of_completion hk with ho | ⟨body, hold, r, hc⟩
    · exact h.unheld ho
    · exact h.unentrusted body hold r hc
  unentrusted body hold r hc := by
    rcases hs.of_entrust hc with ho | hl
    · exact h.unentrusted body hold r ho
    · obtain ⟨after, hw⟩ := h.jobs.launch _ hl
      cases hw
  clock := h.clock.trans hs.clock_le
  timers t ht hk := by
    rcases hs.of_timer ht with ho | ⟨hl, hdue⟩
    · exact (h.timers t ho hk).imp_left hs.mem_journal
    · subst hk
      exact ⟨hs.timed_eq hl ▸ List.mem_cons_self, hdue ▸ Nat.add_le_add_right h.clock _⟩
  complete r hc := by
    rcases hs.of_complete hc with ho | ⟨t, ht, hk, hr, hle⟩
    · exact absurd ho h.unheld
    · obtain ⟨htimed, hdue⟩ := h.timers t ht hk
      exact ⟨t.after, hr, hs.mem_journal htimed, hdue.trans hle⟩
  reported r hr := by
    by_cases hold : .reported k r ∈ a.machine.journal
    · exact hs.elapses (h.reported r hold)
    · obtain ⟨n, o, -, hc, -⟩ := hs.marks_of_new hr hold
      exact hs.elapses (h.complete r hc)

end Stride

namespace Stage

variable {a b : Stage} {k : Key} {since : Nat}

theorem Before.jobs (hb : a.Before b) (ha : a.Reached) {P : Job → Prop}
    (hP : ∀ p ps w r, P ⟨p :: ps, w⟩ → P ⟨ps, w.withRegister r⟩) (h : a.Jobs k P) : b.Jobs k P := by
  induction hb with
  | refl => exact h
  | tail hb hs ih => exact hs.jobs (ha.before hb) hP ih

theorem Before.ticks (hb : a.Before b) (ha : a.Reached) (h : a.Ticks k since) : b.Ticks k since := by
  induction hb with
  | refl => exact h
  | tail hb hs ih => exact hs.ticks (ha.before hb) ih

theorem Reached.undecided (h : a.Reached) {j : Job} (hc : a.call = some (.launch k j)) :
    decisions k a.machine.journal = 0 := by
  have hle := h.before_le k
  have hone := a.machine.world.knows_le k
  simp only [Stage.before, hc, Option.elim_some, Call.prepares, if_true] at hle
  omega

theorem Reached.timed (h : a.Reached) {after : Duration} (hk : .timed k after ∈ a.machine.journal) :
    0 < startings k a.machine.journal ∧ ∀ d, .timed k d ∈ a.machine.journal → d = after := by
  revert after
  refine h.invariant (P := fun a ↦ ∀ {after}, .timed k after ∈ a.machine.journal →
    0 < startings k a.machine.journal ∧ ∀ d, .timed k d ∈ a.machine.journal → d = after) (by simp) ?_
  intro a b h ih hs after hk
  -- the first span begins with the start, so that none was there before
  have hnew {d : Duration} (hc : a.call = some (.launch k ⟨[], .timer d⟩)) (e : Duration) :
      .timed k e ∉ a.machine.journal := fun he ↦
    absurd (ih he).1 (Nat.not_lt.2 (Nat.le_of_eq (Nat.add_eq_zero_iff.1 (h.undecided hc)).1))
  rcases hs.of_timed hk with hold | hc
  · obtain ⟨hst, hall⟩ := ih hold
    refine ⟨Nat.lt_of_lt_of_le hst (hs.countP_le _), fun d hd ↦ ?_⟩
    rcases hs.of_timed hd with hd | hc
    · exact hall d hd
    · exact absurd hold (hnew hc after)
  · have hj := hs.timed_eq hc
    refine ⟨?_, fun d hd ↦ ?_⟩
    · rw [hj]
      exact List.countP_pos_iff.2 ⟨_, List.mem_cons_of_mem _ List.mem_cons_self, by simp [Event.starts]⟩
    · simpa [hj, hnew hc d] using hd

/-- As long as a node is not started, its span is still to pass in full, whichever it is. -/
theorem Jobs.ticks (h : a.Jobs k fun j ↦ ∃ after, j.work = .timer after) (ha : a.Reached)
    (hst : startings k a.machine.journal = 0) : a.Ticks k a.machine.clock := by
  have hduring := ha.unstarted hst
  have hle := ha.during_le k
  have hreported : reportings k a.machine.journal = 0 := by omega
  refine ⟨h, fun hk ↦ ?_, fun body hold r hc ↦ ?_, Nat.le_refl _, fun t ht hk ↦ ?_, fun r hc ↦ ?_, fun r hr ↦ ?_⟩
  · have hpos := List.count_pos_iff.2 hk
    unfold Stage.during at hduring
    omega
  · simp [Stage.during, hc, Call.reports] at hduring
  · have hpos : 0 < a.machine.timers.countP fun t ↦ t.node = k := List.countP_pos_iff.2 ⟨t, ht, by simp [hk]⟩
    unfold Stage.during at hduring
    omega
  · simp [Stage.during, hc, Call.reports] at hduring
  · exact absurd (reportings_pos.2 ⟨r, hr⟩) (Nat.not_lt.2 (Nat.le_of_eq hreported))

end Stage

theorem Policy.rule_failure (p : Policy) (f : Payload) :
    (p.rule { state := .failure f }).record = ⟨.failure f, p.required⟩ ∧
      ((p.rule { state := .failure f }).signal = .ok .cancel ↔
        p.required ∧ ∀ j, p.ifFailed = some j → j.test f = .holds true) := by
  cases hr : p.required with
  | false => simp [rule, rejects, hr]
  | true =>
    cases hj : p.ifFailed with
    | none => simp [rule, rejects, cascades, consult, Record.cancel, hr, hj]
    | some j =>
      cases ht : j.test f with
      | broken text => simp [rule, rejects, cascades, consult, Record.cancel, hr, hj, ht]
      | holds b => cases b <;> simp [rule, rejects, cascades, consult, Record.cancel, hr, hj, ht]

/-- How far a deadline has got: it is pending or abandoned, or the span that it waited for has elapsed, once. -/
inductive Lapse (j : List Event) (k : Key) (n : Node) : Prop
  | pending (record : n.record = {}) (reported : reportings k j = 0) (abandoned : abandonings k j = 0)
  | abandoned (record : n.record = { canceled := true }) (abandoned : abandonings k j = 1)
      (started : startings k j = 0) (reported : reportings k j = 0)
  | elapsed {after : Duration} (timed : ∀ d, .timed k d ∈ j ↔ d = after)
      (record : n.record = ⟨.failure (.elapsed after), n.policy.required⟩)
      (report : ∀ r, .reported k r ∈ j ↔ r = .error (.elapsed after)) (reported : reportings k j = 1)
      (started : startings k j = 1) (abandoned : abandonings k j = 0)

theorem Stage.Ticks.lapse {a : Stage} {k : Key} {since : Nat} (h : a.Ticks k since) (ha : a.Reached) {n : Node}
    (hn : a.machine.world.nodes.get? k = some n) : Lapse a.machine.journal k n := by
  cases ha.fate hn with
  | untouched hrec hrep hab => exact .pending hrec hrep hab
  | abandoned hrec hab hst hrep => exact .abandoned hrec hab hst hrep
  | reported r hmem _ hrec hrep hst hab =>
    obtain ⟨after, rfl, htimed, -⟩ := h.reported r hmem
    have hspan := (ha.timed htimed).2
    refine .elapsed (fun d ↦ ⟨hspan d, ?_⟩) (hrec.trans (n.policy.rule_failure _).1) (fun r ↦ ⟨fun hr ↦ ?_, ?_⟩)
      hrep hst hab
    · rintro rfl
      exact htimed
    · obtain ⟨d, rfl, hd, -⟩ := h.reported r hr
      rw [hspan d hd]
    · rintro rfl
      exact hmem

/-- A waiter that was not let go: a node of which nothing was begun and that was not abandoned, or a terminal that
was not called. -/
def Unreleased (j : List Event) : Waiter → Prop
  | .node l => invocations l j = 0 ∧ abandonings l j = 0
  | .terminal u => callings u j = 0
  | .probe _ => True

/-- What comes of a waiter that heard from all that it waits for. A node is abandoned if some of it is canceled,
and invoked if none is; a terminal is called either way. -/
def Machine.Heeds (m : Machine) : Waiter → Prop
  | .node l =>
    (0 < abandonings l m.journal ↔ ∃ s ∈ accepted (.node l) m.journal, m.world.final? s = some .cancel) ∧
    (0 < invocations l m.journal ↔ ∀ s ∈ accepted (.node l) m.journal, m.world.final? s = some .done)
  | .terminal u => callings u m.journal = 1
  | .probe _ => True

namespace Stage.Reached

variable {a : Stage} {k : Key} {x : Waiter}

theorem unreleased (h : a.Reached) {s : Source} (hs : s ∈ accepted x a.machine.journal)
    (hf : a.machine.world.final? s = none) : Unreleased a.machine.journal x := by
  have shut (hx : x.bare = false) (c : Bool) : ¬ a.machine.world.Shut x c := fun hc ↦ by
    obtain ⟨d, hd, -⟩ := h.resolved hx hc hs
    exact absurd (hf.symm.trans hd) (by simp)
  cases x with
  | node l =>
    refine ⟨Nat.eq_zero_of_not_pos fun hi ↦ shut rfl false (h.invoked_shut hi), ?_⟩
    exact Nat.eq_zero_of_not_pos fun hab ↦ shut rfl true (h.abandoned_shut hab)
  | terminal u =>
    refine Nat.eq_zero_of_not_pos fun hu ↦ ?_
    obtain ⟨c, hc⟩ := h.called_shut hu
    exact shut rfl c hc
  | probe => trivial

theorem unruled (h : a.Reached) {r : Except Payload Payload} {text : String} {n : Node}
    (hk : .reported k r ∈ a.machine.journal) (hn : a.machine.world.nodes.get? k = some n)
    (hg : (n.policy.rule { state := .ofResult r }).signal = .error text) : a.after k = 0 := by
  revert n hk
  refine h.invariant (P := fun a ↦ ∀ {n}, .reported k r ∈ a.machine.journal → a.machine.world.nodes.get? k = some n →
    (n.policy.rule { state := .ofResult r }).signal = .error text → a.after k = 0) (by simp) ?_
  intro a b h ih hs q hk hq hg
  by_cases ha : .reported k r ∈ a.machine.journal
  · obtain ⟨n, hn, hdue, -⟩ := h.reported ha
    obtain ⟨p, hp, hkeep⟩ := hs.node h hn
    obtain rfl := Option.some.inj (hq.symm.trans hp)
    have hundue := hs.undue h hn (by rw [hdue, ih ha hn (hkeep.policy ▸ hg)])
    exact Nat.eq_zero_of_add_eq_zero_left hundue
  · obtain ⟨n, o, hn, hc, ho, hb, -⟩ := hs.marks_of_new hk ha
    obtain rfl := Option.some.inj (hq.symm.trans hb)
    obtain ⟨p, hp, hreport⟩ := h.takes hc
    obtain rfl := Option.some.inj (hn.symm.trans hp)
    obtain rfl := Except.ok.inj (ho.symm.trans hreport)
    have hrests := h.rests_eq_zero (k := k) (by
      simp only [Stage.due, Stage.during, hc, Option.elim_some, Call.reports, if_true]
      omega)
    obtain ⟨c, m⟩ := a
    obtain rfl := hc
    cases hs with
    | lost | repeated => exact absurd hk ha
    | relinquish hr => exact absurd (hr _ rfl) (by simp)
    | broken => exact (World.rests_modifyNode rfl (by intro _; rfl)).trans hrests
    | completed hn' ho' hg' =>
      obtain rfl := Option.some.inj (hn.symm.trans hn')
      obtain rfl := Except.ok.inj (ho.symm.trans ho')
      exact absurd (hg.symm.trans hg') (by simp)

theorem signal_of_reported {m : Machine} (h : Stage.Reached ⟨none, m⟩) {r : Except Payload Payload} {n : Node}
    (hk : .reported k r ∈ m.journal) (hn : m.world.nodes.get? k = some n) (g : Signal) :
    n.signal = some g ↔ (n.policy.rule { state := .ofResult r }).signal = .ok g := by
  cases hg : (n.policy.rule { state := .ofResult r }).signal with
  | error text =>
    have hnone : n.signal = none := World.signal_of_rests hn (Nat.eq_zero_of_add_eq_zero_right (h.unruled hk hn hg))
    simp [hnone]
  | ok d =>
    obtain ⟨p, hp, -, -, hsettles⟩ := h.reported hk
    obtain rfl := Option.some.inj (hn.symm.trans hp)
    simp [(hsettles d hg).signal_eq]

theorem shut_of_told (h : a.Reached) (hx : x.bare = false) (hne : accepted x a.machine.journal ≠ [])
    (ht : told x a.machine.journal = accepted x a.machine.journal) :
    ∃ c, a.machine.world.Shut x c ∧
      (c = true ↔ ∃ s ∈ accepted x a.machine.journal, a.machine.world.final? s = some .cancel) := by
  have hg := h.gated hx
  cases hb : a.machine.world.barriers.get? x with
  | none => exact absurd (hg.absent hb).1 hne
  | some b =>
    have hfits := hg.fits hb
    have hcount := hfits.count
    have hcard : (heard x a.machine.journal).length = (accepted x a.machine.journal).length := by
      simpa [told] using congrArg Multiset.card ht
    have hclosed : b.closed := by
      by_contra ho
      exact hne (hfits.idle (Bool.eq_false_iff.2 ho) (by omega))
    refine ⟨b.canceled, ⟨b, hb, hclosed, rfl⟩, fun hc ↦ ?_, ?_⟩
    · exact h.resolved_cancel hx ⟨b, hb, hclosed, hc⟩
    · rintro ⟨s, hs, hcancel⟩
      obtain ⟨d, hd, himp⟩ := h.resolved hx ⟨b, hb, hclosed, rfl⟩ hs
      cases d with
      | true => exact himp rfl
      | false => exact absurd (hcancel.symm.trans hd) (by simp)

end Stage.Reached

namespace Machine

variable {m : Machine} {k : Key} {x : Waiter}

theorem heeds (h : Stage.Reached ⟨none, m⟩) (hne : accepted x m.journal ≠ [])
    (ht : told x m.journal = accepted x m.journal) : m.Heeds x := by
  cases x with
  | node l =>
    obtain ⟨c, hshut, hcancel⟩ := h.shut_of_told rfl hne ht
    obtain ⟨p, hp⟩ := Option.isSome_iff_exists.1 (show (m.world.nodes.get? l).isSome by
      simpa [World.knows] using h.knows_of_shut hshut)
    have hdone : c = false ↔ ∀ s ∈ accepted (.node l) m.journal, m.world.final? s = some .done := by
      constructor
      · rintro rfl
        exact ((h.passed hshut).resolve_left fun hnil ↦ hne hnil.1).2
      · intro hall
        refine Bool.eq_false_iff.2 fun hc ↦ ?_
        obtain ⟨s, hs, hcancel⟩ := hcancel.1 hc
        exact absurd ((hall s hs).symm.trans hcancel) (by simp)
    refine ⟨⟨fun hab ↦ ?_, fun hc ↦ ?_⟩, ⟨fun hi ↦ ?_, fun hall ↦ ?_⟩⟩
    · exact hcancel.1 (hshut.canceled_eq (h.abandoned_shut hab))
    · refine abandoned_of_gone h hp (h.waits_of_shut hshut) (Nat.eq_zero_of_not_pos fun hi ↦ ?_)
      exact absurd ((hcancel.2 hc).symm.trans (hshut.canceled_eq (h.invoked_shut hi))) (by simp)
    · exact hdone.1 (hshut.canceled_eq (h.invoked_shut hi))
    · refine Nat.pos_of_ne_zero fun hi ↦ ?_
      have hab := abandoned_of_gone h hp (h.waits_of_shut hshut) hi
      exact absurd ((hdone.2 hall).symm.trans (hshut.canceled_eq (h.abandoned_shut hab))) (by simp)
  | terminal u =>
    obtain ⟨c, hshut, -⟩ := h.shut_of_told rfl hne ht
    exact h.called hshut
  | probe => trivial

theorem Takes.jobs {n : Machine} {f : Frame} {l : Line Action} (h : m.Takes f l n) (hm : m.Reachable) {id : String}
    {deps : List String} {setup : Option (List (Step Script))} {work : Work Script} {y : Activity} {c : Key}
    {ss : List Source} (hl : m.Performs l id deps setup work y c ss) {P : Job → Prop}
    (hP : P ⟨(setup.getD []).filterMap Step.prepare?, work⟩) :
    Stage.Jobs ⟨none, n⟩ (m.world.nodes.fresh id) P := by
  have hr : Stage.Reached ⟨none, n⟩ := (hm.later (.single h.next)).reached
  have hn := h.node hl hm
  have hzero : invocations (m.world.nodes.fresh id) n.journal = 0 := hr.uninvoked_of_job hn rfl
  refine ⟨⟨_, hn, fun j hj ↦ ?_⟩, fun f ls j ht ↦ ?_, by simp, fun d hd ↦ ?_⟩
  · obtain rfl := Option.some.inj hj
    rwa [Setup.ofSteps_eq]
  · exact absurd (hr.prepared ht) (Nat.not_lt.2 (Nat.le_of_eq hzero))
  · have hst := Nat.lt_of_lt_of_le (hr.timed hd).1 (startings_le_invocations _ n.journal)
    exact absurd hst (Nat.not_lt.2 (Nat.le_of_eq hzero))

/-- Whenever a node is performed with a timer for its work, whatever else goes on, and whenever the runtime lets
timers go off: it elapses once at most, and then with the failure that tells the span that it waited for, which is
its own unless a preparator left another; not before this span has passed since the last time at which the node was
not started; and never if it is abandoned. What waits for it is not let go as long as anything that it waits for
is not final, the deadline itself or some other work. A deadline that has elapsed is canceled for what waits for it
if and only if it is required and no predicate for failures was set or the one that was set last agrees. A node
that heard from all that it waits for is abandoned if some of it is canceled, and only then. -/
theorem Reachable.deadline_law {n : Machine} (hm : m.Reachable) {f : Frame} {l : Line Action} {id : String}
    {deps : List String} {setup : Option (List (Step Script))} {span : Duration} {y : Activity} {c : Key}
    {ss : List Source} (hl : m.Performs l id deps setup (.timer span) y c ss) (hn : m.Takes f l n)
    (hk : k = m.world.nodes.fresh id) :
    (∀ a : Stage, Stage.Before ⟨none, n⟩ a →
      (∃ p, a.machine.world.nodes.get? k = some p ∧ Lapse a.machine.journal k p) ∧
      ((setup.getD []).filterMap Step.prepare? = [] → ∀ d, .timed k d ∈ a.machine.journal → d = span) ∧
      (∀ b : Stage, a.Before b → startings k a.machine.journal = 0 → ∀ after,
        .reported k (.error (.elapsed after)) ∈ b.machine.journal → a.machine.clock + after.nanos ≤ b.machine.clock) ∧
      ∀ x, .node k ∈ accepted x a.machine.journal → ∀ s ∈ accepted x a.machine.journal,
        a.machine.world.final? s = none → Unreleased a.machine.journal x) ∧
    ∀ p, Later n p →
      (∀ after, .reported k (.error (.elapsed after)) ∈ p.journal → (p.world.final? (.node k) = some .cancel ↔
        (Setup.last Step.required? (setup.getD [])).getD true ∧
          ∀ j, Setup.last Step.ifFailed? (setup.getD []) = some j → j.test (.elapsed after) = .holds true)) ∧
      ∀ x, .node k ∈ accepted x p.journal → told x p.journal = accepted x p.journal → p.Heeds x := by
  have hr : Stage.Reached ⟨none, n⟩ := (hm.later (.single hn.next)).reached
  have hnode : n.world.nodes.get? k = some (m.newNode y c (.ofSteps (setup.getD [])) (.timer span)) :=
    hk ▸ hn.node hl hm
  have hunstarted : startings k n.journal = 0 :=
    Nat.eq_zero_of_le_zero (hr.uninvoked_of_job hnode rfl ▸ startings_le_invocations k n.journal)
  have hticks {a : Stage} (ha : Stage.Before ⟨none, n⟩ a) : a.Ticks k n.clock :=
    ha.ticks hr ((hk ▸ hn.jobs hm hl ⟨span, rfl⟩ : Stage.Jobs ⟨none, n⟩ k _).ticks hr hunstarted)
  refine ⟨fun a ha ↦ ⟨?_, fun hnone d hd ↦ ?_, fun b hb hst after hrep ↦ ?_,
    fun x _ s hs hf ↦ (hr.before ha).unreleased hs hf⟩, fun p hp ↦ ⟨fun after hrep ↦ ?_, fun x hx ht ↦ ?_⟩⟩
  · obtain ⟨p, hp, -⟩ := (hticks ha).jobs.node
    exact ⟨p, hp, (hticks ha).lapse (hr.before ha) hp⟩
  · -- a job without preparators stays as it is
    have hjobs : a.Jobs k fun j ↦ j = ⟨[], .timer span⟩ :=
      ha.jobs hr (by simp) (hk ▸ hn.jobs hm hl (by rw [hnone]))
    exact Work.timer.inj (Job.mk.inj (hjobs.timed d hd)).2
  · have hra := hr.before ha
    obtain ⟨d, he, -, hle⟩ := (hb.ticks hra ((hticks ha).jobs.ticks hra hst)).reported _ hrep
    obtain rfl := Payload.elapsed.inj (Except.error.inj he)
    exact hle
  · obtain ⟨q, hq, hpolicy, -⟩ := hp.before.keeps_policy hr hnode
    have hfields := hpolicy.trans (congrArg Setup.policy (Setup.ofSteps_eq (setup.getD [])))
    have hrule := (q.policy.rule_failure (.elapsed after)).2
    rw [World.final?_node hq]
    refine ((hr.before hp.before).signal_of_reported hrep hq .cancel).trans (hrule.trans ?_)
    rw [hfields]
  · exact heeds (hr.before hp.before) (List.ne_nil_of_mem hx) ht

end Machine

namespace Sample

def bell : Activity := ⟨"bell", .unit, .elapsed⟩

def chime : Activity := ⟨"chime", .unit, .elapsed⟩

def tower : Machine := Machine.play { catalogue := [("bell", bell), ("chime", chime), ("beta", beta)] }
  [⟨"start", false, .start "s" "s" ["bell", "chime", "beta"] .null⟩]

def rings : Line Action := ⟨"perform", false, .perform "d" "bell" "s" ["s"]
  (some [.prepare 0 [⟨"set", false, .change .set (.value (.int 30000000))⟩]]) (.timer (.ofMillis 90))⟩

def eve : Machine := (Scenario.report tower {} rings).2.play [
  ⟨"perform", false, .perform "e" "chime" "s" ["s"] (some [.required false]) (.timer (.ofMillis 50))⟩,
  ⟨"perform", false, .perform "b" "beta" "s" ["d", "e"] none (.script [] true .null)⟩,
  ⟨"advance", false, .advance (.ofMillis 20) .prompt⟩]

def asleep : Runtime where
  next? _ _ _ := none
  pending h := nomatch h
  due h := nomatch h

def advances : Script := [
  ⟨"run", false, .run "s"⟩,
  ⟨"advance", false, .advance (.ofMillis 20) .prompt⟩,
  ⟨"advance", false, .advance (.ofMillis 20) asleep⟩,
  ⟨"advance", false, .advance (.ofMillis 0) .prompt⟩,
  ⟨"advance", false, .advance (.ofMillis 20) .prompt⟩]

def tolled (i : Nat) : Machine := eve.play (advances.take i)

theorem tower_performs : tower.Performs rings "d" ["s"]
    (some [.prepare 0 [⟨"set", false, .change .set (.value (.int 30000000))⟩]]) (.timer (.ofMillis 90)) bell ⟨"s", 0⟩
    [.start ⟨"s", 0⟩] :=
  Machine.performs_of_find rfl (by decide +kernel) (by decide +kernel) rfl

/-- The first deadline elapses as soon as timers go off again, with the span that its preparator left, and cancels
the node, which goes on to wait for the second one. That is not required, but as soon as it elapses the node is
abandoned. -/
theorem slower_of_two_deadlines :
    eve.clock = 20000000 ∧ reportings ⟨"d", 0⟩ (tolled 3).journal = 0 ∧
    .reported ⟨"d", 0⟩ (.error (.elapsed ⟨30000000⟩)) ∈ (tolled 4).journal ∧
    20000000 + 30000000 ≤ (tolled 4).clock ∧ (tolled 4).world.final? (.node ⟨"d", 0⟩) = some .cancel ∧
    (∃ p, (tolled 4).world.nodes.get? ⟨"d", 0⟩ = some p ∧ Lapse (tolled 4).journal ⟨"d", 0⟩ p) ∧
    (tolled 4).world.final? (.node ⟨"e", 0⟩) = none ∧ Unreleased (tolled 4).journal (.node ⟨"b", 0⟩) ∧
    (tolled 5).world.final? (.node ⟨"e", 0⟩) = some .done ∧ 0 < abandonings ⟨"b", 0⟩ (tolled 5).journal := by
  have hm : tower.Reachable := ⟨_, .play rfl _⟩
  have hn : tower.Takes {} rings (Scenario.start tower {} rings) := .outer (Machine.stack_play rfl _)
  have hk : (⟨"d", 0⟩ : Key) = tower.world.nodes.fresh "d" := by decide +kernel
  have heve : Machine.Later (Scenario.start tower {} rings) eve :=
    (Machine.Later.run _ _).trans (Machine.Later.play (Machine.stack_finish _) _)
  have hafter (i : Nat) : Machine.Later eve (tolled i) :=
    Machine.Later.play (Machine.stack_play (Machine.stack_finish _) _) _
  have hlater (i : Nat) : Machine.Later (Scenario.start tower {} rings) (tolled i) := heve.trans (hafter i)
  have hopen : (tolled 4).world.final? (.node ⟨"e", 0⟩) = none := by decide +kernel
  have hclock : eve.clock = 20000000 := by decide +kernel
  obtain ⟨hstages, hends⟩ := hm.deadline_law tower_performs hn hk
  obtain ⟨-, -, hearly, -⟩ := hstages _ heve.before
  obtain ⟨hlapse, -, -, hwaits⟩ := hstages _ (hlater 4).before
  have hstate : ((tolled 4).world.nodes.get? ⟨"d", 0⟩).map (fun p ↦ p.record.state) =
      some (.failure (.elapsed ⟨30000000⟩)) := by decide +kernel
  have hreported : .reported ⟨"d", 0⟩ (.error (.elapsed ⟨30000000⟩)) ∈ (tolled 4).journal := by
    obtain ⟨p, hp, hlapse⟩ := hlapse
    rw [show (tolled 4).world.nodes.get? ⟨"d", 0⟩ = some p from hp] at hstate
    have hrecord : p.record.state = .failure (.elapsed ⟨30000000⟩) := Option.some.inj hstate
    cases hlapse with
    | pending record => simp [record] at hrecord
    | abandoned record => simp [record] at hrecord
    | elapsed _ record report =>
      rw [record] at hrecord
      exact (report _).2 (congrArg Except.error (State.failure.inj hrecord).symm)
  have hpassed := hearly _ (hafter 4).before (by decide +kernel) _ hreported
  have hcancel := ((hends _ (hlater 4)).1 _ hreported).2 ⟨rfl, by simp [Setup.last, Step.ifFailed?]⟩
  have hheeds := (hends _ (hlater 5)).2 (.node ⟨"b", 0⟩) (by decide +kernel) (Multiset.coe_eq_coe.2 (by decide +kernel))
  refine ⟨hclock, by decide +kernel, hreported, hclock ▸ hpassed, hcancel, hlapse, hopen, ?_, by decide +kernel, ?_⟩
  · exact hwaits _ (by decide +kernel) _ (by decide +kernel) hopen
  · exact hheeds.1.2 ⟨.node ⟨"d", 0⟩, by decide +kernel, by decide +kernel⟩

end Sample

end ActivityGraph
