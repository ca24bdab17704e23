import ActivityGraph.Proofs.Cell
import ActivityGraph.Proofs.Completion
import ActivityGraph.Proofs.History
import ActivityGraph.Proofs.Standstill

namespace ActivityGraph

theorem World.rests_pos_iff {w : World} {k : Key} :
    0 < w.rests k ↔ ∃ n, w.nodes.get? k = some n ∧ ∃ g, n.signal = some g := by
  cases hn : w.nodes.get? k with
  | none => simp [World.rests, hn]
  | some n => cases hg : n.signal <;> simp [World.rests, hn, hg]

theorem Stride.cause {a b : Stage} (hs : Stride a b) {k : Key} (ha : a.after k = 0)
    (hb : 0 < b.call.elim 0 (Call.settles k)) :
    0 < abandonings k b.machine.journal ∨ 0 < reportings k b.machine.journal := by
  cases hs with
  | @abandon m l n =>
    have hl : l = k := by_contra fun hne ↦ by simp [Call.settles, hne] at hb
    exact .inl (by simp [abandonings, Event.abandons, hl])
  | @completed m l n r =>
    have hl : l = k := by_contra fun hne ↦ by simp [Call.settles, hne] at hb
    exact .inr (reportings_pos.2 ⟨r, by simp [hl]⟩)
  | stored | unstored | relinquish => exact absurd ha (Nat.ne_of_gt (Nat.lt_of_lt_of_le hb (Nat.le_add_left _ _)))
  | _ => exact absurd hb (Nat.lt_irrefl 0)

namespace Stage.Reached

variable {a : Stage} {k : Key}

theorem caused (h : a.Reached) (ha : 0 < a.after k) :
    0 < abandonings k a.machine.journal ∨ 0 < reportings k a.machine.journal := by
  revert ha
  refine h.invariant (P := fun a ↦ 0 < a.after k →
    0 < abandonings k a.machine.journal ∨ 0 < reportings k a.machine.journal)
    (fun _ ha ↦ absurd ha (Nat.lt_irrefl 0)) fun a b h ih hs hb ↦ ?_
  by_cases ha : a.after k = 0
  · refine hs.cause ha (Nat.pos_of_ne_zero fun hc ↦ ?_)
    -- no call gives the node a signal, so it had it before
    rw [Stage.after, hc, Nat.add_zero, World.rests_pos_iff] at hb
    obtain ⟨p, hp, g, hg⟩ := hb
    cases hn : a.machine.world.nodes.get? k with
    | none => simp [(hs.born hn hp).2.1] at hg
    | some n =>
      obtain ⟨q, hq, hkeep⟩ := hs.node h hn
      obtain rfl := Option.some.inj (hp.symm.trans hq)
      rcases hkeep.told with hsame | ⟨d, hd⟩
      · have hrests := World.rests_pos_iff.2 ⟨n, hn, g, hsame ▸ hg⟩
        exact absurd ha (Nat.ne_of_gt (Nat.lt_of_lt_of_le hrests (Nat.le_add_right _ _)))
      · simp [Stage.after, hd, Call.settles] at ha
  · refine (ih (Nat.pos_of_ne_zero ha)).imp ?_ ?_
    · exact fun hle ↦ Nat.lt_of_lt_of_le hle (hs.countP_le _)
    · exact fun hle ↦ Nat.lt_of_lt_of_le hle (hs.countP_le _)

theorem after_eq_zero (h : a.Reached) (hab : abandonings k a.machine.journal = 0)
    (hrep : reportings k a.machine.journal = 0) : a.after k = 0 := by
  refine Nat.eq_zero_of_not_pos fun ha ↦ ?_
  rcases h.caused ha with hpos | hpos
  · exact absurd hab (Nat.ne_of_gt hpos)
  · exact absurd hrep (Nat.ne_of_gt hpos)

theorem ruled (h : a.Reached) {r : Except Payload Payload} (hk : .reported k r ∈ a.machine.journal) :
    (∃ f, .unwound f (.ruling k) ∈ a.machine.journal) ∨
      ∃ n g, a.machine.world.nodes.get? k = some n ∧ a.Settles k n g := by
  revert hk
  refine h.invariant (P := fun a ↦ .reported k r ∈ a.machine.journal →
    (∃ f, .unwound f (.ruling k) ∈ a.machine.journal) ∨
      ∃ n g, a.machine.world.nodes.get? k = some n ∧ a.Settles k n g) (by simp) fun a b h ih hs hk ↦ ?_
  by_cases ha : .reported k r ∈ a.machine.journal
  · rcases ih ha with ⟨f, hf⟩ | ⟨n, g, hn, hg⟩
    · exact .inl ⟨f, hs.mem_journal hf⟩
    · obtain ⟨p, hp, hkeep⟩ := hs.node h hn
      exact .inr ⟨p, g, hp, hs.settles h hn hg hp hkeep⟩
  · obtain ⟨n, o, hn, hc, ho, hb, hg⟩ := hs.marks_of_new hk ha
    cases hsig : (n.policy.rule o).signal with
    | ok g => exact .inr ⟨_, g, hb, .inr (.inl (hg g hsig))⟩
    | error text =>
      obtain ⟨c, m⟩ := a
      obtain rfl := hc
      cases hs with
      | lost | repeated => exact absurd hk ha
      | relinquish hr => exact absurd (hr _ rfl) (by simp)
      | broken => exact .inl ⟨_, List.mem_cons_self⟩
      | @completed _ _ n' _ o' g hn' ho' hg' =>
        obtain rfl := Option.some.inj (hn.symm.trans hn')
        obtain rfl := Except.ok.inj (ho.symm.trans ho')
        exact absurd (hsig.symm.trans hg') (by simp)

theorem dropped (h : a.Reached) (hk : 0 < droppings k a.machine.journal) :
    startings k a.machine.journal = 1 ∧ droppings k a.machine.journal = 1 ∧ a.during k = 0 ∧
      reportings k a.machine.journal = 0 ∧ abandonings k a.machine.journal = 0 ∧ a.after k = 0 := by
  have heq := h.during_eq k
  have hle := h.decisions_le k
  unfold spendings at heq
  unfold decisions at hle
  exact ⟨by omega, by omega, by omega, by omega, by omega, h.after_eq_zero (by omega) (by omega)⟩

theorem stalled {m : Machine} (h : Stage.Reached ⟨none, m⟩) (hs : m.stack = []) (hi : 0 < invocations k m.journal)
    (hf : m.world.final? (.node k) = none) :
    0 < m.held k ∨ 0 < droppings k m.journal ∨ (∃ f, .unwound f (.preparation k) ∈ m.journal) ∨
      ∃ f, .unwound f (.ruling k) ∈ m.journal := by
  have hshut := h.invoked_shut hi
  by_cases hp : ∃ f, .unwound f (.preparation k) ∈ m.journal
  · exact .inr (.inr (.inl hp))
  · -- no fault left a preparator, so the node was started, and its completion is held, dropped or it reported
    have hone := h.decisions_eq hshut hs (not_exists.1 hp)
    have hab : abandonings k m.journal = 0 := Nat.eq_zero_of_not_pos fun hab ↦ by
      simpa using hshut.canceled_eq (h.abandoned_shut hab)
    have heq : m.held k + 0 + (reportings k m.journal + droppings k m.journal) = startings k m.journal :=
      h.during_eq k
    unfold decisions at hone
    by_cases hrep : 0 < reportings k m.journal
    · obtain ⟨r, hr⟩ := reportings_pos.1 hrep
      rcases h.ruled hr with hu | ⟨n, g, hn, hg⟩
      · exact .inr (.inr (.inr hu))
      · rw [World.final?_node hn, hg.signal_eq] at hf
        simp at hf
    · by_cases hd : 0 < droppings k m.journal
      · exact .inr (.inl hd)
      · exact .inl (by omega)

theorem dropped_label (h : a.Reached) {label : String} (he : .logged (.dropped k label) ∈ a.machine.journal) :
    ∃ n, a.machine.world.nodes.get? k = some n ∧ label = n.activity.label := by
  revert he
  refine h.invariant (P := fun a ↦ .logged (.dropped k label) ∈ a.machine.journal →
    ∃ n, a.machine.world.nodes.get? k = some n ∧ label = n.activity.label) (by simp) fun a b h ih hs he ↦ ?_
  by_cases hold : .logged (.dropped k label) ∈ a.machine.journal
  · obtain ⟨n, hn, hlabel⟩ := ih hold
    obtain ⟨p, hp, hkeep⟩ := hs.node h hn
    exact ⟨p, hp, hlabel.trans (congrArg Activity.label hkeep.place.2).symm⟩
  · obtain ⟨hw, hlabel⟩ := hs.marks_of_new he hold
    have hr : b.Reached := h.before (.single hs)
    -- only a node that was started has a completion to drop
    have hpos : 0 < droppings k b.machine.journal :=
      List.countP_pos_iff.2 ⟨_, he, by simp [Event.drops]⟩
    obtain ⟨d, hd, -⟩ := hr.started_shut ((hr.dropped hpos).1 ▸ Nat.one_pos)
    obtain ⟨n, hn⟩ := Option.isSome_iff_exists.1 ((hr.sound.isSome_node k).symm.trans (Option.isSome_of_eq_some hd))
    exact ⟨n, hn, hlabel.trans (World.label_node (hw ▸ hn))⟩

end Stage.Reached

theorem Entry.level_eq_warn (e : Entry) : e.level = .warn ↔ ∃ k, (Event.logged e).drops k := by
  cases e <;> simp [Entry.level, Event.drops]

namespace Machine

/-- No node stalls in silence. Between two lines, a node that was invoked and is not final has a
completion that somebody holds, or its completion was dropped, or a fault left one of its preparators or
the decision on its report. In the middle of a step too, each start hands out one completion, which is
held, has reported or was dropped; the log warns of the latter, once, by the name of the activity, and of
nothing else, and never of a node that is abandoned or final. Such a node keeps a pending record, which
it does not store, and whatever is downstream of it is never started, abandoned or called. -/
theorem Reachable.no_silent_stall {m : Machine} (hm : m.Reachable) (k : Key) :
    (m.stack = [] → 0 < invocations k m.journal → m.world.final? (.node k) = none →
      0 < m.held k ∨ 0 < droppings k m.journal ∨ (∃ f, .unwound f (.preparation k) ∈ m.journal) ∨
        ∃ f, .unwound f (.ruling k) ∈ m.journal) ∧
    (∀ a : Stage, Stage.Before ⟨none, m⟩ a →
      a.during k + reportings k a.machine.journal + droppings k a.machine.journal = startings k a.machine.journal ∧
      startings k a.machine.journal ≤ 1 ∧
      ∀ e : Entry, .logged e ∈ a.machine.journal → (e.level = .warn ↔ ∃ l, (Event.logged e).drops l) ∧
        ((Event.logged e).drops k →
          e.message = "completion dropped without success or failure, dependents will never run" ∧
          ∃ p, a.machine.world.nodes.get? k = some p ∧ e.fields = [("activity", p.activity.label)])) ∧
    (0 < droppings k m.journal → ∀ n, Later m n →
      droppings k n.journal = 1 ∧ n.held k = 0 ∧ reportings k n.journal = 0 ∧ abandonings k n.journal = 0 ∧
      n.world.final? (.node k) = none ∧ (∃ p, n.world.nodes.get? k = some p ∧ p.record = {}) ∧
      (∀ c x r, .wrote (some k) c x r ∉ n.journal) ∧
      ∀ x, Behind n.journal k x →
        (∀ l, x = .node l →
          startings l n.journal = 0 ∧ abandonings l n.journal = 0 ∧ n.world.final? (.node l) = none) ∧
        ∀ t, x = .terminal t → callings t n.journal = 0 ∧ n.world.fired t = false) := by
  have h := hm.reached
  refine ⟨fun hs hi hf ↦ h.stalled hs hi hf, fun a ha ↦ ?_, fun hk n hn ↦ ?_⟩
  · have hr := h.before ha
    have hle := hr.decisions_le k
    have heq := hr.during_eq k
    unfold decisions at hle
    unfold spendings at heq
    refine ⟨by omega, by omega, fun e he ↦ ⟨e.level_eq_warn, fun hk ↦ ?_⟩⟩
    obtain ⟨label, hl⟩ := Event.drops_iff.1 hk
    obtain rfl := Event.logged.inj hl
    obtain ⟨p, hp, rfl⟩ := hr.dropped_label he
    exact ⟨rfl, p, hp, rfl⟩
  · have hr : Stage.Reached ⟨none, n⟩ := h.before hn.before
    obtain ⟨hst, hd, hheld, hrep, hab, hafter⟩ :=
      hr.dropped (k := k) (Nat.lt_of_lt_of_le hk (Stage.Before.countP_le hn.before _))
    obtain ⟨b, hb, -⟩ := hr.started_shut (hst ▸ Nat.one_pos)
    obtain ⟨p, hp⟩ := Option.isSome_iff_exists.1 ((hr.sound.isSome_node k).symm.trans (Option.isSome_of_eq_some hb))
    have hsignal : p.signal = none := World.signal_of_rests hp (Nat.eq_zero_of_add_eq_zero_right hafter)
    have hfinal : n.world.final? (.node k) = none := (World.final?_node hp).trans hsignal
    refine ⟨hd, hheld, hrep, hab, hfinal, ⟨p, hp, ?_⟩, fun c x r hw ↦ ?_, fun x hx ↦ ⟨?_, ?_⟩⟩
    · exact (hr.written hp).resolve_right (by simp [hab, hrep])
    · have hstored := Reachable.stored_eq (hm.later hn) k
      rw [World.resolved?, hp, Option.bind_some, hsignal] at hstored
      simpa [Event.stored?] using List.filterMap_eq_nil_iff.1 hstored _ hw
    · rintro l rfl
      obtain ⟨hst, hab, -, hf⟩ := hr.still_node (hr.behind_open hfinal hx rfl)
      exact ⟨hst, hab, hf⟩
    · rintro t rfl
      exact hr.still_terminal (hr.behind_open hfinal hx rfl)

end Machine

namespace Sample

def sunk : Machine := pairMachine [⟨"panic", false, .panic "boom"⟩] "a"

/-- The log warns that the completion of the first node was dropped. Nothing behind the node ever runs, even if
somebody asks the second node to begin. -/
theorem sunk_not_silent :
    sunk.stack = [] ∧ 0 < invocations ⟨"a", 0⟩ sunk.journal ∧ sunk.world.final? (.node ⟨"a", 0⟩) = none ∧
    (0 < sunk.held ⟨"a", 0⟩ ∨ 0 < droppings ⟨"a", 0⟩ sunk.journal ∨
      (∃ f, .unwound f (.preparation ⟨"a", 0⟩) ∈ sunk.journal) ∨ ∃ f, .unwound f (.ruling ⟨"a", 0⟩) ∈ sunk.journal) ∧
    sunk.held ⟨"a", 0⟩ = 0 ∧
    (∃ e : Entry, .logged e ∈ sunk.journal ∧ e.level = .warn ∧ (Event.logged e).drops ⟨"a", 0⟩) ∧
    ∃ n, Machine.Later sunk n ∧ droppings ⟨"a", 0⟩ n.journal = 1 ∧ n.world.final? (.node ⟨"a", 0⟩) = none ∧
      startings ⟨"b", 0⟩ n.journal = 0 ∧ abandonings ⟨"b", 0⟩ n.journal = 0 ∧ callings ⟨"f", 0⟩ n.journal = 0 := by
  have hm : sunk.Reachable := pair_reachable _ _
  have hs : sunk.stack = [] := Machine.stack_play rfl _
  have hi : 0 < invocations ⟨"a", 0⟩ sunk.journal := by decide +kernel
  have hf : sunk.world.final? (.node ⟨"a", 0⟩) = none := by decide +kernel
  have hn : Machine.Later sunk (Scenario.report sunk {} ⟨"begin", false, .begin "b"⟩).2 := .report hs {} _
  have hdropped : 0 < droppings ⟨"a", 0⟩ sunk.journal := by decide +kernel
  obtain ⟨hstall, hstages, hdrop⟩ := hm.no_silent_stall ⟨"a", 0⟩
  obtain ⟨-, -, hentries⟩ := hstages _ .refl
  obtain ⟨hd, -, -, -, hfinal, -, -, hbehind⟩ := hdrop hdropped _ hn
  have hb : Behind sunk.journal ⟨"a", 0⟩ (.node ⟨"b", 0⟩) := .direct (by decide +kernel)
  have ht : Behind sunk.journal ⟨"a", 0⟩ (.terminal ⟨"f", 0⟩) :=
    ⟨⟨"b", 0⟩, .single (show Source.node _ ∈ _ by decide +kernel), by decide +kernel⟩
  obtain ⟨hst, hab, -⟩ := (hbehind _ (hb.mono hn.suffix)).1 _ rfl
  obtain ⟨hcalls, -⟩ := (hbehind _ (ht.mono hn.suffix)).2 _ rfl
  refine ⟨hs, hi, hf, hstall hs hi hf, by decide +kernel, ?_, _, hn, hd, hfinal, hst, hab, hcalls⟩
  obtain ⟨e, he, hk⟩ := List.countP_pos_iff.1 hdropped
  obtain ⟨label, rfl⟩ := Event.drops_iff.1 hk
  exact ⟨_, he, (hentries _ he).1.2 ⟨_, hk⟩, hk⟩

end Sample

end ActivityGraph
