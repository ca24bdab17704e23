import ActivityGraph.Proofs.Registration

namespace ActivityGraph

/-- What a barrier shows of the history of its waiter. -/
structure Barrier.Fits (b : Barrier) (accepted : List Source) (heard : List (Source × Bool))
    (openings : Nat) : Prop where
  count : b.remaining + heard.length = accepted.length
  closed : b.closed → b.remaining = 0
  idle : b.closed = false → b.remaining = 0 → accepted = []
  canceled : b.canceled = heard.any Prod.snd
  opened : 0 < openings ↔ b.closed ∧ accepted = []

namespace Barrier.Fits

variable {b d : Barrier} {acc : List Source} {hrd : List (Source × Bool)} {n : Nat}

theorem fresh (ss : List Source) : Barrier.Fits { remaining := ss.length } ss.reverse [] 0 where
  count := by simp
  closed := by simp
  idle := by simp
  canceled := rfl
  opened := by simp

theorem expect (h : b.Fits acc hrd n) (hd : b.expect? = some d) (s : Source) : d.Fits (s :: acc) hrd n := by
  unfold expect? at hd
  split at hd
  · simp at hd
  · next hb =>
    obtain rfl := Option.some.inj hd
    have ho := h.opened
    refine ⟨?_, fun hc ↦ absurd hc hb, by simp, h.canceled, ?_⟩
    · have := h.count
      simp only [List.length_cons]
      omega
    · simp only [hb, Bool.false_eq_true, false_and, iff_false] at ho ⊢
      exact ho

theorem arrive (h : b.Fits acc hrd n) {c : Bool} (hd : b.arrive? c = some d) (s : Source) :
    d.Fits acc ((s, c) :: hrd) n := by
  unfold arrive? at hd
  split at hd
  · simp at hd
  · next hb =>
    simp only [not_or, Bool.not_eq_true] at hb
    obtain rfl := Option.some.inj hd
    have hc := h.count
    have hne : acc ≠ [] := by
      rintro rfl
      simp only [List.length_nil] at hc
      omega
    refine ⟨?_, ?_, ?_, ?_, ?_⟩
    · simp only [List.length_cons]
      omega
    · simp only [decide_eq_true_eq]
      omega
    · simp only [decide_eq_false_iff_not]
      omega
    · simp [h.canceled, Bool.or_comm]
    · have := h.opened
      simp only [hb, hne, and_false, iff_false] at this ⊢
      exact this

theorem release (h : b.Fits acc hrd n) (hd : b.release = .ok d) : d.Fits acc hrd (n + 1) := by
  unfold Barrier.release at hd
  split at hd
  · simp at hd
  · next hb =>
    split at hd
    · next hr =>
      obtain rfl := Except.ok.inj hd
      exact ⟨h.count, fun _ ↦ hr, by simp, h.canceled, by simp [h.idle (by simpa using hb) hr]⟩
    · simp at hd

theorem arrives (h : b.Fits acc hrd n) (hlt : hrd.length < acc.length) (c : Bool) :
    (b.arrive? c).isSome := by
  have hr : b.remaining ≠ 0 := by
    have := h.count
    omega
  have hb : b.closed = false := Bool.eq_false_iff.2 fun hc ↦ hr (h.closed hc)
  simp [arrive?, hb, hr]

theorem length_eq (h : b.Fits acc hrd n) (hb : b.closed) : hrd.length = acc.length := by
  have := h.count
  have := h.closed hb
  omega

theorem closed_of_refused (h : b.Fits [] hrd n) {e : Refusal} (hd : b.release = .error e) : b.closed := by
  have hc := h.count
  have hr : b.remaining = 0 := by
    simp only [List.length_nil] at hc
    omega
  by_contra hb
  simp [Barrier.release, hb, hr] at hd

theorem not_canceled (h : b.Fits acc hrd n) (hn : 0 < n) : b.canceled = false := by
  obtain ⟨hb, rfl⟩ := h.opened.1 hn
  rw [h.canceled, List.eq_nil_of_length_eq_zero (h.length_eq hb)]
  rfl

end Barrier.Fits

/-- The barrier of a waiter fits the journal; before it is made, nothing is told of the waiter. -/
def Machine.Gated (m : Machine) (x : Waiter) : Prop :=
  match m.world.barriers.get? x with
  | some b => b.Fits (accepted x m.journal) (heard x m.journal) (openings x m.journal)
  | none => accepted x m.journal = [] ∧ heard x m.journal = [] ∧ openings x m.journal = 0

namespace Machine.Gated

variable {m n : Machine} {x : Waiter}

theorem of_eq (h : m.Gated x) (hb : n.world.barriers.get? x = m.world.barriers.get? x)
    (ha : accepted x n.journal = accepted x m.journal) (hh : heard x n.journal = heard x m.journal)
    (ho : openings x n.journal = openings x m.journal) : n.Gated x := by
  rw [Gated, hb, ha, hh, ho]
  exact h

theorem fits (h : m.Gated x) {b : Barrier} (hb : m.world.barriers.get? x = some b) :
    b.Fits (accepted x m.journal) (heard x m.journal) (openings x m.journal) := by
  rw [Gated, hb] at h
  exact h

theorem absent (h : m.Gated x) (hb : m.world.barriers.get? x = none) :
    accepted x m.journal = [] ∧ heard x m.journal = [] ∧ openings x m.journal = 0 := by
  rw [Gated, hb] at h
  exact h

theorem of_fits {b : Barrier} (hb : m.world.barriers.get? x = some b)
    (h : b.Fits (accepted x m.journal) (heard x m.journal) (openings x m.journal)) : m.Gated x := by
  rw [Gated, hb]
  exact h

end Machine.Gated

theorem Stage.Reached.owes_le {a : Stage} (h : a.Reached) {x : Waiter} (hx : x.bare = false) :
    told x a.machine.journal + a.owes x ≤ accepted x a.machine.journal := by
  refine h.invariant (P := fun a ↦ told x a.machine.journal + a.owes x ≤ accepted x a.machine.journal)
    (fun _ ↦ Multiset.zero_le _) fun a b _ ih hs ↦ ?_
  obtain ⟨loss, -, hl⟩ := hs.balanced hx
  refine le_of_add_le_add_right (a := (accepted x a.machine.journal : Multiset Source)) ?_
  calc told x b.machine.journal + b.owes x + accepted x a.machine.journal
      ≤ told x b.machine.journal + b.owes x + loss + accepted x a.machine.journal :=
        add_le_add_left (Multiset.le_add_right _ _) _
    _ = told x a.machine.journal + a.owes x + accepted x b.machine.journal := hl
    _ ≤ accepted x a.machine.journal + accepted x b.machine.journal := add_le_add_left ih _
    _ = accepted x b.machine.journal + accepted x a.machine.journal := add_comm _ _

theorem Stage.Reached.heard_lt {a : Stage} (h : a.Reached) {x : Waiter} (hx : x.bare = false)
    (ho : a.owes x ≠ 0) : (heard x a.machine.journal).length < (accepted x a.machine.journal).length := by
  have hle := Multiset.card_le_card (h.owes_le hx)
  have hpos := Multiset.card_pos.2 ho
  simp only [told, Multiset.card_add, Multiset.coe_card, List.length_map] at hle
  omega

theorem Stage.Reached.source {a : Stage} (h : a.Reached) {x : Waiter} (hx : x.bare = false) (c : Bool) :
    a.call ≠ some (.arrive x none c) := by
  refine h.invariant (P := fun a ↦ a.call ≠ some (.arrive x none c)) (by simp) fun a b _ ih hs ↦ ?_
  cases hs with
  | arrive =>
    rintro he
    simp only [Option.some.injEq, Call.arrive.injEq] at he
    obtain ⟨rfl, -⟩ := he
    simp [Waiter.bare] at hx
  | relinquish => exact ih
  | _ => simp

theorem Stage.Reached.arrives {x : Waiter} {s : Option Source} {c : Bool} {m : Machine}
    (h : Stage.Reached ⟨some (.arrive x s c), m⟩) (hx : x.bare = false) (hm : m.Gated x) :
    ∃ t b, s = some t ∧ m.world.barriers.get? x = some b ∧ (b.arrive? c).isSome := by
  cases s with
  | none => exact absurd rfl (h.source hx c)
  | some t =>
    have hlt := h.heard_lt hx (Multiset.card_pos.1 (by simp [Stage.owes_mk]))
    cases hb : m.world.barriers.get? x with
    | none => simp [(hm.absent hb).1] at hlt
    | some b => exact ⟨t, b, rfl, rfl, (hm.fits hb).arrives hlt c⟩

theorem told_other {x y : Waiter} (h : y ≠ x) (s : Option Source) (c : Bool) (j : List Event) :
    heard x (Machine.tellings y s c ++ j) = heard x j := by
  cases s <;> simp [heard, Machine.tellings, Event.tells?, h]

theorem openings_tellings (x y : Waiter) (s : Option Source) (c : Bool) (j : List Event) :
    openings x (Machine.tellings y s c ++ j) = openings x j := by
  cases s <;> rfl

theorem Machine.Gated.placed {m n : Machine} {x y : Waiter} (ss : List Source) (h : m.Gated x)
    (hy : m.world.barriers.get? y = none)
    (hb : n.world.barriers = m.world.barriers.insert y { remaining := ss.length })
    (ha : accepted x n.journal = (if y = x then ss.reverse else []) ++ accepted x m.journal)
    (hh : heard x n.journal = heard x m.journal) (ho : openings x n.journal = openings x m.journal) :
    n.Gated x := by
  by_cases he : y = x
  · subst he
    obtain ⟨ha', hh', ho'⟩ := h.absent hy
    refine .of_fits (b := { remaining := ss.length }) (by rw [hb, Table.get?_insert_of_new hy, if_pos rfl]) ?_
    rw [ha, hh, ho, ha', hh', ho', if_pos rfl, List.append_nil]
    exact .fresh ss
  · refine h.of_eq (by rw [hb, Table.get?_insert_of_new hy, if_neg he]) ?_ hh ho
    rw [ha, if_neg he, List.nil_append]

theorem Machine.Gated.arrived {m n : Machine} {x y : Waiter} {s : Option Source} {c : Bool} {b d : Barrier}
    (h : m.Gated x) (hr : Stage.Reached ⟨some (.arrive y s c), m⟩) (hx : x.bare = false)
    (hb : m.world.barriers.get? y = some b) (hd : b.arrive? c = some d)
    (hw : n.world.barriers = (m.world.setBarrier y d).barriers)
    (ha : accepted x n.journal = accepted x (tellings y s c ++ m.journal))
    (hh : heard x n.journal = heard x (tellings y s c ++ m.journal))
    (ho : openings x n.journal = openings x (tellings y s c ++ m.journal)) : n.Gated x := by
  rw [accepted_tellings] at ha
  rw [openings_tellings] at ho
  by_cases hy : y = x
  · subst hy
    obtain ⟨t, -, rfl, -, -⟩ := hr.arrives hx h
    have ht : heard y (tellings y (some t) c ++ m.journal) = (t, c) :: heard y m.journal := by
      simp [heard, tellings, Event.tells?]
    refine .of_fits (b := d) (by rw [hw, World.get?_setBarrier hb]) ?_
    rw [ha, hh, ho, ht]
    exact (h.fits hb).arrive hd t
  · exact h.of_eq (by rw [hw, World.get?_setBarrier_of_ne hy]) ha (hh.trans (told_other hy ..)) ho

theorem Stage.Reached.gated {a : Stage} (h : a.Reached) {x : Waiter} (hx : x.bare = false) :
    a.machine.Gated x := by
  refine h.invariant (P := fun a ↦ a.machine.Gated x) (fun _ ↦ ⟨rfl, rfl, rfl⟩) fun a b h ih hs ↦ ?_
  have hp (k : Key) : Waiter.probe k ≠ x := by
    rintro rfl
    simp [Waiter.bare] at hx
  cases hs with
  | @note m e he =>
    cases e with
    | described | replied => exact ih
    | _ => simp [Event.mute] at he
  | insert hw | stored _ hw =>
    obtain ⟨t, -, rfl⟩ := World.store_eq hw
    exact ih
  | @addNode m _ a c deps i s work =>
    obtain ⟨t, -, he⟩ := m.addNode_eq i a c deps s work
    rw [he]
    exact ih.placed deps (h.sound.newNode i) rfl (accepted_wired ..) (heard_wired ..) (openings_wired ..)
  | @addTerminal m c deps i body =>
    obtain ⟨t, -, he⟩ := m.placeTerminal_eq i c deps body
    rw [he]
    exact ih.placed deps (h.sound.newTerminal i) rfl (accepted_wired ..) (heard_wired ..) (openings_wired ..)
  | @addRoot m c i body =>
    obtain ⟨t, -, he⟩ := m.placeTerminal_eq i c [] body
    rw [he]
    exact ih.placed [] (h.sound.newTerminal i) rfl (accepted_wired ..) rfl rfl
  | addProbe =>
    refine ih.of_eq ?_ rfl rfl rfl
    simp [Machine.addProbe, Machine.keep, Machine.mapWorld, World.addProbe, Table.get?_insert, hp]
  | expect => exact ih.of_eq (World.get?_setBarrier_of_ne (hp _) _) rfl rfl rfl
  | @depend m k s b c hb hc =>
    obtain ⟨t, -, he⟩ := (m.world.setBarrier (.node k) c).drawEdge_eq s (.node k)
    rw [he]
    have ha := accepted_wired x m.journal (.node k) [s]
    by_cases hk : .node k = x
    · subst hk
      refine .of_fits (World.get?_setBarrier hb c) ?_
      have hf := (ih.fits hb).expect hc s
      rw [if_pos rfl] at ha
      exact ha ▸ hf
    · rw [if_neg hk] at ha
      exact ih.of_eq (World.get?_setBarrier_of_ne hk c) ha rfl rfl
  | @astray m y s c hb =>
    by_cases hy : y = x
    · subst hy
      obtain ⟨t, b, -, hb', -⟩ := h.arrives hx ih
      exact absurd (hb.symm.trans hb') (by simp)
    · exact ih.of_eq rfl (accepted_tellings ..) (told_other hy ..) (openings_tellings ..)
  | @refused m y s c b hb hc =>
    by_cases hy : y = x
    · subst hy
      obtain ⟨t, d, -, hd, ha⟩ := h.arrives hx ih
      obtain rfl := Option.some.inj (hb.symm.trans hd)
      exact absurd hc (Option.isSome_iff_ne_none.1 ha)
    · exact ih.of_eq rfl (accepted_tellings ..) (told_other hy ..) (openings_tellings ..)
  | arrived hb hd | closed hb hd => exact ih.arrived h hx hb hd rfl rfl rfl rfl
  | @opened m y b d hb hd =>
    by_cases hy : y = x
    · subst hy
      refine .of_fits (World.get?_setBarrier hb d) ?_
      rw [show openings y (_ :: m.journal) = openings y m.journal + 1 by
        simp [openings, Event.opens]]
      exact (ih.fits hb).release hd
    · refine ih.of_eq (World.get?_setBarrier_of_ne hy d) rfl rfl ?_
      simp [openings, Event.opens, hy]
  | broken | completed => exact ih.of_eq rfl (accepted_asked ..) (heard_asked ..) (openings_asked ..)
  | @announce m k n g => cases g <;> exact ih
  | @unwound m f t => cases t.scope? <;> exact ih
  | _ => exact ih

end ActivityGraph
