import ActivityGraph.Proofs.Delivery

namespace ActivityGraph

/-- The barrier of a waiter is closed, with or without a cancellation. -/
def World.Shut (w : World) (x : Waiter) (canceled : Bool) : Prop :=
  ∃ b, w.barriers.get? x = some b ∧ b.closed ∧ b.canceled = canceled

namespace Barrier

variable {b d : Barrier}

theorem open_of_expect (h : b.expect? = some d) : b.closed = false ∧ d.closed = false := by
  unfold expect? at h
  split at h
  · simp at h
  · next hb =>
    obtain rfl := Option.some.inj h
    exact ⟨Bool.eq_false_iff.2 hb, Bool.eq_false_iff.2 hb⟩

theorem open_of_arrive {c : Bool} (h : b.arrive? c = some d) : b.closed = false := by
  unfold arrive? at h
  split at h
  · simp at h
  · next hb => exact Bool.eq_false_iff.2 fun hc ↦ hb (.inl hc)

theorem open_of_release (h : b.release = .ok d) : b.closed = false ∧ d.closed := by
  unfold Barrier.release at h
  split at h
  · simp at h
  · next hb =>
    split at h
    · obtain rfl := Except.ok.inj h
      exact ⟨Bool.eq_false_iff.2 hb, rfl⟩
    · simp at h

end Barrier

namespace World.Shut

variable {v w : World} {x y : Waiter} {c : Bool} {b : Barrier}

theorem setBarrier (h : w.Shut x c) (hb : w.barriers.get? y = some b) (hc : b.closed = false) (d : Barrier) :
    (w.setBarrier y d).Shut x c := by
  obtain ⟨e, he, hs, hc'⟩ := h
  have hy : y ≠ x := by
    rintro rfl
    obtain rfl := Option.some.inj (hb.symm.trans he)
    exact absurd hs (by simp [hc])
  exact ⟨e, (get?_setBarrier_of_ne hy d).trans he, hs, hc'⟩

theorem insert (h : v.Shut x c) (hw : w.barriers = v.barriers.insert y b) : w.Shut x c := by
  obtain ⟨e, he, hs⟩ := h
  exact ⟨e, by rw [hw, Table.get?_insert, he, Option.some_or], hs⟩

end World.Shut

theorem Stride.shut {a b : Stage} (hs : Stride a b) {x : Waiter} {c : Bool} (h : a.machine.world.Shut x c) :
    b.machine.world.Shut x c := by
  cases hs with
  | insert hw | stored _ hw =>
    obtain ⟨t, -, rfl⟩ := World.store_eq hw
    exact h
  | @addNode m _ a c deps i s work =>
    obtain ⟨t, -, he⟩ := m.addNode_eq i a c deps s work
    rw [he]
    exact h.insert rfl
  | @addTerminal m c deps i body =>
    obtain ⟨t, -, he⟩ := m.placeTerminal_eq i c deps body
    rw [he]
    exact h.insert rfl
  | @addRoot m c i body =>
    obtain ⟨t, -, he⟩ := m.placeTerminal_eq i c [] body
    rw [he]
    exact h.insert rfl
  | addProbe => exact h.insert rfl
  | expect hb hc => exact h.setBarrier hb (Barrier.open_of_expect hc).1 _
  | @depend m k s b d hb hc =>
    obtain ⟨t, -, he⟩ := (m.world.setBarrier (.node k) d).drawEdge_eq s (.node k)
    rw [he]
    exact h.setBarrier hb (Barrier.open_of_expect hc).1 d
  | arrived hb hc | closed hb hc => exact h.setBarrier hb (Barrier.open_of_arrive hc) _
  | opened hb hc => exact h.setBarrier hb (Barrier.open_of_release hc).1 _
  | _ => exact h

theorem World.Shut.of_insert {v w : World} {x y : Waiter} {c : Bool} {b : Barrier} (h : w.Shut x c)
    (hw : w.barriers = v.barriers.insert y b) (hb : b.closed = false) : v.Shut x c := by
  obtain ⟨e, he, hs⟩ := h
  rw [hw, Table.get?_insert] at he
  cases hv : v.barriers.get? x with
  | some d =>
    rw [hv, Option.some_or] at he
    exact ⟨e, hv.trans he, hs⟩
  | none =>
    rw [hv, Option.none_or] at he
    split at he
    · obtain rfl := Option.some.inj he
      exact absurd hs.1 (by simp [hb])
    · simp at he

theorem World.Shut.of_setBarrier {w : World} {x y : Waiter} {c : Bool} {b d : Barrier}
    (h : (w.setBarrier y d).Shut x c) (hb : w.barriers.get? y = some b) (hy : y = x → d.closed = false) :
    w.Shut x c := by
  obtain ⟨e, he, hs⟩ := h
  by_cases hx : y = x
  · subst hx
    rw [get?_setBarrier hb] at he
    obtain rfl := Option.some.inj he
    exact absurd hs.1 (by simp [hy rfl])
  · exact ⟨e, (get?_setBarrier_of_ne hx d).symm.trans he, hs⟩

theorem Stride.closes {a b : Stage} (hs : Stride a b) {x : Waiter} {c : Bool} (h : b.machine.world.Shut x c) :
    a.machine.world.Shut x c ∨ ∃ d, b.call = some (.enter x d) := by
  cases hs with
  | insert hw | stored _ hw =>
    obtain ⟨t, -, rfl⟩ := World.store_eq hw
    exact .inl h
  | @addNode m _ a c deps i s work =>
    obtain ⟨t, -, he⟩ := m.addNode_eq i a c deps s work
    rw [he] at h
    exact .inl (h.of_insert rfl rfl)
  | @addTerminal m c deps i body =>
    obtain ⟨t, -, he⟩ := m.placeTerminal_eq i c deps body
    rw [he] at h
    exact .inl (h.of_insert rfl rfl)
  | @addRoot m c i body =>
    obtain ⟨t, -, he⟩ := m.placeTerminal_eq i c [] body
    rw [he] at h
    exact .inl (h.of_insert rfl rfl)
  | addProbe => exact .inl (h.of_insert rfl rfl)
  | expect hb hc => exact .inl (h.of_setBarrier hb fun _ ↦ (Barrier.open_of_expect hc).2)
  | @depend m k s b d hb hc =>
    obtain ⟨t, -, he⟩ := (m.world.setBarrier (.node k) d).drawEdge_eq s (.node k)
    rw [he] at h
    exact .inl (World.Shut.of_setBarrier h hb fun _ ↦ (Barrier.open_of_expect hc).2)
  | arrived hb hc hd => exact .inl (h.of_setBarrier hb fun _ ↦ hd)
  | @closed m y s c b d hb hc hd =>
    by_cases hx : y = x
    · exact .inr ⟨d.canceled, by rw [hx]⟩
    · exact .inl (h.of_setBarrier hb fun hy ↦ absurd hy hx)
  | @opened m y b d hb hc =>
    by_cases hx : y = x
    · exact .inr ⟨false, by rw [hx]⟩
    · exact .inl (h.of_setBarrier hb fun hy ↦ absurd hy hx)
  | _ => exact .inl h

theorem Stage.Reached.accepted_eq {a b : Stage} (h : a.Reached) (hs : Stride a b) {x : Waiter} {c : Bool}
    (hx : a.machine.world.Shut x c) : accepted x b.machine.journal = accepted x a.machine.journal := by
  obtain ⟨d, hd, hc, -⟩ := hx
  have new {y : Waiter} (hy : a.machine.world.barriers.get? y = none) : y ≠ x := by
    rintro rfl
    exact absurd (hy.symm.trans hd) (by simp)
  cases hs with
  | @note m e he =>
    cases e with
    | described | replied => rfl
    | _ => simp [Event.mute] at he
  | @addNode m _ a c deps i s work =>
    obtain ⟨t, -, he⟩ := m.addNode_eq i a c deps s work
    rw [he]
    exact (accepted_wired ..).trans (by rw [if_neg (new (h.sound.newNode i))]; rfl)
  | @addTerminal m c deps i body =>
    obtain ⟨t, -, he⟩ := m.placeTerminal_eq i c deps body
    rw [he]
    exact (accepted_wired ..).trans (by rw [if_neg (new (h.sound.newTerminal i))]; rfl)
  | @addRoot m c i body =>
    obtain ⟨t, -, he⟩ := m.placeTerminal_eq i c [] body
    rw [he]
    rfl
  | @depend m k s b d hb hd' =>
    have hk : .node k ≠ x := by
      rintro rfl
      obtain rfl := Option.some.inj (hb.symm.trans hd)
      exact absurd hc (by simp [(Barrier.open_of_expect hd').1])
    exact (accepted_wired x m.journal (.node k) [s]).trans (by rw [if_neg hk]; rfl)
  | astray | refused | arrived | closed => exact accepted_tellings ..
  | broken | completed => exact accepted_asked ..
  | @announce m k n g => cases g <;> rfl
  | @unwound m f t => cases t.scope? <;> rfl
  | _ => rfl

theorem Stage.Reached.entered {a : Stage} (h : a.Reached) {x : Waiter} (hx : x.bare = false) {c : Bool}
    (hc : a.call = some (.enter x c)) : a.machine.world.Shut x c := by
  revert hc
  refine h.invariant (P := fun a ↦ a.call = some (.enter x c) → a.machine.world.Shut x c) (by simp) fun a b h ih hs ↦ ?_
  have hr := h.stride hs
  cases hs with
  | @relinquish m d i k hc hk =>
    intro hd
    rcases hc _ (Option.mem_def.2 hd) with ⟨f, hf⟩ | ⟨k, body, hold, r, hf⟩ <;> simp at hf
  | @closed m y s c b d hb hc hd =>
    intro he
    simp only [Option.some.injEq, Call.enter.injEq] at he
    obtain ⟨rfl, rfl⟩ := he
    exact ⟨d, World.get?_setBarrier hb d, hd, rfl⟩
  | @opened m y b d hb hd =>
    intro he
    simp only [Option.some.injEq, Call.enter.injEq] at he
    obtain ⟨rfl, rfl⟩ := he
    have hg := World.get?_setBarrier hb d
    refine ⟨d, hg, (Barrier.open_of_release hd).2, ((hr.gated hx).fits hg).not_canceled ?_⟩
    simp [openings, Event.opens]
  | _ => simp

end ActivityGraph
