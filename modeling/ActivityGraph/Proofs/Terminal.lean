import ActivityGraph.Proofs.Accounting

namespace ActivityGraph

def World.ready (w : World) (t : Key) : Nat := ((w.terminals.get? t).bind Terminal.callback).isSome.toNat

def World.holds (w : World) (t : Key) : Nat := (w.terminals.get? t).isSome.toNat

def Task.fires (t : Key) : Task → Nat
  | .fire u => if u = t then 1 else 0
  | _ => 0

namespace World

variable {v w : World} {t u : Key} {f : Terminal → Terminal} {x : Terminal}

theorem get?_modifyTerminal (w : World) (u : Key) (f : Terminal → Terminal) (t : Key) :
    (w.modifyTerminal u f).terminals.get? t =
      if u = t then (w.terminals.get? t).map f else w.terminals.get? t := Table.get?_modify ..

theorem holds_modifyTerminal (w : World) (u : Key) (f : Terminal → Terminal) (t : Key) :
    (w.modifyTerminal u f).holds t = w.holds t := by
  rw [holds, modifyTerminal, Table.isSome_get?_modify, holds]

theorem ready_insert (hv : v.terminals = w.terminals.insert u x) (hu : w.terminals.get? u = none)
    (hx : x.callback.isSome) {t : Key} {n : Nat} : v.ready t + n + w.holds t = w.ready t + n + v.holds t := by
  simp only [ready, holds, hv, Table.get?_insert_of_new hu]
  by_cases ht : u = t
  · subst ht
    simp [hu, hx]
    omega
  · simp [ht]

theorem fired_insert (hv : v.terminals = w.terminals.insert u x) (hu : w.terminals.get? u = none)
    (hx : x.fired = false) {t : Key} : v.fired t = w.fired t := by
  simp only [fired, hv, Table.get?_insert_of_new hu]
  by_cases ht : u = t
  · subst ht
    simp [hu, hx]
  · simp [ht]

end World

theorem Stride.callings_eq {a b : Stage} (hs : Stride a b) {t : Key}
    (hc : ∀ c, a.call ≠ some (.enter (.terminal t) c)) :
    callings t b.machine.journal = callings t a.machine.journal := by
  refine Nat.le_antisymm (Nat.not_lt.1 fun hlt ↦ ?_) (hs.countP_le _)
  obtain ⟨c, he, -⟩ := hs.of_callings hlt
  exact hc c he

theorem Stride.breakings_eq {a b : Stage} (hs : Stride a b) {t : Key} (hc : ∀ f, a.call ≠ some (.raise f)) :
    breakings t b.machine.journal = breakings t a.machine.journal := by
  refine Nat.le_antisymm (Nat.not_lt.1 fun hlt ↦ ?_) (hs.countP_le _)
  obtain ⟨f, he⟩ := hs.of_breakings hlt
  exact hc f he

theorem callings_finished (t u : Key) (text : String) (j : List Event) :
    callings t (.finished u text :: j) = callings t j + if u = t then 1 else 0 := by
  simp [callings, List.countP_cons, Event.calls]

theorem Stride.ready {a b : Stage} (hs : Stride a b) (ha : a.Reached) (t : Key) :
    b.machine.world.ready t + callings t b.machine.journal + a.machine.world.holds t =
      a.machine.world.ready t + callings t a.machine.journal + b.machine.world.holds t := by
  have same := hs.callings_eq (t := t)
  cases hs with
  | insert hw | stored _ hw =>
    obtain ⟨s, -, rfl⟩ := World.store_eq hw
    rfl
  | @addNode m _ a c deps i s work =>
    rw [same (by simp)]
    obtain ⟨s, -, he⟩ := m.addNode_eq i a c deps s work
    rw [he]
    rfl
  | @addTerminal m c deps i body | @addRoot m c i body =>
    rw [same (by simp)]
    obtain ⟨s, -, he⟩ := m.placeTerminal_eq i c _ body
    rw [he]
    exact World.ready_insert rfl (ha.sound.terminals.get?_fresh i) rfl
  | @depend m l s b d =>
    rw [same (by simp)]
    obtain ⟨s, -, he⟩ := (m.world.setBarrier (.node l) d).drawEdge_eq s (.node l)
    rw [he]
    rfl
  | lost | relinquish => rfl
  | @fired m u =>
    rw [same (by simp), World.holds_modifyTerminal]
    congr 2
    rw [World.ready, World.get?_modifyTerminal]
    split
    · cases h : m.world.terminals.get? t <;> simp [World.ready, h]
    · rfl
  | @join m u x body c d hu hb =>
    have hc : callings t (_ :: .logged (.joined u c.name) :: m.journal) = callings t m.journal + _ :=
      callings_finished t u (View.describe ⟨x.collector, c.declared⟩ c) (.logged (.joined u c.name) :: m.journal)
    rw [hc, World.holds_modifyTerminal, World.ready, World.get?_modifyTerminal]
    by_cases ht : u = t
    · subst ht
      simp [hu, hb, World.ready]
      omega
    · simp [ht, World.ready]
  | _ => exact congrArg (_ + · + _) (same (by simp))

theorem Stage.Reached.ready_add {a : Stage} (h : a.Reached) (t : Key) :
    a.machine.world.ready t + callings t a.machine.journal = a.machine.world.holds t := by
  refine h.invariant (P := fun a ↦ a.machine.world.ready t + callings t a.machine.journal = a.machine.world.holds t)
    (fun _ ↦ rfl) fun a b h ih hs ↦ ?_
  have := hs.ready h t
  omega

/-- How a callback came to an end, or that it did not yet. -/
def Machine.ends (m : Machine) (t : Key) : Nat :=
  (m.stack.map (Task.fires t)).sum + (m.world.fired t).toNat + breakings t m.journal

theorem Task.fires_of_idle {u : Task} (hu : u.idle) (t : Key) : u.fires t = 0 := by
  cases u <;> simp_all [Task.idle, Task.fires]

theorem Task.fires_of_catches {u : Task} (hu : u.catches) (t : Key) : u.fires t = 0 := by
  cases u <;> simp_all [Task.catches, Task.fires]

theorem breakings_unwound (t : Key) (u : Task) (f : Fault) (j : List Event) :
    breakings t (u.scope?.toList.map (Event.unwound f) ++ j) = u.fires t + breakings t j := by
  cases u with
  | fire v => exact (List.countP_cons ..).trans (by simp [Event.breaks, Task.fires, breakings, Nat.add_comm])
  | script f ls e => cases e <;> exact (Nat.zero_add _).symm
  | _ => exact (Nat.zero_add _).symm

theorem Stride.ends {a b : Stage} (hs : Stride a b) (ha : a.Reached) (t : Key)
    (he : a.machine.ends t = callings t a.machine.journal) :
    callings t b.machine.journal + a.machine.ends t = callings t a.machine.journal + b.machine.ends t := by
  have same (hc : ∀ c, a.call ≠ some (.enter (.terminal t) c)) (hr : ∀ f, a.call ≠ some (.raise f))
      (hw : b.machine.world.fired t = a.machine.world.fired t)
      (hm : (b.machine.stack.map (Task.fires t)).sum = (a.machine.stack.map (Task.fires t)).sum) :
      callings t b.machine.journal + a.machine.ends t = callings t a.machine.journal + b.machine.ends t := by
    rw [hs.callings_eq hc, Machine.ends, Machine.ends, hs.breakings_eq hr, hw, hm]
  cases hs with
  | push ht => exact same (by simp) (by simp) rfl (by simp [Task.fires_of_idle ht])
  | pop hm ht => exact same (by simp) (by simp) rfl (by simp [hm, Task.fires_of_idle ht])
  | line hm | kept hm | deliver hm | attach hm | resume hm =>
    exact same (by simp) (by simp) rfl (by simp [hm, Task.fires])
  | timer => exact same (by simp) (by simp) rfl (by simp [Task.fires])
  | insert hw | stored _ hw =>
    obtain ⟨s, -, rfl⟩ := World.store_eq hw
    exact same (by simp) (by simp) rfl rfl
  | @addNode m _ a c deps i s work =>
    obtain ⟨s, -, he⟩ := m.addNode_eq i a c deps s work
    rw [he] at same ⊢
    exact same (by simp) (by simp) rfl (by simp [Task.fires])
  | @addTerminal m c deps i body =>
    obtain ⟨s, -, he⟩ := m.placeTerminal_eq i c deps body
    rw [he] at same ⊢
    refine same (by simp) (by simp) (World.fired_insert rfl (ha.sound.terminals.get?_fresh i) rfl) ?_
    simp [Machine.push, Task.fires]
  | @addRoot m c i body =>
    obtain ⟨s, -, he⟩ := m.placeTerminal_eq i c [] body
    rw [he] at same ⊢
    refine same (by simp) (by simp) (World.fired_insert rfl (ha.sound.terminals.get?_fresh i) rfl) ?_
    simp [Task.fires]
  | @depend m l s b d =>
    obtain ⟨s, -, he⟩ := (m.world.setBarrier (.node l) d).drawEdge_eq s (.node l)
    rw [he] at same ⊢
    exact same (by simp) (by simp) rfl rfl
  | lost | relinquish | uncaught => rfl
  | @fired m u ts hm =>
    refine congrArg (callings t m.journal + ·) ?_
    have hr : m.world.ready t + callings t m.journal = m.world.holds t := ha.ready_add t
    simp only [Machine.ends, hm, List.map_cons, List.sum_cons, Task.fires] at he ⊢
    by_cases ht : u = t
    · subst ht
      rw [if_pos rfl] at he ⊢
      -- the callback was entered once, so the mark was not set and takes over from this task
      cases hu : m.world.terminals.get? u with
      | none =>
        simp only [World.holds, hu, Option.isSome_none, Bool.toNat_false] at hr
        omega
      | some x =>
        have hf : (m.world.modifyTerminal u fun t ↦ { t with fired := true }).fired u = true := by
          simp [World.fired, World.get?_modifyTerminal, hu]
        simp only [World.holds, hu, Option.isSome_some, Bool.toNat_true] at hr
        rw [hf, Bool.toNat_true]
        omega
    · have hf : (m.world.modifyTerminal u fun t ↦ { t with fired := true }).fired t = m.world.fired t := by
        simp [World.fired, World.get?_modifyTerminal, ht]
      rw [hf, if_neg ht]
      omega
  | @join m u x body c d hu hb =>
    have hc : callings t (_ :: .logged (.joined u c.name) :: m.journal) = callings t m.journal + _ :=
      callings_finished t u (View.describe ⟨x.collector, c.declared⟩ c) (.logged (.joined u c.name) :: m.journal)
    have hf : (m.world.modifyTerminal u fun t ↦ { t with callback := none }).fired t = m.world.fired t := by
      rw [World.fired, World.get?_modifyTerminal]
      split
      · cases h : m.world.terminals.get? t <;> simp [World.fired, h]
      · rfl
    have hz : breakings t (.finished u (View.describe ⟨x.collector, c.declared⟩ c) ::
        .logged (.joined u c.name) :: m.journal) = breakings t m.journal := rfl
    simp only [Machine.ends, hc, hf, hz, List.map_cons, List.sum_cons, Task.fires]
    omega
  | call | prepare => exact same (by simp) (by simp) rfl (by simp [Task.fires])
  | announce | ran => exact same (by simp) (by simp) rfl (by simp [Task.fires])
  | @entrust m k body hold =>
    refine same (by simp) (by simp) rfl ?_
    cases hold <;> simp [Task.fires]
  | caught hm ht =>
    simp only [Machine.ends, hm, List.map_cons, List.sum_cons, Task.fires_of_catches ht, Nat.zero_add]
  | @unwound m f u ts hm ht =>
    have hz := breakings_unwound t u f m.journal
    have hc : callings t (u.scope?.toList.map (Event.unwound f) ++ m.journal) = callings t m.journal := by
      cases u.scope? <;> rfl
    simp only [Machine.ends, hm, hc, hz, List.map_cons, List.sum_cons]
    omega
  | _ => exact same (by simp) (by simp) rfl rfl

theorem Stage.Reached.ends_eq {a : Stage} (h : a.Reached) (t : Key) :
    a.machine.ends t = callings t a.machine.journal := by
  refine h.invariant (P := fun a ↦ a.machine.ends t = callings t a.machine.journal) (fun _ ↦ rfl) fun a b h ih hs ↦ ?_
  have := hs.ends h t ih
  omega

theorem World.holds_le (w : World) (t : Key) : w.holds t ≤ 1 := Bool.toNat_le _

theorem Stage.Reached.callings_le {a : Stage} (h : a.Reached) (t : Key) : callings t a.machine.journal ≤ 1 := by
  have hr := h.ready_add t
  have hl := a.machine.world.holds_le t
  omega

theorem World.Sound.holds {w : World} (h : w.Sound) {t : Key} {c : Bool} (hs : w.Shut (.terminal t) c) :
    w.holds t = 1 := by
  obtain ⟨b, hb, -⟩ := hs
  rw [World.holds, ← h.isSome_terminal, Option.isSome_of_eq_some hb]
  rfl

theorem Stage.Reached.rings {a : Stage} (h : a.Reached) {t : Key} {c : Bool}
    (hs : a.machine.world.Shut (.terminal t) c) (hr : 0 < a.machine.world.ready t) :
    ∃ d, a.call = some (.enter (.terminal t) d) := by
  refine h.invariant (P := fun a ↦ a.machine.world.Shut (.terminal t) c → 0 < a.machine.world.ready t →
    ∃ d, a.call = some (.enter (.terminal t) d)) (fun _ hs ↦ ?_) (fun a b h ih hs hb hr ↦ ?_) hs hr
  · obtain ⟨b, hb, -⟩ := hs
    simp [Table.get?] at hb
  refine (hs.closes hb).resolve_left fun ha ↦ ?_
  -- the barrier was closed before, so the callback was about to be entered, and this stride enters it
  have hold := h.sound.holds ha
  have hlt : 0 < a.machine.world.ready t := by
    have hadd := hs.ready h t
    have hl := b.machine.world.holds_le t
    have hc : callings t a.machine.journal ≤ callings t b.machine.journal := hs.countP_le _
    omega
  obtain ⟨d, hd⟩ := ih ha hlt
  cases hs with
  | @relinquish m e i k hc =>
    rcases hc _ (Option.mem_def.2 hd) with ⟨f, hf⟩ | ⟨k, body, hold, r, hf⟩ <;> simp at hf
  | @lost m e hl =>
    obtain rfl := Option.some.inj hd
    cases hx : m.world.terminals.get? t with
    | none => simp [World.ready, hx] at hlt
    | some x =>
      rcases hl x hx with hn | hn
      · simp [World.ready, hx, hn] at hlt
      · exact absurd (h.sound.housed t x hx) (Table.get?_eq_none_iff.1 hn)
  | @join m k x body e canceled hk =>
    simp only [Option.some.injEq, Call.enter.injEq, Waiter.terminal.injEq] at hd
    obtain ⟨rfl, -⟩ := hd
    simp [World.ready, World.get?_modifyTerminal, hk] at hr
  | _ => simp at hd

theorem Stage.Reached.called {m : Machine} (h : Stage.Reached ⟨none, m⟩) {t : Key} {c : Bool}
    (hs : m.world.Shut (.terminal t) c) : callings t m.journal = 1 := by
  have hr : m.world.ready t + callings t m.journal = m.world.holds t := h.ready_add t
  have hz : m.world.ready t = 0 := Nat.eq_zero_of_not_pos fun hp ↦ by simpa using h.rings hs hp
  rw [h.sound.holds hs] at hr
  omega

theorem Stage.Reached.called_shut {a : Stage} (h : a.Reached) {t : Key} (ht : 0 < callings t a.machine.journal) :
    ∃ c, a.machine.world.Shut (.terminal t) c := by
  refine h.invariant (P := fun a ↦ 0 < callings t a.machine.journal → ∃ c, a.machine.world.Shut (.terminal t) c)
    (fun _ ht ↦ by simp [callings] at ht) (fun a b h ih hs ht ↦ ?_) ht
  by_cases ha : 0 < callings t a.machine.journal
  · obtain ⟨c, hc⟩ := ih ha
    exact ⟨c, hs.shut hc⟩
  · obtain ⟨c, hc, -⟩ := hs.of_callings (k := t) (by omega)
    exact ⟨c, hs.shut (h.entered rfl hc)⟩

namespace Machine

theorem Calm.breakings_eq {m : Machine} (h : m.Calm) (t : Key) : breakings t m.journal = 0 := by
  refine List.countP_eq_zero.2 fun e he hb ↦ ?_
  obtain ⟨f, rfl⟩ := Event.breaks_iff.1 hb
  exact h f _ he

end Machine

end ActivityGraph
