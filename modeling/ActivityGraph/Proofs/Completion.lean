import ActivityGraph.Proofs.Once

namespace ActivityGraph

def Event.drops (k : Key) : Event → Bool
  | .logged (.dropped l _) => l = k
  | _ => false

theorem Event.drops_iff {k : Key} {e : Event} : e.drops k ↔ ∃ label, e = .logged (.dropped k label) := by
  unfold drops
  split <;> simp_all

/-- How often the log warns that the completion of a node was dropped. -/
def droppings (k : Key) (j : List Event) : Nat := j.countP (Event.drops k)

/-- The completions of a node that are used up. -/
def spendings (k : Key) (j : List Event) : Nat := reportings k j + droppings k j

theorem Stage.Reached.completions_nodup {a : Stage} (h : a.Reached) : a.machine.desk.completions.keys.Nodup := by
  refine h.invariant (P := fun a ↦ a.machine.desk.completions.keys.Nodup) (fun _ ↦ List.nodup_nil) ?_
  intro a b _ ih hs
  cases hs with
  | keep | kept | join =>
    rw [Desk.completions_keep]
    exact ih
  | relinquish | report => exact Table.nodup_keys_erase ih _
  | entrust => exact Table.nodup_keys_put ih _ _
  | addNode => simpa only [Machine.desk_addNode] using ih
  | addTerminal | addRoot => simpa only [Machine.push, Machine.desk_placeTerminal] using ih
  | _ => exact ih

theorem Machine.countP_timers_eq {ts : List Timer} {t : Timer} (h : t ∈ ts) {k : Key}
    (hle : ts.countP (fun u ↦ u.node = k) ≤ 1) :
    (ts.filter fun u ↦ u.node ≠ t.node).countP (fun u ↦ u.node = k) + (if t.node = k then 1 else 0) =
      ts.countP fun u ↦ u.node = k := by
  by_cases hk : t.node = k
  · have hpos := Machine.countP_timers h k
    rw [if_pos hk] at hpos ⊢
    omega
  · rw [if_neg hk, Nat.add_zero, List.countP_filter]
    refine List.countP_congr fun u _ ↦ ?_
    simp only [Bool.and_eq_true, decide_eq_true_eq, and_iff_left_iff_imp]
    rintro rfl
    exact Ne.symm hk

/-- What a start hands out goes on from hand to hand until it is used up. -/
def Dealt (k : Key) (a b : Stage) : Prop :=
  b.during k + spendings k b.machine.journal + startings k a.machine.journal =
    a.during k + spendings k a.machine.journal + startings k b.machine.journal

theorem Dealt.of_eq {k : Key} {a b : Stage} (hd : b.during k = a.during k)
    (hp : spendings k b.machine.journal = spendings k a.machine.journal)
    (hs : startings k b.machine.journal = startings k a.machine.journal) : Dealt k a b := by
  rw [Dealt, hd, hp, hs]

section

variable (k : Key) (j : List Event)

theorem spendings_wired (y : Waiter) (ss : List Source) :
    spendings k ((ss.map (Event.wired y)).reverse ++ j) = spendings k j := by
  rw [spendings, reportings, droppings, countP_wired j y (fun _ ↦ rfl), countP_wired j y (fun _ ↦ rfl)]
  rfl

theorem startings_wired (y : Waiter) (ss : List Source) :
    startings k ((ss.map (Event.wired y)).reverse ++ j) = startings k j := countP_wired j y (fun _ ↦ rfl) ss

theorem startings_started (l : Key) (label : String) :
    startings k (.logged (.started l label) :: j) = startings k j + if l = k then 1 else 0 := by
  simp [startings, List.countP_cons, Event.starts]

theorem spendings_dropped (l : Key) (label : String) :
    spendings k (.logged (.dropped l label) :: j) = spendings k j + if l = k then 1 else 0 := by
  simp [spendings, reportings, droppings, List.countP_cons, Event.reports, Event.drops, Nat.add_assoc]

/-- What a report leaves in the journal, up to a last event that says what comes of it. -/
theorem spendings_reported (l : Key) (r : Except Payload Payload) (as : List Asked) :
    spendings k ((as.map (Event.asked l)).reverse ++ .reported l r :: j) = spendings k j + if l = k then 1 else 0 := by
  rw [spendings, reportings, droppings, countP_asked l _ (fun _ ↦ rfl), countP_asked l _ (fun _ ↦ rfl)]
  simp [spendings, reportings, droppings, List.countP_cons, Event.reports, Event.drops, Nat.add_right_comm]

theorem startings_asked (l : Key) (r : Except Payload Payload) (as : List Asked) :
    startings k ((as.map (Event.asked l)).reverse ++ .reported l r :: j) = startings k j :=
  countP_asked l _ (fun _ ↦ rfl) as

end

theorem Dealt.of_reported {k l : Key} {a b : Stage} {r : Except Payload Payload}
    (hd : b.machine.desk = a.machine.desk) (ht : b.machine.timers = a.machine.timers)
    (ha : a.call = some (.complete l r)) (hb : b.call.elim 0 (Call.reports k) = 0)
    (hp : spendings k b.machine.journal = spendings k a.machine.journal + if l = k then 1 else 0)
    (hs : startings k b.machine.journal = startings k a.machine.journal) : Dealt k a b := by
  simp only [Dealt, Stage.during, hd, ht, ha, hb, hp, hs, Option.elim_some, Call.reports]
  omega

theorem Stride.dealt {a b : Stage} (hs : Stride a b) (ha : a.Reached) (k : Key) : Dealt k a b := by
  cases hs with
  | @note m e he =>
    cases e with
    | described | replied => exact .of_eq rfl rfl rfl
    | _ => simp [Event.mute] at he
  | keep | kept | join => exact .of_eq (by simp [Stage.during_mk, Desk.completions_keep, Call.reports]) rfl rfl
  | insert hw | stored _ hw =>
    obtain ⟨t, -, rfl⟩ := World.store_eq hw
    exact .of_eq rfl rfl rfl
  | addNode =>
    refine .of_eq ?_ ?_ ?_
    · simp only [Stage.during_mk, Machine.desk_addNode, Machine.timers_addNode]
    · simp only [Machine.journal_addNode]
      exact spendings_wired ..
    · simp only [Machine.journal_addNode]
      exact startings_wired ..
  | addTerminal | addRoot =>
    refine .of_eq ?_ ?_ ?_
    · simp [Stage.during_mk, Machine.push, Machine.desk_placeTerminal, Machine.timers_placeTerminal, Call.reports]
    · simp only [Machine.push, Machine.journal_placeTerminal]
      exact spendings_wired ..
    · simp only [Machine.push, Machine.journal_placeTerminal]
      exact startings_wired ..
  | @relinquish m c i l hc hl =>
    have hn : m.desk.completions.keys.Nodup := ha.completions_nodup
    have hcount := Table.count_values_erase hn hl k
    simp only [Dealt, Stage.during_mk, spendings_dropped]
    have hst : startings k (.logged (.dropped l (m.world.label (.node l))) :: m.journal) = startings k m.journal := rfl
    omega
  | @timer m t i ht =>
    have hsay := ha.say_le_one k
    rw [Stage.during_mk] at hsay
    have hcount := Machine.countP_timers_eq ht (k := k) (by omega)
    refine .of_eq ?_ rfl rfl
    simp only [Stage.during_mk, Option.elim, Call.reports]
    omega
  | @report m i l r hl =>
    have hn : m.desk.completions.keys.Nodup := ha.completions_nodup
    have hcount := Table.count_values_erase hn hl k
    refine .of_eq ?_ rfl rfl
    simp only [Stage.during_mk, Option.elim, Call.reports]
    omega
  | @lost m c hc =>
    cases c with
    | complete l r =>
      -- only a node that is there has a completion
      obtain ⟨o, ho, -⟩ := ha.takes rfl
      exact absurd (ho.symm.trans hc) (by simp)
    | entrust => exact hc.elim
    | _ => exact .of_eq rfl rfl rfl
  | @repeated m l n r e hl he =>
    obtain ⟨o, ho, hok⟩ := ha.takes rfl
    obtain rfl := Option.some.inj (hl.symm.trans ho)
    exact absurd (he.symm.trans hok) (by simp)
  | @astray m x s | @refused m x s | @arrived m x s | @closed m x s => cases s <;> exact .of_eq rfl rfl rfl
  | @start m l body hold r =>
    have hst : startings k (.ran l r :: .logged (.started l (m.world.label (.node l))) :: m.journal) = _ :=
      startings_started k m.journal l _
    have hsp : spendings k (.ran l r :: .logged (.started l (m.world.label (.node l))) :: m.journal) =
      spendings k m.journal := rfl
    simp only [Dealt, Stage.during_mk, Option.elim, Call.reports, hst, hsp]
    omega
  | @entrust m l body hold r hl =>
    have hcount := Table.count_values_put hl l k
    refine .of_eq ?_ rfl rfl
    simp only [Stage.during_mk, Option.elim, Call.reports]
    omega
  | @timed m l after =>
    have hst : startings k (.timed l after :: .logged (.started l (m.world.label (.node l))) :: m.journal) = _ :=
      startings_started k m.journal l _
    have hsp : spendings k (.timed l after :: .logged (.started l (m.world.label (.node l))) :: m.journal) =
      spendings k m.journal := rfl
    simp only [Dealt, Stage.during_mk, Option.elim, Call.reports, hst, hsp, List.countP_append, List.countP_singleton,
      decide_eq_true_eq]
    omega
  | broken | completed => exact .of_reported rfl rfl rfl rfl (spendings_reported ..) (startings_asked ..)
  | @announce m l n g => cases g <;> exact .of_eq rfl rfl rfl
  | @unwound m f t => cases t.scope? <;> exact .of_eq rfl rfl rfl
  | _ => exact .of_eq rfl rfl rfl

theorem Stage.Reached.during_eq {a : Stage} (h : a.Reached) (k : Key) :
    a.during k + spendings k a.machine.journal = startings k a.machine.journal := by
  refine h.invariant (P := fun a ↦ a.during k + spendings k a.machine.journal = startings k a.machine.journal)
    (fun _ ↦ rfl) fun a b h ih hs ↦ ?_
  have hd := hs.dealt h k
  unfold Dealt at hd
  omega

end ActivityGraph
