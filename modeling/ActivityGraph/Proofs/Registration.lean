import ActivityGraph.Proofs.Known
import Mathlib.Algebra.BigOperators.Group.Multiset.Basic

namespace ActivityGraph

def Task.owes (x : Waiter) : Task → Multiset Source
  | .deliver s _ xs => Multiset.replicate (xs.count x) s
  | .attach y ss => if y = x then ss else 0
  | _ => 0

def Call.owes (x : Waiter) : Call → Multiset Source
  | .enlist s y => if y = x then {s} else 0
  | .arrive y s _ => if y = x then s.toList else 0
  | _ => 0

/-- The sources in whose lists a waiter is, as often as it is there. -/
def World.owes (w : World) (x : Waiter) : Multiset Source :=
  (w.nodes.entries.map fun e ↦ Multiset.replicate (e.2.listeners.count x) (.node e.1)).sum +
  (w.starts.entries.map fun e ↦ Multiset.replicate (e.2.listeners.count x) (.start e.1)).sum

def Machine.owes (m : Machine) (x : Waiter) : Multiset Source :=
  m.world.owes x + (m.stack.map (Task.owes x)).sum

def Stage.owes (a : Stage) (x : Waiter) : Multiset Source :=
  a.machine.owes x + a.call.elim 0 (Call.owes x)

def told (x : Waiter) (j : List Event) : Multiset Source := (heard x j).map Prod.fst

theorem Task.owes_of_idle {t : Task} (ht : t.idle) (x : Waiter) : t.owes x = 0 := by
  cases t with
  | deliver s c xs => cases xs <;> simp_all [Task.idle, Task.owes]
  | attach y ss => cases ss <;> simp_all [Task.idle, Task.owes]
  | _ => rfl

theorem Task.owes_deliver (x y : Waiter) (s : Source) (c : Bool) (xs : List Waiter) :
    (Task.deliver s c (y :: xs)).owes x = (if y = x then {s} else 0) + (Task.deliver s c xs).owes x := by
  by_cases h : y = x <;> simp [Task.owes, h]

theorem Task.owes_attach (x y : Waiter) (s : Source) (ss : List Source) :
    (Task.attach y (s :: ss)).owes x = (if y = x then {s} else 0) + (Task.attach y ss).owes x := by
  by_cases h : y = x <;> simp [Task.owes, h, ← Multiset.cons_coe]

@[simp] theorem Call.owes_arrive (x y : Waiter) (s : Source) (c : Bool) :
    (Call.arrive y (some s) c).owes x = if y = x then {s} else 0 := rfl

namespace World

variable {w : World} {k : Key} (x : Waiter)

theorem owes_modifyNode {n : Node} (h : w.nodes.get? k = some n) (f : Node → Node) :
    (w.modifyNode k f).owes x + .replicate (n.listeners.count x) (.node k) =
      w.owes x + .replicate ((f n).listeners.count x) (.node k) := by
  have := Table.sum_entries_modify
    (fun e : Key × Node ↦ Multiset.replicate (e.2.listeners.count x) (Source.node e.1)) h f
  simp only [owes, modifyNode]
  rw [add_right_comm, this, add_right_comm]

theorem owes_modifyStart {t : Start} (h : w.starts.get? k = some t) (f : Start → Start) :
    (w.modifyStart k f).owes x + .replicate (t.listeners.count x) (.start k) =
      w.owes x + .replicate ((f t).listeners.count x) (.start k) := by
  have := Table.sum_entries_modify
    (fun e : Key × Start ↦ Multiset.replicate (e.2.listeners.count x) (Source.start e.1)) h f
  simp only [owes, modifyStart]
  rw [add_assoc, this, ← add_assoc]

theorem owes_modifyNode_of_listeners (f : Node → Node) (hf : ∀ n, (f n).listeners = n.listeners) :
    (w.modifyNode k f).owes x = w.owes x := by
  cases h : w.nodes.get? k with
  | none => rw [modifyNode, Table.modify_eq_self h]
  | some n =>
    have := owes_modifyNode x h f
    rw [hf] at this
    exact add_right_cancel this

theorem owes_listed {n : Node} (h : w.nodes.get? k = some n) (y : Waiter) :
    (w.modifyNode k fun n ↦ { n with listeners := n.listeners ++ [y] }).owes x =
      w.owes x + if y = x then {.node k} else 0 := by
  refine add_right_cancel ((owes_modifyNode x h _).trans ?_)
  rw [List.count_append, Multiset.replicate_add, add_assoc, add_comm (ite ..)]
  by_cases hy : y = x <;> simp [hy]

theorem owes_waiting {t : Start} (h : w.starts.get? k = some t) (y : Waiter) :
    (w.modifyStart k fun t ↦ { t with listeners := t.listeners ++ [y] }).owes x =
      w.owes x + if y = x then {.start k} else 0 := by
  refine add_right_cancel ((owes_modifyStart x h _).trans ?_)
  rw [List.count_append, Multiset.replicate_add, add_assoc, add_comm (ite ..)]
  by_cases hy : y = x <;> simp [hy]

@[simp] theorem owes_modifyTerminal (w : World) (k : Key) (f : Terminal → Terminal) (x : Waiter) :
    (w.modifyTerminal k f).owes x = w.owes x := rfl

@[simp] theorem owes_modifyProbe (w : World) (k : Key) (f : Probe → Probe) (x : Waiter) :
    (w.modifyProbe k f).owes x = w.owes x := rfl

@[simp] theorem owes_setBarrier (w : World) (y : Waiter) (b : Barrier) (x : Waiter) :
    (w.setBarrier y b).owes x = w.owes x := rfl

end World

theorem told_tellings (x y : Waiter) (s : Option Source) (c : Bool) (j : List Event) :
    told x (Machine.tellings y s c ++ j) = (if y = x then (s.toList : Multiset Source) else 0) + told x j := by
  cases s with
  | none => simp [Machine.tellings]
  | some s => by_cases h : y = x <;> simp [told, heard, Machine.tellings, Event.tells?, h]

theorem accepted_tellings (x y : Waiter) (s : Option Source) (c : Bool) (j : List Event) :
    accepted x (Machine.tellings y s c ++ j) = accepted x j := by
  cases s <;> rfl

theorem told_wired (x y : Waiter) (ss : List Source) (j : List Event) :
    told x ((ss.map (Event.wired y)).reverse ++ j) = told x j := by rw [told, heard_wired, told]

theorem told_asked (x : Waiter) (k : Key) (as : List Asked) (j : List Event) :
    told x ((as.map (Event.asked k)).reverse ++ j) = told x j := by rw [told, heard_asked, told]

/-- All that was accepted is told or owed, up to what a stride loses. -/
def Balanced (x : Waiter) (a b : Stage) (loss : Multiset Source) : Prop :=
  told x b.machine.journal + b.owes x + loss + accepted x a.machine.journal =
    told x a.machine.journal + a.owes x + accepted x b.machine.journal

theorem Balanced.of_eq {x : Waiter} {a b : Stage}
    (ht : told x b.machine.journal = told x a.machine.journal) (ho : b.owes x = a.owes x)
    (ha : accepted x b.machine.journal = accepted x a.machine.journal) : Balanced x a b 0 := by
  rw [Balanced, ht, ho, ha, add_zero]

theorem Balanced.of_taken {x y : Waiter} {a b : Stage} (ss : List Source)
    (ht : told x b.machine.journal = told x a.machine.journal)
    (ho : b.owes x = (if y = x then (ss : Multiset Source) else 0) + a.owes x)
    (ha : accepted x b.machine.journal = (if y = x then ss.reverse else []) ++ accepted x a.machine.journal) :
    Balanced x a b 0 := by
  rw [Balanced, ht, ho, ha]
  split
  · rw [← Multiset.coe_add, Multiset.coe_reverse]
    abel
  · simp

theorem Balanced.of_told {x y : Waiter} {a b : Stage} {s : Option Source} {c : Bool}
    (hj : told x b.machine.journal = told x (Machine.tellings y s c ++ a.machine.journal))
    (ho : a.owes x = b.owes x + if y = x then (s.toList : Multiset Source) else 0)
    (ha : accepted x b.machine.journal = accepted x a.machine.journal) : Balanced x a b 0 := by
  rw [Balanced, hj, told_tellings, ho, ha]
  abel

theorem Stage.owes_mk (c : Option Call) (m : Machine) (x : Waiter) : Stage.owes ⟨c, m⟩ x =
    m.world.owes x + (m.stack.map (Task.owes x)).sum + c.elim 0 (Call.owes x) := rfl

/-- What a stride can lose: a registration with nothing, or what a fault takes off the stack. -/
inductive Spill (x : Waiter) (a b : Stage) : Multiset Source → Prop
  | none : Spill x a b 0
  | lost {s : Source} (ha : a.call = some (.enlist s x)) (hs : ¬ a.machine.world.Has s) : Spill x a b {s}
  | unwound {f : Fault} {t : Task} {ts : List Task} (ha : a.call = some (.raise f))
      (hm : a.machine.stack = t :: ts)
      (hb : b.machine.journal = t.scope?.toList.map (.unwound f) ++ a.machine.journal) :
      Spill x a b (t.owes x)

theorem Stride.balanced {a b : Stage} (hs : Stride a b) {x : Waiter} (hx : x.bare = false) :
    ∃ loss, Spill x a b loss ∧ Balanced x a b loss := by
  cases hs with
  | push ht => exact ⟨0, .none, .of_eq rfl (by simp [Stage.owes_mk, Task.owes_of_idle ht]) rfl⟩
  | pop hm ht => exact ⟨0, .none, .of_eq rfl (by simp [Stage.owes_mk, hm, Task.owes_of_idle ht]) rfl⟩
  | line hm | kept hm | fired hm | resume hm =>
    exact ⟨0, .none, .of_eq rfl (by simp [Stage.owes_mk, hm, Task.owes, Call.owes]) rfl⟩
  | timer => exact ⟨0, .none, .of_eq rfl (by simp [Stage.owes_mk, Task.owes, Call.owes]) rfl⟩
  | @note m e he =>
    refine ⟨0, .none, ?_⟩
    cases e with
    | described | replied => exact .of_eq rfl rfl rfl
    | _ => simp [Event.mute] at he
  | insert hw | stored _ hw =>
    obtain ⟨t, -, rfl⟩ := World.store_eq hw
    exact ⟨0, .none, .of_eq rfl rfl rfl⟩
  | addStart =>
    refine ⟨0, .none, .of_eq rfl ?_ rfl⟩
    simp [Stage.owes_mk, Machine.addStart, Machine.mapWorld, Machine.note, World.owes, World.addStart,
      World.addVertex, World.modifyCollector, Table.insert]
  | @addNode m _ a c deps i s work =>
    obtain ⟨t, -, he⟩ := m.addNode_eq i a c deps s work
    refine ⟨0, .none, ?_⟩
    rw [he]
    refine .of_taken deps (told_wired ..) ?_ (accepted_wired ..)
    simp only [Stage.owes_mk, World.owes, Table.sum_entries_insert, List.map_cons, List.sum_cons, Task.owes,
      Machine.newNode, List.count_nil, Multiset.replicate_zero]
    abel
  | @addTerminal m c deps i body =>
    obtain ⟨t, -, he⟩ := m.placeTerminal_eq i c deps body
    refine ⟨0, .none, ?_⟩
    rw [he]
    refine .of_taken deps (told_wired ..) ?_ (accepted_wired ..)
    simp only [Stage.owes_mk, World.owes, Machine.push, List.map_cons, List.sum_cons, Task.owes]
    abel
  | @addRoot m c i body =>
    obtain ⟨t, -, he⟩ := m.placeTerminal_eq i c [] body
    refine ⟨0, .none, ?_⟩
    rw [he]
    exact .of_eq rfl (by simp [Stage.owes_mk, World.owes, Task.owes, Call.owes]) rfl
  | deliver hm =>
    refine ⟨0, .none, .of_eq rfl ?_ rfl⟩
    simp only [Stage.owes_mk, hm, List.map_cons, List.sum_cons, Task.owes_deliver, Option.elim,
      Call.owes_arrive]
    abel
  | attach hm =>
    refine ⟨0, .none, .of_eq rfl ?_ rfl⟩
    simp only [Stage.owes_mk, hm, List.map_cons, List.sum_cons, Task.owes_attach, Option.elim, Call.owes]
    abel
  | @depend m k s b c =>
    obtain ⟨t, -, he⟩ := (m.world.setBarrier (.node k) c).drawEdge_eq s (.node k)
    refine ⟨0, .none, ?_⟩
    rw [he]
    refine .of_taken (y := .node k) [s] rfl ?_ (accepted_wired x _ (.node k) [s])
    simp only [Stage.owes_mk, World.owes, World.setBarrier, Option.elim, Call.owes, Multiset.coe_singleton]
    abel
  | @listen m k s =>
    have hk : Waiter.probe k ≠ x := by
      rintro rfl
      simp [Waiter.bare] at hx
    exact ⟨0, .none, .of_eq rfl (by simp [Stage.owes_mk, Call.owes, hk]) rfl⟩
  | arrive => exact ⟨0, .none, .of_eq rfl (by simp [Stage.owes_mk, Call.owes]) rfl⟩
  | @lost m c hc =>
    cases c with
    | enlist s y =>
      by_cases h : y = x
      · refine ⟨{s}, .lost (h ▸ rfl) ?_, ?_⟩
        · cases s <;> simpa [World.Has, Call.Lost] using hc
        · simp [Balanced, Stage.owes_mk, Call.owes, h, add_assoc]
      · exact ⟨0, .none, .of_eq rfl (by simp [Stage.owes_mk, Call.owes, h]) rfl⟩
    | arrive => exact absurd hc (by simp [Call.Lost])
    | _ => exact ⟨0, .none, .of_eq rfl rfl rfl⟩
  | @listed m k n y hk hn =>
    refine ⟨0, .none, .of_eq rfl ?_ rfl⟩
    simp only [Stage.owes_mk, World.owes_listed x hk, Option.elim, Call.owes]
    abel
  | replayed => exact ⟨0, .none, .of_eq rfl rfl rfl⟩
  | @waiting m k t y hk ht =>
    refine ⟨0, .none, .of_eq rfl ?_ rfl⟩
    simp only [Stage.owes_mk, World.owes_waiting x hk, Option.elim, Call.owes]
    abel
  | passed => exact ⟨0, .none, .of_eq rfl rfl rfl⟩
  | astray | refused => exact ⟨0, .none, .of_told rfl (by simp [Stage.owes_mk, Call.owes]) (accepted_tellings ..)⟩
  | arrived | closed =>
    exact ⟨0, .none, .of_told rfl (by simp [Stage.owes_mk, Call.owes]) (accepted_tellings ..)⟩
  | abandon | begin =>
    exact ⟨0, .none, .of_eq rfl (by simp [Stage.owes_mk, Call.owes, World.owes_modifyNode_of_listeners]) rfl⟩
  | join | call | prepare =>
    exact ⟨0, .none, .of_eq rfl (by simp [Stage.owes_mk, Call.owes, Task.owes]) rfl⟩
  | @entrust m k body hold r hk =>
    refine ⟨0, .none, .of_eq rfl ?_ rfl⟩
    cases hold <;> simp [Stage.owes_mk, Call.owes, Task.owes]
  | broken | completed =>
    refine ⟨0, .none, .of_eq (told_asked ..) ?_ (accepted_asked ..)⟩
    simp [Stage.owes_mk, Call.owes, World.owes_modifyNode_of_listeners]
  | @announce m k n g hk =>
    have := World.owes_modifyNode x hk fun n ↦ { n with signal := some g, listeners := [] }
    refine ⟨0, .none, .of_eq ?_ ?_ ?_⟩
    · cases g <;> rfl
    · simp only [List.count_nil, Multiset.replicate_zero, add_zero] at this
      simp only [Stage.owes_mk, ← this, List.map_cons, List.sum_cons, Task.owes, Option.elim, Call.owes]
      abel
    · cases g <;> rfl
  | @ran m k t hk ht =>
    have := World.owes_modifyStart x hk fun t ↦ { t with fired := true, listeners := [] }
    refine ⟨0, .none, .of_eq rfl ?_ rfl⟩
    simp only [List.count_nil, Multiset.replicate_zero, add_zero] at this
    simp only [Stage.owes_mk, ← this, List.map_cons, List.sum_cons, Task.owes, Option.elim, Call.owes]
    abel
  | @caught m f t ts hm ht =>
    have : t.owes x = 0 := by cases t <;> simp_all [Task.catches, Task.owes]
    exact ⟨0, .none, .of_eq rfl (by simp [Stage.owes_mk, hm, this, Call.owes]) rfl⟩
  | @unwound m f t ts hm ht =>
    have hj : told x (t.scope?.toList.map (Event.unwound f) ++ m.journal) = told x m.journal ∧
        accepted x (t.scope?.toList.map (Event.unwound f) ++ m.journal) = accepted x m.journal := by
      cases t.scope? <;> exact ⟨rfl, rfl⟩
    refine ⟨t.owes x, .unwound rfl hm rfl, ?_⟩
    simp only [Balanced, Stage.owes_mk, hm, hj, List.map_cons, List.sum_cons]
    abel
  | _ => exact ⟨0, .none, .of_eq rfl rfl rfl⟩

end ActivityGraph
