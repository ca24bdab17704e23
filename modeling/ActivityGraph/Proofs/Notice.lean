import ActivityGraph.Proofs.Ledger
import ActivityGraph.Proofs.Signal

namespace ActivityGraph

namespace Event

def registers? (s : Source) : Event → Option Waiter
  | .listened x r => if r = s then some x else none
  | _ => none

def notifies? (s : Source) : Event → Option (Waiter × Bool)
  | .told x r c => if r = s then some (x, c) else none
  | _ => none

end Event

def registered (s : Source) (j : List Event) : List Waiter := (j.filterMap (Event.registers? s)).reverse

def notified (s : Source) (j : List Event) : List (Waiter × Bool) := (j.filterMap (Event.notifies? s)).reverse

def World.listeners (w : World) : Source → List Waiter
  | .node k => ((w.nodes.get? k).map Node.listeners).getD []
  | .start k => ((w.starts.get? k).map Start.listeners).getD []

def Task.pending (s : Source) : Task → List Waiter
  | .deliver r _ xs => if r = s then xs else []
  | _ => []

def Call.enlisting (s : Source) : Call → Option Waiter
  | .enlist r x => if r = s then some x else none
  | _ => none

def Call.telling (s : Source) : Call → Option (Waiter × Bool)
  | .arrive x (some r) c => if r = s then some (x, c) else none
  | _ => none

def Stage.ledger (a : Stage) (s : Source) : Ledger where
  signal := a.machine.world.final? s
  registered := registered s a.machine.journal
  notified := notified s a.machine.journal
  listeners := a.machine.world.listeners s
  enlisting := a.call.bind (Call.enlisting s)
  telling := a.call.bind (Call.telling s)
  pending := a.machine.stack.flatMap (Task.pending s)

section

variable (s : Source) (k : Key) (x : Waiter) (j : List Event)

theorem registered_listened : registered s (.listened x s :: j) = registered s j ++ [x] := by
  simp [registered, Event.registers?]

theorem registered_listened_of_ne {r : Source} (h : r ≠ s) : registered s (.listened x r :: j) = registered s j := by
  simp [registered, Event.registers?, h]

theorem notified_told (c : Bool) : notified s (.told x s c :: j) = notified s j ++ [(x, c)] := by
  simp [notified, Event.notifies?]

theorem notified_told_of_ne {r : Source} (h : r ≠ s) (c : Bool) : notified s (.told x r c :: j) = notified s j := by
  simp [notified, Event.notifies?, h]

theorem registered_asked (as : List Asked) : registered s ((as.map (Event.asked k)).reverse ++ j) = registered s j :=
  congrArg List.reverse (filterMap_asked k j (fun _ ↦ rfl) as)

theorem notified_asked (as : List Asked) : notified s ((as.map (Event.asked k)).reverse ++ j) = notified s j :=
  congrArg List.reverse (filterMap_asked k j (fun _ ↦ rfl) as)

theorem registered_wired (ss : List Source) :
    registered s ((ss.map (Event.wired x)).reverse ++ j) = registered s j := by
  rw [registered, List.filterMap_append, ← List.map_reverse]
  simp [registered, Event.registers?]

theorem notified_wired (ss : List Source) : notified s ((ss.map (Event.wired x)).reverse ++ j) = notified s j := by
  rw [notified, List.filterMap_append, ← List.map_reverse]
  simp [notified, Event.notifies?]

end

theorem Task.pending_of_idle {t : Task} (ht : t.idle) (s : Source) : t.pending s = [] := by
  cases t with
  | deliver r c xs => cases xs <;> simp_all [Task.idle, Task.pending]
  | _ => rfl

theorem Task.pending_of_catches {t : Task} (ht : t.catches) (s : Source) : t.pending s = [] := by
  cases t with
  | deliver => simp [Task.catches] at ht
  | _ => rfl

namespace World

variable {w : World} {s : Source} {k : Key}

theorem listeners_modifyNode (f : Node → Node) (hf : ∀ n, (f n).listeners = n.listeners) :
    (w.modifyNode k f).listeners s = w.listeners s := by
  cases s with
  | node l =>
    simp only [listeners, get?_modifyNode]
    split
    · cases w.nodes.get? l with
      | none => rfl
      | some n => exact hf n
    · rfl
  | start l => rfl

theorem listeners_modifyNode_of_ne (f : Node → Node) (h : .node k ≠ s) :
    (w.modifyNode k f).listeners s = w.listeners s := by
  cases s with
  | node l =>
    have hl : k ≠ l := fun he ↦ h (he ▸ rfl)
    simp [listeners, modifyNode, Table.get?_modify, hl]
  | start l => rfl

theorem listeners_modifyStart_of_ne (f : Start → Start) (h : .start k ≠ s) :
    (w.modifyStart k f).listeners s = w.listeners s := by
  cases s with
  | node l => rfl
  | start l =>
    have hl : k ≠ l := fun he ↦ h (he ▸ rfl)
    simp [listeners, modifyStart, Table.get?_modify, hl]

theorem final?_modifyNode (f : Node → Node) (hf : ∀ n, (f n).signal = n.signal) :
    (w.modifyNode k f).final? s = w.final? s := by
  cases s with
  | node l => exact bind_modifyNode w k f hf l
  | start l => rfl

theorem final?_modifyStart (f : Start → Start) (hf : ∀ t, (f t).fired = t.fired) :
    (w.modifyStart k f).final? s = w.final? s := by
  cases s with
  | node l => rfl
  | start l =>
    simp only [final?, modifyStart, Table.get?_modify]
    split
    · cases w.starts.get? l with
      | none => rfl
      | some t => simp [hf]
    · rfl

theorem final?_modifyNode_of_ne (f : Node → Node) (h : .node k ≠ s) :
    (w.modifyNode k f).final? s = w.final? s := by
  cases s with
  | node l =>
    have hl : k ≠ l := fun he ↦ h (he ▸ rfl)
    simp [final?, modifyNode, Table.get?_modify, hl]
  | start l => rfl

theorem final?_modifyStart_of_ne (f : Start → Start) (h : .start k ≠ s) :
    (w.modifyStart k f).final? s = w.final? s := by
  cases s with
  | node l => rfl
  | start l =>
    have hl : k ≠ l := fun he ↦ h (he ▸ rfl)
    simp [final?, modifyStart, Table.get?_modify, hl]

end World

theorem Table.getD_map_insert {κ α β : Type} [DecidableEq κ] (t : Table κ α) (k l : κ) {a : α}
    {g : α → List β} (hg : g a = []) :
    (((t.insert k a).get? l).map g).getD [] = ((t.get? l).map g).getD [] := by
  rw [Table.get?_insert]
  cases t.get? l with
  | some b => rfl
  | none =>
    by_cases h : k = l
    · simp [h, hg]
    · simp [h]

theorem Signal.notice_says (c : Bool) (x : Waiter) : (if c then Signal.cancel else .done).notice x = (x, c) := by
  cases c <;> rfl

theorem Stage.ledger_same {a b : Stage} {s : Source}
    (hf : b.machine.world.final? s = a.machine.world.final? s)
    (hl : b.machine.world.listeners s = a.machine.world.listeners s)
    (hr : registered s b.machine.journal = registered s a.machine.journal)
    (hn : notified s b.machine.journal = notified s a.machine.journal)
    (he : b.call.bind (Call.enlisting s) = a.call.bind (Call.enlisting s))
    (ht : b.call.bind (Call.telling s) = a.call.bind (Call.telling s))
    (hp : b.machine.stack.flatMap (Task.pending s) = a.machine.stack.flatMap (Task.pending s)) :
    Ledger.Move (a.ledger s) (b.ledger s) := by
  have h : b.ledger s = a.ledger s := by simp only [Stage.ledger, hf, hl, hr, hn, he, ht, hp]
  exact h ▸ .idle

theorem Stage.ledger_registers {m n : Machine} {r : Source} {x : Waiter} (s : Source)
    (hf : n.world.final? s = m.world.final? s) (hl : n.world.listeners s = m.world.listeners s)
    (j : List Event) (hj : n.journal = .listened x r :: j)
    (hr : registered s j = registered s m.journal) (hn : notified s j = notified s m.journal)
    (hp : n.stack.flatMap (Task.pending s) = m.stack.flatMap (Task.pending s)) :
    Ledger.Move (Stage.ledger ⟨none, m⟩ s) (Stage.ledger ⟨some (.enlist r x), n⟩ s) := by
  replace hn : notified s n.journal = notified s m.journal := by
    rw [hj]
    exact hn
  by_cases h : r = s
  · subst h
    have hr : registered r n.journal = registered r m.journal ++ [x] := by rw [hj, registered_listened, hr]
    have hb : Stage.ledger ⟨some (.enlist r x), n⟩ r = { Stage.ledger ⟨none, m⟩ r with
        registered := (Stage.ledger ⟨none, m⟩ r).registered ++ [x], enlisting := some x } := by
      simp [Stage.ledger, hf, hl, hr, hn, hp, Call.enlisting, Call.telling]
    exact hb ▸ .register x rfl
  · refine Stage.ledger_same hf hl ?_ hn ?_ rfl hp
    · rw [hj, registered_listened_of_ne s x j h, hr]
    · simp [Call.enlisting, h]

theorem Stage.ledger_tells {m n : Machine} {x : Waiter} {r : Option Source} {c : Bool} {d : Option Call}
    (s : Source) (hf : n.world.final? s = m.world.final? s) (hl : n.world.listeners s = m.world.listeners s)
    (hr : registered s n.journal = registered s (Machine.tellings x r c ++ m.journal))
    (hn : notified s n.journal = notified s (Machine.tellings x r c ++ m.journal))
    (he : d.bind (Call.enlisting s) = none) (ht : d.bind (Call.telling s) = none)
    (hp : n.stack.flatMap (Task.pending s) = m.stack.flatMap (Task.pending s)) :
    Ledger.Move (Stage.ledger ⟨some (.arrive x r c), m⟩ s) (Stage.ledger ⟨d, n⟩ s) := by
  cases r with
  | none => exact Stage.ledger_same hf hl hr hn he ht hp
  | some r =>
    by_cases h : r = s
    · subst h
      replace hr : registered r n.journal = registered r m.journal := hr
      replace hn : notified r n.journal = notified r m.journal ++ [(x, c)] := hn.trans (notified_told ..)
      have ha : (Stage.ledger ⟨some (.arrive x (some r) c), m⟩ r).telling = some (x, c) := if_pos rfl
      have hb : Stage.ledger ⟨d, n⟩ r = { Stage.ledger ⟨some (.arrive x (some r) c), m⟩ r with
          notified := (Stage.ledger ⟨some (.arrive x (some r) c), m⟩ r).notified ++ [(x, c)],
          telling := none } := by
        simp only [Stage.ledger, hf, hl, hr, hn, he, ht, hp]
        rfl
      exact hb ▸ .tell ha
    · replace hn := hn.trans (notified_told_of_ne s x m.journal h c)
      exact Stage.ledger_same hf hl hr hn he (by simp [ht, Call.telling, h]) hp

theorem Stage.ledger_waits {m n : Machine} {r : Source} {x : Waiter} (s : Source)
    (hf : n.world.final? s = m.world.final? s) (hg : m.world.final? r = none)
    (hl : n.world.listeners r = m.world.listeners r ++ [x])
    (ho : r ≠ s → n.world.listeners s = m.world.listeners s)
    (hj : n.journal = m.journal) (hs : n.stack = m.stack) :
    Ledger.Move (Stage.ledger ⟨some (.enlist r x), m⟩ s) (Stage.ledger ⟨none, n⟩ s) := by
  by_cases h : r = s
  · subst h
    have he : (Stage.ledger ⟨some (.enlist r x), m⟩ r).enlisting = some x := if_pos rfl
    have hb : Stage.ledger ⟨none, n⟩ r = { Stage.ledger ⟨some (.enlist r x), m⟩ r with
        listeners := (Stage.ledger ⟨some (.enlist r x), m⟩ r).listeners ++ [x], enlisting := none } := by
      simp only [Stage.ledger, hf, hl, hj, hs]
      rfl
    exact hb ▸ .wait he hg
  · have he : none = Call.enlisting s (.enlist r x) := by simp [Call.enlisting, h]
    refine Stage.ledger_same hf (ho h) (by rw [hj]) (by rw [hj]) he rfl (by rw [hs])

theorem Stage.ledger_replays {m n : Machine} {r : Source} {x : Waiter} {g : Signal} (s : Source)
    (hw : n.world = m.world) (hg : m.world.final? r = some g)
    (hr : registered s n.journal = registered s m.journal) (hn : notified s n.journal = notified s m.journal)
    (hs : n.stack = m.stack) :
    Ledger.Move (Stage.ledger ⟨some (.enlist r x), m⟩ s)
      (Stage.ledger ⟨some (.arrive x (some r) (g = .cancel)), n⟩ s) := by
  by_cases h : r = s
  · subst h
    have he : (Stage.ledger ⟨some (.enlist r x), m⟩ r).enlisting = some x := if_pos rfl
    have hb : Stage.ledger ⟨some (.arrive x (some r) (g = .cancel)), n⟩ r =
        { Stage.ledger ⟨some (.enlist r x), m⟩ r with enlisting := none, telling := some (g.notice x) } := by
      simp only [Stage.ledger, hw, hr, hn, hs]
      simp [Call.enlisting, Call.telling, Signal.notice]
    exact hb ▸ .replay he hg rfl
  · refine Stage.ledger_same (by rw [hw]) (by rw [hw]) hr hn ?_ ?_ (by rw [hs])
    · simp [Call.enlisting, h]
    · simp [Call.telling, h]

theorem Stage.ledger_resolves {m n : Machine} {r : Source} {g : Signal} {c : Bool} {d : Call} (s : Source)
    (hg : m.world.final? r = none) (hf : n.world.final? r = some g) (hl : n.world.listeners r = [])
    (ho : r ≠ s → n.world.final? s = m.world.final? s ∧ n.world.listeners s = m.world.listeners s)
    (hr : registered s n.journal = registered s m.journal) (hn : notified s n.journal = notified s m.journal)
    (he : d.enlisting s = none) (ht : d.telling s = none)
    (hs : n.stack = .deliver r c (m.world.listeners r) :: m.stack) :
    Ledger.Move (Stage.ledger ⟨some d, m⟩ s) (Stage.ledger ⟨none, n⟩ s) := by
  by_cases h : r = s
  · subst h
    have hb : Stage.ledger ⟨none, n⟩ r = { Stage.ledger ⟨some d, m⟩ r with
        signal := some g, listeners := [],
        pending := (Stage.ledger ⟨some d, m⟩ r).listeners ++ (Stage.ledger ⟨some d, m⟩ r).pending } := by
      simp only [Stage.ledger, hf, hl, hr, hn, hs]
      simp [he, ht, Task.pending]
    exact hb ▸ .resolve g hg he
  · obtain ⟨hf, hl⟩ := ho h
    refine Stage.ledger_same hf hl hr hn he.symm ht.symm ?_
    simp [hs, Task.pending, h]

/-- The ledger of a source makes one of its moves, or none, with each stride. -/
theorem Stride.ledger {a b : Stage} (hs : Stride a b) (ha : a.Reached) {s : Source}
    (hd : ∀ f, .unwound f (.delivery s) ∉ b.machine.journal) : Ledger.Move (a.ledger s) (b.ledger s) := by
  have hfinal := hs.final_eq ha
  cases hs with
  | push ht => exact Stage.ledger_same rfl rfl rfl rfl rfl rfl (by simp [Task.pending_of_idle ht])
  | pop hm ht => exact Stage.ledger_same rfl rfl rfl rfl rfl rfl (by simp [hm, Task.pending_of_idle ht])
  | line hm | kept hm | fired hm | resume hm =>
    exact Stage.ledger_same rfl rfl rfl rfl rfl rfl (by simp [hm, Task.pending])
  | timer => exact Stage.ledger_same rfl rfl rfl rfl rfl rfl (by simp [Task.pending])
  | @note m e he =>
    cases e with
    | described | replied => exact .idle
    | _ => simp [Event.mute] at he
  | insert hw | stored _ hw =>
    obtain ⟨t, -, rfl⟩ := World.store_eq hw
    exact .idle
  | @addStart m c i =>
    refine Stage.ledger_same (hfinal (.inl rfl) s) ?_ rfl rfl rfl rfl rfl
    cases s with
    | node k => rfl
    | start k => exact Table.getD_map_insert m.world.starts _ k rfl
  | @addNode m _ a c deps i st work =>
    have hf := hfinal (.inl rfl) s
    obtain ⟨t, -, he⟩ := m.addNode_eq i a c deps st work
    rw [he] at hf ⊢
    refine Stage.ledger_same hf ?_ (registered_wired ..) (notified_wired ..) rfl rfl rfl
    cases s with
    | node k => exact Table.getD_map_insert m.world.nodes _ k rfl
    | start k => rfl
  | @addTerminal m c deps i body =>
    obtain ⟨t, -, he⟩ := m.placeTerminal_eq i c deps body
    rw [he]
    exact Stage.ledger_same rfl rfl (registered_wired ..) (notified_wired ..) rfl rfl rfl
  | @addRoot m c i body =>
    obtain ⟨t, -, he⟩ := m.placeTerminal_eq i c [] body
    rw [he]
    exact .idle
  | @deliver m r c x xs ts hm =>
    have hsays := ha.honest.stack r c x xs (hm ▸ List.mem_cons_self)
    by_cases h : r = s
    · subst h
      have hp : (Stage.ledger ⟨none, m⟩ r).pending = x :: (xs ++ ts.flatMap (Task.pending r)) := by
        simp [Stage.ledger, hm, Task.pending]
      have hmove := Ledger.Move.take hp hsays rfl
      rw [Signal.notice_says] at hmove
      have hb : Stage.ledger ⟨some (.arrive x (some r) c), { m with stack := .deliver r c xs :: ts }⟩ r =
          { Stage.ledger ⟨none, m⟩ r with
            pending := xs ++ ts.flatMap (Task.pending r), telling := some (x, c) } := by
        simp [Stage.ledger, Task.pending, Call.enlisting, Call.telling]
      exact hb ▸ hmove
    · exact Stage.ledger_same rfl rfl rfl rfl rfl (by simp [Call.telling, h]) (by simp [hm, Task.pending, h])
  | @attach m x r ss ts hm =>
    exact Stage.ledger_registers s rfl rfl m.journal rfl rfl rfl (by simp [hm, Task.pending])
  | @depend m k r b c =>
    obtain ⟨t, -, he⟩ := (m.world.setBarrier (.node k) c).drawEdge_eq r (.node k)
    rw [he]
    exact Stage.ledger_registers s rfl rfl _ rfl rfl rfl rfl
  | @listen m k r => exact Stage.ledger_registers s rfl rfl m.journal rfl rfl rfl rfl
  | relinquish => exact .idle
  | @lost m c hc =>
    cases c with
    | enlist r x =>
      have hhas : m.world.Has r := ha.grounded.call _ rfl
      cases r <;> exact absurd hc (Option.isSome_iff_ne_none.1 hhas)
    | arrive => exact absurd hc (by simp [Call.Lost])
    | _ => exact .idle
  | @listed m k n x hk hn =>
    have hg : m.world.final? (.node k) = none := (World.final?_node hk).trans hn
    refine Stage.ledger_waits s (World.final?_modifyNode _ fun _ ↦ rfl) hg ?_ ?_ rfl rfl
    · simp [World.listeners, World.get?_modifyNode_self hk, hk]
    · exact World.listeners_modifyNode_of_ne _
  | @replayed m k n x g hk hn =>
    exact Stage.ledger_replays s rfl ((World.final?_node hk).trans hn) rfl rfl rfl
  | @waiting m k t x hk ht =>
    have hg : m.world.final? (.start k) = none := by rw [World.final?_start hk, if_neg (by simp [ht])]
    refine Stage.ledger_waits s (World.final?_modifyStart _ fun _ ↦ rfl) hg ?_ ?_ rfl rfl
    · simp [World.listeners, World.modifyStart, Table.get?_modify_self, hk]
    · exact World.listeners_modifyStart_of_ne _
  | @passed m k t x hk ht =>
    have hg : m.world.final? (.start k) = some .done := by rw [World.final?_start hk, if_pos ht]
    exact Stage.ledger_replays s rfl hg rfl rfl rfl
  | astray | refused | arrived | closed => exact Stage.ledger_tells s rfl rfl rfl rfl rfl rfl rfl
  | abandon | begin =>
    exact Stage.ledger_same (hfinal (.inr (by simp)) s) (World.listeners_modifyNode _ fun _ ↦ rfl)
      rfl rfl rfl rfl rfl
  | @entrust m k body hold =>
    refine Stage.ledger_same rfl rfl rfl rfl rfl rfl ?_
    cases hold <;> simp [Task.pending]
  | broken | completed =>
    exact Stage.ledger_same (hfinal (.inr (by simp)) s) (World.listeners_modifyNode _ fun _ ↦ rfl)
      (registered_asked ..) (notified_asked ..) rfl rfl rfl
  | @announce m k n g hk =>
    have hg : n.signal = none := by
      refine World.signal_of_rests hk (ha.rests_eq_zero ?_)
      simp [Stage.due, Call.settles]
    have hnode := World.get?_modifyNode_self hk fun n ↦ { n with signal := some g, listeners := [] }
    refine Stage.ledger_resolves (c := g = .cancel) s ((World.final?_node hk).trans hg) (World.final?_node hnode)
      ?_ ?_ ?_ ?_ rfl rfl ?_
    · simp [World.listeners, hnode]
    · exact fun h ↦ ⟨World.final?_modifyNode_of_ne _ h, World.listeners_modifyNode_of_ne _ h⟩
    · cases g <;> rfl
    · cases g <;> rfl
    · simp [World.listeners, hk]
  | @ran m k t hk ht =>
    have hg : m.world.final? (.start k) = none := by rw [World.final?_start hk, if_neg (by simp [ht])]
    have hstart : (m.world.modifyStart k fun t ↦ { t with fired := true, listeners := [] }).starts.get? k =
        some { t with fired := true, listeners := [] } := by
      simp [World.modifyStart, Table.get?_modify_self, hk]
    refine Stage.ledger_resolves (c := false) s hg (World.final?_start hstart) ?_ ?_ rfl rfl rfl rfl ?_
    · simp [World.listeners, hstart]
    · exact fun h ↦ ⟨World.final?_modifyStart_of_ne _ h, World.listeners_modifyStart_of_ne _ h⟩
    · simp [World.listeners, hk]
  | caught hm ht => exact Stage.ledger_same rfl rfl rfl rfl rfl rfl (by simp [hm, Task.pending_of_catches ht])
  | @unwound m f t ts hm ht =>
    have hp : t.pending s = [] := by
      cases t with
      | deliver r c xs =>
        have hr : r ≠ s := by
          rintro rfl
          exact hd f List.mem_cons_self
        simp [Task.pending, hr]
      | _ => rfl
    have hr : registered s (t.scope?.toList.map (Event.unwound f) ++ m.journal) = registered s m.journal := by
      cases t.scope? <;> rfl
    have hn : notified s (t.scope?.toList.map (Event.unwound f) ++ m.journal) = notified s m.journal := by
      cases t.scope? <;> rfl
    exact Stage.ledger_same rfl rfl hr hn rfl rfl (by simp [hm, hp])
  | _ => exact .idle

theorem Stage.Before.mem_journal {a b : Stage} (h : a.Before b) {e : Event} (he : e ∈ a.machine.journal) :
    e ∈ b.machine.journal := by
  induction h with
  | refl => exact he
  | tail hb hs ih => exact hs.mem_journal ih

theorem Stage.calls_ledger (m : Machine) (s : Source) :
    (Stage.ledger ⟨none, m⟩ s).calls = notified s m.journal := List.append_nil _

theorem Machine.pending_eq_nil {m : Machine} {s : Source} (h : ∀ c xs, .deliver s c xs ∉ m.stack) :
    (Stage.ledger ⟨none, m⟩ s).pending = [] := by
  refine List.flatMap_eq_nil_iff.2 fun t ht ↦ ?_
  cases t with
  | deliver r c xs =>
    have hr : r ≠ s := by
      rintro rfl
      exact h c xs ht
    simp [Task.pending, hr]
  | _ => rfl

/-- On a run from a stage in which nobody was told of a source yet, either that is still so, or there is one stride
by which the source became final, and those who had registered by then are told first. -/
theorem Stage.Before.ledger {a b : Stage} (h : a.Before b) (ha : a.Reached) {s : Source} (hs : (a.ledger s).Silent)
    (hd : ∀ f, .unwound f (.delivery s) ∉ b.machine.journal) :
    (b.ledger s).Silent ∨ ∃ c d g, a.Before c ∧ Stride c d ∧ d.Before b ∧ (c.ledger s).Silent ∧
      d.machine.world.final? s = some g ∧ (b.ledger s).Told g (registered s c.machine.journal) := by
  induction h with
  | refl => exact .inl hs
  | @tail c b hc hb ih =>
    have hmove := hb.ledger (ha.before hc) hd
    -- events stay in the journal, so no fault had broken off the telling by then either
    rcases ih fun f hf ↦ hd f (hb.mem_journal hf) with hsilent | ⟨p, q, g, hp, hpq, hq, hsilent, hfinal, htold⟩
    · rcases hsilent.move hmove with hnext | ⟨g, htold⟩
      · exact .inl hnext
      · exact .inr ⟨c, b, g, hc, hb, .refl, hsilent, htold.signal, htold⟩
    · exact .inr ⟨p, q, g, hp, hpq, hq.tail hb, hsilent, hfinal, htold.move hmove⟩

theorem Stage.Reached.silent {a : Stage} (h : a.Reached) {s : Source} (hs : a.machine.world.final? s = none)
    (hd : ∀ f, .unwound f (.delivery s) ∉ a.machine.journal) : (a.ledger s).Silent := by
  obtain ⟨catalogue, ha⟩ := h
  have hfirst : (Stage.ledger ⟨none, { catalogue := catalogue }⟩ s).Silent := by
    cases s <;> exact ⟨rfl, rfl, rfl, rfl⟩
  rcases ha.ledger ⟨catalogue, .refl⟩ hfirst hd with hsilent | ⟨c, d, g, -, -, -, -, -, htold⟩
  · exact hsilent
  · exact absurd (hs.symm.trans htold.signal) (by simp)

namespace Machine

/-- Each registration with a source brings one call. Until the source is final nobody is called, and whoever
registered is in its list. Then the list is empty; those who had registered before the source became final are
called in order, and all of them once that call is over, which leaves nothing to deliver on the stack; those who
register later have their call at once. Each call is the one that goes with the signal of the source. -/
theorem Reachable.notified_once {o m : Machine} (ho : o.Reachable) (hm : Later o m) {s : Source}
    (hs : o.world.final? s = none) (hd : ∀ f, Event.unwound f (.delivery s) ∉ m.journal) :
    (m.world.final? s = none → notified s m.journal = [] ∧ m.world.listeners s = registered s m.journal) ∧
    ∀ g, m.world.final? s = some g →
      m.world.listeners s = [] ∧
      ∃ a b early late, Stage.Before ⟨none, o⟩ a ∧ Stride a b ∧ b.Before ⟨none, m⟩ ∧
        a.machine.world.final? s = none ∧ b.machine.world.final? s = some g ∧
        registered s a.machine.journal = early ∧ registered s m.journal = early ++ late ∧
        (late.map g.notice).Sublist (notified s m.journal) ∧
        (∃ done pending, early = done ++ pending ∧ (done.map g.notice).Sublist (notified s m.journal) ∧
          (notified s m.journal).Perm ((done ++ late).map g.notice)) ∧
        ((∀ c xs, .deliver s c xs ∉ m.stack) → (early.map g.notice).Sublist (notified s m.journal) ∧
          (notified s m.journal).Perm ((registered s m.journal).map g.notice)) := by
  have hrun := hm.before
  have hstart := ho.reached.silent hs fun f hf ↦ hd f (hrun.mem_journal hf)
  rcases hrun.ledger ho.reached hstart hd with hsilent | ⟨a, b, g, ha, hab, hb, hearly, hfinal, htold⟩
  · refine ⟨?_, ?_⟩
    · intro _
      have hlist : registered s m.journal = m.world.listeners s := hsilent.registered.trans (List.append_nil _)
      exact ⟨(Stage.calls_ledger m s).symm.trans hsilent.calls, hlist.symm⟩
    · intro g hg
      exact absurd (hsilent.signal.symm.trans hg) (by simp)
  · refine ⟨fun hg ↦ absurd (hg.symm.trans htold.signal) (by simp), ?_⟩
    intro g' hg
    obtain rfl := Option.some.inj (htold.signal.symm.trans hg)
    obtain ⟨done, late, hregistered, hshares⟩ := htold.shares
    rw [Stage.calls_ledger] at hshares
    replace hregistered : registered s m.journal = registered s a.machine.journal ++ late :=
      hregistered.trans (List.append_nil _)
    refine ⟨htold.listeners, a, b, _, late, ha, hab, hb, hearly.signal, hfinal, rfl, hregistered, hshares.atOnce,
      ⟨done, _, hshares.parts, hshares.inOrder, hshares.perm⟩, ?_⟩
    intro hover
    have hdone : registered s a.machine.journal = done := by
      rw [hshares.parts, pending_eq_nil hover, List.append_nil]
    rw [hregistered, hdone]
    exact ⟨hshares.inOrder, hshares.perm⟩

end Machine

namespace Sample

def failure : Line Action := ⟨"failure", false, .report (some "a") ⟨.failure, some .null⟩⟩

/-- Two probes behind a node. The first one, when it is canceled, has a third one listen to the node. -/
def circle : Machine := Machine.play { catalogue := [("alpha", alpha)] } [
  ⟨"start", false, .start "s" "s" ["alpha"] .null⟩,
  ⟨"perform", false, .perform "a" "alpha" "s" ["s"] none (.script [] true .null)⟩,
  ⟨"probe", false, .probe "p" 1 "p" [] [⟨"listen", false, .listen "r" "a"⟩]⟩,
  ⟨"probe", false, .probe "q" 2 "q" [] []⟩,
  ⟨"probe", false, .probe "r" 1 "r" [] []⟩,
  ⟨"listen", false, .listen "p" "a"⟩,
  ⟨"listen", false, .listen "q" "a"⟩,
  ⟨"listen", false, .listen "q" "a"⟩,
  ⟨"run", false, .run "s"⟩]

theorem circle_reachable : circle.Reachable := ⟨_, .play rfl _⟩

def circled : Machine := (Scenario.report circle {} failure).2

/-- The third probe comes late and is called before the second one, which was in the list twice. -/
theorem circled_notified :
    registered (.node ⟨"a", 0⟩) circled.journal =
      [.probe ⟨"p", 0⟩, .probe ⟨"q", 0⟩, .probe ⟨"q", 0⟩, .probe ⟨"r", 0⟩] ∧
    notified (.node ⟨"a", 0⟩) circled.journal =
      [(.probe ⟨"p", 0⟩, true), (.probe ⟨"r", 0⟩, true),
        (.probe ⟨"q", 0⟩, true), (.probe ⟨"q", 0⟩, true)] ∧
    circled.world.listeners (.node ⟨"a", 0⟩) = [] ∧
    (notified (.node ⟨"a", 0⟩) circled.journal).Perm
      ((registered (.node ⟨"a", 0⟩) circled.journal).map Signal.cancel.notice) := by
  have hs : circle.stack = [] := Machine.stack_play rfl _
  have hopen : circle.world.final? (.node ⟨"a", 0⟩) = none := by decide +kernel
  have hcalm : circled.Calm := by decide +kernel
  have hfinal : circled.world.final? (.node ⟨"a", 0⟩) = some .cancel := by decide +kernel
  have hover (c : Bool) (xs : List Waiter) : .deliver (.node ⟨"a", 0⟩) c xs ∉ circled.stack := by
    rw [circled, Scenario.report, Machine.stack_finish]
    exact List.not_mem_nil
  obtain ⟨-, hnotified⟩ := circle_reachable.notified_once (Machine.Later.report hs {} failure) hopen
    fun f ↦ hcalm f (.delivery _)
  obtain ⟨hlist, a, b, early, late, -, -, -, -, -, -, -, -, -, hend⟩ := hnotified .cancel hfinal
  exact ⟨by decide +kernel, by decide +kernel, hlist, (hend hover).2⟩

end Sample

end ActivityGraph
