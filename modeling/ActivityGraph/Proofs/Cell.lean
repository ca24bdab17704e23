import ActivityGraph.Proofs.Deeds
import ActivityGraph.Proofs.Stored
import Mathlib.Data.Finset.Card

namespace ActivityGraph

def Event.writes? (c : Key) (x : Activity) : Event → Option Outcome
  | .wrote _ d y r => if d = c ∧ y = x then some r else none
  | _ => none

/-- What a node that became final writes: the cell, and the record. -/
def Event.stored? (k : Key) : Event → Option (Key × Activity × Outcome)
  | .wrote (some l) c x r => if l = k then some (c, x, r) else none
  | _ => none

/-- The last record that was written to a cell. The journal has the latest event first. -/
def lastWrite (c : Key) (x : Activity) (j : List Event) : Option Outcome := j.findSome? (Event.writes? c x)

/-- The cell of a node that has its signal, and the record with which it became final. -/
def World.resolved? (w : World) (k : Key) : Option (Key × Activity × Outcome) :=
  (w.nodes.get? k).bind fun n ↦ n.signal.map fun _ ↦ (n.collector, n.activity, n.record)

section

variable (c : Key) (x : Activity) (k : Key) (i j : List Event)

theorem lastWrite_saves : lastWrite c x (j.filter Event.saves) = lastWrite c x j := by
  induction j with
  | nil => rfl
  | cons e j ih =>
    cases e with
    | wrote w d y r =>
      rw [List.filter_cons, if_pos (by rfl), lastWrite, lastWrite, List.findSome?_cons, List.findSome?_cons]
      split
      · rfl
      · exact ih
    | _ => exact ih

theorem filterMap_saves : (j.filter Event.saves).filterMap (Event.stored? k) = j.filterMap (Event.stored? k) := by
  induction j with
  | nil => rfl
  | cons e j ih =>
    cases e with
    | wrote w d y r =>
      simp only [List.filter_cons, Event.saves, if_true, List.filterMap_cons, ih]
    | _ => exact ih

theorem lastWrite_append : lastWrite c x (i ++ j) = (lastWrite c x i).or (lastWrite c x j) :=
  List.findSome?_append

end

theorem Stage.Reached.slot_eq_lastWrite {a : Stage} (h : a.Reached) (c : Key) (x : Activity) :
    a.machine.world.slot? c x = lastWrite c x a.machine.journal := by
  refine h.invariant (P := fun a ↦ a.machine.world.slot? c x = lastWrite c x a.machine.journal) (fun _ ↦ rfl) ?_
  intro a b h ih hs
  have wrote {w : Option Key} {d : Key} {y : Activity} {r : Outcome}
      (hw : a.machine.world.store d y r = .ok b.machine.world)
      (hj : b.machine.journal = .wrote w d y r :: a.machine.journal) :
      b.machine.world.slot? c x = lastWrite c x b.machine.journal := by
    rw [World.slot?_store hw, hj, lastWrite, List.findSome?_cons, Event.writes?, ih, lastWrite]
    split <;> rfl
  cases hs.stores h with
  | nothing hslot _ _ hj => rw [hslot, ih, ← lastWrite_saves c x b.machine.journal, hj, lastWrite_saves]
  | insert hw _ _ _ hj => exact wrote hw hj
  | stored _ hw _ _ hj => exact wrote hw hj
  | unstored _ _ hsame hj => rw [hsame, ih, ← lastWrite_saves c x b.machine.journal, hj, lastWrite_saves]

def Stage.stored? (a : Stage) (k : Key) : Option (Key × Activity × Outcome) :=
  (a.machine.world.nodes.get? k).bind fun n ↦
    if n.signal.isSome || a.call.any (Call.announces k) then some (n.collector, n.activity, n.record) else none

theorem Stage.stored?_eq_some {a : Stage} {k c : Key} {x : Activity} {r : Outcome} :
    a.stored? k = some (c, x, r) ↔ a.published c x k = some r := by
  rw [Stage.stored?, Stage.published]
  cases a.machine.world.nodes.get? k with
  | none => simp
  | some n =>
    simp only [Option.bind_some, Option.ite_none_right_eq_some, Option.some.injEq, Prod.mk.injEq]
    tauto

theorem Stage.Reached.filterMap_stored {a : Stage} (h : a.Reached) (k : Key) :
    a.machine.journal.filterMap (Event.stored? k) = (a.stored? k).toList := by
  refine h.invariant (P := fun a ↦ a.machine.journal.filterMap (Event.stored? k) = (a.stored? k).toList)
    (fun _ ↦ rfl) ?_
  intro a b h ih hs
  have quiet (hq : ∀ l g, b.call ≠ some (.announce l g)) : b.stored? k = a.stored? k := by
    refine Option.ext fun ⟨c, x, r⟩ ↦ ?_
    rw [Stage.stored?_eq_some, Stage.stored?_eq_some, hs.published_eq h hq]
  cases hs.stores h with
  | nothing _ _ hq hj => rw [quiet hq, ← ih, ← filterMap_saves k b.machine.journal, hj, filterMap_saves]
  | insert _ _ _ hb hj =>
    rw [quiet (by simp [hb]), ← ih, hj]
    rfl
  | @stored l n g hn hw ha hb hj =>
    obtain ⟨t, -, hv⟩ := World.store_eq hw
    have hnodes : b.machine.world.nodes = a.machine.world.nodes := by rw [hv]
    by_cases hl : l = k
    · subst hl
      have hr : n.signal = none := World.signal_of_rests hn (h.rests_eq_zero (by simp [ha, Call.settles]))
      have hnone : a.stored? l = none := by simp [Stage.stored?, hn, hr, ha, Call.announces]
      rw [hj, List.filterMap_cons, ih, hnone]
      simp [Event.stored?, Stage.stored?, hnodes, hn, hb, Call.announces]
    · rw [hj, List.filterMap_cons, ih]
      simp [Event.stored?, Stage.stored?, hnodes, ha, hb, Call.announces, hl]
  | unstored hn hst =>
    obtain ⟨v, hv⟩ := World.exists_store (h.declares hn) _
    exact absurd (hst.symm.trans hv) (by simp)

theorem Machine.Reachable.stored_eq {m : Machine} (hm : m.Reachable) (k : Key) :
    m.journal.filterMap (Event.stored? k) = (m.world.resolved? k).toList := by
  refine (hm.reached.filterMap_stored k).trans (congrArg Option.toList ?_)
  rw [Stage.stored?, World.resolved?]
  cases m.world.nodes.get? k with
  | none => rfl
  | some n => cases hg : n.signal <;> simp [hg]

structure Collector.Remains (c d : Collector) : Prop where
  name : d.name = c.name
  context : d.context = c.context
  declared : d.declared = c.declared

theorem Collector.Remains.refl (c : Collector) : Remains c c := ⟨rfl, rfl, rfl⟩

theorem Collector.Remains.trans {c d e : Collector} (h : Remains c d) (h' : Remains d e) : Remains c e :=
  ⟨h'.name.trans h.name, h'.context.trans h.context, h'.declared.trans h.declared⟩

/-- Two worlds have the same collectors, up to what is in the slots and in the diagrams. -/
def World.Retains (w v : World) : Prop := ∀ c, Option.Rel Collector.Remains (w.collectors.get? c) (v.collectors.get? c)

namespace World.Retains

variable {u v w : World}

theorem refl (w : World) : Retains w w := fun c ↦ by
  cases w.collectors.get? c with
  | none => exact .none
  | some col => exact .some (.refl col)

theorem of_eq (h : v.collectors = w.collectors) : Retains w v := by
  rw [Retains, h]
  exact refl w

theorem trans (h : Retains u v) (h' : Retains v w) : Retains u w := fun c ↦ by
  have hc := h c
  have hc' := h' c
  generalize u.collectors.get? c = x, v.collectors.get? c = y, w.collectors.get? c = z at hc hc'
  cases hc with
  | none =>
    cases hc'
    exact .none
  | some hxy =>
    cases hc' with
    | some hyz => exact .some (hxy.trans hyz)

theorem modifyCollector (w : World) (k : Key) {f : Collector → Collector} (hf : ∀ c, Collector.Remains c (f c)) :
    Retains w (w.modifyCollector k f) := fun c ↦ by
  rw [World.modifyCollector, Table.get?_modify]
  split
  · cases w.collectors.get? c with
    | none => exact .none
    | some col => exact .some (hf col)
  · exact refl w c

theorem drawEdge (w : World) (s : Source) (x : Waiter) : Retains w (w.drawEdge s x) := by
  unfold World.drawEdge
  split
  · split
    · exact modifyCollector w _ fun c ↦ ⟨rfl, rfl, rfl⟩
    · exact refl w
  · exact refl w

theorem store {k : Key} {x : Activity} {r : Outcome} (h : w.store k x r = .ok v) : Retains w v := by
  rw [World.store_modifies h]
  exact modifyCollector w k fun c ↦ ⟨rfl, rfl, Table.keys_modify _ _ _⟩

theorem wireAll (m : Machine) (x : Waiter) (ss : List Source) : Retains m.world (m.wireAll x ss).world := by
  induction ss generalizing m with
  | nil => exact refl _
  | cons s ss ih => exact (drawEdge m.world s x).trans (ih (m.wire x s))

theorem addVertex (w : World) (k : Key) (v : Vertex) : Retains w (w.addVertex k v) :=
  modifyCollector w k fun _ ↦ ⟨rfl, rfl, rfl⟩

theorem addNode (m : Machine) (id : String) (x : Activity) (c : Key) (deps : List Source) (s : Setup Script)
    (work : Work Script) : Retains m.world (m.addNode id x c deps s work).world := by
  refine trans ?_ (wireAll _ (.node (m.world.nodes.fresh id)) deps)
  exact addVertex m.world c ⟨x.label, .activity⟩

theorem placeTerminal (m : Machine) (id : String) (c : Key) (deps : List Source) (body : Script) :
    Retains m.world (m.placeTerminal id c deps body).world := by
  refine trans ?_ (wireAll _ (.terminal (m.world.terminals.fresh id)) deps)
  exact addVertex m.world c ⟨"joined", .joined⟩

end World.Retains

theorem Stride.retains {a b : Stage} (hs : Stride a b) :
    a.machine.world.Retains b.machine.world ∨
      ∃ id name xs context, b.machine.world.collectors =
        a.machine.world.collectors.insert (a.machine.world.collectors.fresh id) (.create name context xs) := by
  cases hs with
  | insert hw | stored _ hw => exact .inl (.store hw)
  | addCollector id name xs context => exact .inr ⟨id, name, xs, _, rfl⟩
  | addStart => exact .inl (.addVertex _ _ _)
  | addNode => exact .inl (.addNode _ _ _ _ _ _ _)
  | addTerminal | addRoot => exact .inl (.placeTerminal _ _ _ _ _)
  | @depend m k s b c => exact .inl (.drawEdge (m.world.setBarrier (.node k) c) s _)
  | _ => exact .inl (.of_eq rfl)

theorem Stride.remains {a b : Stage} (hs : Stride a b) (ha : a.Reached) {c : Key} {col : Collector}
    (hc : a.machine.world.collectors.get? c = some col) :
    ∃ d, b.machine.world.collectors.get? c = some d ∧ col.Remains d := by
  rcases hs.retains with h | ⟨id, name, xs, context, he⟩
  · have hr := h c
    rw [hc] at hr
    generalize b.machine.world.collectors.get? c = o at hr
    cases hr with
    | some hr => exact ⟨_, rfl, hr⟩
  · have hnew := ha.sound.collectors.get?_fresh id
    refine ⟨col, ?_, .refl col⟩
    rw [he, Table.get?_insert_of_new hnew, if_neg, hc]
    rintro rfl
    exact absurd (hnew.symm.trans hc) (by simp)

theorem Stage.Before.remains {a b : Stage} (h : a.Before b) (ha : a.Reached) {c : Key} {col : Collector}
    (hc : a.machine.world.collectors.get? c = some col) :
    ∃ d, b.machine.world.collectors.get? c = some d ∧ col.Remains d := by
  induction h with
  | refl => exact ⟨col, hc, .refl col⟩
  | tail hb hs ih =>
    obtain ⟨d, hd, hr⟩ := ih
    obtain ⟨e, he, hr'⟩ := hs.remains (ha.before hb) hd
    exact ⟨e, he, hr.trans hr'⟩

theorem Table.nodup_ofKeys {κ α : Type} [DecidableEq κ] (ks : List κ) (a : α) : (ofKeys ks a).keys.Nodup := by
  suffices all : ∀ t : Table κ α, t.keys.Nodup → (ks.foldl (fun t k ↦ t.put k a) t).keys.Nodup from
    all {} List.nodup_nil
  induction ks with
  | nil => exact fun _ ↦ id
  | cons k ks ih =>
    exact fun t ht ↦ ih _ (nodup_keys_put ht k a)

theorem Stage.Reached.declared_nodup {a : Stage} (h : a.Reached) {c : Key} {col : Collector}
    (hc : a.machine.world.collectors.get? c = some col) : col.declared.Nodup := by
  revert col
  refine h.invariant (P := fun a ↦ ∀ {col}, a.machine.world.collectors.get? c = some col → col.declared.Nodup) ?_ ?_
  · intro _ col hc
    simp [Table.get?] at hc
  · intro a b h ih hs d hd
    rcases hs.retains with hr | ⟨id, name, xs, context, he⟩
    · have hc := hr c
      rw [hd] at hc
      generalize hx : a.machine.world.collectors.get? c = o at hc
      cases hc with
      | some hr => exact hr.declared ▸ ih hx
    · rw [he, Table.get?_insert_of_new (h.sound.collectors.get?_fresh id)] at hd
      split at hd
      · obtain rfl := Option.some.inj hd
        exact Table.nodup_ofKeys xs none
      · exact ih hd

theorem Table.countP_values {κ α : Type} [DecidableEq κ] {t : Table κ α} (h : t.keys.Nodup) (p : α → Bool) :
    t.values.countP p = (t.keys.filter fun k ↦ (t.get? k).any p).length := by
  rw [← List.countP_eq_length_filter, keys, values, List.countP_map, List.countP_map]
  refine List.countP_congr fun e he ↦ ?_
  simp [get?_of_mem h he]

theorem Collector.written_eq {col : Collector} (h : col.declared.Nodup) :
    col.written = (col.declared.filter fun x ↦ (col.slot? x).isSome).length := by
  refine (Table.countP_values h _).trans (congrArg List.length (List.filter_congr fun x _ ↦ ?_))
  rw [Collector.slot?]
  cases col.slots.get? x <;> simp

theorem Stage.Reached.written_eq {a : Stage} (h : a.Reached) {c : Key} {col : Collector}
    (hc : a.machine.world.collectors.get? c = some col) :
    col.written = (col.declared.toFinset.filter fun x ↦ (lastWrite c x a.machine.journal).isSome).card := by
  have hn := h.declared_nodup hc
  rw [Collector.written_eq hn, ← List.toFinset_filter, List.toFinset_card_of_nodup (hn.filter _)]
  refine congrArg List.length (List.filter_congr fun x _ ↦ ?_)
  rw [← World.slot?_of_collector hc, h.slot_eq_lastWrite]

namespace Machine

theorem world_execute_stores (m : Machine) (f : Frame) {l : Line Action} (hl : l.action.stores) :
    (m.execute f l).world = m.world ∨ ∃ k x r, (m.execute f l).journal = .wrote none k x r :: m.journal := by
  have hg : (if l.caught then m.push (.guard ⟨f.owner, l.verb⟩) else m).world = m.world ∧
      (if l.caught then m.push (.guard ⟨f.owner, l.verb⟩) else m).journal = m.journal := by
    split <;> exact ⟨rfl, rfl⟩
  unfold execute
  dsimp only
  split
  · next n hact =>
    obtain ⟨g, x, rfl, rfl | ⟨k, y, r, hst⟩⟩ := act_stores hl hact
    · exact .inl hg.1
    · refine .inr ⟨k, y, r, ?_⟩
      unfold store at hst
      split at hst
      · simp at hst
      · obtain rfl := Except.ok.inj hst
        exact congrArg (_ :: ·) hg.2
  · exact .inl hg.1

theorem Move.world_stores {m n : Machine} {l : Option (Line Action)} (h : m.Move l n) {i : Line Action}
    (hi : l = some i) (hs : i.action.stores) : n.world = m.world ∨ ∃ k x r, n.journal = .wrote none k x r :: m.journal := by
  cases h with
  | line hm f i' =>
    obtain rfl := Option.some.inj hi
    exact world_execute_stores { m with stack := [.guard ⟨f.owner, i'.verb⟩] } f hs
  | step hm =>
    unfold upcoming at hi
    split at hi
    · next f i' rest exit ts hst =>
      obtain rfl := Option.some.inj hi
      rw [step_of_stack hst]
      exact world_execute_stores _ f hs
    · simp at hi

/-- What a move writes, with the events that it leaves. A script writes what its line comes to if it is
accepted, and a node writes its record when it becomes final. All other cells stay what they are, and
so does the world if a write is refused. -/
structure Wrote (m : Machine) (l : Option (Line Action)) (n : Machine) (es : List Event) : Prop where
  journal : n.journal = es ++ m.journal
  script : es.filter Event.inserts = (l.elim [] fun l ↦ m.deeds l.action).filter Event.inserts
  node : ∀ k, es.filterMap (Event.stored? k) =
    if (m.world.resolved? k).isSome then [] else (n.world.resolved? k).toList
  other : ∀ d y, (∀ w r, .wrote w d y r ∉ es) → n.world.slot? d y = m.world.slot? d y
  refused : ∀ i, l = some i → i.action.stores → m.deeds i.action = [] → n.world = m.world

theorem inserts_of_deed (es : List Event) :
    (es.filter Event.deed).filter Event.inserts = es.filter Event.inserts := by
  rw [List.filter_filter]
  refine List.filter_congr fun e _ ↦ ?_
  cases e with
  | wrote w => cases w <;> rfl
  | _ => rfl

theorem lastWrite_eq_none {c : Key} {x : Activity} {es : List Event} (h : ∀ w r, .wrote w c x r ∉ es) :
    lastWrite c x es = none := by
  refine List.findSome?_eq_none_iff.2 fun e he ↦ ?_
  cases e with
  | wrote w d y r =>
    refine if_neg ?_
    rintro ⟨rfl, rfl⟩
    exact h w r he
  | _ => rfl

theorem Move.wrote {m n : Machine} {l : Option (Line Action)} (h : m.Move l n) (hm : m.Reachable) :
    ∃ es, m.Wrote l n es := by
  obtain ⟨es, hj, hd⟩ := h.deeds
  have hn : n.Reachable := hm.later (.single h.next)
  refine ⟨es, hj, ?_, fun k ↦ ?_, fun d y hno ↦ ?_, fun i hi hs hnone ↦ ?_⟩
  · rw [← inserts_of_deed, hd]
  · have hk := hn.stored_eq k
    rw [hj, List.filterMap_append, hm.stored_eq k] at hk
    cases hv : m.world.resolved? k with
    | none => simpa [hv] using hk
    | some v =>
      -- a node writes once, so if it has done so before, it does not do so now
      have hlen := congrArg List.length hk
      have hle : (n.world.resolved? k).toList.length ≤ 1 := by cases n.world.resolved? k <;> simp
      rw [List.length_append, hv] at hlen
      rw [if_pos (by rfl), ← List.length_eq_zero_iff]
      simp only [Option.toList_some, List.length_singleton] at hlen
      omega
  · rw [hn.reached.slot_eq_lastWrite, hm.reached.slot_eq_lastWrite, hj, lastWrite_append, lastWrite_eq_none hno,
      Option.none_or]
  · refine (h.world_stores hi hs).resolve_right ?_
    rintro ⟨k, x, r, hw⟩
    have he : es = [.wrote none k x r] := List.append_cancel_right (hj.symm.trans hw)
    simp [he, hi, hnone, Event.deed] at hd

/-- Every cell of every collector holds the record that was written to it last, whichever way it came, or a
pending one, and that is what a script extracts; nothing is written to a cell but by the scripts and the
nodes whose cell it is. The activities of a collector stay the same, what is written stays written, and both
are counted as they are. -/
theorem Reachable.cell_holds_last_write {m : Machine} (hm : m.Reachable) :
    (∀ c col, m.world.collectors.get? c = some col →
      (∀ x, col.extract x = if col.declares x then .ok ((lastWrite c x m.journal).getD {})
        else .error (col.undeclared x)) ∧
      col.describe = Text.fields "Collector" [("name", Text.quoted col.name),
        ("declared", toString col.declared.toFinset.card),
        ("written", toString (col.declared.toFinset.filter fun x ↦ (lastWrite c x m.journal).isSome).card)] ∧
      (∀ f id, m.desk.collectors.get? id = some c →
        m.ask f (.info id) = .ok (.info col.name col.context col.describe) ∧
        ∀ key x d, m.activity key = .ok x → m.ask f (.extract id key d) = .ok (if col.declares x
          then .extracted x ((lastWrite c x m.journal).getD {}) ((lastWrite c x m.journal).getD {} = d.record x)
          else .refused (col.undeclared x))) ∧
      ∀ n, Later m n → ∃ d, n.world.collectors.get? c = some d ∧ col.Remains d ∧
        ∀ x, (col.slot? x).isSome → (d.slot? x).isSome) ∧
    ∀ l n, m.Move l n → ∃ es, m.Wrote l n es := by
  have hslot {c : Key} {col : Collector} (hc : m.world.collectors.get? c = some col) (x : Activity) :
      lastWrite c x m.journal = col.slot? x := by
    rw [← hm.reached.slot_eq_lastWrite, World.slot?_of_collector hc]
  refine ⟨fun c col hc ↦ ⟨fun x ↦ ?_, ?_, fun f id hid ↦ ⟨ask_info f hid hc, fun key x d hx ↦ ?_⟩, fun n hn ↦ ?_⟩,
    fun l n h ↦ h.wrote hm⟩
  · rw [hslot hc, Collector.extract]
  · rw [← hm.reached.written_eq hc, List.toFinset_card_of_nodup (hm.reached.declared_nodup hc), Collector.describe]
  · rw [hslot hc, ask_extract f d hid hc hx]
  · obtain ⟨d, hd, hr⟩ := hn.before.remains hm.reached hc
    refine ⟨d, hd, hr, fun x hx ↦ ?_⟩
    obtain ⟨es, hj⟩ := Later.suffix hn
    rw [← World.slot?_of_collector hd, (hm.later hn).reached.slot_eq_lastWrite, ← hj, lastWrite_append, Option.isSome_or,
      ← hm.reached.slot_eq_lastWrite, World.slot?_of_collector hc, hx, Bool.or_true]

end Machine

/-- Both nodes of the chain have written their cells, and a script may write one of them again. -/
theorem Sample.chain_cells :
    (∃ col, chain.world.collectors.get? ⟨"s", 0⟩ = some col ∧
      col.extract alpha = .ok ⟨.success (.int 7), false⟩ ∧
      col.describe = Text.fields "Collector" [("name", Text.quoted "s"), ("declared", toString 2),
        ("written", toString 2)]) ∧
    ∃ es, chain.Wrote (some ⟨"insert", false, .insert "s" "beta" {}⟩)
      (Scenario.start chain {} ⟨"insert", false, .insert "s" "beta" {}⟩) es := by
  obtain ⟨hcells, hmoves⟩ := chain_reachable.cell_holds_last_write
  have hcol : (chain.world.collectors.get? ⟨"s", 0⟩).map (fun c ↦ (c.name, c.declared)) = some ("s", [alpha, beta]) := by
    decide +kernel
  have hlast : lastWrite ⟨"s", 0⟩ alpha chain.journal = some ⟨.success (.int 7), false⟩ := by decide +kernel
  have hwritten : ([alpha, beta].toFinset.filter fun x ↦ (lastWrite ⟨"s", 0⟩ x chain.journal).isSome).card = 2 := by
    decide +kernel
  obtain ⟨col, hc, hall⟩ := Option.map_eq_some_iff.1 hcol
  obtain ⟨hname, hdecl⟩ := Prod.mk.inj hall
  obtain ⟨hextract, hdescribe, -⟩ := hcells _ col hc
  have hkeys : col.slots.keys = [alpha, beta] := hdecl
  have hdec : col.declares alpha := Table.isSome_get?_iff.2 (hkeys ▸ List.mem_cons_self)
  refine ⟨⟨col, hc, ?_, ?_⟩, hmoves _ _ (.line (Machine.stack_play rfl _) {} _)⟩
  · rw [hextract, if_pos hdec, hlast, Option.getD_some]
  · rw [hdescribe, hname, hdecl, hwritten]
    rfl

end ActivityGraph
