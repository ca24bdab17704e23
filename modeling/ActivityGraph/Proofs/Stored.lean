import ActivityGraph.Proofs.Gating

namespace ActivityGraph

def Call.announces (k : Key) : Call → Bool
  | .announce l _ => l = k
  | _ => false

def Event.saves : Event → Bool
  | .wrote .. => true
  | _ => false

theorem saves_tellings (x : Waiter) (s : Option Source) (c : Bool) (j : List Event) :
    (Machine.tellings x s c ++ j).filter Event.saves = j.filter Event.saves := by
  cases s <;> rfl

/-- What a stride does to the slots: nothing, or a script writes one, or a node does. The journal says which. -/
inductive Stride.Stores (a b : Stage) : Prop
  | nothing (slot : ∀ c x, b.machine.world.slot? c x = a.machine.world.slot? c x)
      (declares : ∀ c x, a.machine.world.Declares c x → b.machine.world.Declares c x)
      (quiet : ∀ k g, b.call ≠ some (.announce k g))
      (saves : b.machine.journal.filter Event.saves = a.machine.journal.filter Event.saves)
  | insert {c : Key} {x : Activity} {r : Outcome} (hw : a.machine.world.store c x r = .ok b.machine.world)
      (hj : .wrote none c x r ∈ b.machine.journal) (ha : a.call = none) (hb : b.call = none)
      (saves : b.machine.journal = .wrote none c x r :: a.machine.journal)
  | stored {k : Key} {n : Node} {g : Signal} (hn : a.machine.world.nodes.get? k = some n)
      (hw : a.machine.world.store n.collector n.activity n.record = .ok b.machine.world)
      (ha : a.call = some (.resolve k g)) (hb : b.call = some (.announce k g))
      (saves : b.machine.journal = .wrote (some k) n.collector n.activity n.record :: a.machine.journal)
  | unstored {k : Key} {n : Node} {e : AccessError} (hn : a.machine.world.nodes.get? k = some n)
      (hw : a.machine.world.store n.collector n.activity n.record = .error e)
      (same : b.machine.world = a.machine.world)
      (saves : b.machine.journal.filter Event.saves = a.machine.journal.filter Event.saves)

theorem Stride.Stores.of_slots {a b : Stage} (h : ∀ c, b.machine.world.slots? c = a.machine.world.slots? c)
    (quiet : ∀ k g, b.call ≠ some (.announce k g))
    (saves : b.machine.journal.filter Event.saves = a.machine.journal.filter Event.saves) : Stride.Stores a b := by
  refine .nothing ?_ (fun c x hc ↦ hc.of_slots (h c)) quiet saves
  intro c x
  rw [World.slot?, h, World.slot?]

theorem Stride.stores {a b : Stage} (hs : Stride a b) (ha : a.Reached) : Stride.Stores a b := by
  cases hs with
  | insert hw => exact .insert hw List.mem_cons_self rfl rfl rfl
  | stored hk hw => exact .stored hk hw rfl rfl rfl
  | unstored hk hw => exact .unstored hk hw rfl rfl
  | @addCollector m i name xs context =>
    have hc := ha.sound.collectors.get?_fresh i
    have hs (c : Key) : (m.addCollector (m.world.collectors.fresh i) name xs context).world.slots? c =
        if m.world.collectors.fresh i = c then some (.ofKeys xs none) else m.world.slots? c := by
      refine (congrArg (Option.map Collector.slots) (Table.get?_insert_of_new hc c _)).trans ?_
      split <;> rfl
    have absent {c : Key} (h : m.world.collectors.fresh i = c) : m.world.slots? c = none := by
      rw [World.slots?, ← h, hc]
      rfl
    refine .nothing (fun c x ↦ ?_) (fun c x hx ↦ ?_) (by simp) rfl
    · rw [World.slot?, hs, World.slot?]
      split
      · next h =>
        rw [absent h, Option.bind_some, Option.bind_none]
        cases ht : (Table.ofKeys xs (none : Option Outcome)).get? x with
        | none => rfl
        | some o => exact Table.get?_ofKeys ht
      · rfl
    · refine hx.of_slots ((hs c).trans (if_neg ?_))
      intro h
      obtain ⟨t, ht, -⟩ := hx
      exact absurd ((absent h).symm.trans ht) (by simp)
  | @addStart m c i =>
    exact .of_slots (fun d ↦ m.world.slots?_modifyCollector c _ (by intro _; rfl) d) (by simp) rfl
  | @addNode m _ a c deps i s work =>
    refine .of_slots (fun d ↦ m.slots?_addNode d i a c deps s work) (by simp) ?_
    obtain ⟨t, -, he⟩ := m.addNode_eq i a c deps s work
    simp [he, Event.saves]
  | @addTerminal m c deps i body =>
    refine .of_slots (fun d ↦ m.slots?_placeTerminal d i c deps body) (by simp) ?_
    obtain ⟨t, -, he⟩ := m.placeTerminal_eq i c deps body
    simp [he, Machine.push, Event.saves]
  | @addRoot m c i body =>
    refine .of_slots (fun d ↦ m.slots?_placeTerminal d i c [] body) (by simp) ?_
    obtain ⟨t, -, he⟩ := m.placeTerminal_eq i c [] body
    simp [he, Event.saves]
  | @depend m k s b c =>
    exact .of_slots (fun d ↦ (m.world.setBarrier (.node k) c).slots?_drawEdge s (.node k) d) (by simp) rfl
  | relinquish hc =>
    refine .of_slots (fun _ ↦ rfl) ?_ rfl
    intro l g he
    rcases hc _ (Option.mem_def.2 he) with ⟨f, hf⟩ | ⟨k, body, hold, r, hf⟩ <;> simp at hf
  | @note m e he =>
    refine .of_slots (fun _ ↦ rfl) (by simp) ?_
    cases e with
    | described | replied => rfl
    | _ => simp [Event.mute] at he
  | astray | refused | arrived | closed => exact .of_slots (fun _ ↦ rfl) (by simp) (saves_tellings _ _ _ _)
  | @unwound m f t =>
    refine .of_slots (fun _ ↦ rfl) (by simp) ?_
    cases t.scope? <;> rfl
  | @announce m k n g =>
    refine .of_slots (fun _ ↦ rfl) (by simp) ?_
    cases g <;> rfl
  | broken | completed => exact .of_slots (fun _ ↦ rfl) (by simp) (by simp [Event.saves])
  | _ => exact .of_slots (fun _ ↦ rfl) (by simp) rfl

theorem Stride.declares {a b : Stage} (hs : Stride a b) (ha : a.Reached) {c : Key} {x : Activity}
    (h : a.machine.world.Declares c x) : b.machine.world.Declares c x := by
  cases hs.stores ha with
  | nothing _ hd => exact hd c x h
  | insert hw | stored _ hw => exact h.store hw
  | unstored _ _ he => exact he ▸ h

theorem Stage.Reached.declares {a : Stage} (h : a.Reached) {k : Key} {n : Node}
    (hn : a.machine.world.nodes.get? k = some n) : a.machine.world.Declares n.collector n.activity := by
  revert n
  refine h.invariant (P := fun a ↦ ∀ {n}, a.machine.world.nodes.get? k = some n →
    a.machine.world.Declares n.collector n.activity) ?_ ?_
  · intro _ n hn
    simp [Table.get?] at hn
  · intro a b h ih hs p hp
    cases hn : a.machine.world.nodes.get? k with
    | none => exact (hs.born hn hp).2.2.2
    | some n =>
      obtain ⟨q, hq, hk⟩ := hs.node h hn
      obtain rfl := Option.some.inj (hp.symm.trans hq)
      rw [hk.place.1, hk.place.2]
      exact hs.declares h (ih hn)

theorem Stride.announced {a b : Stage} (hs : Stride a b) {k : Key} {n : Node} {g : Signal}
    (hn : a.machine.world.nodes.get? k = some n) (hc : a.call = some (.announce k g)) :
    b.machine.world.nodes.get? k = some { n with signal := some g, listeners := [] } ∧ b.call = none := by
  obtain ⟨c, m⟩ := a
  obtain rfl := hc
  cases hs with
  | lost hl => exact absurd (hn.symm.trans hl) (by simp)
  | announce => exact ⟨World.get?_modifyNode_self hn _, rfl⟩
  | relinquish hr => exact absurd (hr _ rfl) (by simp)

/-- The record of a node that runs an activity, from when the node has stored it. -/
def Stage.published (a : Stage) (c : Key) (x : Activity) (k : Key) : Option Outcome :=
  (a.machine.world.nodes.get? k).bind fun n ↦
    if n.collector = c ∧ n.activity = x ∧ (n.signal.isSome || a.call.any (Call.announces k)) then some n.record
    else none

theorem Stage.published_eq {a : Stage} {c : Key} {x : Activity} {k : Key} {n : Node}
    (hn : a.machine.world.nodes.get? k = some n) :
    a.published c x k =
      if n.collector = c ∧ n.activity = x ∧ (n.signal.isSome || a.call.any (Call.announces k)) then some n.record
      else none := by
  rw [published, hn, Option.bind_some]

theorem Stride.published_eq {a b : Stage} (hs : Stride a b) (ha : a.Reached)
    (quiet : ∀ k g, b.call ≠ some (.announce k g)) (c : Key) (x : Activity) (k : Key) :
    b.published c x k = a.published c x k := by
  have hb : b.call.any (Call.announces k) = false := by
    cases hc : b.call with
    | none => rfl
    | some d =>
      cases d with
      | announce l g => exact absurd hc (quiet l g)
      | _ => rfl
  cases hn : a.machine.world.nodes.get? k with
  | none =>
    cases hp : b.machine.world.nodes.get? k with
    | none =>
      rw [Stage.published, Stage.published, hn, hp]
      rfl
    | some p => simp [Stage.published, hn, hp, (hs.born hn hp).2.1, hb]
  | some n =>
    obtain ⟨p, hp, hk⟩ := hs.node ha hn
    rw [Stage.published_eq hn, Stage.published_eq hp, hk.place.1, hk.place.2, hb, Bool.or_false]
    have same (hd : a.due k = 0) : p.record = n.record :=
      hk.record.resolve_right fun hw ↦ Nat.ne_of_gt hw.before hd
    by_cases hc : ∃ g, a.call = some (.announce k g)
    · obtain ⟨g, hc⟩ := hc
      obtain ⟨hp', -⟩ := hs.announced hn hc
      obtain rfl := Option.some.inj (hp.symm.trans hp')
      simp [hc, Call.announces]
    · have hsig : p.signal = n.signal := hk.told.resolve_right hc
      have hany : a.call.any (Call.announces k) = false := by
        cases hd : a.call with
        | none => rfl
        | some d =>
          cases d with
          | announce l g =>
            have hne : l ≠ k := fun he ↦ hc ⟨g, by rw [hd, he]⟩
            simp [Call.announces, hne]
          | _ => rfl
      rw [hsig, hany, Bool.or_false]
      cases hg : n.signal with
      | none => simp
      | some g => rw [same (Stage.Settles.due (.inl hg) hn ha)]

theorem Stage.Reached.slot_eq {a : Stage} (h : a.Reached) {c : Key} {x : Activity} {k : Key}
    (hw : ∀ r, .wrote none c x r ∉ a.machine.journal)
    (hu : ∀ l p, a.machine.world.nodes.get? l = some p → p.collector = c → p.activity = x → l = k) :
    a.machine.world.slot? c x = a.published c x k := by
  revert hw hu
  refine h.invariant (P := fun a ↦ (∀ r, .wrote none c x r ∉ a.machine.journal) →
    (∀ l p, a.machine.world.nodes.get? l = some p → p.collector = c → p.activity = x → l = k) →
    a.machine.world.slot? c x = a.published c x k) (fun _ _ _ ↦ rfl) ?_
  intro a b h ih hs hw hu
  have ha : a.machine.world.slot? c x = a.published c x k := by
    refine ih (fun r hr ↦ hw r (hs.mem_journal hr)) ?_
    intro l p hp hc hx
    obtain ⟨q, hq, hk⟩ := hs.node h hp
    exact hu l q hq (hk.place.1.trans hc) (hk.place.2.trans hx)
  cases hs.stores h with
  | nothing hslot _ quiet => rw [hslot, ha, hs.published_eq h quiet]
  | @insert d y r hst hj hca hcb =>
    have hne : ¬ (d = c ∧ y = x) := by
      rintro ⟨rfl, rfl⟩
      exact hw r hj
    rw [World.slot?_store hst, if_neg hne, ha, hs.published_eq h (by simp [hcb])]
  | @stored l n g hn hst hca hcb =>
    obtain ⟨t, -, hb⟩ := World.store_eq hst
    have hnodes : b.machine.world.nodes = a.machine.world.nodes := by rw [hb]
    rw [World.slot?_store hst]
    by_cases hin : n.collector = c ∧ n.activity = x
    · obtain rfl := hu l n (hnodes ▸ hn) hin.1 hin.2
      have hp := Stage.published_eq (a := b) (c := c) (x := x) (hnodes ▸ hn)
      rw [if_pos hin, hp, if_pos ⟨hin.1, hin.2, by simp [hcb, Call.announces]⟩]
    · rw [if_neg hin, ha, Stage.published, Stage.published, hnodes]
      cases hk : a.machine.world.nodes.get? k with
      | none => rfl
      | some p =>
        rw [Option.bind_some, Option.bind_some]
        by_cases hl : l = k
        · obtain rfl := hl
          obtain rfl := Option.some.inj (hn.symm.trans hk)
          rw [if_neg fun hc ↦ hin ⟨hc.1, hc.2.1⟩, if_neg fun hc ↦ hin ⟨hc.1, hc.2.1⟩]
        · simp [hca, hcb, Call.announces, hl]
  | unstored hn hst =>
    obtain ⟨v, hv⟩ := World.exists_store (h.declares hn) _
    exact absurd (hst.symm.trans hv) (by simp)

namespace Machine

end Machine

def Event.inserts : Event → Bool
  | .wrote none .. => true
  | _ => false

namespace Sample

def chain : Machine := pairMachine [⟨"success", false, .report none ⟨.success, some (.int 7)⟩⟩] "a"

theorem chain_reachable : chain.Reachable := pair_reachable _ _

end Sample

end ActivityGraph
