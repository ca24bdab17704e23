import ActivityGraph.Machine.Termination
import ActivityGraph.Proofs.Stride

namespace ActivityGraph

/-- The stages of one step, before the stride that ends its last call. -/
inductive Within (m : Machine) : Stage → Prop
  | here : Within m ⟨none, m⟩
  | next {a b : Stage} (h : Within m a) (hs : Stride a b) (hc : a.call = none ∨ b.call ≠ none) :
      Within m b

/-- A whole step. -/
inductive Ends (m : Machine) : Machine → Prop
  | here {n : Machine} (h : Within m ⟨none, n⟩) : Ends m n
  | last {a : Stage} {n : Machine} (h : Within m a) (hs : Stride a ⟨none, n⟩) : Ends m n
  | more {p n : Machine} (h : Ends m p) (hs : Stride ⟨none, p⟩ ⟨none, n⟩)
      (hp : n.stack = p.stack ∧ n.timers = p.timers) : Ends m n

namespace Within

variable {m p : Machine}

theorem idle {q : Machine} (h : Within m ⟨none, p⟩) (hs : Stride ⟨none, p⟩ ⟨none, q⟩) :
    Within m ⟨none, q⟩ := h.next hs (.inl rfl)

theorem turn {a : Stage} {c : Call} {q : Machine} (h : Within m a) (hs : Stride a ⟨some c, q⟩) :
    Within m ⟨some c, q⟩ := h.next hs (.inr (Option.some_ne_none c))

theorem drop {c : Option Call} (h : Within m ⟨c, p⟩) (id : String)
    (hc : ∀ d ∈ c, (∃ f, d = .raise f) ∨ ∃ k body hold r, d = .entrust k body hold r) :
    Within m ⟨c, p.dropCompletion id⟩ := by
  unfold Machine.dropCompletion
  cases hk : p.desk.completions.get? id with
  | none => exact h
  | some k =>
    refine h.next (.relinquish hc hk) ?_
    cases c <;> simp

theorem unwind {f : Fault} (ts : List Task) (h : Within m ⟨some (.raise f), { p with stack := ts }⟩) :
    Ends m (Machine.unwind f ts p) := by
  have hr (o : Option Scope) :
      (o.toList.map (Event.unwound f)).reverse = o.toList.map (Event.unwound f) := by cases o <;> rfl
  induction ts generalizing p with
  | nil => exact .more (.last h (.uncaught rfl)) (.settle _) ⟨rfl, rfl⟩
  | cons t ts ih =>
    have ht (hc : t.catches = false) : Within m ⟨some (.raise f), { p with
        stack := ts, journal := t.scope?.toList.map (.unwound f) ++ p.journal }⟩ :=
      h.turn (.unwound (t := t) rfl hc)
    cases t with
    | guard c =>
      have hq := Ends.more (.last h (.caught rfl rfl)) (.settle (.fault f)) ⟨rfl, rfl⟩
      simp only [Machine.unwind, Machine.conclude]
      split
      · exact .more hq (.note rfl) ⟨rfl, rfl⟩
      · exact hq
    | contain => exact .last h (.caught rfl rfl)
    | relinquish id =>
      have hd := (ht rfl).drop id fun d hd ↦ .inl ⟨f, (Option.some.inj hd).symm⟩
      refine ih ?_
      unfold Machine.dropCompletion at hd ⊢
      dsimp only at hd
      cases hk : p.desk.completions.get? id <;> simp only [hk] at hd ⊢ <;> exact hd
    | _ =>
      refine ih ?_
      rw [Machine.noteAll_eq, hr]
      exact ht rfl

theorem raise {f : Fault} (h : Within m ⟨some (.raise f), p⟩) : Ends m (p.raise f) :=
  unwind p.stack h

theorem resolve {k : Key} {g : Signal} (h : Within m ⟨some (.resolve k g), p⟩) :
    Ends m (p.resolve k g) := by
  unfold Machine.resolve
  cases hk : p.world.nodes.get? k with
  | none => exact .last h (.lost hk)
  | some n =>
    simp only [Machine.store]
    cases hw : p.world.store n.collector n.activity n.record with
    | error e =>
      have hq := Ends.last (h.turn (.unstored hk hw)) (.announce hk)
      cases g <;> exact hq
    | ok w =>
      have hn : w.nodes.get? k = some n := by
        obtain ⟨f, rfl⟩ := World.store_ok hw
        exact hk
      have hq := Ends.last (h.turn (.stored hk hw)) (.announce hn)
      cases g <;> exact hq

theorem abandon {k : Key} (h : Within m ⟨some (.enter (.node k) true), p⟩) : Ends m (p.abandon k) := by
  unfold Machine.abandon
  cases hk : p.world.nodes.get? k with
  | none => exact .last h (.lost hk)
  | some n => exact resolve (h.turn (.abandon hk))

theorem complete {k : Key} {r : Except Payload Payload} (h : Within m ⟨some (.complete k r), p⟩) :
    Ends m (p.complete k r) := by
  unfold Machine.complete
  cases hk : p.world.nodes.get? k with
  | none => exact .last h (.lost hk)
  | some n =>
    dsimp only
    cases hr : n.record.report r with
    | error e => exact raise (h.turn (.repeated hk hr))
    | ok o =>
      simp only [Machine.noteAll_eq, List.reverse_cons, List.append_assoc, List.singleton_append]
      cases hg : (n.policy.rule o).signal with
      | error text => exact raise (h.turn (.broken hk hr hg))
      | ok g => exact resolve (h.turn (.completed hk hr hg _))

theorem launch {k : Key} {j : Job} (h : Within m ⟨some (.launch k j), p⟩) : Ends m (p.launch k j) := by
  obtain ⟨_ | ⟨⟨place, code⟩, rest⟩, work⟩ := j
  · cases work with
    | script body hold r =>
      have hq := (h.turn .start).drop k.handle fun d hd ↦
        .inr ⟨k, body, hold, r, (Option.some.inj hd).symm⟩
      have hn : (Machine.dropCompletion { p with
          journal := .ran k r :: .logged (.started k (p.world.label (.node k))) :: p.journal }
            k.handle).desk.completions.get? k.handle = none := by
        unfold Machine.dropCompletion
        split
        · next hk => exact hk
        · exact (Table.get?_erase _ _ _).trans (if_pos rfl)
      have := Ends.last hq (.entrust hn)
      cases hold <;> exact this
    | timer after => exact .last h .timed
  · exact .last h .prepare

theorem begin {k : Key} (h : Within m ⟨some (.enter (.node k) false), p⟩) : Ends m (p.begin k) := by
  unfold Machine.begin
  cases hk : p.world.nodes.get? k with
  | none => exact .last h (.lost hk)
  | some n =>
    dsimp only
    cases hj : n.job with
    | none => exact raise (h.turn (.begun hk hj rfl))
    | some j => exact launch (h.turn (.begin hk hj))

theorem join {k : Key} {canceled : Bool} (h : Within m ⟨some (.enter (.terminal k) canceled), p⟩) :
    Ends m (p.join k) := by
  unfold Machine.join
  cases hk : p.world.terminals.get? k with
  | none => exact .last h (.lost (by simp [Call.Lost, hk]))
  | some t =>
    dsimp only
    split
    · next body c ht hc => exact .last h (.join hk ht hc)
    · next hn =>
      refine .last h (.lost fun u hu ↦ ?_)
      obtain rfl := Option.some.inj (hk.symm.trans hu)
      cases hb : t.callback with
      | none => exact .inl rfl
      | some body =>
        cases hc : p.world.collectors.get? t.collector with
        | none => exact .inr rfl
        | some c => exact absurd hc (hn body c hb)

theorem call {k : Key} {canceled : Bool} (h : Within m ⟨some (.enter (.probe k) canceled), p⟩) :
    Ends m (p.call k canceled) := by
  unfold Machine.call
  cases hk : p.world.probes.get? k with
  | none => exact .last h (.lost (by simp [Call.Lost, hk]))
  | some q =>
    dsimp only
    cases hq : q.scripts with
    | none =>
      refine .last h (.lost fun u hu ↦ ?_)
      rwa [← Option.some.inj (hk.symm.trans hu)]
    | some scripts => exact .last h (.call hk hq)

theorem enter {x : Waiter} {canceled : Bool} (h : Within m ⟨some (.enter x canceled), p⟩) :
    Ends m (p.enter x canceled) := by
  cases x with
  | node k =>
    cases canceled with
    | false => exact begin h
    | true => exact abandon h
  | terminal k => exact join h
  | probe k => exact call h

theorem arrive {x : Waiter} {source : Option Source} {canceled : Bool}
    (h : Within m ⟨some (.arrive x source canceled), p⟩) :
    Ends m (Machine.arrive { p with
      journal := Machine.tellings x source canceled ++ p.journal } x canceled) := by
  unfold Machine.arrive
  cases hb : p.world.barriers.get? x with
  | none => exact .last h (.astray hb)
  | some b =>
    dsimp only
    cases hc : b.arrive? canceled with
    | none => exact raise (h.turn (.refused hb hc))
    | some d =>
      dsimp only
      cases hd : d.closed with
      | false => exact .last h (.arrived hb hc hd)
      | true => exact enter (h.turn (.closed hb hc hd))

theorem release {x : Waiter} (h : Within m ⟨some (.release x), p⟩) : Ends m (p.release x) := by
  unfold Machine.release
  cases hb : p.world.barriers.get? x with
  | none => exact .last h (.lost hb)
  | some b =>
    dsimp only
    cases hc : b.release with
    | error e => cases e <;> exact raise (h.turn (.unready hb hc rfl))
    | ok d => exact enter (h.turn (.opened hb hc))

theorem enlist {s : Source} {x : Waiter} (h : Within m ⟨some (.enlist s x), p⟩) :
    Ends m (p.enlist s x) := by
  unfold Machine.enlist
  cases s with
  | node k =>
    dsimp only
    cases hk : p.world.nodes.get? k with
    | none => exact .last h (.lost hk)
    | some n =>
      dsimp only
      cases hn : n.signal with
      | none => exact .last h (.listed hk hn)
      | some g => exact arrive (h.turn (.replayed hk hn))
  | start k =>
    dsimp only
    cases hk : p.world.starts.get? k with
    | none => exact .last h (.lost hk)
    | some t =>
      dsimp only
      cases ht : t.fired with
      | false => exact .last h (.waiting hk ht)
      | true => exact arrive (h.turn (.passed hk ht))

theorem fire {k : Key} (h : Within m ⟨some (.fire k), p⟩) : Ends m (p.fire k) := by
  unfold Machine.fire
  cases hk : p.world.starts.get? k with
  | none => exact .last h (.lost hk)
  | some s =>
    dsimp only
    cases hs : s.fired with
    | false => exact .last h (.ran hk hs)
    | true => exact raise (h.turn (.spent hk hs rfl))

end Within

end ActivityGraph
