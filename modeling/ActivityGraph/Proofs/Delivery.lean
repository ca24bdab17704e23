import ActivityGraph.Proofs.Gate

namespace ActivityGraph

def Task.hangs : Task → Bool
  | .attach _ (_ :: _) => true
  | _ => false

def Call.serves : Call → Option Waiter
  | .enlist _ x | .arrive x (some _) _ => some x
  | _ => none

/-- Only the task on top registers a waiter, and no other call is made meanwhile. -/
def Stage.Exposed (a : Stage) : Prop :=
  (∀ t ∈ a.machine.stack, t.hangs = false) ∨
  ∃ x s ss ts, a.machine.stack = .attach x (s :: ss) :: ts ∧ (∀ t ∈ ts, t.hangs = false) ∧
    ∀ c ∈ a.call, c.serves = some x

theorem Task.hangs_of_idle {t : Task} (ht : t.idle) : t.hangs = false := by
  cases t with
  | attach x ss => cases ss <;> simp_all [Task.idle, Task.hangs]
  | _ => rfl

namespace Stage.Exposed

variable {m : Machine} {t : Task} {ts : List Task}

theorem of_free {c : Option Call} (h : Stage.Exposed ⟨c, m⟩) (hm : m.Free) :
    ∀ t ∈ m.stack, t.hangs = false := by
  rcases h with h | ⟨x, s, ss, ts, hs, -⟩
  · exact h
  · exact absurd hs (hm x _ ts)

theorem of_call {a : Stage} {c : Call} (h : a.Exposed) (ha : a.call = some c) (hc : c.serves = none) :
    ∀ t ∈ a.machine.stack, t.hangs = false := by
  rcases h with h | ⟨x, s, ss, ts, -, -, hx⟩
  · exact h
  · exact absurd (hc.symm.trans (hx c ha)) (by simp)

theorem tail {c : Option Call} (h : Stage.Exposed ⟨c, m⟩) (hm : m.stack = t :: ts) :
    ∀ t ∈ ts, t.hangs = false := by
  rcases h with h | ⟨x, s, ss, us, hs, hu, -⟩
  · exact fun u hu ↦ h u (hm ▸ List.mem_cons_of_mem _ hu)
  · obtain ⟨-, rfl⟩ := List.cons.inj (hm.symm.trans hs)
    exact hu

theorem attach {x : Waiter} (ss : List Source) (hm : m.stack = .attach x ss :: ts)
    (h : ∀ t ∈ ts, t.hangs = false) {c : Option Call} (hc : ∀ d ∈ c, d.serves = some x) :
    Stage.Exposed ⟨c, m⟩ := by
  cases ss with
  | nil => exact .inl (hm ▸ List.forall_mem_cons.2 ⟨rfl, h⟩)
  | cons s ss => exact .inr ⟨x, s, ss, ts, hm, h, hc⟩

end Stage.Exposed

section

variable {m : Machine} {x y : Waiter} {s : Option Source} {c : Bool} {r : Source} {ss : List Source}
  {ts : List Task}

theorem Stage.Reached.arrives_of_serves (h : Stage.Reached ⟨some (.arrive x s c), m⟩)
    (hm : m.stack = .attach y (r :: ss) :: ts) (hc : (Call.arrive x s c).serves = some y) :
    ∃ t b, s = some t ∧ m.world.barriers.get? x = some b ∧ (b.arrive? c).isSome := by
  have hy : y.bare = false := (h.grounded.stack _ (hm ▸ List.mem_cons_self) r List.mem_cons_self).1
  cases s with
  | none => simp [Call.serves] at hc
  | some s =>
    obtain rfl := Option.some.inj hc
    exact h.arrives hy (h.gated hy)

/-- A waiter that is being registered with more sources stays open when it is told of one. -/
theorem Stage.Reached.stays_open {b d : Barrier} (h : Stage.Reached ⟨some (.arrive x s c), m⟩)
    (hb : m.world.barriers.get? x = some b) (hd : b.arrive? c = some d)
    (hm : m.stack = .attach y (r :: ss) :: ts) (hc : (Call.arrive x s c).serves = some y) :
    d.closed = false := by
  have hy : y.bare = false := (h.grounded.stack _ (hm ▸ List.mem_cons_self) r List.mem_cons_self).1
  cases s with
  | none => simp [Call.serves] at hc
  | some s =>
    obtain rfl := Option.some.inj hc
    have hle := Multiset.card_le_card (h.owes_le hy)
    have hcount : b.remaining + (heard x m.journal).length = (accepted x m.journal).length :=
      ((h.gated hy).fits hb).count
    simp only [told, Stage.owes_mk, hm, List.map_cons, List.sum_cons, Task.owes_attach, if_true, Option.elim,
      Call.owes_arrive, Multiset.card_add, Multiset.coe_card, List.length_map, Multiset.card_singleton] at hle
    unfold Barrier.arrive? at hd
    split at hd
    · simp at hd
    · obtain rfl := Option.some.inj hd
      simp only [decide_eq_false_iff_not]
      omega

end

theorem Stage.Reached.exposed {a : Stage} (h : a.Reached) : a.Exposed := by
  refine h.invariant (P := Stage.Exposed) (fun _ ↦ .inl (by simp)) fun a b h ih hs ↦ ?_
  cases hs with
  | push ht hm => exact .inl (List.forall_mem_cons.2 ⟨Task.hangs_of_idle ht, ih.of_free hm⟩)
  | pop hm | kept hm | fired hm | resume hm => exact .inl (ih.tail hm)
  | line hm | deliver hm => exact .inl (List.forall_mem_cons.2 ⟨rfl, ih.tail hm⟩)
  | timer _ _ hm => exact .inl (List.forall_mem_cons.2 ⟨rfl, ih.of_free hm⟩)
  | insert hw =>
    obtain ⟨t, -, rfl⟩ := World.store_eq hw
    exact ih
  | @addNode m _ a c deps i s work _ _ _ hm =>
    obtain ⟨t, -, he⟩ := m.addNode_eq i a c deps s work
    rw [he]
    exact .attach deps rfl (List.forall_mem_cons.2 ⟨rfl, ih.of_free hm⟩) (by simp)
  | @addTerminal m c deps i body _ _ _ hm =>
    obtain ⟨t, -, he⟩ := m.placeTerminal_eq i c deps body
    rw [he]
    exact .attach deps rfl (List.forall_mem_cons.2 ⟨rfl, ih.of_free hm⟩) (by simp)
  | @addRoot m c i body _ hm =>
    obtain ⟨t, -, he⟩ := m.placeTerminal_eq i c [] body
    rw [he]
    exact .inl (List.forall_mem_cons.2 ⟨rfl, ih.of_free hm⟩)
  | @attach m x s ss ts hm => exact .attach ss rfl (ih.tail hm) (by simp [Call.serves])
  | release _ _ hm | arrive _ _ hm | listen _ hm | report _ _ hm | fire _ hm | raise _ hm =>
    exact .inl (ih.of_free hm)
  | @depend m k s b c _ _ _ hm =>
    obtain ⟨t, -, he⟩ := (m.world.setBarrier (.node k) c).drawEdge_eq s (.node k)
    rw [he]
    exact .inl (ih.of_free hm)
  | lost | listed | waiting | astray | arrived =>
    rcases ih with ih | ⟨x, s, ss, ts, hm, ht, -⟩
    · exact .inl ih
    · exact .inr ⟨x, s, ss, ts, hm, ht, by simp⟩
  | replayed | passed =>
    rcases ih with ih | ⟨x, s, ss, ts, hm, ht, hc⟩
    · exact .inl ih
    · exact .inr ⟨x, s, ss, ts, hm, ht, by simpa [Call.serves] using hc⟩
  | @refused m x s c b hb hc =>
    rcases ih with ih | ⟨y, t, ss, ts, hm, ht, hy⟩
    · exact .inl ih
    · obtain ⟨e, d, -, hd, ha⟩ := h.arrives_of_serves hm (hy _ rfl)
      obtain rfl := Option.some.inj (hb.symm.trans hd)
      exact absurd hc (Option.isSome_iff_ne_none.1 ha)
  | @closed m x s c b d hb hc hd =>
    rcases ih with ih | ⟨y, t, ss, ts, hm, ht, hy⟩
    · exact .inl ih
    · exact absurd (h.stays_open hb hc hm (hy _ rfl)) (by simp [hd])
  | unready | opened | abandon | begun | begin | start | timed | repeated | broken | completed | unstored
    | spent | uncaught => exact .inl (ih.of_call rfl rfl)
  | stored _ hw =>
    obtain ⟨t, -, rfl⟩ := World.store_eq hw
    exact .inl (ih.of_call rfl rfl)
  | join => exact .inl (List.forall_mem_cons.2 ⟨rfl, List.forall_mem_cons.2 ⟨rfl, ih.of_call rfl rfl⟩⟩)
  | call | prepare | announce | ran => exact .inl (List.forall_mem_cons.2 ⟨rfl, ih.of_call rfl rfl⟩)
  | @entrust m k body hold =>
    refine .inl (List.forall_mem_cons.2 ⟨rfl, List.forall_mem_append.2 ⟨?_, ih.of_call rfl rfl⟩⟩)
    cases hold <;> simp [Task.hangs]
  | caught hm | unwound hm => exact .inl (ih.tail hm)
  | _ => exact ih

theorem Stage.Reached.loses {a b : Stage} (h : a.Reached) (hs : Stride a b) {x : Waiter} (hx : x.bare = false) :
    ∃ loss, Balanced x a b loss ∧ ∀ s ∈ loss, ∃ f, .unwound f (.delivery s) ∈ b.machine.journal := by
  obtain ⟨loss, hl, he⟩ := hs.balanced hx
  refine ⟨loss, he, ?_⟩
  cases hl with
  | none => simp
  | lost hc hn => exact absurd (h.grounded.call _ hc) hn
  | @unwound f t ts hc hm hj =>
    intro s hmem
    cases t with
    | deliver r c xs =>
      obtain ⟨-, rfl⟩ := Multiset.mem_replicate.1 hmem
      exact ⟨f, hj ▸ List.mem_cons_self⟩
    | attach y ss =>
      have ht := h.exposed.of_call hc rfl _ (hm ▸ List.mem_cons_self)
      cases ss with
      | nil => simp [Task.owes] at hmem
      | cons r ss => simp [Task.hangs] at ht
    | _ => simp [Task.owes] at hmem

theorem Stage.Reached.count_owes {a : Stage} (h : a.Reached) {x : Waiter} (hx : x.bare = false) {s : Source}
    (hd : ∀ f, Event.unwound f (.delivery s) ∉ a.machine.journal) :
    (told x a.machine.journal + a.owes x).count s = (accepted x a.machine.journal).count s := by
  revert hd
  refine h.invariant (P := fun a ↦ (∀ f, Event.unwound f (.delivery s) ∉ a.machine.journal) →
    (told x a.machine.journal + a.owes x).count s = (accepted x a.machine.journal).count s)
    (fun _ _ ↦ by simp [Stage.owes_mk, World.owes, told, heard, accepted]) fun a b h ih hs hd ↦ ?_
  have ha := ih fun f he ↦ hd f (hs.mem_journal he)
  obtain ⟨loss, hb, hl⟩ := h.loses hs hx
  have hz : loss.count s = 0 := Multiset.count_eq_zero_of_notMem fun hm ↦ by
    obtain ⟨f, hf⟩ := hl s hm
    exact hd f hf
  have he := congrArg (Multiset.count s) hb
  simp only [Multiset.count_add, Multiset.coe_count] at he ha ⊢
  omega

theorem Stage.Reached.owes_eq {a : Stage} (h : a.Reached) {x : Waiter} (hx : x.bare = false)
    (hm : a.machine.Unbroken) : told x a.machine.journal + a.owes x = accepted x a.machine.journal :=
  Multiset.ext.2 fun s ↦ (h.count_owes hx fun f ↦ hm f s).trans (Multiset.coe_count ..).symm

end ActivityGraph
