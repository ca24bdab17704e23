import ActivityGraph.Proofs.Closing

namespace ActivityGraph

def Task.prepares (k : Key) : Task → Nat
  | .script _ _ (.job l _) => if l = k then 1 else 0
  | _ => 0

def Call.prepares (k : Key) : Call → Nat
  | .launch l _ => if l = k then 1 else 0
  | _ => 0

def Call.reports (k : Key) : Call → Nat
  | .entrust l _ _ _ | .complete l _ => if l = k then 1 else 0
  | _ => 0

def Call.settles (k : Key) : Call → Nat
  | .resolve l _ | .announce l _ => if l = k then 1 else 0
  | _ => 0

def World.waits (w : World) (k : Key) : Nat := ((w.nodes.get? k).bind Node.job).isSome.toNat

def World.rests (w : World) (k : Key) : Nat := ((w.nodes.get? k).bind Node.signal).isSome.toNat

/-- Who could still start a node. -/
def Stage.before (a : Stage) (k : Key) : Nat :=
  a.machine.world.waits k + (a.machine.stack.map (Task.prepares k)).sum + a.call.elim 0 (Call.prepares k)

/-- Who could still report for a node that was started. -/
def Stage.during (a : Stage) (k : Key) : Nat :=
  a.machine.desk.completions.values.count k + a.machine.timers.countP (fun t ↦ t.node = k) +
    a.call.elim 0 (Call.reports k)

/-- Whether a node has its signal, or is about to. -/
def Stage.after (a : Stage) (k : Key) : Nat := a.machine.world.rests k + a.call.elim 0 (Call.settles k)

theorem Task.prepares_of_idle {t : Task} (ht : t.idle) (k : Key) : t.prepares k = 0 := by
  cases t with
  | script f rest exit => cases exit <;> simp_all [Task.idle, Task.prepares]
  | _ => rfl

theorem Task.prepares_of_catches {t : Task} (ht : t.catches) (k : Key) : t.prepares k = 0 := by
  cases t <;> simp_all [Task.catches, Task.prepares]

namespace World

variable {w : World} {k l : Key} {n : Node}

theorem bind_modifyNode {α : Type} {g : Node → Option α} (w : World) (l : Key) (f : Node → Node)
    (hf : ∀ n, g (f n) = g n) (k : Key) :
    ((w.modifyNode l f).nodes.get? k).bind g = (w.nodes.get? k).bind g := by
  rw [get?_modifyNode]
  split
  · cases w.nodes.get? k with
    | none => rfl
    | some n => exact hf n
  · rfl

theorem waits_modifyNode {v w : World} {l : Key} {f : Node → Node} (hv : v = w.modifyNode l f)
    (hf : ∀ n, (f n).job = n.job) {k : Key} : v.waits k = w.waits k := by
  rw [hv, waits, bind_modifyNode w l f hf, waits]

theorem rests_modifyNode {v w : World} {l : Key} {f : Node → Node} (hv : v = w.modifyNode l f)
    (hf : ∀ n, (f n).signal = n.signal) {k : Key} : v.rests k = w.rests k := by
  rw [hv, rests, bind_modifyNode w l f hf, rests]

end World

def Call.enters (k : Key) : Call → Prop
  | .enter (.node l) _ => l = k
  | _ => False

theorem Call.not_enters {k : Key} {x : Waiter} (hk : .node k ≠ x) (c : Bool) : ¬ (Call.enter x c).enters k := by
  cases x with
  | node l => exact fun h ↦ hk (congrArg _ h.symm)
  | _ => exact id

def Stage.Enters (a : Stage) (k : Key) : Prop := a.call.elim False (Call.enters k)

def Stage.Waits (a : Stage) (k : Key) : Prop :=
  ∀ b, a.machine.world.barriers.get? (.node k) = some b →
    (0 < a.machine.world.waits k ↔ b.closed = false ∨ a.Enters k)

theorem Stage.Waits.of_eq {a b : Stage} {k : Key} (h : a.Waits k)
    (hb : b.machine.world.barriers.get? (.node k) = a.machine.world.barriers.get? (.node k))
    (hw : b.machine.world.waits k = a.machine.world.waits k) (hc : b.Enters k ↔ a.Enters k) : b.Waits k := by
  intro d hd
  rw [hw, hc]
  exact h d (hb ▸ hd)

theorem Stage.Waits.set {a b : Stage} {k : Key} {x : Waiter} {c d : Barrier} (h : a.Waits k)
    (hb : b.machine.world.barriers = (a.machine.world.setBarrier x d).barriers)
    (hw : b.machine.world.waits k = a.machine.world.waits k)
    (hx : a.machine.world.barriers.get? x = some c) (hc : c.closed = false)
    (hd : .node k = x → d.closed = false ∨ b.Enters k) (hn : .node k ≠ x → (b.Enters k ↔ a.Enters k)) :
    b.Waits k := by
  by_cases he : .node k = x
  · subst he
    intro e hg
    rw [hb, World.get?_setBarrier hx] at hg
    obtain rfl := Option.some.inj hg
    rw [hw]
    exact iff_of_true ((h c hx).2 (.inl hc)) (hd rfl)
  · exact h.of_eq (by rw [hb, World.get?_setBarrier_of_ne (Ne.symm he)]) hw (hn he)

theorem Stage.Waits.spend {a b : Stage} {k l : Key} {c : Bool} {f : Node → Node} (h : a.Waits k) (ha : a.Reached)
    (hc : a.call = some (.enter (.node l) c)) (hb : b.machine.world.barriers = a.machine.world.barriers)
    (hw : b.machine.world.nodes = (a.machine.world.modifyNode l f).nodes) (hf : ∀ n, (f n).job = none)
    (hn : ¬ b.Enters k) : b.Waits k := by
  by_cases hk : l = k
  · subst hk
    intro d hd
    obtain ⟨e, he, hs, -⟩ := ha.entered rfl hc
    obtain rfl := Option.some.inj ((hb ▸ hd).symm.trans he)
    have hz : b.machine.world.waits l = 0 := by
      rw [World.waits, hw, World.get?_modifyNode, if_pos rfl]
      cases a.machine.world.nodes.get? l <;> simp [hf]
    simp [hz, hs, hn]
  · refine h.of_eq (by rw [hb]) ?_ (iff_of_false hn ?_)
    · rw [World.waits, hw, World.get?_modifyNode_of_ne hk, World.waits]
    · rw [Stage.Enters, hc]
      exact hk

theorem Stage.Reached.waits {a : Stage} (h : a.Reached) (k : Key) : a.Waits k := by
  refine h.invariant (P := fun a ↦ a.Waits k) (fun _ _ hb ↦ by simp [Table.get?] at hb) fun a b h ih hs ↦ ?_
  cases hs with
  | insert hw | stored _ hw =>
    obtain ⟨t, -, rfl⟩ := World.store_eq hw
    exact ih
  | @addNode m _ a c deps i s work =>
    obtain ⟨t, -, he⟩ := m.addNode_eq i a c deps s work
    rw [he]
    have hn := h.sound.nodes.get?_fresh i
    by_cases hk : m.world.nodes.fresh i = k
    · subst hk
      intro b hb
      rw [Table.get?_insert_of_new (h.sound.newNode i), if_pos rfl] at hb
      obtain rfl := Option.some.inj hb
      simp [World.waits, Table.get?_insert_of_new hn, Machine.newNode]
    · refine ih.of_eq ?_ ?_ .rfl
      · exact (Table.get?_insert_of_new (h.sound.newNode i) _ _).trans (if_neg (by simpa using hk))
      · simp [World.waits, Table.get?_insert_of_new hn, hk]
  | @addTerminal m c deps i body =>
    obtain ⟨t, -, he⟩ := m.placeTerminal_eq i c deps body
    rw [he]
    exact ih.of_eq ((Table.get?_insert_of_new (h.sound.newTerminal i) _ _).trans (if_neg (by simp))) rfl .rfl
  | @addRoot m c i body =>
    obtain ⟨t, -, he⟩ := m.placeTerminal_eq i c [] body
    rw [he]
    exact ih.of_eq ((Table.get?_insert_of_new (h.sound.newTerminal i) _ _).trans (if_neg (by simp))) rfl .rfl
  | addProbe => exact ih.of_eq (by simp [Machine.addProbe, Machine.keep, Machine.mapWorld, World.addProbe,
      Table.get?_insert]) rfl .rfl
  | expect => exact ih.of_eq (World.get?_setBarrier_of_ne (by simp) _) rfl .rfl
  | @depend m l s b d hb hd =>
    obtain ⟨t, -, he⟩ := (m.world.setBarrier (.node l) d).drawEdge_eq s (.node l)
    have ho := Barrier.open_of_expect hd
    rw [he]
    exact ih.set rfl rfl hb ho.1 (fun _ ↦ .inl ho.2) fun _ ↦ .rfl
  | arrived hb hc hd => exact ih.set rfl rfl hb (Barrier.open_of_arrive hc) (fun _ ↦ .inl hd) fun _ ↦ .rfl
  | @closed m x s c b d hb hc hd =>
    refine ih.set rfl rfl hb (Barrier.open_of_arrive hc) (fun hk ↦ .inr ?_) fun hk ↦ ?_
    · exact hk ▸ rfl
    · exact iff_of_false (Call.not_enters hk d.canceled) id
  | @opened m x b d hb hd =>
    refine ih.set rfl rfl hb (Barrier.open_of_release hd).1 (fun hk ↦ .inr ?_) fun hk ↦ ?_
    · exact hk ▸ rfl
    · exact iff_of_false (Call.not_enters hk false) id
  | @lost m c hc =>
    cases c with
    | enter x canceled =>
      intro b hb
      by_cases hx : x = .node k
      · subst hx
        have hn : m.world.waits k = 0 := by rw [World.waits, show m.world.nodes.get? k = none from hc]; rfl
        exact absurd ((ih b hb).2 (.inr rfl)) (by simp [hn])
      · refine (ih b hb).trans (or_congr_right (iff_of_false (Call.not_enters ?_ canceled) id))
        exact fun hk ↦ hx hk.symm
    | _ => exact ih
  | abandon | begin => exact ih.spend h rfl rfl rfl (fun _ ↦ rfl) id
  | @begun m l n f hl hj =>
    by_cases hk : l = k
    · subst hk
      intro b hb
      exact absurd ((ih b hb).2 (.inr rfl)) (by simp [World.waits, hl, hj])
    · exact ih.of_eq rfl rfl (iff_of_false id hk)
  | listed | broken | completed | announce =>
    exact ih.of_eq rfl (World.waits_modifyNode rfl (by intro _; rfl)) .rfl
  | _ => exact ih

theorem Stage.Reached.waits_of_enters {a : Stage} (h : a.Reached) {k : Key} {c : Bool}
    (hc : a.call = some (.enter (.node k) c)) : a.machine.world.waits k = 1 := by
  obtain ⟨b, hb, -⟩ := h.entered rfl hc
  have hw := (h.waits k b hb).2 (.inr (by rw [Stage.Enters, hc]; rfl))
  have := Bool.toNat_le ((a.machine.world.nodes.get? k).bind Node.job).isSome
  rw [World.waits] at hw ⊢
  omega

def World.knows (w : World) (k : Key) : Nat := (w.nodes.get? k).isSome.toNat

/-- How often it was decided whether a node starts. -/
def decisions (k : Key) (j : List Event) : Nat := startings k j + abandonings k j

/-- Each node goes from waiting to its start or its end once, up to what a stride loses. -/
def Handed (k : Key) (a b : Stage) (loss : Nat) : Prop :=
  b.before k + decisions k b.machine.journal + loss + a.machine.world.knows k =
    a.before k + decisions k a.machine.journal + b.machine.world.knows k

theorem Handed.of_eq {k : Key} {a b : Stage} (hb : b.before k = a.before k)
    (hd : decisions k b.machine.journal = decisions k a.machine.journal)
    (hk : b.machine.world.knows k = a.machine.world.knows k) : Handed k a b 0 := by
  rw [Handed, hb, hd, hk]
  rfl

theorem World.knows_modifyNode (w : World) (l : Key) (f : Node → Node) (k : Key) :
    (w.modifyNode l f).knows k = w.knows k := by
  rw [knows, modifyNode, Table.isSome_get?_modify, knows]

@[simp] theorem World.waits_modifyTerminal (w : World) (t : Key) (f : Terminal → Terminal) (k : Key) :
    (w.modifyTerminal t f).waits k = w.waits k := rfl

@[simp] theorem World.waits_modifyProbe (w : World) (p : Key) (f : Probe → Probe) (k : Key) :
    (w.modifyProbe p f).waits k = w.waits k := rfl

@[simp] theorem World.waits_modifyStart (w : World) (s : Key) (f : Start → Start) (k : Key) :
    (w.modifyStart s f).waits k = w.waits k := rfl

theorem Stage.before_mk (c : Option Call) (m : Machine) (k : Key) : Stage.before ⟨c, m⟩ k =
    m.world.waits k + (m.stack.map (Task.prepares k)).sum + c.elim 0 (Call.prepares k) := rfl

theorem decisions_wired (k : Key) (y : Waiter) (ss : List Source) (j : List Event) :
    decisions k ((ss.map (Event.wired y)).reverse ++ j) = decisions k j := by
  rw [decisions, startings, abandonings, countP_wired j y (fun _ ↦ rfl), countP_wired j y (fun _ ↦ rfl)]
  rfl

theorem decisions_asked (k l : Key) (as : List Asked) (j : List Event) :
    decisions k ((as.map (Event.asked l)).reverse ++ j) = decisions k j := by
  rw [decisions, startings, abandonings, countP_asked l j (fun _ ↦ rfl), countP_asked l j (fun _ ↦ rfl)]
  rfl

theorem World.waits_insert {v w : World} {l : Key} {n : Node} (hv : v.nodes = w.nodes.insert l n)
    (hl : w.nodes.get? l = none) (hn : n.job.isSome) (k : Key) :
    v.waits k + w.knows k = w.waits k + v.knows k := by
  simp only [waits, knows, hv, Table.get?_insert_of_new hl]
  by_cases hk : l = k
  · subst hk
    simp [hl, hn]
  · rw [if_neg hk]

theorem Handed.of_world {k : Key} {a b : Stage}
    (hs : (b.machine.stack.map (Task.prepares k)).sum = (a.machine.stack.map (Task.prepares k)).sum)
    (hc : b.call.elim 0 (Call.prepares k) = a.call.elim 0 (Call.prepares k))
    (hw : b.machine.world.waits k + a.machine.world.knows k = a.machine.world.waits k + b.machine.world.knows k)
    (hd : decisions k b.machine.journal = decisions k a.machine.journal) : Handed k a b 0 := by
  simp only [Handed, Stage.before, hs, hc, hd]
  omega

theorem Handed.of_modifyNode {k l : Key} {a b : Stage} {f : Node → Node}
    (hw : b.machine.world = a.machine.world.modifyNode l f) (hf : ∀ n, (f n).job = n.job)
    (hs : (b.machine.stack.map (Task.prepares k)).sum = (a.machine.stack.map (Task.prepares k)).sum)
    (hc : b.call.elim 0 (Call.prepares k) = a.call.elim 0 (Call.prepares k))
    (hd : decisions k b.machine.journal = decisions k a.machine.journal) : Handed k a b 0 := by
  refine .of_world hs hc ?_ hd
  rw [World.waits_modifyNode hw hf, hw, World.knows_modifyNode]

theorem decisions_started (k l : Key) (text : String) (j : List Event) :
    decisions k (.logged (.started l text) :: j) = decisions k j + if l = k then 1 else 0 := by
  simp only [decisions, startings, abandonings, List.countP_cons, Event.starts, Event.abandons,
    decide_eq_true_eq, Bool.false_eq_true, if_false]
  omega

theorem decisions_abandoned (k l : Key) (name text : String) (j : List Event) :
    decisions k (.logged (.abandoned l name text) :: j) = decisions k j + if l = k then 1 else 0 := by
  simp only [decisions, startings, abandonings, List.countP_cons, Event.starts, Event.abandons,
    decide_eq_true_eq, Bool.false_eq_true, if_false]
  omega

theorem World.waits_spend {w : World} {l : Key} {f : Node → Node} (hf : ∀ n, (f n).job = none)
    (hl : w.waits l = 1) (k : Key) : (w.modifyNode l f).waits k + (if l = k then 1 else 0) = w.waits k := by
  by_cases hk : l = k
  · subst hk
    rw [if_pos rfl, hl, waits, get?_modifyNode, if_pos rfl]
    cases w.nodes.get? l <;> simp [hf]
  · rw [if_neg hk, waits, get?_modifyNode_of_ne hk, waits]
    rfl

theorem Stride.handed {a b : Stage} (hs : Stride a b) (ha : a.Reached) (k : Key) :
    ∃ loss, (loss = 0 ∨ ∃ f, Event.unwound f (.preparation k) ∈ b.machine.journal) ∧ Handed k a b loss := by
  cases hs with
  | push ht => exact ⟨0, .inl rfl, .of_eq (by simp [Stage.before_mk, Task.prepares_of_idle ht]) rfl rfl⟩
  | pop hm ht => exact ⟨0, .inl rfl, .of_eq (by simp [Stage.before_mk, hm, Task.prepares_of_idle ht]) rfl rfl⟩
  | @line m f l ls e ts hm =>
    refine ⟨0, .inl rfl, .of_eq ?_ rfl rfl⟩
    cases e <;> simp [Stage.before_mk, hm, Task.prepares]
  | kept hm | fired hm | deliver hm | attach hm =>
    exact ⟨0, .inl rfl, .of_eq (by simp [Stage.before_mk, hm, Task.prepares, Call.prepares]) rfl rfl⟩
  | timer => exact ⟨0, .inl rfl, .of_eq (by simp [Stage.before_mk, Task.prepares, Call.prepares]) rfl rfl⟩
  | resume hm =>
    refine ⟨0, .inl rfl, .of_eq ?_ rfl rfl⟩
    simp only [Stage.before_mk, hm, List.map_cons, List.sum_cons, Task.prepares, Call.prepares, Option.elim]
    omega
  | @note m e he =>
    cases e with
    | described | replied => exact ⟨0, .inl rfl, .of_eq rfl rfl rfl⟩
    | _ => simp [Event.mute] at he
  | insert hw | stored _ hw =>
    obtain ⟨t, -, rfl⟩ := World.store_eq hw
    exact ⟨0, .inl rfl, .of_eq rfl rfl rfl⟩
  | @addNode m _ a c deps i s work =>
    obtain ⟨t, -, he⟩ := m.addNode_eq i a c deps s work
    refine ⟨0, .inl rfl, ?_⟩
    rw [he]
    refine .of_world ?_ rfl (World.waits_insert rfl (ha.sound.nodes.get?_fresh i) ?_ k) (decisions_wired ..)
    · simp [Task.prepares]
    · rfl
  | @addTerminal m c deps i body =>
    obtain ⟨t, -, he⟩ := m.placeTerminal_eq i c deps body
    refine ⟨0, .inl rfl, ?_⟩
    rw [he]
    exact .of_eq (by simp [Stage.before_mk, Machine.push, Task.prepares, World.waits]) (decisions_wired ..) rfl
  | @addRoot m c i body =>
    obtain ⟨t, -, he⟩ := m.placeTerminal_eq i c [] body
    refine ⟨0, .inl rfl, ?_⟩
    rw [he]
    exact .of_eq (by simp [Stage.before_mk, Task.prepares, Call.prepares, World.waits]) rfl rfl
  | @depend m l s b d hb hd =>
    obtain ⟨t, -, he⟩ := (m.world.setBarrier (.node l) d).drawEdge_eq s (.node l)
    refine ⟨0, .inl rfl, ?_⟩
    rw [he]
    exact .of_eq rfl rfl rfl
  | @lost m c hc =>
    refine ⟨0, .inl rfl, ?_⟩
    cases c with
    | launch | entrust | raise => exact hc.elim
    | _ => exact .of_eq rfl rfl rfl
  | @astray m x s c | @refused m x s c | @arrived m x s c | @closed m x s c =>
    refine ⟨0, .inl rfl, ?_⟩
    cases s <;> exact .of_eq rfl rfl rfl
  | listed => exact ⟨0, .inl rfl, .of_modifyNode rfl (fun _ ↦ rfl) rfl rfl rfl⟩
  | broken | completed =>
    exact ⟨0, .inl rfl, .of_modifyNode rfl (fun _ ↦ rfl) rfl rfl (decisions_asked ..)⟩
  | @abandon m l n hl =>
    have hw := World.waits_spend (w := m.world) (f := fun n ↦ { n with job := none, record := n.record.cancel })
      (fun _ ↦ rfl) (ha.waits_of_enters rfl) k
    refine ⟨0, .inl rfl, ?_⟩
    simp only [Handed, Stage.before_mk, decisions_abandoned, World.knows_modifyNode, Option.elim, Call.prepares]
    omega
  | @begin m l n j hl hj =>
    have hw := World.waits_spend (w := m.world) (f := fun n ↦ { n with job := none }) (fun _ ↦ rfl)
      (ha.waits_of_enters rfl) k
    refine ⟨0, .inl rfl, ?_⟩
    simp only [Handed, Stage.before_mk, World.knows_modifyNode, Option.elim, Call.prepares]
    omega
  | join | call =>
    exact ⟨0, .inl rfl, .of_eq (by simp [Stage.before_mk, Task.prepares, Call.prepares]) rfl rfl⟩
  | prepare =>
    refine ⟨0, .inl rfl, .of_eq ?_ rfl rfl⟩
    simp only [Stage.before_mk, List.map_cons, List.sum_cons, Task.prepares, Call.prepares, Option.elim]
    omega
  | @start m l body hold r =>
    have hd : decisions k (.ran l r :: .logged (.started l (m.world.label (.node l))) :: m.journal) = _ :=
      decisions_started k l _ m.journal
    refine ⟨0, .inl rfl, ?_⟩
    simp only [Handed, Stage.before_mk, hd, Option.elim, Call.prepares]
    omega
  | @timed m l after =>
    have hd : decisions k (.timed l after :: .logged (.started l (m.world.label (.node l))) :: m.journal) = _ :=
      decisions_started k l _ m.journal
    refine ⟨0, .inl rfl, ?_⟩
    simp only [Handed, Stage.before_mk, hd, Option.elim, Call.prepares]
    omega
  | @entrust m l body hold =>
    refine ⟨0, .inl rfl, .of_eq ?_ rfl rfl⟩
    cases hold <;> simp [Stage.before_mk, Task.prepares, Call.prepares]
  | @announce m l n g =>
    refine ⟨0, .inl rfl, .of_modifyNode rfl (fun _ ↦ rfl) ?_ rfl (by cases g <;> rfl)⟩
    simp [Task.prepares]
  | ran => exact ⟨0, .inl rfl, .of_eq (by simp [Stage.before_mk, Task.prepares, Call.prepares]) rfl rfl⟩
  | caught hm ht =>
    exact ⟨0, .inl rfl, .of_eq (by simp [Stage.before_mk, hm, Task.prepares_of_catches ht, Call.prepares]) rfl rfl⟩
  | @unwound m f t ts hm ht =>
    refine ⟨t.prepares k, ?_, ?_⟩
    · cases t with
      | script g ls e =>
        cases e with
        | nowhere => exact .inl rfl
        | job l j =>
          by_cases hk : l = k
          · exact .inr ⟨f, by simp [Task.scope?, hk]⟩
          · exact .inl (if_neg hk)
      | _ => exact .inl rfl
    · have hd : decisions k (t.scope?.toList.map (Event.unwound f) ++ m.journal) = decisions k m.journal := by
        cases t.scope? <;> rfl
      simp only [Handed, Stage.before_mk, hm, hd, List.map_cons, List.sum_cons, Option.elim, Call.prepares]
      omega
  | _ => exact ⟨0, .inl rfl, .of_eq rfl rfl rfl⟩

theorem Stage.Reached.before_le {a : Stage} (h : a.Reached) (k : Key) :
    a.before k + decisions k a.machine.journal ≤ a.machine.world.knows k := by
  refine h.invariant (P := fun a ↦ a.before k + decisions k a.machine.journal ≤ a.machine.world.knows k)
    (fun _ ↦ Nat.le_refl 0) fun a b h ih hs ↦ ?_
  obtain ⟨loss, -, hl⟩ := hs.handed h k
  unfold Handed at hl
  omega

theorem Stage.Reached.before_eq {a : Stage} (h : a.Reached) {k : Key}
    (hk : ∀ f, Event.unwound f (.preparation k) ∉ a.machine.journal) :
    a.before k + decisions k a.machine.journal = a.machine.world.knows k := by
  revert hk
  refine h.invariant (P := fun a ↦ (∀ f, Event.unwound f (.preparation k) ∉ a.machine.journal) →
    a.before k + decisions k a.machine.journal = a.machine.world.knows k) (fun _ _ ↦ rfl) fun a b h ih hs hk ↦ ?_
  have ha := ih fun f hf ↦ hk f (hs.mem_journal hf)
  obtain ⟨loss, hz, hl⟩ := hs.handed h k
  obtain rfl : loss = 0 := hz.resolve_right fun ⟨f, hf⟩ ↦ hk f hf
  unfold Handed at hl
  omega

theorem Machine.countP_timers {ts : List Timer} {t : Timer} (h : t ∈ ts) (k : Key) :
    (ts.filter fun u ↦ u.node ≠ t.node).countP (fun u ↦ u.node = k) + (if t.node = k then 1 else 0) ≤
      ts.countP fun u ↦ u.node = k := by
  by_cases hk : t.node = k
  · have hz : (ts.filter fun u ↦ u.node ≠ t.node).countP (fun u ↦ u.node = k) = 0 := by
      simp [List.countP_eq_zero, hk]
    have hp : 0 < ts.countP fun u ↦ u.node = k := List.countP_pos_iff.2 ⟨t, h, by simp [hk]⟩
    rw [hz, if_pos hk]
    omega
  · rw [if_neg hk]
    exact List.filter_sublist.countP_le

theorem World.rests_insert {v w : World} {l : Key} {n : Node} (hv : v.nodes = w.nodes.insert l n)
    (hl : w.nodes.get? l = none) (hn : n.signal = none) (k : Key) : v.rests k = w.rests k := by
  simp only [rests, hv, Table.get?_insert_of_new hl]
  by_cases hk : l = k
  · subst hk
    simp [hl, hn]
  · rw [if_neg hk]

theorem World.rests_le (w : World) (l : Key) (f : Node → Node) (k : Key) :
    (w.modifyNode l f).rests k ≤ w.rests k + if l = k then 1 else 0 := by
  by_cases hk : l = k
  · rw [if_pos hk]
    exact (Bool.toNat_le _).trans (Nat.le_add_left _ _)
  · rw [if_neg hk, rests, get?_modifyNode_of_ne hk, rests]
    exact Nat.le_refl _

theorem Stage.during_mk (c : Option Call) (m : Machine) (k : Key) : Stage.during ⟨c, m⟩ k =
    m.desk.completions.values.count k + m.timers.countP (fun t ↦ t.node = k) + c.elim 0 (Call.reports k) := rfl

theorem Stage.after_mk (c : Option Call) (m : Machine) (k : Key) : Stage.after ⟨c, m⟩ k =
    m.world.rests k + c.elim 0 (Call.settles k) := rfl

theorem Desk.completions_keep (d : Desk) (i : String) (h : Handle) : (d.keep i h).completions = d.completions := by
  cases h <;> rfl

theorem decisions_tellings (k : Key) (x : Waiter) (s : Option Source) (c : Bool) (j : List Event) :
    decisions k (Machine.tellings x s c ++ j) = decisions k j := by
  cases s <;> rfl

/-- What a start or an end begins is carried on by one thing at a time. -/
structure Carried (k : Key) (a b : Stage) : Prop where
  during : b.during k + decisions k a.machine.journal ≤ a.during k + decisions k b.machine.journal
  after : b.during k + b.after k + decisions k a.machine.journal ≤
    a.during k + a.after k + decisions k b.machine.journal

theorem Carried.of_le {k : Key} {a b : Stage} (hd : b.during k ≤ a.during k) (ha : b.after k ≤ a.after k)
    (hj : decisions k b.machine.journal = decisions k a.machine.journal) : Carried k a b := by
  constructor <;> omega

theorem Carried.of_completed {k l : Key} {a b : Stage} {r : Except Payload Payload}
    (hd : b.machine.desk = a.machine.desk) (ht : b.machine.timers = a.machine.timers)
    (hw : b.machine.world.rests k = a.machine.world.rests k) (ha : a.call = some (.complete l r))
    (hc : b.call.elim 0 (Call.reports k) + b.call.elim 0 (Call.settles k) ≤ if l = k then 1 else 0)
    (hj : decisions k b.machine.journal = decisions k a.machine.journal) : Carried k a b := by
  have hb : b.during k + b.after k ≤ a.during k + a.after k ∧ b.during k ≤ a.during k := by
    simp only [Stage.during, Stage.after, hd, ht, hw, ha, Option.elim, Call.reports, Call.settles] at hc ⊢
    constructor <;> omega
  constructor <;> omega

theorem Stride.carried {a b : Stage} (hs : Stride a b) (ha : a.Reached) (k : Key) : Carried k a b := by
  cases hs with
  | @note m e he =>
    cases e with
    | described | replied => exact .of_le (Nat.le_refl _) (Nat.le_refl _) rfl
    | _ => simp [Event.mute] at he
  | keep | kept =>
    refine .of_le ?_ (Nat.le_refl _) rfl
    rw [Stage.during_mk, Desk.completions_keep]
    exact Nat.le_refl _
  | insert hw =>
    obtain ⟨t, -, rfl⟩ := World.store_eq hw
    exact .of_le (Nat.le_refl _) (Nat.le_refl _) rfl
  | @addNode m _ a c deps i s work =>
    obtain ⟨t, -, he⟩ := m.addNode_eq i a c deps s work
    rw [he]
    refine .of_le (Nat.le_refl _) (Nat.le_of_eq ?_) (decisions_wired ..)
    exact World.rests_insert rfl (ha.sound.nodes.get?_fresh i) rfl k
  | @addTerminal m c deps i body =>
    obtain ⟨t, -, he⟩ := m.placeTerminal_eq i c deps body
    rw [he]
    exact .of_le (Nat.le_refl _) (Nat.le_refl _) (decisions_wired ..)
  | @addRoot m c i body =>
    obtain ⟨t, -, he⟩ := m.placeTerminal_eq i c [] body
    rw [he]
    exact .of_le (Nat.le_refl _) (Nat.le_refl _) rfl
  | @depend m l s b d hb hd =>
    obtain ⟨t, -, he⟩ := (m.world.setBarrier (.node l) d).drawEdge_eq s (.node l)
    rw [he]
    exact .of_le (Nat.le_refl _) (Nat.le_refl _) rfl
  | @relinquish m c i l hc hk =>
    refine .of_le ?_ (Nat.le_refl _) rfl
    exact Nat.add_le_add_right (Nat.add_le_add_right (Table.count_values_erase_le ..) _) _
  | timer ht =>
    have := Machine.countP_timers ht k
    refine .of_le ?_ (Nat.le_refl _) rfl
    simp only [Stage.during_mk, Option.elim, Call.reports]
    omega
  | @report m i l r hl =>
    refine .of_le ?_ (Nat.le_refl _) rfl
    simp only [Stage.during_mk, Option.elim, Call.reports]
    by_cases hk : l = k
    · have := Table.count_values_erase_lt (hk ▸ hl)
      rw [if_pos hk]
      omega
    · have := Table.count_values_erase_le m.desk.completions i k
      rw [if_neg hk]
      omega
  | lost | repeated => exact .of_le (Nat.le_add_right _ _) (Nat.le_add_right _ _) rfl
  | listed =>
    exact .of_le (Nat.le_refl _) (Nat.le_of_eq (World.rests_modifyNode rfl (by intro _; rfl))) rfl
  | astray | refused | arrived | closed =>
    exact .of_le (Nat.le_refl _) (Nat.le_refl _) (decisions_tellings ..)
  | @abandon m l n hl =>
    have hr : (m.world.modifyNode l fun n ↦ { n with job := none, record := n.record.cancel }).rests k =
        m.world.rests k := World.rests_modifyNode rfl (by intro _; rfl)
    constructor <;>
      simp only [Stage.during_mk, Stage.after_mk, Option.elim, Call.reports, Call.settles, decisions_abandoned, hr] <;>
      omega
  | begin =>
    exact .of_le (Nat.le_refl _) (Nat.le_of_eq (World.rests_modifyNode rfl (by intro _; rfl))) rfl
  | @start m l body hold r =>
    have hd : decisions k (.ran l r :: .logged (.started l (m.world.label (.node l))) :: m.journal) = _ :=
      decisions_started k l _ m.journal
    constructor <;> simp only [Stage.during_mk, Stage.after_mk, Option.elim, Call.reports, Call.settles, hd] <;> omega
  | @entrust m l =>
    have := Table.count_values_put_le m.desk.completions l.handle l k
    refine .of_le ?_ (Nat.le_refl _) rfl
    simp only [Stage.during_mk, Option.elim, Call.reports]
    omega
  | @timed m l after =>
    have hd : decisions k (.timed l after :: .logged (.started l (m.world.label (.node l))) :: m.journal) = _ :=
      decisions_started k l _ m.journal
    constructor <;>
      simp only [Stage.during_mk, Stage.after_mk, Option.elim, Call.reports, Call.settles, hd, List.countP_append,
        List.countP_singleton, decide_eq_true_eq] <;>
      omega
  | broken | completed =>
    refine .of_completed rfl rfl (World.rests_modifyNode rfl (by intro _; rfl)) rfl ?_ (decisions_asked ..)
    simp [Call.reports, Call.settles]
  | stored _ hw =>
    obtain ⟨t, -, rfl⟩ := World.store_eq hw
    exact .of_le (Nat.le_refl _) (Nat.le_refl _) rfl
  | @announce m l n g =>
    have := World.rests_le m.world l (fun n ↦ { n with signal := some g, listeners := [] }) k
    refine .of_le (Nat.le_refl _) ?_ (by cases g <;> rfl)
    simp only [Stage.after_mk, Option.elim, Call.settles]
    omega
  | @unwound m f t => exact .of_le (Nat.le_refl _) (Nat.le_refl _) (by cases t.scope? <;> rfl)
  | _ => exact .of_le (Nat.le_refl _) (Nat.le_refl _) rfl

/-- At most one thing has the say about a node, and its signal ends that. -/
theorem Stage.Reached.say_le {a : Stage} (h : a.Reached) (k : Key) :
    a.before k + a.during k + a.after k ≤ a.machine.world.knows k := by
  refine h.invariant (P := fun a ↦ a.before k + a.during k + a.after k ≤ a.machine.world.knows k)
    (fun _ ↦ Nat.le_refl 0) fun a b h ih hs ↦ ?_
  obtain ⟨loss, -, hl⟩ := hs.handed h k
  have hc := (hs.carried h k).after
  unfold Handed at hl
  omega

theorem World.knows_le (w : World) (k : Key) : w.knows k ≤ 1 := Bool.toNat_le _

theorem Stage.Reached.say_le_one {a : Stage} (h : a.Reached) (k : Key) :
    a.before k + a.during k + a.after k ≤ 1 := (h.say_le k).trans (World.knows_le _ k)

theorem Stride.say_le {a b : Stage} (hs : Stride a b) (ha : a.Reached) (k : Key) :
    b.before k + b.during k + a.machine.world.knows k ≤ a.before k + a.during k + b.machine.world.knows k := by
  obtain ⟨loss, -, hl⟩ := hs.handed ha k
  have hc := (hs.carried ha k).during
  unfold Handed at hl
  omega

section

variable {m : Machine} (h : Stage.Reached ⟨none, m⟩) {k : Key} {c : Bool} (hk : m.world.Shut (.node k) c)

include h hk

theorem Stage.Reached.knows_of_shut : m.world.knows k = 1 := by
  obtain ⟨b, hb, -⟩ := hk
  rw [World.knows, ← h.sound.isSome_node, Option.isSome_of_eq_some hb]
  rfl

theorem Stage.Reached.waits_of_shut : m.world.waits k = 0 := by
  obtain ⟨b, hb, hc, -⟩ := hk
  refine Nat.eq_zero_of_not_pos fun hw ↦ ?_
  rcases (h.waits k b hb).1 hw with ho | he
  · exact absurd hc (by simp [ho])
  · exact he

theorem Stage.Reached.decisions_eq (hs : m.stack = [])
    (hf : ∀ f, Event.unwound f (.preparation k) ∉ m.journal) : decisions k m.journal = 1 := by
  have he : Stage.before ⟨none, m⟩ k + decisions k m.journal = m.world.knows k := h.before_eq hf
  rw [Stage.before_mk, hs, h.waits_of_shut hk, h.knows_of_shut hk] at he
  simpa using he

end

end ActivityGraph
