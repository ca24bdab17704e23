import ActivityGraph.Proofs.Countdown
import ActivityGraph.Proofs.Deeds
import ActivityGraph.Proofs.Entrance
import ActivityGraph.Proofs.Refusal

namespace ActivityGraph

namespace Event

def crosses? (x : Waiter) : Event → Option Bool
  | .logged (.closed y _ canceled) => if y = x then some canceled else none
  | .logged (.opened y _) => if y = x then some false else none
  | _ => none

def answers? (k : Key) : Event → Option Bool
  | .called l canceled => if l = k then some canceled else none
  | _ => none

theorem crosses?_of_passing {e : Event} (he : e.passing) (x : Waiter) : e.crosses? x = none := by
  cases e with
  | logged e =>
    cases e with
    | dropped => rfl
    | _ => simp [passing] at he
  | _ => rfl

end Event

/-- How what waits at the barrier of a waiter went on, each time it did. -/
def crossings (x : Waiter) (j : List Event) : List Bool := (j.filterMap (Event.crosses? x)).reverse

/-- How a probe was called, each time it was. -/
def answers (k : Key) (j : List Event) : List Bool := (j.filterMap (Event.answers? k)).reverse

theorem crossings_quiet {x : Waiter} {es : List Event} (h : ∀ e ∈ es, e.crosses? x = none) (j : List Event) :
    crossings x (es ++ j) = crossings x j := by
  rw [crossings, List.filterMap_append, List.filterMap_eq_nil_iff.2 h, List.nil_append, crossings]

theorem crossings_wired (x y : Waiter) (ss : List Source) (j : List Event) :
    crossings x ((ss.map (Event.wired y)).reverse ++ j) = crossings x j := by
  refine crossings_quiet (fun e he ↦ ?_) j
  obtain ⟨s, -, rfl⟩ := List.mem_map.1 (List.mem_reverse.1 he)
  rfl

namespace Machine

variable {m n p : Machine} {x y : Waiter} {k : Key}

/-- From one machine to another, just these calls are made on the barrier of a waiter. -/
def Plays (x : Waiter) (cs : List Barrier.Call) (m n : Machine) : Prop :=
  ∀ b, m.world.barriers.get? x = some b →
    n.world.barriers.get? x = some (b.play cs) ∧ crossings x n.journal = crossings x m.journal ++ b.crossings cs

namespace Plays

theorem quiet (hb : n.world.barriers = m.world.barriers) (hj : crossings x n.journal = crossings x m.journal) :
    Plays x [] m n := by
  intro b h
  rw [hb, hj]
  exact ⟨h, (List.append_nil _).symm⟩

theorem refl (x : Waiter) (m : Machine) : Plays x [] m m := quiet rfl rfl

theorem trans {cs ds : List Barrier.Call} (h : Plays x cs m n) (h' : Plays x ds n p) : Plays x (cs ++ ds) m p := by
  intro b hb
  obtain ⟨hn, hj⟩ := h b hb
  obtain ⟨hp, hj'⟩ := h' _ hn
  rw [Barrier.play_append, Barrier.crossings_append, hj', hj, List.append_assoc]
  exact ⟨hp, rfl⟩

theorem after {cs : List Barrier.Call} (h : Plays x cs n p) (hb : n.world.barriers = m.world.barriers)
    (hj : crossings x n.journal = crossings x m.journal) : Plays x cs m p := (quiet hb hj).trans h

theorem spares (h : Spares m n) (x : Waiter) : Plays x [] m n := by
  obtain ⟨es, hj, he⟩ := h.journal
  refine quiet (by rw [h.world]) ?_
  rw [hj]
  exact crossings_quiet (fun e hm ↦ Event.crosses?_of_passing (he e hm) x) _

end Plays

theorem quiet_raise (m : Machine) (x : Waiter) (f : Fault) : Plays x [] m (m.raise f) :=
  .spares (spares_unwind f m.stack m) x

theorem quiet_holdCompletion (m : Machine) (x : Waiter) (id : String) (k : Key) :
    Plays x [] m (m.holdCompletion id k) := by
  have hdrop := Plays.spares (m.spares_dropCompletion id) x
  exact hdrop.trans (.quiet rfl rfl)

theorem quiet_store {w : Option Key} {c : Key} {a : Activity} {r : Outcome} (h : m.store w c a r = .ok n)
    (x : Waiter) : Plays x [] m n := by
  unfold Machine.store at h
  split at h
  · simp at h
  · next v hv =>
    obtain ⟨t, -, rfl⟩ := World.store_eq hv
    obtain rfl := Except.ok.inj h
    exact .quiet rfl rfl

theorem quiet_resolve (m : Machine) (x : Waiter) (k : Key) (g : Signal) : Plays x [] m (m.resolve k g) := by
  unfold resolve
  cases m.world.nodes.get? k with
  | none => exact .refl x m
  | some n =>
    have settled (p : Machine) (hp : Plays x [] m p) :
        Plays x [] m (p.modifyNode k fun n ↦ { n with signal := some g, listeners := [] }) :=
      hp.trans (.quiet rfl rfl)
    cases g with
    | done =>
      refine (settled _ ?_).trans (.quiet rfl rfl)
      split
      · exact quiet_store ‹_› x
      · exact .quiet rfl rfl
    | cancel =>
      refine (settled _ ?_).trans (.quiet rfl rfl)
      split
      · exact quiet_store ‹_› x
      · exact .quiet rfl rfl

theorem quiet_abandon (m : Machine) (x : Waiter) (k : Key) : Plays x [] m (m.abandon k) := by
  unfold abandon
  split
  · exact .refl x m
  · next n hn =>
    exact (quiet_resolve _ x k .cancel).after rfl rfl

theorem quiet_complete (m : Machine) (x : Waiter) (k : Key) (r : Except Payload Payload) :
    Plays x [] m (m.complete k r) := by
  unfold complete
  split
  · exact .refl x m
  · next n hn =>
    split
    · exact quiet_raise m x _
    · next o ho =>
      have hasked (as : List Asked) (es : List Event) :
          crossings x (((.reported k r :: as.map (Event.asked k)).reverse) ++ es) = crossings x es := by
        refine crossings_quiet (fun e he ↦ ?_) es
        rcases List.mem_cons.1 (List.mem_reverse.1 he) with rfl | he
        · rfl
        · obtain ⟨a, -, rfl⟩ := List.mem_map.1 he
          rfl
      dsimp only
      rw [noteAll_eq]
      split
      · exact (quiet_raise _ x _).after rfl (hasked _ _)
      · exact (quiet_resolve _ x k _).after rfl (hasked _ _)

theorem quiet_launch (m : Machine) (x : Waiter) (k : Key) (j : Job) : Plays x [] m (m.launch k j) := by
  unfold launch
  split
  · exact .quiet rfl rfl
  · dsimp only
    split
    · next body hold r hw =>
      have hheld := (quiet_holdCompletion ((m.log (.started k (m.world.label (.node k)))).note (.ran k r)) x
        k.handle k).after (m := m) rfl rfl
      cases hold with
      | false => exact hheld.trans (.quiet rfl rfl)
      | true => exact hheld.trans (.quiet rfl rfl)
    · exact .quiet rfl rfl

theorem quiet_begin (m : Machine) (x : Waiter) (k : Key) : Plays x [] m (m.begin k) := by
  unfold begin
  split
  · exact .refl x m
  · split
    · exact quiet_raise m x _
    · next j hj => exact (quiet_launch _ x k j).after rfl rfl

theorem quiet_join (m : Machine) (x : Waiter) (k : Key) : Plays x [] m (m.join k) := by
  unfold join
  split
  · exact .refl x m
  · split
    · exact .quiet rfl rfl
    · exact .refl x m

theorem quiet_call (m : Machine) (x : Waiter) (k : Key) (canceled : Bool) : Plays x [] m (m.call k canceled) := by
  unfold call
  split
  · exact .refl x m
  · split
    · exact .refl x m
    · exact .quiet rfl rfl

theorem quiet_enter (m : Machine) (x y : Waiter) (canceled : Bool) : Plays x [] m (m.enter y canceled) := by
  cases y with
  | node k =>
    cases canceled with
    | false => exact quiet_begin m x k
    | true => exact quiet_abandon m x k
  | terminal k => exact quiet_join m x k
  | probe k => exact quiet_call m x k canceled

theorem quiet_fire (m : Machine) (x : Waiter) (k : Key) : Plays x [] m (m.fire k) := by
  unfold fire
  split
  · exact .refl x m
  · dsimp only
    split
    · exact quiet_raise m x _
    · exact .quiet rfl rfl

theorem quiet_elapse (m : Machine) (x : Waiter) (stop : Nat) (ρ : Runtime) : Plays x [] m (m.elapse stop ρ) := by
  unfold elapse
  split
  · exact .quiet rfl rfl
  · exact (quiet_complete _ x _ _).after rfl rfl

def apply (m : Machine) (y : Waiter) : Barrier.Call → Machine
  | .arrive canceled => m.arrive y canceled
  | .expect => m.expect y
  | .release => m.release y

variable {b d : Barrier} {c : Barrier.Call}

theorem apply_refused (hb : m.world.barriers.get? y = some b) (h : b.take? c = none) :
    ∃ f, m.apply y c = m.raise f := by
  cases c with
  | arrive canceled =>
    have hn : b.arrive? canceled = none := h
    exact ⟨_, by simp only [apply, arrive, hb, hn]; rfl⟩
  | expect =>
    have hn : b.expect? = none := h
    exact ⟨_, by simp only [apply, expect, hb, hn]; rfl⟩
  | release =>
    cases hr : b.release with
    | ok d => simp [Barrier.take?, hr, Except.toOption] at h
    | error e =>
      cases e with
      | closed => exact ⟨_, by simp only [apply, release, hb, hr]; rfl⟩
      | unresolved n => exact ⟨_, by simp only [apply, release, hb, hr]; rfl⟩

theorem apply_accepted (hb : m.world.barriers.get? y = some b) (h : b.take? c = some d) :
    (b.crossing? c = none ∧ m.apply y c = m.mapWorld fun w ↦ w.setBarrier y d) ∨
    ∃ flag e, b.crossing? c = some flag ∧ (∀ x, Event.crosses? x (.logged e) = if y = x then some flag else none) ∧
      m.apply y c = ((m.mapWorld fun w ↦ w.setBarrier y d).log e).enter y flag := by
  cases c with
  | arrive canceled =>
    have hd : b.arrive? canceled = some d := h
    cases hc : d.closed with
    | false => exact .inl ⟨by simp [Barrier.crossing?, hd, hc], by simp [apply, arrive, hb, hd, hc]⟩
    | true =>
      refine .inr ⟨d.canceled, .closed y (m.world.label y) d.canceled, ?_, fun x ↦ rfl, ?_⟩
      · simp [Barrier.crossing?, hd, hc]
      · simp only [apply, arrive, hb, hd, hc, if_true]
        rfl
  | expect =>
    have hd : b.expect? = some d := h
    exact .inl ⟨rfl, by simp [apply, expect, hb, hd]⟩
  | release =>
    cases hr : b.release with
    | error e => simp [Barrier.take?, hr, Except.toOption] at h
    | ok d' =>
      obtain rfl : d' = d := by simpa [Barrier.take?, hr, Except.toOption] using h
      refine .inr ⟨false, .opened y (m.world.label y), ?_, fun x ↦ rfl, ?_⟩
      · simp [Barrier.crossing?, hr, Except.toOption]
      · simp only [apply, release, hb, hr]
        rfl

theorem apply_absent (hb : m.world.barriers.get? y = none) (c : Barrier.Call) : m.apply y c = m := by
  cases c <;> simp only [apply, arrive, expect, release, hb]

theorem plays_apply_self (m : Machine) (x : Waiter) (c : Barrier.Call) : Plays x [c] m (m.apply x c) := by
  intro b hb
  have hplay : b.play [c] = b.take c := rfl
  have hcrossings : b.crossings [c] = (b.crossing? c).toList := List.append_nil _
  rw [hplay, hcrossings]
  cases h : b.take? c with
  | none =>
    obtain ⟨f, hf⟩ := apply_refused hb h
    obtain ⟨hworld, hj⟩ := quiet_raise m x f b hb
    rw [hf, Barrier.take_of_none h, Barrier.crossing?_of_none h]
    exact ⟨hworld, hj⟩
  | some d =>
    have hset : (m.mapWorld fun w ↦ w.setBarrier x d).world.barriers.get? x = some d := World.get?_setBarrier hb d
    rw [Barrier.take_of_some h]
    rcases apply_accepted hb h with ⟨he, ha⟩ | ⟨flag, e, he, hlog, ha⟩
    · rw [ha, he]
      exact ⟨hset, (List.append_nil _).symm⟩
    · obtain ⟨hworld, hj⟩ := quiet_enter ((m.mapWorld fun w ↦ w.setBarrier x d).log e) x x flag d hset
      have hentered : crossings x (.logged e :: m.journal) = crossings x m.journal ++ [flag] := by
        have hflag : Event.crosses? x (.logged e) = some flag := (hlog x).trans (if_pos rfl)
        simp [crossings, hflag]
      rw [ha, he, hj]
      exact ⟨hworld, (List.append_nil _).trans hentered⟩

theorem plays_apply_of_ne (m : Machine) (h : y ≠ x) (c : Barrier.Call) : Plays x [] m (m.apply y c) := by
  cases hb : m.world.barriers.get? y with
  | none =>
    rw [apply_absent hb]
    exact .refl x m
  | some b =>
    cases hd : b.take? c with
    | none =>
      obtain ⟨f, hf⟩ := apply_refused hb hd
      rw [hf]
      exact quiet_raise m x f
    | some d =>
      have hset : Plays x [] m (m.mapWorld fun w ↦ w.setBarrier y d) := by
        intro b' hb'
        exact ⟨(World.get?_setBarrier_of_ne h d).trans hb', (List.append_nil _).symm⟩
      rcases apply_accepted hb hd with ⟨-, ha⟩ | ⟨flag, e, -, hlog, ha⟩
      · rw [ha]
        exact hset
      · rw [ha]
        refine hset.trans ((quiet_enter _ x y flag).after rfl ?_)
        have hnone : Event.crosses? x (.logged e) = none := (hlog x).trans (if_neg h)
        exact crossings_quiet (List.forall_mem_singleton.2 hnone) _

theorem plays_apply (m : Machine) (x y : Waiter) (c : Barrier.Call) :
    Plays x (if y = x then [c] else []) m (m.apply y c) := by
  split
  · next h =>
    subst h
    exact plays_apply_self m y c
  · next h => exact plays_apply_of_ne m h c

theorem plays_tell (m : Machine) (x y : Waiter) (s : Source) (canceled : Bool) :
    Plays x (if y = x then [.arrive canceled] else []) m (m.tell y s canceled) :=
  (plays_apply (m.note (.told y s canceled)) x y (.arrive canceled)).after rfl rfl

/-- The call that the registration with a source makes: the source tells at once if it is final. -/
def listenCalls (m : Machine) (x y : Waiter) (s : Source) : List Barrier.Call :=
  if y = x then (m.world.final? s).toList.map fun g ↦ .arrive (g = .cancel) else []

def dependCalls (m : Machine) (x y : Waiter) (s : Source) : List Barrier.Call :=
  if y = x then
    -- a barrier that refuses the dependency is not put on a list
    .expect :: if (m.world.barriers.get? x).any fun b ↦ b.expect?.isSome then m.listenCalls x y s else []
  else []

theorem listenCalls_final {g : Signal} {s : Source} (h : m.world.final? s = some g) :
    m.listenCalls x y s = if y = x then [.arrive (g = .cancel)] else [] := by
  rw [listenCalls, h]
  rfl

theorem listenCalls_open {s : Source} (h : m.world.final? s = none) : m.listenCalls x y s = [] := by
  rw [listenCalls, h]
  split <;> rfl

theorem plays_enlist (m : Machine) (x y : Waiter) (s : Source) : Plays x (m.listenCalls x y s) m (m.enlist s y) := by
  unfold enlist
  split
  · next k =>
    split
    · next hn =>
      rw [listenCalls_open (by simp [World.final?, hn])]
      exact .refl x m
    · next n hn =>
      have hfinal := World.final?_node hn
      split
      · next hg =>
        rw [listenCalls_open (hfinal.trans hg)]
        exact .quiet rfl rfl
      · next g hg =>
        rw [listenCalls_final (hfinal.trans hg)]
        exact (plays_tell _ x y (.node k) _).after rfl rfl
  · next k =>
    split
    · next ht =>
      rw [listenCalls_open (by simp [World.final?, ht])]
      exact .refl x m
    · next t ht =>
      have hfinal := World.final?_start ht
      split
      · next hf =>
        rw [listenCalls_final (hfinal.trans (if_pos hf))]
        exact plays_tell m x y (.start k) false
      · next hf =>
        rw [listenCalls_open (hfinal.trans (if_neg hf))]
        exact .quiet rfl rfl

theorem plays_listen (m : Machine) (x y : Waiter) (s : Source) : Plays x (m.listenCalls x y s) m (m.listen s y) :=
  (plays_enlist (m.note (.listened y s)) x y s).after rfl rfl

theorem quiet_wire (m : Machine) (x y : Waiter) (s : Source) : Plays x [] m (m.wire y s) := by
  obtain ⟨t, -, he⟩ := m.world.drawEdge_eq s y
  have hb : (m.wire y s).world.barriers = m.world.barriers := by
    simp only [wire, mapWorld, note, he]
  exact .quiet hb rfl

theorem plays_depend (m : Machine) (x y : Waiter) (s : Source) :
    Plays x (m.dependCalls x y s) m (m.depend y s) := by
  cases hb : m.world.barriers.get? y with
  | none =>
    have hself : m.depend y s = m := by simp only [depend, hb]
    intro b hx
    have hne : y ≠ x := by
      rintro rfl
      simp [hx] at hb
    rw [hself, dependCalls, if_neg hne]
    exact Plays.refl x m b hx
  | some b =>
    have hexpect := plays_apply m x y .expect
    cases hd : b.expect? with
    | none =>
      have hrefused : m.depend y s = m.apply y .expect := by simp only [depend, apply, expect, hb, hd]
      have hcalls : m.dependCalls x y s = if y = x then [.expect] else [] := by
        unfold dependCalls
        split
        · next h => simp [← h, hb, hd]
        · rfl
      rw [hrefused, hcalls]
      exact hexpect
    | some d =>
      have hworld : m.apply y .expect = m.mapWorld fun w ↦ w.setBarrier y d := by
        simp only [apply, expect, hb, hd]
      have htaken : m.depend y s = ((m.apply y .expect).wire y s).listen s y := by
        simp only [hworld, depend, hb, hd]
      have hlisten : ((m.apply y .expect).wire y s).listenCalls x y s = m.listenCalls x y s := by
        obtain ⟨t, -, he⟩ := (m.world.setBarrier y d).drawEdge_eq s y
        simp only [listenCalls, hworld, wire, mapWorld, note, he]
        rfl
      have hcalls : m.dependCalls x y s = (if y = x then [.expect] else []) ++ ([] ++ m.listenCalls x y s) := by
        unfold dependCalls
        split
        · next h => simp [← h, hb, hd]
        · next h => simp [listenCalls, h]
      rw [htaken, hcalls, ← hlisten]
      exact hexpect.trans ((quiet_wire _ x y s).trans (plays_listen _ x y s))

theorem quiet_insert {b' : Barrier} (hb : n.world.barriers = m.world.barriers.insert y b')
    (hj : crossings x n.journal = crossings x m.journal) : Plays x [] m n := by
  intro b h
  rw [hb, hj, Table.get?_insert, h]
  exact ⟨rfl, (List.append_nil _).symm⟩

theorem quiet_addNode (m : Machine) (x : Waiter) (id : String) (a : Activity) (c : Key) (deps : List Source)
    (s : Setup Script) (work : Work Script) : Plays x [] m (m.addNode id a c deps s work) := by
  obtain ⟨t, -, he⟩ := m.addNode_eq id a c deps s work
  rw [he]
  exact quiet_insert rfl (crossings_wired x _ deps _)

theorem quiet_placeTerminal (m : Machine) (x : Waiter) (id : String) (c : Key) (deps : List Source) (body : Script) :
    Plays x [] m (m.placeTerminal id c deps body) := by
  obtain ⟨t, -, he⟩ := m.placeTerminal_eq id c deps body
  rw [he]
  exact quiet_insert rfl (crossings_wired x _ deps _)

/-- A new terminal may be released at once, but that is not the terminal of a barrier that was there before. -/
theorem quiet_addTerminal (hw : m.world.Sound) (x : Waiter) (id : String) (c : Key) (deps : List Source)
    (body : Script) : Plays x [] m (m.addTerminal id c deps body) := by
  rw [addTerminal_eq]
  have hplaced := quiet_placeTerminal m x id c deps body
  split
  · intro b hb
    have hne : .terminal (m.world.terminals.fresh id) ≠ x := by
      rintro rfl
      have hkey := Table.isSome_get?_iff.1 (Option.isSome_iff_exists.2 ⟨b, hb⟩)
      exact hw.terminals.fresh_notMem id ((hw.terminal _).1 hkey)
    exact hplaced.trans (plays_apply_of_ne _ hne .release) b hb
  · exact hplaced.trans (.quiet rfl rfl)

end Machine

def Action.calls (m : Machine) (x : Waiter) : Action → List Barrier.Call
  | .begin id => if (m.desk.nodes.get? id).map Waiter.node = some x then [.release] else []
  | .after id dep =>
    match m.desk.nodes.get? id, m.source dep with
    | some k, .ok s => m.dependCalls x (.node k) s
    | _, _ => []
  | .done id next =>
    match m.desk.nodes.get? id, m.desk.nodes.get? next with
    | some k, some l => m.dependCalls x (.node l) (.node k)
    | _, _ => []
  | .arrive id canceled => if (m.desk.probes.get? id).map Waiter.probe = some x then [.arrive canceled] else []
  | .expect id => if (m.desk.probes.get? id).map Waiter.probe = some x then [.expect] else []
  | .release id => if (m.desk.probes.get? id).map Waiter.probe = some x then [.release] else []
  | .listen id dep =>
    match m.desk.probes.get? id, m.source dep with
    | some k, .ok s => m.listenCalls x (.probe k) s
    | _, _ => []
  | _ => []

def Task.calls (m : Machine) (x : Waiter) : Task → List Barrier.Call
  | .script _ (l :: _) _ => l.action.calls m x
  | .deliver _ canceled (y :: _) => if y = x then [.arrive canceled] else []
  | .attach y (s :: _) => m.listenCalls x y s
  | _ => []

namespace Machine

variable {m n : Machine} {x : Waiter}

theorem calls_push (m : Machine) (x : Waiter) (t : Task) (a : Action) : a.calls (m.push t) x = a.calls m x := by
  cases a <;> rfl

theorem quiet_clone {id copy : String} (h : m.clone id copy = .ok n) (x : Waiter) : Plays x [] m n := by
  unfold clone at h
  split at h
  · exact Except.ok.inj h ▸ .quiet rfl rfl
  · obtain ⟨s, -, h⟩ := bind_ok h
    exact Except.ok.inj h ▸ .quiet rfl rfl
  · exact Except.ok.inj h ▸ .quiet rfl rfl
  · exact Except.ok.inj h ▸ .quiet rfl rfl
  · exact Except.ok.inj h ▸ .quiet rfl rfl
  · exact absurd h (by simp)

theorem plays_act (hw : m.world.Sound) {f : Frame} {c : Caller} {a : Action} (h : m.act f c a = .ok n) (x : Waiter) :
    Plays x (a.calls m x) m n := by
  cases a with
  | collect id name keys context | start id name keys context =>
    obtain ⟨as, -, h⟩ := bind_ok h
    exact Except.ok.inj h ▸ .quiet rfl rfl
  | run id =>
    obtain ⟨k, -, h⟩ := bind_ok h
    exact Except.ok.inj h ▸ (quiet_fire _ x k).after rfl rfl
  | ask q =>
    obtain ⟨r, -, h⟩ := bind_ok h
    exact Except.ok.inj h ▸ .quiet rfl rfl
  | grant id g =>
    obtain ⟨v, -, h⟩ := bind_ok h
    cases v with
    | error e => exact Except.ok.inj h ▸ .quiet rfl rfl
    | ok v => exact Except.ok.inj h ▸ .quiet rfl rfl
  | insert id key d =>
    obtain ⟨⟨k, col⟩, -, h⟩ := bind_ok h
    obtain ⟨b, -, h⟩ := bind_ok h
    split at h
    · exact Except.ok.inj h ▸ .quiet rfl rfl
    · next q hq => exact Except.ok.inj h ▸ (quiet_store hq x).trans (.quiet rfl rfl)
  | set id key d =>
    obtain ⟨⟨v, col⟩, -, h⟩ := bind_ok h
    obtain ⟨b, -, h⟩ := bind_ok h
    split at h
    · split at h
      · exact Except.ok.inj h ▸ .quiet rfl rfl
      · next q hq => exact Except.ok.inj h ▸ (quiet_store hq x).trans (.quiet rfl rfl)
    · exact Except.ok.inj h ▸ .quiet rfl rfl
  | perform id key coll deps setup work =>
    obtain ⟨b, -, h⟩ := bind_ok h
    obtain ⟨⟨k, col⟩, hk, h⟩ := bind_ok h
    have hdescribed : Plays x [] m (m.describeSetup b setup) := by
      cases setup with
      | none => exact .refl x m
      | some steps => exact .quiet rfl rfl
    dsimp only at h
    split at h
    · exact Except.ok.inj h ▸ hdescribed.trans (.quiet rfl rfl)
    · split at h
      · exact Except.ok.inj h ▸ hdescribed.trans ((quiet_addNode _ x id b k _ _ work).after rfl rfl)
      · exact Except.ok.inj h ▸ hdescribed.trans (quiet_raise _ x _)
  | finish id coll deps body =>
    obtain ⟨⟨k, col⟩, hk, h⟩ := bind_ok h
    obtain ⟨ss, hss, h⟩ := bind_ok h
    have hs : (m.push (.answer c (.fired (m.world.terminals.fresh id)))).world.Sound := hw
    exact Except.ok.inj h ▸ (quiet_addTerminal hs x id k ss body).after rfl rfl
  | begin id =>
    obtain ⟨k, hk, h⟩ := bind_ok h
    simp only [Action.calls, get?_of_find hk, Option.map_some, Option.some.injEq]
    exact Except.ok.inj h ▸ (plays_apply _ x (.node k) .release).after rfl rfl
  | after id dep =>
    obtain ⟨k, hk, h⟩ := bind_ok h
    obtain ⟨s, hs, h⟩ := bind_ok h
    simp only [Action.calls, get?_of_find hk, hs]
    exact Except.ok.inj h ▸ (plays_depend (m.push (.answer c (.now .nothing))) x (.node k) s).after rfl rfl
  | done id next =>
    obtain ⟨k, hk, h⟩ := bind_ok h
    obtain ⟨l, hl, h⟩ := bind_ok h
    simp only [Action.calls, get?_of_find hk, get?_of_find hl]
    exact Except.ok.inj h ▸ (plays_depend (m.push (.answer c (.now .nothing))) x (.node l) (.node k)).after rfl rfl
  | report node r =>
    obtain ⟨⟨k, q⟩, hk, h⟩ := bind_ok h
    exact Except.ok.inj h ▸ (quiet_complete _ x k _).after rfl rfl
  | drop node =>
    obtain ⟨q, -, h⟩ := bind_ok h
    exact Except.ok.inj h ▸ (Plays.spares (m.spares_dropCompletion _) x).trans (.quiet rfl rfl)
  | change how o =>
    obtain ⟨v, -, h⟩ := bind_ok h
    exact Except.ok.inj h ▸ .quiet rfl rfl
  | panic message => exact Except.ok.inj h ▸ quiet_raise m x _
  | probe id count name invoke cancel => exact Except.ok.inj h ▸ quiet_insert rfl rfl
  | arrive id canceled =>
    obtain ⟨k, hk, h⟩ := bind_ok h
    simp only [Action.calls, get?_of_find hk, Option.map_some, Option.some.injEq]
    exact Except.ok.inj h ▸ (plays_apply _ x (.probe k) (.arrive canceled)).after rfl rfl
  | expect id =>
    obtain ⟨k, hk, h⟩ := bind_ok h
    simp only [Action.calls, get?_of_find hk, Option.map_some, Option.some.injEq]
    exact Except.ok.inj h ▸ (plays_apply _ x (.probe k) .expect).after rfl rfl
  | release id =>
    obtain ⟨k, hk, h⟩ := bind_ok h
    simp only [Action.calls, get?_of_find hk, Option.map_some, Option.some.injEq]
    exact Except.ok.inj h ▸ (plays_apply _ x (.probe k) .release).after rfl rfl
  | listen id dep =>
    obtain ⟨s, hs, h⟩ := bind_ok h
    obtain ⟨k, hk, h⟩ := bind_ok h
    simp only [Action.calls, get?_of_find hk, hs]
    exact Except.ok.inj h ▸ (plays_listen (m.push (.answer c (.now .nothing))) x (.probe k) s).after rfl rfl
  | clone id copy =>
    obtain ⟨q, hq, h⟩ := bind_ok h
    exact Except.ok.inj h ▸ (quiet_clone hq x).trans (.quiet rfl rfl)
  | advance span runtime => exact Except.ok.inj h ▸ .quiet rfl rfl
  | unsupported => exact Except.ok.inj h ▸ .quiet rfl rfl

theorem get?_of_find_error {α : Type} {t : Table String α} {id e : String} (h : find t id = .error e) :
    t.get? id = none := by
  unfold find at h
  cases ht : t.get? id with
  | none => rfl
  | some b => simp [ht] at h

theorem calls_of_error {f : Frame} {c : Caller} {a : Action} {e : String} (h : m.act f c a = .error e) (x : Waiter) :
    a.calls m x = [] := by
  cases a with
  | begin id =>
    cases hk : find m.desk.nodes id with
    | error e => simp [Action.calls, get?_of_find_error hk]
    | ok k => simp [act, hk] at h
  | after id dep =>
    cases hk : find m.desk.nodes id with
    | error e => simp [Action.calls, get?_of_find_error hk]
    | ok k =>
      cases hs : m.source dep with
      | error e => simp [Action.calls, get?_of_find hk, hs]
      | ok s => simp [act, hk, hs, bind, pure, Except.bind, Except.pure] at h
  | done id next =>
    cases hk : find m.desk.nodes id with
    | error e => simp [Action.calls, get?_of_find_error hk]
    | ok k =>
      cases hl : find m.desk.nodes next with
      | error e => simp [Action.calls, get?_of_find hk, get?_of_find_error hl]
      | ok l => simp [act, hk, hl, bind, pure, Except.bind, Except.pure] at h
  | listen id dep =>
    cases hs : m.source dep with
    | error e =>
      simp only [Action.calls, hs]
      split <;> simp_all
    | ok s =>
      cases hk : find m.desk.probes id with
      | error e => simp [Action.calls, get?_of_find_error hk]
      | ok k => simp [act, hk, hs, bind, pure, Except.bind, Except.pure] at h
  | arrive id canceled | expect id | release id =>
    cases hk : find m.desk.probes id with
    | error e => simp [Action.calls, get?_of_find_error hk]
    | ok k => simp [act, hk] at h
  | _ => rfl

theorem plays_execute (hw : m.world.Sound) (f : Frame) (l : Line Action) (x : Waiter) :
    Plays x (l.action.calls m x) m (m.execute f l) := by
  have hguard : Plays x [] m (if l.caught then m.push (.guard ⟨f.owner, l.verb⟩) else m) ∧
      (if l.caught then m.push (.guard ⟨f.owner, l.verb⟩) else m).world = m.world ∧
      l.action.calls (if l.caught then m.push (.guard ⟨f.owner, l.verb⟩) else m) x = l.action.calls m x := by
    split
    · exact ⟨.quiet rfl rfl, rfl, calls_push m x _ l.action⟩
    · exact ⟨.refl x m, rfl, rfl⟩
  unfold execute
  dsimp only
  generalize (if l.caught then m.push (.guard ⟨f.owner, l.verb⟩) else m) = q at hguard ⊢
  obtain ⟨hplays, hworld, hcalls⟩ := hguard
  rw [← hcalls]
  split
  · next n hn => exact hplays.trans (plays_act (hworld ▸ hw) hn x)
  · next e he =>
    rw [calls_of_error he]
    exact hplays.trans (.quiet rfl rfl)

theorem plays_perform (hw : m.world.Sound) (t : Task) (x : Waiter) : Plays x (t.calls m x) m (m.perform t) := by
  cases t with
  | script f rest exit =>
    cases rest with
    | nil =>
      cases exit with
      | nowhere => exact .refl x m
      | job k j => exact quiet_launch m x k _
    | cons l rest =>
      let g : Frame := { f with register := m.registerAfter f l.action }
      have hexecute := plays_execute (m := m.push (.script g rest exit)) hw f l x
      rw [calls_push] at hexecute
      exact hexecute.after rfl rfl
  | answer c r => exact .spares (spares_conclude m c _) x
  | deliver s canceled xs =>
    cases xs with
    | nil => exact .refl x m
    | cons y xs => exact (plays_tell (m.push (.deliver s canceled xs)) x y s canceled).after rfl rfl
  | attach y ss =>
    cases ss with
    | nil => exact .refl x m
    | cons s ss => exact (plays_listen (m.push (.attach y ss)) x y s).after rfl rfl
  | relinquish id => exact .spares (m.spares_dropCompletion id) x
  | elapse stop runtime => exact quiet_elapse m x stop runtime
  | guard | contain => exact .refl x m
  | keep id h => exact .quiet rfl rfl
  | fire k => exact .quiet rfl rfl

end Machine

end ActivityGraph
