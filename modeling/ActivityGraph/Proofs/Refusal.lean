import ActivityGraph.Proofs.Request

namespace ActivityGraph

/-- Events that a refusal may leave: none of them is about anything in the world. -/
def Event.passing : Event → Bool
  | .described _ | .replied .. | .unwound .. | .logged (.dropped ..) => true
  | _ => false

theorem Event.passing_of_mute {e : Event} (he : e.mute) : e.passing := by
  cases e with
  | described | replied => rfl
  | _ => simp [mute] at he

namespace Request

/-- The event that a request leaves in the journal if it is accepted; some leave none. -/
def leaves : Request → Event → Bool
  | .perform .., .placed (.node _) => true
  | .begin k, .logged (.opened x _) => x = .node k
  | .depend k s, .wired x r => x = .node k ∧ r = s
  | .run k, .logged (.run l _ _) => l = k
  | _, _ => false

def faults : Request → Fault → Bool
  | .perform .., .undeclared _ => true
  | .begin _, .startedTwice _ | .begin _, .startedEarly .. => true
  | .depend .., .lateDependency _ => true
  | .run _, .ranTwice _ => true
  | _, _ => false

theorem leaves_passing (q : Request) {e : Event} (he : e.passing) : q.leaves e = false := by
  cases e with
  | logged e =>
    cases e with
    | dropped => cases q <;> rfl
    | _ => simp [Event.passing] at he
  | described | replied | unwound => cases q <;> rfl
  | _ => simp [Event.passing] at he

end Request

namespace Machine

/-- What stays when nothing is done. -/
structure Spares (m n : Machine) : Prop where
  world : n.world = m.world
  timers : n.timers = m.timers
  clock : n.clock = m.clock
  catalogue : n.catalogue = m.catalogue
  journal : ∃ es, n.journal = es ++ m.journal ∧ ∀ e ∈ es, e.passing

namespace Spares

variable {m n p : Machine}

theorem of_eq (hw : n.world = m.world) (ht : n.timers = m.timers) (hc : n.clock = m.clock)
    (hk : n.catalogue = m.catalogue) (hj : n.journal = m.journal) : Spares m n :=
  ⟨hw, ht, hc, hk, [], hj, by simp⟩

theorem trans (h : Spares m n) (h' : Spares n p) : Spares m p := by
  obtain ⟨es, hj, he⟩ := h.journal
  obtain ⟨fs, hj', he'⟩ := h'.journal
  refine ⟨h'.world.trans h.world, h'.timers.trans h.timers, h'.clock.trans h.clock,
    h'.catalogue.trans h.catalogue, fs ++ es, ?_, ?_⟩
  · rw [hj', hj, List.append_assoc]
  · exact List.forall_mem_append.2 ⟨he', he⟩

theorem countP_eq (h : Spares m n) (q : Request) : n.journal.countP q.leaves = m.journal.countP q.leaves := by
  obtain ⟨es, hj, he⟩ := h.journal
  have hz : es.countP q.leaves = 0 := List.countP_eq_zero.2 fun e hm ↦ by simp [q.leaves_passing (he e hm)]
  rw [hj, List.countP_append, hz, Nat.zero_add]

end Spares

theorem spares_noteAll (m : Machine) {es : List Event} (he : ∀ e ∈ es, e.passing) : Spares m (m.noteAll es) := by
  rw [noteAll_eq]
  exact ⟨rfl, rfl, rfl, rfl, es.reverse, rfl, fun e hm ↦ he e (List.mem_reverse.1 hm)⟩

theorem spares_dropCompletion (m : Machine) (id : String) : Spares m (m.dropCompletion id) := by
  unfold dropCompletion
  split
  · exact .of_eq rfl rfl rfl rfl rfl
  · exact ⟨rfl, rfl, rfl, rfl, [_], rfl, by simp [Event.passing]⟩

theorem spares_conclude (m : Machine) (c : Caller) (a : Answer) : Spares m (m.conclude c a) := by
  unfold conclude
  split
  · exact ⟨rfl, rfl, rfl, rfl, [_], rfl, by simp [Event.passing]⟩
  · exact .of_eq rfl rfl rfl rfl rfl

theorem spares_unwind (f : Fault) (ts : List Task) (m : Machine) : Spares m (unwind f ts m) := by
  induction ts generalizing m with
  | nil => exact .of_eq rfl rfl rfl rfl rfl
  | cons t ts ih =>
    cases t with
    | guard c =>
      have hp : Spares m { m with stack := ts } := .of_eq rfl rfl rfl rfl rfl
      exact hp.trans (spares_conclude _ c (.fault f))
    | contain => exact .of_eq rfl rfl rfl rfl rfl
    | relinquish id => exact (m.spares_dropCompletion id).trans (ih _)
    | _ =>
      refine (m.spares_noteAll ?_).trans (ih _)
      intro e he
      obtain ⟨s, -, rfl⟩ := List.mem_map.1 he
      rfl

theorem stack_unwind (f : Fault) (ts : List Task) (m : Machine) : (unwind f ts m).stack <:+ ts := by
  induction ts generalizing m with
  | nil => exact List.suffix_rfl
  | cons t ts ih =>
    cases t with
    | guard c =>
      have hc : (conclude { m with stack := ts } c (.fault f)).stack = ts := by
        unfold conclude
        split <;> rfl
      rw [unwind, hc]
      exact List.suffix_cons _ ts
    | contain => exact List.suffix_cons _ ts
    | _ => exact (ih _).trans (List.suffix_cons _ ts)

theorem unwind_stack (f : Fault) (ts us : List Task) (m : Machine) :
    unwind f ts { m with stack := us } = unwind f ts m := by
  induction ts generalizing m with
  | nil => rfl
  | cons t ts ih =>
    have hn (o : Option Scope) : Machine.noteAll { m with stack := us } (o.toList.map (.unwound f)) =
        { m.noteAll (o.toList.map (.unwound f)) with stack := us } := by
      cases o <;> rfl
    cases t with
    | guard c => rfl
    | contain => rfl
    | relinquish id =>
      rw [unwind, dropCompletion_stack]
      exact ih _
    | _ => exact (congrArg (unwind f ts) (hn _)).trans (ih _)

theorem raise_answer (m : Machine) (c : Caller) (r : Reply) (f : Fault) :
    (m.push (.answer c r)).raise f = m.raise f :=
  unwind_stack f m.stack _ m

/-- A request is refused: an error is the answer, or a fault breaks the call off. -/
inductive Refused (m : Machine) (c : Caller) (q : Request) : Machine → Prop
  | answered (e : AccessError) : Refused m c q (m.push (.answer c (.now (.refused e))))
  | broken (es : List Event) {f : Fault} (he : ∀ e ∈ es, e.mute) (hf : q.faults f) :
      Refused m c q ((m.noteAll es).raise f)

/-- A request is accepted: it is on record, or something else than an error is the answer. -/
inductive Accepted (m : Machine) (c : Caller) (q : Request) (n : Machine) : Prop
  | recorded (h : m.journal.countP q.leaves < n.journal.countP q.leaves)
  | answered {a : Answer} (ha : ∀ e, a ≠ .refused e) (hs : n.stack = .answer c (.now a) :: m.stack)

namespace Refused

variable {m n : Machine} {c : Caller} {q : Request}

theorem spares (h : m.Refused c q n) : m.Spares n := by
  cases h with
  | answered e => exact .of_eq rfl rfl rfl rfl rfl
  | broken es he hf =>
    exact (m.spares_noteAll fun e hm ↦ Event.passing_of_mute (he e hm)).trans (spares_unwind _ _ _)

theorem not_accepted (h : m.Refused c q n) : ¬ m.Accepted c q n := by
  rintro (hlt | @⟨a, ha, hs⟩)
  · exact absurd (h.spares.countP_eq q) (Nat.ne_of_gt hlt)
  · cases h with
    | answered e =>
      simp only [push, List.cons.injEq, Task.answer.injEq, Reply.now.injEq, and_true, true_and] at hs
      exact ha e hs.symm
    | @broken es f he hf =>
      have hle := (stack_unwind f (m.noteAll es).stack (m.noteAll es)).length_le
      rw [stack_noteAll] at hle
      rw [raise, stack_noteAll] at hs
      rw [hs, List.length_cons] at hle
      exact absurd hle (Nat.not_succ_le_self _)

theorem desk (h : m.Refused c q n) {d : Caller} {ts : List Task} (hs : m.stack = .guard d :: ts) :
    n.desk = m.desk := by
  cases h with
  | answered e => rfl
  | broken es he hf =>
    rw [raise, stack_noteAll, hs, unwind, noteAll_eq]
    unfold conclude
    split <;> rfl

end Refused

def Treated (m : Machine) (c : Caller) (q : Request) (n : Machine) : Prop :=
  m.world.Denies q ∧ m.Refused c q n ∨ ¬ m.world.Denies q ∧ m.Accepted c q n

theorem Accepted.of_suffix {m n : Machine} {c : Caller} {q : Request} {e : Event} {j : List Event} (he : q.leaves e)
    (hm : m.journal <:+ j) (hn : e :: j <:+ n.journal) : m.Accepted c q n := by
  refine .recorded ?_
  have hj : m.journal.countP q.leaves ≤ j.countP q.leaves := hm.sublist.countP_le
  have hle : (e :: j).countP q.leaves ≤ n.journal.countP q.leaves := hn.sublist.countP_le
  rw [List.countP_cons, if_pos he] at hle
  omega

theorem Accepted.of_leads {m m' n : Machine} {c : Caller} {q : Request} {e : Event} (h : Leads m' n)
    (he : q.leaves e) (hj : m'.journal = e :: m.journal) : m.Accepted c q n :=
  .of_suffix he List.suffix_rfl (hj ▸ h.journal)

section

variable {p : Machine} (c : Caller) {k : Key} {x : Activity} {col : Collector}

theorem treated_release {b : Barrier} (hb : p.world.barriers.get? (.node k) = some b) :
    p.Treated c (.begin k) ((p.push (.answer c (.now .nothing))).release (.node k)) := by
  have hb' : (p.push (.answer c (.now .nothing))).world.barriers.get? (.node k) = some b := hb
  unfold release
  rw [hb']
  dsimp only
  cases hr : b.release with
  | error e =>
    refine .inl ⟨⟨b, e, hb, hr⟩, ?_⟩
    cases e with
    | closed =>
      dsimp only
      rw [raise_answer]
      exact .broken [] (by simp) rfl
    | unresolved n =>
      dsimp only
      rw [raise_answer]
      exact .broken [] (by simp) rfl
  | ok d =>
    refine .inr ⟨?_, ?_⟩
    · rintro ⟨b', e, hb', he⟩
      obtain rfl := Option.some.inj (hb.symm.trans hb')
      exact absurd (hr.symm.trans he) (by simp)
    · dsimp only
      refine .of_leads (leads_enter _ (.node k) false) ?_ rfl
      exact decide_eq_true rfl

theorem treated_depend {b : Barrier} (hb : p.world.barriers.get? (.node k) = some b) (s : Source) :
    p.Treated c (.depend k s) ((p.push (.answer c (.now .nothing))).depend (.node k) s) := by
  have hb' : (p.push (.answer c (.now .nothing))).world.barriers.get? (.node k) = some b := hb
  unfold depend
  rw [hb']
  dsimp only
  cases hr : b.expect? with
  | none =>
    refine .inl ⟨⟨b.canceled, b, hb, ?_, rfl⟩, ?_⟩
    · by_contra hc
      simp [Barrier.expect?, hc] at hr
    · dsimp only
      rw [raise_answer]
      exact .broken [] (by simp) rfl
  | some d =>
    refine .inr ⟨?_, ?_⟩
    · rintro ⟨g, b', hb', hc, -⟩
      obtain rfl := Option.some.inj (hb.symm.trans hb')
      exact absurd hc (by simp [(Barrier.open_of_expect hr).1])
    · dsimp only
      refine .of_leads (leads_listen _ s (.node k)) ?_ rfl
      exact decide_eq_true ⟨rfl, rfl⟩

theorem treated_fire {s : Start} (hk : p.world.starts.get? k = some s) :
    p.Treated c (.run k) ((p.push (.answer c (.now .nothing))).fire k) := by
  have hk' : (p.push (.answer c (.now .nothing))).world.starts.get? k = some s := hk
  unfold fire
  rw [hk']
  dsimp only
  cases hf : s.fired with
  | true =>
    refine .inl ⟨?_, ?_⟩
    · rw [World.Denies, World.final?_start hk, hf]
      rfl
    · rw [if_pos rfl, raise_answer]
      exact .broken [] (by simp) rfl
  | false =>
    refine .inr ⟨?_, ?_⟩
    · rw [World.Denies, World.final?_start hk, hf]
      exact Bool.false_ne_true
    · rw [if_neg Bool.false_ne_true]
      refine .of_leads (leads_push _ rfl) ?_ rfl
      exact decide_eq_true rfl

theorem treated_perform (hk : p.world.collectors.get? k = some col) (setup : Option (List (Step Script))) (id : String)
    (ss : List Source) (work : Work Script) :
    p.Treated c (.perform k x) (if col.declares x then
      ((p.describeSetup x setup).push (.answer c (.now (.text x.label)))).addNode id x k ss
        (.ofSteps (setup.getD [])) work
      else (p.describeSetup x setup).raise (.undeclared (col.undeclared x))) := by
  have hd := World.declares_iff (x := x) hk
  split
  · next hx =>
    refine .inr ⟨fun hno ↦ hno (hd.2 hx), ?_⟩
    obtain ⟨t, -, he⟩ := addNode_eq ((p.describeSetup x setup).push (.answer c (.now (.text x.label)))) id x k ss
      (.ofSteps (setup.getD [])) work
    rw [he]
    exact .of_suffix (e := .placed (.node _)) rfl (p.leads_describeSetup x setup).journal (List.suffix_append _ _)
  · next hx =>
    refine .inl ⟨fun hx' ↦ hx (hd.1 hx'), ?_⟩
    cases setup with
    | none => exact .broken [] (by simp) rfl
    | some steps => exact .broken [.described _] (by simp [Event.mute]) rfl

theorem treated_insert (r : Outcome) :
    ∃ n, (match p.store none k x r with
      | .error e => .ok (p.push (.answer c (.now (.refused e))))
      | .ok m => .ok (m.push (.answer c (.now .ok))) : Except String Machine) = .ok n ∧
      p.Treated c (.insert k x) n := by
  unfold Machine.store
  cases hw : p.world.store k x r with
  | error e =>
    refine ⟨_, rfl, .inl ⟨fun hx ↦ ?_, .answered e⟩⟩
    obtain ⟨v, hv⟩ := World.exists_store hx r
    exact absurd (hw.symm.trans hv) (by simp)
  | ok w => exact ⟨_, rfl, .inr ⟨fun hno ↦ hno (World.slots?_store hw).1, .answered (a := .ok) (by simp) rfl⟩⟩

theorem treated_set (hb : p.Backed) {id : String} {v : View} (hv : p.desk.views.get? id = some v) (col : Collector)
    (r : Outcome) :
    ∃ n, (if v.contains x then
        match p.store none v.collector x r with
        | .error e => .ok (p.push (.answer c (.now (.refused e))))
        | .ok m => .ok (m.push (.answer c (.now .ok)))
      else .ok (p.push (.answer c (.now (.refused (.outOfView x.name col.name))))) : Except String Machine) = .ok n ∧
      p.Treated c (.set v x) n := by
  have hin : v.contains x ↔ x ∈ v.activities := List.contains_iff_mem
  by_cases hx : x ∈ v.activities
  · obtain ⟨w, hw⟩ := World.exists_store (hb id v hv x hx) r
    rw [if_pos (hin.2 hx), Machine.store, hw]
    exact ⟨_, rfl, .inr ⟨fun hno ↦ hno hx, .answered (a := .ok) (by simp) rfl⟩⟩
  · rw [if_neg fun hc ↦ hx (hin.1 hc)]
    exact ⟨_, rfl, .inl ⟨hx, .answered _⟩⟩

theorem treated_extract (hk : p.world.collectors.get? k = some col) (d : Draft) :
    p.Treated c (.extract k x) (p.push (.answer c (.now (match col.extract x with
      | .error e => .refused e
      | .ok r => .extracted x r (r = d.record x))))) := by
  have hd := World.declares_iff (x := x) hk
  unfold Collector.extract
  split
  · next e he =>
    split at he
    · simp at he
    · next hx => exact .inl ⟨fun hx' ↦ hx (hd.1 hx'), .answered e⟩
  · next r he =>
    split at he
    · next hx => exact .inr ⟨fun hno ↦ hno (hd.2 hx), .answered (a := .extracted ..) (by simp) rfl⟩
    · simp at he

theorem treated_grant {q : Request} {v : Except AccessError View} (id : String)
    (hv : (∃ e, v = .error e) ↔ p.world.Denies q) :
    ∃ n, (match v with
      | .error e => .ok (p.push (.answer c (.now (.refused e))))
      | .ok v => .ok ((p.keep id (.view v)).push (.answer c (.now (.text (p.world.describeView v))))) :
        Except String Machine) = .ok n ∧ p.Treated c q n := by
  cases v with
  | error e => exact ⟨_, rfl, .inl ⟨hv.1 ⟨e, rfl⟩, .answered e⟩⟩
  | ok v => exact ⟨_, rfl, .inr ⟨fun hd ↦ by simpa using hv.2 hd, .answered (a := .text _) (by simp) rfl⟩⟩

theorem within_refused (hk : p.world.collectors.get? k = some col) (xs : List Activity) :
    (∃ e, View.within k col xs = .error e) ↔ p.world.Denies (.view k xs) := by
  have hd (y : Activity) := World.declares_iff (x := y) hk
  simp only [World.Denies, hd, View.within]
  cases hf : xs.find? fun a ↦ !col.declares a with
  | some y => simpa using ⟨y, List.mem_of_find?_eq_some hf, by simpa using List.find?_some hf⟩
  | none => simpa using hf

theorem narrow_refused (v : View) (col : Collector) (xs : List Activity) :
    (∃ e, v.narrow col xs = .error e) ↔ p.world.Denies (.narrow v xs) := by
  simp only [World.Denies, View.narrow, View.contains]
  cases hf : xs.find? fun a ↦ !v.activities.contains a with
  | some y => simpa using ⟨y, List.mem_of_find?_eq_some hf, by simpa using List.find?_some hf⟩
  | none => simpa using hf

end

theorem act_treated {p : Machine} (hs : p.world.Sound) (hg : ∀ s, p.Names s → p.world.Has s) (hb : p.Backed)
    {f : Frame} (c : Caller) {a : Action} {q : Request} (hq : p.request f a = .ok (some q)) :
    ∃ n, p.act f c a = .ok n ∧ p.Treated c q n := by
  have barrier {id : String} {k : Key} (hk : find p.desk.nodes id = .ok k) :
      ∃ b, p.world.barriers.get? (.node k) = some b := by
    have hn : p.world.Has (.node k) := hg _ ⟨id, get?_of_find hk⟩
    exact Option.isSome_iff_exists.1 ((hs.isSome_node k).trans hn)
  cases a with
  | perform id key coll deps setup work =>
    obtain ⟨x, hx, hq⟩ := bind_ok hq
    obtain ⟨⟨k, col⟩, hc, hq⟩ := bind_ok hq
    obtain ⟨ss, hss, hq⟩ := bind_ok hq
    obtain rfl := Option.some.inj (Except.ok.inj hq)
    have hd : (p.describeSetup x setup).sources deps = .ok ss := by cases setup <;> exact hss
    refine ⟨_, ?_, treated_perform c (get?_of_collectorAt hc) setup id ss work⟩
    simp only [act, hx, hc, hd, bind, Except.bind]
    split <;> rfl
  | begin id =>
    obtain ⟨k, hk, hq⟩ := bind_ok hq
    obtain rfl := Option.some.inj (Except.ok.inj hq)
    obtain ⟨b, hb⟩ := barrier hk
    refine ⟨_, ?_, treated_release c hb⟩
    simp only [act, hk, bind, Except.bind]
    rfl
  | after id dep =>
    obtain ⟨k, hk, hq⟩ := bind_ok hq
    obtain ⟨s, hd, hq⟩ := bind_ok hq
    obtain rfl := Option.some.inj (Except.ok.inj hq)
    obtain ⟨b, hb⟩ := barrier hk
    refine ⟨_, ?_, treated_depend c hb s⟩
    simp only [act, hk, hd, bind, Except.bind]
    rfl
  | done id next =>
    obtain ⟨k, hk, hq⟩ := bind_ok hq
    obtain ⟨l, hl, hq⟩ := bind_ok hq
    obtain rfl := Option.some.inj (Except.ok.inj hq)
    obtain ⟨b, hb⟩ := barrier hl
    refine ⟨_, ?_, treated_depend c hb (.node k)⟩
    simp only [act, hk, hl, bind, Except.bind]
    rfl
  | run id =>
    obtain ⟨k, hk, hq⟩ := bind_ok hq
    obtain rfl := Option.some.inj (Except.ok.inj hq)
    have hn : p.world.Has (.start k) := hg _ ⟨id, get?_of_find hk⟩
    obtain ⟨s, hs⟩ := Option.isSome_iff_exists.1 hn
    refine ⟨_, ?_, treated_fire c hs⟩
    simp only [act, hk, bind, Except.bind]
    rfl
  | insert id key d =>
    obtain ⟨⟨k, col⟩, hc, hq⟩ := bind_ok hq
    obtain ⟨x, hx, hq⟩ := bind_ok hq
    obtain rfl := Option.some.inj (Except.ok.inj hq)
    obtain ⟨n, hn, ht⟩ := treated_insert (p := p) c (k := k) (x := x) (d.record x)
    refine ⟨n, ?_, ht⟩
    simp only [act, hc, hx, bind, Except.bind]
    exact hn
  | set id key d =>
    obtain ⟨⟨v, col⟩, hc, hq⟩ := bind_ok hq
    obtain ⟨x, hx, hq⟩ := bind_ok hq
    obtain rfl := Option.some.inj (Except.ok.inj hq)
    obtain ⟨n, hn, ht⟩ := treated_set (p := p) c hb (get?_of_viewAt hc).1 col (d.record x)
    refine ⟨n, ?_, ht⟩
    simp only [act, hc, hx, bind, Except.bind]
    exact hn
  | ask r =>
    cases r with
    | extract id key d =>
      obtain ⟨⟨k, col⟩, hc, hq⟩ := bind_ok hq
      obtain ⟨x, hx, hq⟩ := bind_ok hq
      obtain rfl := Option.some.inj (Except.ok.inj hq)
      refine ⟨_, ?_, treated_extract c (get?_of_collectorAt hc) d⟩
      simp only [act, ask, hc, hx, bind, Except.bind]
      rfl
    | _ => exact absurd (Except.ok.inj hq) (by simp)
  | grant id g =>
    cases g with
    | within coll keys =>
      obtain ⟨⟨k, col⟩, hc, hq⟩ := bind_ok hq
      obtain ⟨xs, hx, hq⟩ := bind_ok hq
      obtain rfl := Option.some.inj (Except.ok.inj hq)
      obtain ⟨n, hn, ht⟩ := treated_grant c id (within_refused (get?_of_collectorAt hc) xs)
      refine ⟨n, ?_, ht⟩
      simp only [act, grant, hc, hx, bind, Except.bind]
      exact hn
    | narrow view keys =>
      obtain ⟨⟨v, col⟩, hc, hq⟩ := bind_ok hq
      obtain ⟨xs, hx, hq⟩ := bind_ok hq
      obtain rfl := Option.some.inj (Except.ok.inj hq)
      obtain ⟨n, hn, ht⟩ := treated_grant c id (narrow_refused (p := p) v col xs)
      refine ⟨n, ?_, ht⟩
      simp only [act, grant, hc, hx, bind, Except.bind]
      exact hn
    | ofCompletion node keys =>
      obtain ⟨⟨k, r⟩, hk, hq⟩ := bind_ok hq
      obtain ⟨col, hc, hq⟩ := bind_ok hq
      obtain ⟨xs, hx, hq⟩ := bind_ok hq
      obtain rfl := Option.some.inj (Except.ok.inj hq)
      obtain ⟨n, hn, ht⟩ := treated_grant c id (within_refused (get?_of_fetch hc) xs)
      refine ⟨n, ?_, ht⟩
      simp only [act, grant, hk, hc, hx, bind, Except.bind]
      exact hn
    | _ => exact absurd (Except.ok.inj hq) (by simp)
  | _ => exact absurd (Except.ok.inj hq) (by simp)

/-- Whatever a script asks in a reachable machine, with whatever else is left to do, is refused if and only
if the history forbids it, and accepted otherwise. A refusal leaves the world, the timers and the clock as
they are, and the handles too where the call is guarded. -/
theorem Reachable.refused_iff {m : Machine} (hm : m.Reachable) (ts : List Task) {f : Frame} (c : Caller)
    {a : Action} {q : Request} (hq : m.request f a = .ok (some q)) :
    ∃ n, Machine.act { m with stack := ts } f c a = .ok n ∧
      (Machine.Refused { m with stack := ts } c q n ↔ m.Forbids q) ∧
      (Machine.Accepted { m with stack := ts } c q n ↔ ¬ m.Forbids q) ∧
      (m.Forbids q → m.Spares n ∧ ∀ d us, ts = .guard d :: us → n.desk = m.desk) := by
  have hr := hm.reached
  obtain ⟨n, hn, ht⟩ := act_treated (p := { m with stack := ts }) hr.sound hr.grounded.named hm.course.2 c
    (f := f) (a := a) (q := q) hq
  refine ⟨n, hn, ?_⟩
  rw [← hr.denies_iff q]
  rcases ht with ⟨hd, href⟩ | ⟨hd, hacc⟩
  · have hd : m.world.Denies q := hd
    have hp : Spares m { m with stack := ts } := .of_eq rfl rfl rfl rfl rfl
    refine ⟨iff_of_true href hd, iff_of_false href.not_accepted (not_not.2 hd), fun _ ↦ ⟨hp.trans href.spares, ?_⟩⟩
    rintro d us rfl
    exact href.desk rfl
  · have hd : ¬ m.world.Denies q := hd
    exact ⟨iff_of_false (fun href ↦ href.not_accepted hacc) hd, iff_of_true hacc hd, fun h ↦ absurd h hd⟩

end Machine

namespace Sample

def spoiled : Machine := Machine.play { catalogue := [("work", activity)] } [
  ⟨"start", false, .start "g" "g" ["work"] .null⟩,
  ⟨"perform", false, .perform "a" "work" "g" ["g"] (some [.prepare 0 [⟨"panic", false, .panic "boom"⟩]])
    (.script [] true .null)⟩,
  ⟨"run", false, .run "g"⟩]

/-- A node that was invoked takes on nothing more, although it was never started. -/
theorem refused_once_invoked :
    invocations ⟨"a", 0⟩ spoiled.journal = 1 ∧ startings ⟨"a", 0⟩ spoiled.journal = 0 ∧
    ∃ n, Machine.act { spoiled with stack := [.guard ⟨none, "after"⟩] } {} ⟨none, "after"⟩ (.after "a" "g") = .ok n ∧
      Machine.Refused { spoiled with stack := [.guard ⟨none, "after"⟩] } ⟨none, "after"⟩
        (.depend ⟨"a", 0⟩ (.start ⟨"g", 0⟩)) n ∧
      n.world = spoiled.world ∧ n.desk = spoiled.desk := by
  have hm : spoiled.Reachable := ⟨_, .play rfl _⟩
  have hi : invocations ⟨"a", 0⟩ spoiled.journal = 1 := by decide +kernel
  have hq : spoiled.request {} (.after "a" "g") = .ok (some (.depend ⟨"a", 0⟩ (.start ⟨"g", 0⟩))) := by
    decide +kernel
  have hf : spoiled.Forbids (.depend ⟨"a", 0⟩ (.start ⟨"g", 0⟩)) := .inl (hi ▸ Nat.one_pos)
  obtain ⟨n, hn, href, -, hsp⟩ := hm.refused_iff [.guard ⟨none, "after"⟩] ⟨none, "after"⟩ hq
  obtain ⟨hw, hd⟩ := hsp hf
  exact ⟨hi, by decide +kernel, n, hn, href.2 hf, hw.world, hd _ _ rfl⟩

end Sample

end ActivityGraph
