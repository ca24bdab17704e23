import ActivityGraph.Proofs.Stride.Cascade
import ActivityGraph.Proofs.Table

namespace ActivityGraph

namespace Machine

variable {m : Machine}

theorem Free.of_stack {t : Task} {l : List Task} (hs : m.stack = t :: l)
    (ht : ∀ x ss, t ≠ .attach x ss) : m.Free := by
  intro x ss us hu
  exact ht x ss (List.cons.inj (hs.symm.trans hu)).1

theorem names_of_source {id : String} {s : Source} (h : m.source id = .ok s) : m.Names s := by
  unfold source at h
  cases hk : m.desk.nodes.get? id with
  | some k =>
    simp only [hk, Except.ok.injEq] at h
    exact h ▸ ⟨id, hk⟩
  | none =>
    simp only [hk, find] at h
    cases hs : m.desk.starts.get? id with
    | none => simp [hs, Except.map] at h
    | some k =>
      simp only [hs, Except.map, Except.ok.injEq] at h
      exact h ▸ ⟨id, hs⟩

theorem names_of_sources {ids : List String} {ss : List Source} (h : m.sources ids = .ok ss) :
    ∀ s ∈ ss, m.Names s := by
  unfold sources at h
  induction ids generalizing ss with
  | nil =>
    obtain rfl := Except.ok.inj h
    simp
  | cons id ids ih =>
    rw [List.mapM_cons] at h
    obtain ⟨s, hs, h⟩ := bind_ok h
    obtain ⟨ts, ht, h⟩ := bind_ok h
    obtain rfl := Except.ok.inj h
    intro u hu
    rcases List.mem_cons.1 hu with rfl | hu
    · exact names_of_source hs
    · exact ih ht u hu

theorem get?_of_fetch {α : Type} {t : Table Key α} {k : Key} {a : α} (h : fetch t k = .ok a) :
    t.get? k = some a := by
  unfold fetch at h
  cases ht : t.get? k with
  | none => simp [ht] at h
  | some b => simpa [ht] using h

theorem get?_of_find {α : Type} {t : Table String α} {id : String} {a : α} (h : find t id = .ok a) :
    t.get? id = some a := by
  unfold find at h
  cases ht : t.get? id with
  | none => simp [ht] at h
  | some b => simpa [ht] using h

theorem get?_of_collectorAt {id : String} {k : Key} {c : Collector}
    (h : m.collectorAt id = .ok (k, c)) : m.world.collectors.get? k = some c := by
  obtain ⟨l, -, h⟩ := bind_ok h
  obtain ⟨d, hd, h⟩ := bind_ok h
  obtain ⟨rfl, rfl⟩ := Prod.mk.inj (Except.ok.inj h)
  exact get?_of_fetch hd

theorem addTerminal_eq (m : Machine) (id : String) (c : Key) (deps : List Source) (body : Script) :
    m.addTerminal id c deps body =
      if deps.isEmpty then
        (m.placeTerminal id c deps body).release (.terminal (m.world.terminals.fresh id))
      else
        (m.placeTerminal id c deps body).push
          (.attach (.terminal (m.world.terminals.fresh id)) deps) := by
  cases deps with
  | nil => rfl
  | cons s ss => rfl

end Machine

namespace Within

open Machine

variable {m p : Machine}

theorem push {t : Task} (h : Within m ⟨none, p⟩) (hp : p.Free) (ht : t.idle) :
    Within m ⟨none, p.push t⟩ := h.idle (.push ht hp)

theorem pushed {t : Task} (h : Within m ⟨none, p⟩) (hp : p.Free) (ht : t.idle) :
    Ends m (p.push t) := .here (h.push hp ht)

theorem depend {k : Key} {s : Source} (h : Within m ⟨none, p⟩) (hp : p.Free) (hs : p.Names s) :
    Ends m (p.depend (.node k) s) := by
  unfold Machine.depend
  cases hb : p.world.barriers.get? (.node k) with
  | none => exact .here h
  | some b =>
    dsimp only
    cases hc : b.expect? with
    | none => exact raise (h.turn (.raise rfl hp))
    | some c => exact enlist (h.turn (.depend hb hc hs hp))

theorem expect {k : Key} (h : Within m ⟨none, p⟩) (hp : p.Free) : Ends m (p.expect (.probe k)) := by
  unfold Machine.expect
  cases hb : p.world.barriers.get? (.probe k) with
  | none => exact .here h
  | some b =>
    dsimp only
    cases hc : b.expect? with
    | none => exact raise (h.turn (.raise rfl hp))
    | some c => exact .here (h.idle (.expect hb hc))

theorem addTerminal {id : String} {c : Key} {deps : List Source} {body : Script}
    (h : Within m ⟨none, p⟩) (hp : p.Free) (hc : (p.world.collectors.get? c).isSome)
    (hd : ∀ s ∈ deps, p.Names s) : Ends m (p.addTerminal id c deps body) := by
  rw [addTerminal_eq]
  cases deps with
  | nil => exact release (h.turn (.addRoot id body hc hp))
  | cons s ss => exact .here (h.idle (.addTerminal id body hc hd (List.cons_ne_nil s ss) hp))

theorem clone {id copy : String} {q : Machine} (h : Within m ⟨none, p⟩)
    (hc : p.clone id copy = .ok q) : Within m ⟨none, q⟩ ∧ q.stack = p.stack := by
  unfold Machine.clone at hc
  split at hc
  · next k hk =>
    obtain rfl := Except.ok.inj hc
    exact ⟨h.idle (.keep copy ⟨id, hk⟩), rfl⟩
  · next k _ _ =>
    obtain ⟨s, hs, hc⟩ := bind_ok hc
    obtain rfl := Except.ok.inj hc
    have hv : p.Vouches (.start k) := by simp [Vouches, get?_of_fetch hs]
    exact ⟨(h.idle (.keep copy hv)).idle (.keep copy trivial), rfl⟩
  · obtain rfl := Except.ok.inj hc
    exact ⟨h.idle (.keep copy trivial), rfl⟩
  · obtain rfl := Except.ok.inj hc
    exact ⟨h.idle (.keep copy trivial), rfl⟩
  · obtain rfl := Except.ok.inj hc
    exact ⟨h.idle (.keep copy trivial), rfl⟩
  · exact absurd hc (by simp)

theorem store {k : Key} {a : Activity} {r : Outcome} {q : Machine} (h : Within m ⟨none, p⟩)
    (hq : p.store none k a r = .ok q) : Within m ⟨none, q⟩ ∧ q.stack = p.stack := by
  unfold Machine.store at hq
  cases hw : p.world.store k a r with
  | error e => simp [hw] at hq
  | ok w =>
    simp only [hw, Except.ok.injEq] at hq
    exact hq ▸ ⟨h.idle (.insert hw), rfl⟩

theorem act {f : Frame} {c : Caller} {a : Action} {n : Machine} (h : Within m ⟨none, p⟩)
    (hp : p.Free) (ha : p.act f c a = .ok n) : Ends m n := by
  have free (t : Task) (ht : ∀ x ss, t ≠ .attach x ss) (q : Machine) : (q.push t).Free :=
    Free.of_stack (l := q.stack) rfl ht
  cases a with
  | collect id name keys context =>
    obtain ⟨as, -, ha⟩ := bind_ok ha
    obtain rfl := Except.ok.inj ha
    have hk := (h.idle (.addCollector id name as context)).idle
      (.keep id (h := .collector (p.world.collectors.fresh id)) trivial)
    exact hk.pushed hp rfl
  | start id name keys context =>
    obtain ⟨as, -, ha⟩ := bind_ok ha
    obtain rfl := Except.ok.inj ha
    have hc := h.idle (.addCollector id name as context)
    have hs := hc.idle (.addStart id (Table.isSome_get?_insert_self _ _ _))
    have hk := (hs.idle (.keep id (h := .collector (p.world.collectors.fresh id)) trivial)).idle
      (.keep id (h := .start (p.world.starts.fresh id)) (Table.isSome_get?_insert_self _ _ _))
    exact hk.pushed hp rfl
  | run id =>
    obtain ⟨k, -, ha⟩ := bind_ok ha
    obtain rfl := Except.ok.inj ha
    exact fire ((h.push hp rfl).turn (.fire k (free _ (by simp) p)))
  | ask q =>
    obtain ⟨r, -, ha⟩ := bind_ok ha
    obtain rfl := Except.ok.inj ha
    exact h.pushed hp rfl
  | grant id g =>
    obtain ⟨v, -, ha⟩ := bind_ok ha
    cases v with
    | error e =>
      obtain rfl := Except.ok.inj ha
      exact h.pushed hp rfl
    | ok v =>
      obtain rfl := Except.ok.inj ha
      exact (h.idle (.keep (h := .view v) id trivial)).pushed hp rfl
  | insert id key d =>
    obtain ⟨⟨k, col⟩, -, ha⟩ := bind_ok ha
    obtain ⟨b, -, ha⟩ := bind_ok ha
    split at ha
    · obtain rfl := Except.ok.inj ha
      exact h.pushed hp rfl
    · next q hq =>
      obtain rfl := Except.ok.inj ha
      obtain ⟨hs, hst⟩ := h.store hq
      exact hs.pushed (by unfold Free; rwa [hst]) rfl
  | set id key d =>
    obtain ⟨⟨v, col⟩, -, ha⟩ := bind_ok ha
    obtain ⟨b, -, ha⟩ := bind_ok ha
    split at ha
    · split at ha
      · obtain rfl := Except.ok.inj ha
        exact h.pushed hp rfl
      · next q hq =>
        obtain rfl := Except.ok.inj ha
        obtain ⟨hs, hst⟩ := h.store hq
        exact hs.pushed (by unfold Free; rwa [hst]) rfl
    · obtain rfl := Except.ok.inj ha
      exact h.pushed hp rfl
  | perform id key coll deps setup work =>
    obtain ⟨b, -, ha⟩ := bind_ok ha
    obtain ⟨⟨k, col⟩, hk, ha⟩ := bind_ok ha
    have hd : Within m ⟨none, p.describeSetup b setup⟩ ∧ (p.describeSetup b setup).Free ∧
        (p.describeSetup b setup).world = p.world := by
      cases setup with
      | none => exact ⟨h, hp, rfl⟩
      | some steps => exact ⟨h.idle (.note rfl), hp, rfl⟩
    obtain ⟨hd, hf, hw⟩ := hd
    dsimp only at ha
    split at ha
    · obtain rfl := Except.ok.inj ha
      exact hd.pushed hf rfl
    · next ss hss =>
      split at ha
      · next hdec =>
        obtain rfl := Except.ok.inj ha
        have hc : (p.describeSetup b setup).world.collectors.get? k = some col :=
          hw ▸ get?_of_collectorAt hk
        exact .here ((hd.push hf rfl).idle
          (.addNode id _ work hc hdec (names_of_sources hss) (free _ (by simp) _)))
      · obtain rfl := Except.ok.inj ha
        exact raise (hd.turn (.raise rfl hf))
  | finish id coll deps body =>
    obtain ⟨⟨k, col⟩, hk, ha⟩ := bind_ok ha
    obtain ⟨ss, hss, ha⟩ := bind_ok ha
    obtain rfl := Except.ok.inj ha
    refine (h.push hp rfl).addTerminal (free _ (by simp) p) ?_ (names_of_sources hss)
    exact Option.isSome_iff_exists.2 ⟨col, get?_of_collectorAt hk⟩
  | begin id =>
    obtain ⟨k, -, ha⟩ := bind_ok ha
    obtain rfl := Except.ok.inj ha
    exact release ((h.push hp rfl).turn (.release (.node k) (by simp) (free _ (by simp) p)))
  | after id dep =>
    obtain ⟨k, -, ha⟩ := bind_ok ha
    obtain ⟨s, hs, ha⟩ := bind_ok ha
    obtain rfl := Except.ok.inj ha
    exact (h.push hp rfl).depend (free _ (by simp) p) (names_of_source hs)
  | done id next =>
    obtain ⟨k, hk, ha⟩ := bind_ok ha
    obtain ⟨l, -, ha⟩ := bind_ok ha
    obtain rfl := Except.ok.inj ha
    exact (h.push hp rfl).depend (free _ (by simp) p) ⟨id, get?_of_find hk⟩
  | report node r =>
    obtain ⟨⟨k, q⟩, hk, ha⟩ := bind_ok ha
    obtain rfl := Except.ok.inj ha
    obtain ⟨l, hl, hk⟩ := bind_ok hk
    obtain ⟨q', -, hk⟩ := bind_ok hk
    obtain ⟨rfl, rfl⟩ := Prod.mk.inj (Except.ok.inj hk)
    exact complete ((h.push hp rfl).turn (.report _ (get?_of_find hl) (free _ (by simp) p)))
  | drop node =>
    obtain ⟨q, -, ha⟩ := bind_ok ha
    obtain rfl := Except.ok.inj ha
    have hd := h.drop (node.getD f.home) (by simp)
    exact hd.pushed (by unfold Free; rwa [stack_dropCompletion]) rfl
  | change how o =>
    obtain ⟨v, -, ha⟩ := bind_ok ha
    obtain rfl := Except.ok.inj ha
    exact h.pushed hp rfl
  | panic message =>
    obtain rfl := Except.ok.inj ha
    exact raise (h.turn (.raise rfl hp))
  | probe id count name invoke cancel =>
    obtain rfl := Except.ok.inj ha
    exact (h.idle (.addProbe id name count invoke cancel)).pushed hp rfl
  | arrive id canceled =>
    obtain ⟨k, -, ha⟩ := bind_ok ha
    obtain rfl := Except.ok.inj ha
    exact Within.arrive ((h.push hp rfl).turn (.arrive k canceled (free _ (by simp) p)))
  | expect id =>
    obtain ⟨k, -, ha⟩ := bind_ok ha
    obtain rfl := Except.ok.inj ha
    exact Within.expect (h.push hp rfl) (free _ (by simp) p)
  | release id =>
    obtain ⟨k, -, ha⟩ := bind_ok ha
    obtain rfl := Except.ok.inj ha
    exact Within.release ((h.push hp rfl).turn (.release (.probe k) (by simp) (free _ (by simp) p)))
  | listen id dep =>
    obtain ⟨s, hs, ha⟩ := bind_ok ha
    obtain ⟨k, -, ha⟩ := bind_ok ha
    obtain rfl := Except.ok.inj ha
    exact enlist ((h.push hp rfl).turn (.listen (names_of_source hs) (free _ (by simp) p)))
  | clone id copy =>
    obtain ⟨q, hq, ha⟩ := bind_ok ha
    obtain rfl := Except.ok.inj ha
    obtain ⟨hc, hst⟩ := h.clone hq
    exact hc.pushed (by unfold Free; rwa [hst]) rfl
  | advance span runtime =>
    obtain rfl := Except.ok.inj ha
    exact (h.push hp rfl).pushed (free _ (by simp) p) rfl
  | unsupported =>
    obtain rfl := Except.ok.inj ha
    exact h.pushed hp rfl

theorem execute {f : Frame} {l : Line Action} (h : Within m ⟨none, p⟩) (hp : p.Free) :
    Ends m (p.execute f l) := by
  have hg (c : Caller) : Within m ⟨none, if l.caught then p.push (.guard c) else p⟩ ∧
      (if l.caught then p.push (.guard c) else p).Free := by
    cases l.caught with
    | false => exact ⟨h, hp⟩
    | true => exact ⟨h.push hp rfl, Free.of_stack (l := p.stack) rfl (by simp)⟩
  obtain ⟨hq, hf⟩ := hg ⟨f.owner, l.verb⟩
  unfold Machine.execute
  dsimp only
  split
  · next n hn => exact act hq hf hn
  · exact hq.pushed hf rfl

end Within

namespace Machine

theorem ends_step {m : Machine} {t : Task} {ts : List Task} (hs : m.stack = t :: ts) :
    Ends m ({ m with stack := ts }.perform t) := by
  have h : Within m ⟨none, m⟩ := .here
  have popped (ht : t.idle) : Within m ⟨none, { m with stack := ts }⟩ := h.idle (.pop hs ht)
  cases t with
  | script f rest exit =>
    cases rest with
    | nil =>
      cases exit with
      | nowhere => exact .here (popped rfl)
      | job k j => exact Within.launch (h.turn (.resume hs))
    | cons l rest =>
      exact (h.idle (.line hs _)).execute (Free.of_stack (l := ts) rfl (by simp))
  | answer c r =>
    have hq := (popped rfl).idle (.settle (Machine.settle { m with stack := ts } r))
    simp only [perform, conclude]
    split
    · exact .here (hq.idle (.note rfl))
    · exact .here hq
  | guard c => exact .here (popped rfl)
  | contain => exact .here (popped rfl)
  | keep id k => exact .here (h.idle (.kept hs))
  | relinquish id => exact .here ((popped rfl).drop id (by simp))
  | fire k => exact .here (h.idle (.fired hs))
  | deliver s canceled xs =>
    cases xs with
    | nil => exact .here (popped rfl)
    | cons x xs => exact Within.arrive (h.turn (.deliver hs))
  | attach x ss =>
    cases ss with
    | nil => exact .here (popped rfl)
    | cons s ss => exact Within.enlist (h.turn (.attach hs))
  | elapse stop runtime =>
    simp only [perform, elapse]
    cases ht : runtime.next? m.clock stop m.timers with
    | none => exact .here ((popped rfl).idle (.tick (Nat.le_max_left m.clock stop)))
    | some x =>
      have hq := h.turn (.timer (runtime.pending ht) (runtime.due ht) (.of_stack hs (by simp)))
      rw [hs] at hq
      exact Within.complete hq

theorem Next.ends {m n : Machine} (h : Next m n) : Ends m n := by
  cases h with
  | step hm =>
    unfold Machine.step
    split
    · next hs => exact absurd hs hm
    · next hs => exact ends_step hs
  | line hm f l =>
    have hq : Within m ⟨none, { m with stack := [.guard ⟨f.owner, l.verb⟩] }⟩ := by
      have hf : m.Free := by simp [Free, hm]
      simpa only [Machine.push, hm] using Within.here.push hf (t := .guard ⟨f.owner, l.verb⟩) rfl
    exact hq.execute (Free.of_stack (l := []) rfl (by simp))

end Machine

def Stage.Before : Stage → Stage → Prop := Relation.ReflTransGen Stride

theorem Within.before {m : Machine} {a : Stage} (h : Within m a) : Stage.Before ⟨none, m⟩ a := by
  induction h with
  | here => exact .refl
  | next _ hs _ ih => exact ih.tail hs

theorem Ends.before {m n : Machine} (h : Ends m n) : Stage.Before ⟨none, m⟩ ⟨none, n⟩ := by
  induction h with
  | here h => exact h.before
  | last h hs => exact h.before.tail hs
  | more _ hs _ ih => exact ih.tail hs

theorem Machine.Later.before {m n : Machine} (h : Later m n) : Stage.Before ⟨none, m⟩ ⟨none, n⟩ := by
  induction h with
  | refl => exact .refl
  | tail _ hn ih => exact ih.trans hn.ends.before

def Stage.Reached (a : Stage) : Prop := ∃ catalogue, Stage.Before ⟨none, { catalogue := catalogue }⟩ a

/-- What holds at first, and of the next stage with each stride, holds of every stage. -/
theorem Stage.Reached.invariant {P : Stage → Prop} (first : ∀ catalogue, P ⟨none, { catalogue := catalogue }⟩)
    (next : ∀ a b, a.Reached → P a → Stride a b → P b) {a : Stage} (h : a.Reached) : P a := by
  obtain ⟨catalogue, h⟩ := h
  induction h with
  | refl => exact first catalogue
  | tail hab hs ih => exact next _ _ ⟨catalogue, hab⟩ ih hs

theorem Stage.Reached.before {a b : Stage} (h : a.Reached) (hb : a.Before b) : b.Reached := by
  obtain ⟨catalogue, h⟩ := h
  exact ⟨catalogue, h.trans hb⟩

theorem Stage.Reached.stride {a b : Stage} (h : a.Reached) (hs : Stride a b) : b.Reached := h.before (.single hs)

theorem Machine.Reachable.reached {m : Machine} (h : m.Reachable) : Stage.Reached ⟨none, m⟩ := by
  obtain ⟨catalogue, h⟩ := h
  exact ⟨catalogue, h.before⟩

end ActivityGraph
