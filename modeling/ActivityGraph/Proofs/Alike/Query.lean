import ActivityGraph.Proofs.Alike.Machine
import ActivityGraph.Machine.Query

namespace ActivityGraph.Machine

/-- Both sides miss the same handle, or both find something, and what they find is related. -/
inductive Agree {α β : Type} (R : α → β → Prop) : Except String α → Except String β → Prop
  | missing (id : String) : Agree R (.error id) (.error id)
  | found {a : α} {b : β} (h : R a b) : Agree R (.ok a) (.ok b)

namespace Agree

variable {α β γ δ : Type} {R : α → β → Prop} {S : γ → δ → Prop} {x : Except String α} {y : Except String β}

theorem mono {T : α → β → Prop} (h : Agree R x y) (hT : ∀ a b, R a b → T a b) : Agree T x y := by
  cases h with
  | missing id => exact .missing id
  | found h => exact .found (hT _ _ h)

theorem bind (h : Agree R x y) {f : α → Except String γ} {g : β → Except String δ}
    (hfg : ∀ a b, x = .ok a → R a b → Agree S (f a) (g b)) : Agree S (x >>= f) (y >>= g) := by
  cases h with
  | missing id => exact .missing id
  | found h => exact hfg _ _ rfl h

theorem refl (x : Except String α) : Agree (fun a b ↦ b = a) x x := by
  cases x with
  | error id => exact .missing id
  | ok a => exact .found rfl

theorem of_eq {y : Except String α} (h : y = x) : Agree (fun a b ↦ b = a) x y := h ▸ refl y

theorem eq {y : Except String α} (h : Agree (fun a b ↦ b = a) x y) : y = x := by
  cases h with
  | missing id => rfl
  | found h => rw [h]

theorem mapM {f : α → Except String γ} {g : α → Except String δ} {as : List α}
    (h : ∀ a ∈ as, Agree S (f a) (g a)) : Agree (List.Forall₂ S) (as.mapM f) (as.mapM g) := by
  induction as with
  | nil => exact .found .nil
  | cons a as ih =>
    obtain ⟨ha, has⟩ := List.forall_mem_cons.1 h
    rw [List.mapM_cons, List.mapM_cons]
    exact ha.bind fun b c _ hbc ↦ (ih has).bind fun bs cs _ hs ↦ .found (.cons hbc hs)

end Agree

theorem agree_find {L : Lens} {α β : Type} {R : String → α → β → Prop} {t : Table String α} {u : Table String β}
    (h : t.Alike L.own R u) {id : String} (hid : L.own id) : Agree (R id) (find t id) (find u id) := by
  unfold find
  cases ha : t.get? id with
  | none =>
    rw [h.get?_none hid ha]
    exact .missing id
  | some a =>
    obtain ⟨b, hb, hab⟩ := h.get?_some hid ha
    rw [hb]
    exact .found hab

theorem agree_fetch {L : Lens} {α β : Type} {R : Key → α → β → Prop} {t : Table Key α} {u : Table Key β}
    (h : t.Alike L.owns R u) {k : Key} (hk : L.owns k) : Agree (R k) (fetch t k) (fetch u k) := by
  unfold fetch
  cases ha : t.get? k with
  | none =>
    rw [h.get?_none hk ha]
    exact .missing k.handle
  | some a =>
    obtain ⟨b, hb, hab⟩ := h.get?_some hk ha
    rw [hb]
    exact .found hab

namespace Alike

variable {L : Lens} {q p m n : Machine} {old : Bool} {d : List Event} {id : String}

theorem activity (h : Alike L q p old d m n) (key : String) : n.activity key = m.activity key := by
  rw [Machine.activity, Machine.activity, h.catalogue]

theorem activities (h : Alike L q p old d m n) (keys : List String) : n.activities keys = m.activities keys := by
  rw [Machine.activities, Machine.activities]
  exact congrArg (keys.mapM ·) (funext h.activity)

theorem agree_activity (h : Alike L q p old d m n) (key : String) :
    Agree (fun a b ↦ b = a) (m.activity key) (n.activity key) := .of_eq (h.activity key)

theorem agree_activities (h : Alike L q p old d m n) (keys : List String) :
    Agree (fun a b ↦ b = a) (m.activities keys) (n.activities keys) := .of_eq (h.activities keys)

theorem agree_collectorAt (h : Alike L q p old d m n) (hid : L.own id) :
    Agree (fun a b ↦ b.1 = a.1 ∧ L.owns a.1 ∧ Collector.Alike L a.2 b.2) (m.collectorAt id) (n.collectorAt id) := by
  refine (agree_find h.desk.collectors hid).bind ?_
  rintro k l - ⟨rfl, hk⟩
  exact (agree_fetch h.world.collectors hk).bind fun c c' _ hc ↦ .found ⟨rfl, hk, hc⟩

theorem agree_viewAt (h : Alike L q p old d m n) (hid : L.own id) :
    Agree (fun a b ↦ b.1 = a.1 ∧ L.owns a.1.collector ∧ Collector.Alike L a.2 b.2) (m.viewAt id) (n.viewAt id) := by
  refine (agree_find h.desk.views hid).bind ?_
  rintro v u - ⟨rfl, hv⟩
  exact (agree_fetch h.world.collectors hv).bind fun c c' _ hc ↦ .found ⟨rfl, hv, hc⟩

theorem agree_source (h : Alike L q p old d m n) (hid : L.own id) :
    Agree (fun s r ↦ r = s ∧ L.owns s.key) (m.source id) (n.source id) := by
  unfold Machine.source
  cases hk : m.desk.nodes.get? id with
  | some k =>
    obtain ⟨l, hl, rfl, hown⟩ := h.desk.nodes.get?_some hid hk
    rw [hl]
    exact .found ⟨rfl, hown⟩
  | none =>
    rw [h.desk.nodes.get?_none hid hk]
    have hs := agree_find h.desk.starts hid
    revert hs
    generalize find m.desk.starts id = x, find n.desk.starts id = y
    rintro (id | ⟨rfl, hown⟩)
    · exact .missing id
    · exact .found ⟨rfl, hown⟩

theorem agree_sources (h : Alike L q p old d m n) {ids : List String} (hids : ∀ id ∈ ids, L.own id) :
    Agree (fun ss rs ↦ rs = ss ∧ ∀ s ∈ ss, L.owns s.key) (m.sources ids) (n.sources ids) := by
  refine (Agree.mapM fun id hid ↦ h.agree_source (hids id hid)).mono fun ss rs hs ↦ ?_
  induction hs with
  | nil => exact ⟨rfl, by simp⟩
  | cons hs _ ih =>
    obtain ⟨rfl, hown⟩ := hs
    exact ⟨by rw [ih.1], List.forall_mem_cons.2 ⟨hown, ih.2⟩⟩

theorem agree_completionAt (h : Alike L q p old d m n) (hid : L.own id) :
    Agree (fun a b ↦ b.1 = a.1 ∧ L.owns a.1 ∧ Node.Alike L a.1.handle a.2 b.2) (m.completionAt id)
      (n.completionAt id) := by
  refine (agree_find h.desk.completions hid).bind ?_
  rintro k l - ⟨rfl, hk⟩
  exact (agree_fetch h.world.nodes hk).bind fun a b _ hab ↦ .found ⟨rfl, hk, hab⟩

theorem barrierAnswer (h : Alike L q p old d m n) {k : Key} (hk : L.owns k) :
    n.barrierAnswer k = m.barrierAnswer k := by
  rw [Machine.barrierAnswer, Machine.barrierAnswer, h.world.barrier_eq (x := .probe k) hk,
    h.world.describeBarrier (x := .probe k) hk]

theorem firedAnswer (h : Alike L q p old d m n) {k : Key} (hk : L.owns k) : n.firedAnswer k = m.firedAnswer k := by
  rw [Machine.firedAnswer, Machine.firedAnswer, h.world.fired hk]

theorem settle_reply (h : Alike L q p old d m n) {r : Reply} (hr : r.Owned L) : n.settle r = m.settle r := by
  cases r with
  | now a => rfl
  | fired k => exact h.firedAnswer hr
  | barrier k => exact h.barrierAnswer hr

theorem agree_describe (h : Alike L q p old d m n) (hid : L.own id) :
    Agree (fun a b ↦ L.blind = false → b = a) (m.describe id) (n.describe id) := by
  unfold Machine.describe
  cases hn : m.desk.nodes.get? id with
  | some k =>
    obtain ⟨l, hl, rfl, hk⟩ := h.desk.nodes.get?_some hid hn
    rw [hl]
    exact .found fun _ ↦ h.world.describeNode hk
  | none =>
  rw [h.desk.nodes.get?_none hid hn]
  cases hs : m.desk.starts.get? id with
  | some k =>
    obtain ⟨l, hl, rfl, hk⟩ := h.desk.starts.get?_some hid hs
    rw [hl]
    exact .found fun hb ↦ h.world.describeStart hb hk
  | none =>
  rw [h.desk.starts.get?_none hid hs]
  cases hc : m.desk.collectors.get? id with
  | some k =>
    obtain ⟨l, hl, rfl, hk⟩ := h.desk.collectors.get?_some hid hc
    rw [hl]
    exact .found fun hb ↦ h.world.describeCollector hb hk
  | none =>
  rw [h.desk.collectors.get?_none hid hc]
  cases hv : m.desk.views.get? id with
  | some v =>
    obtain ⟨l, hl, rfl, hk⟩ := h.desk.views.get?_some hid hv
    rw [hl]
    exact .found fun _ ↦ h.world.describeView hk
  | none =>
  rw [h.desk.views.get?_none hid hv]
  cases hp : m.desk.probes.get? id with
  | some k =>
    obtain ⟨l, hl, rfl, hk⟩ := h.desk.probes.get?_some hid hp
    rw [hl]
    exact .found fun _ ↦ h.world.describeBarrier (x := .probe l) hk
  | none =>
  rw [h.desk.probes.get?_none hid hp]
  cases ht : m.desk.terminals.get? id with
  | some k =>
    obtain ⟨l, hl, rfl, hk⟩ := h.desk.terminals.get?_some hid ht
    rw [hl]
    exact .found fun _ ↦ h.world.describeTerminal hk
  | none =>
  rw [h.desk.terminals.get?_none hid ht]
  exact .missing id

theorem agree_ask (h : Alike L q p old d m n) (f : Frame) {x : Query} (hx : ∀ id ∈ x.names f.home, L.own id) :
    Agree (fun a b ↦ L.blind = false → b = a) (m.ask f x) (n.ask f x) := by
  cases x with
  | info id | diagram id names =>
    refine (h.agree_collectorAt (hx id (by simp [Query.names]))).bind ?_
    rintro ⟨k, c⟩ ⟨l, c'⟩ - ⟨-, -, (hc : Collector.Alike L c c')⟩
    exact .found fun hb ↦ by rw [hc.same hb]
  | extract id key r =>
    refine (h.agree_collectorAt (hx id (by simp [Query.names]))).bind ?_
    rintro ⟨k, c⟩ ⟨l, c'⟩ - ⟨-, -, (hc : Collector.Alike L c c')⟩
    refine (h.agree_activity key).bind ?_
    rintro a b - rfl
    exact .found fun hb ↦ by rw [hc.same hb]
  | read id key =>
    refine (h.agree_viewAt (hx id (by simp [Query.names]))).bind ?_
    rintro ⟨v, c⟩ ⟨u, c'⟩ - ⟨rfl, -, (hc : Collector.Alike L c c')⟩
    refine (h.agree_activity key).bind ?_
    rintro a b - rfl
    exact .found fun hb ↦ by rw [hc.same hb]
  | result id =>
    refine (agree_find h.desk.nodes (hx id (by simp [Query.names]))).bind ?_
    rintro k l - ⟨rfl, hk⟩
    refine (agree_fetch h.world.nodes hk).bind fun a b _ hab ↦ ?_
    exact .found fun _ ↦ by rw [hab.activity, hab.record]
  | fired id =>
    refine (agree_find h.desk.terminals (hx id (by simp [Query.names]))).bind ?_
    rintro k l - ⟨rfl, hk⟩
    exact .found fun _ ↦ h.firedAnswer hk
  | peek id =>
    refine (agree_find h.desk.probes (hx id (by simp [Query.names]))).bind ?_
    rintro k l - ⟨rfl, hk⟩
    exact .found fun _ ↦ h.barrierAnswer hk
  | describe id =>
    refine (h.agree_describe (hx id (by simp [Query.names]))).bind fun a b _ hab ↦ ?_
    exact .found fun hb ↦ by rw [hab hb]
  | completion node =>
    refine (h.agree_completionAt (hx _ (by simp [Query.names]))).bind ?_
    rintro ⟨k, a⟩ ⟨l, b⟩ - ⟨rfl, -, (hab : Node.Alike L l.handle a b)⟩
    dsimp only
    rw [hab.collector_eq, hab.activity]
    refine (agree_fetch h.world.collectors hab.collector).bind fun c c' _ hc ↦ ?_
    exact .found fun _ ↦ by rw [hc.name, hc.context]

theorem owns_within {k : Key} (hk : L.owns k) {c : Collector} {xs : List Activity} {v : View}
    (h : View.within k c xs = .ok v) : L.owns v.collector := by
  unfold View.within at h
  split at h
  · simp at h
  · exact Except.ok.inj h ▸ hk

theorem owns_narrow {v u : View} (hv : L.owns v.collector) {c : Collector} {xs : List Activity}
    (h : v.narrow c xs = .ok u) : L.owns u.collector := by
  unfold View.narrow at h
  split at h
  · simp at h
  · exact Except.ok.inj h ▸ hv

theorem agree_grant (h : Alike L q p old d m n) (f : Frame) {g : Grant} (hg : ∀ id ∈ g.names f.home, L.own id) :
    Agree (fun a b ↦ b = a ∧ ∀ v, a = .ok v → L.owns v.collector) (m.grant f g) (n.grant f g) := by
  cases g with
  | whole id =>
    refine (h.agree_collectorAt (hg id (by simp [Grant.names]))).bind ?_
    rintro ⟨k, c⟩ ⟨l, c'⟩ - ⟨rfl, hk, (hc : Collector.Alike L c c')⟩
    exact .found ⟨by simp only [hc.declared], fun v hv ↦ Except.ok.inj hv ▸ hk⟩
  | ofStart id =>
    refine (agree_find h.desk.starts (hg id (by simp [Grant.names]))).bind ?_
    rintro k l - ⟨rfl, hk⟩
    refine (agree_fetch h.world.starts hk).bind fun s t _ hst ↦ ?_
    obtain rfl := hst.same
    refine (agree_fetch h.world.collectors hst.collector).bind fun c c' _ hc ↦ ?_
    exact .found ⟨by simp only [hc.declared], fun v hv ↦ Except.ok.inj hv ▸ hst.collector⟩
  | within id keys =>
    refine (h.agree_collectorAt (hg id (by simp [Grant.names]))).bind ?_
    rintro ⟨k, c⟩ ⟨l, c'⟩ - ⟨rfl, hk, (hc : Collector.Alike L c c')⟩
    refine (h.agree_activities keys).bind ?_
    rintro xs ys - rfl
    exact .found ⟨hc.within l _, fun v hv ↦ owns_within hk hv⟩
  | narrow id keys =>
    refine (h.agree_viewAt (hg id (by simp [Grant.names]))).bind ?_
    rintro ⟨v, c⟩ ⟨u, c'⟩ - ⟨rfl, hv, (hc : Collector.Alike L c c')⟩
    refine (h.agree_activities keys).bind ?_
    rintro xs ys - rfl
    exact .found ⟨hc.narrow u _, fun v' hv' ↦ owns_narrow hv hv'⟩
  | ofCompletion node keys =>
    refine (h.agree_completionAt (hg _ (by simp [Grant.names]))).bind ?_
    rintro ⟨k, a⟩ ⟨l, b⟩ - ⟨rfl, -, (hab : Node.Alike L l.handle a b)⟩
    dsimp only
    rw [hab.collector_eq]
    refine (agree_fetch h.world.collectors hab.collector).bind fun c c' _ hc ↦ ?_
    refine (h.agree_activities keys).bind ?_
    rintro xs ys - rfl
    exact .found ⟨hc.within a.collector _, fun v hv ↦ owns_within hab.collector hv⟩

theorem operand (h : Alike L q p old d m n) {o : Operand} (ho : ∀ id ∈ o.names, L.own id)
    (hs : L.blind → o.stored = false) : n.operand o = m.operand o := by
  cases o with
  | value v => rfl
  | payload ending key id =>
    have hb : L.blind = false := by
      by_contra hb
      exact absurd (hs (by simpa using hb)) (by simp [Operand.stored])
    refine Agree.eq ((h.agree_activity key).bind ?_)
    rintro x y - rfl
    refine (h.agree_viewAt (ho id (by simp [Operand.names]))).bind ?_
    rintro ⟨v, c⟩ ⟨u, c'⟩ - ⟨rfl, -, (hc : Collector.Alike L c c')⟩
    exact .found (by rw [hc.same hb])

end Alike

end ActivityGraph.Machine
