import ActivityGraph.Proofs.Deeds
import ActivityGraph.Proofs.Stall

namespace ActivityGraph

def Predicate.Sound (p : Predicate) : Prop := ∀ v, ∃ b, p v = .holds b

namespace Step

variable {κ : Type}

def required? : Step κ → Option Bool
  | .required b => some b
  | _ => none

def cancelIf? : Step κ → Option Judge
  | .cancelIf p => some ⟨.cancelIf, p⟩
  | _ => none

def ifErrored? : Step κ → Option Judge
  | .ifErrored p => some ⟨.ifErrored, p⟩
  | .ifCanceled e _ => some ⟨.abortErrored, e⟩
  | _ => none

def ifFailed? : Step κ → Option Judge
  | .ifFailed p => some ⟨.ifFailed, p⟩
  | .ifCanceled _ f => some ⟨.abortFailed, f⟩
  | _ => none

def prepare? : Step κ → Option (Nat × κ)
  | .prepare place code => some (place, code)
  | _ => none

def Sound : Step κ → Prop
  | .cancelIf p | .ifErrored p | .ifFailed p => p.Sound
  | .ifCanceled e f => e.Sound ∧ f.Sound
  | _ => True

end Step

namespace Setup

variable {κ α : Type}

/-- What was written last among some steps. -/
def last (f : Step κ → Option α) (steps : List (Step κ)) : Option α := (steps.filterMap f).getLast?

theorem last_append (f : Step κ → Option α) (steps : List (Step κ)) (s : Step κ) :
    last f (steps ++ [s]) = (f s).or (last f steps) := by
  rw [last, List.filterMap_append, List.getLast?_append, last]
  cases hs : f s <;> simp [hs]

theorem last_eq_some {f : Step κ → Option α} {steps : List (Step κ)} {x : α} :
    last f steps = some x ↔ ∃ front s back, steps = front ++ s :: back ∧ f s = some x ∧ ∀ t ∈ back, f t = none := by
  constructor
  · intro h
    induction steps using List.reverseRecOn with
    | nil => simp [last] at h
    | append_singleton steps t ih =>
      rw [last_append] at h
      cases ht : f t with
      | some y =>
        rw [ht, Option.some_or] at h
        exact ⟨steps, t, [], rfl, ht.trans h, by simp⟩
      | none =>
        rw [ht, Option.none_or] at h
        obtain ⟨front, s, back, rfl, hs, hback⟩ := ih h
        refine ⟨front, s, back ++ [t], by simp, hs, ?_⟩
        intro u hu
        rcases List.mem_append.1 hu with hu | hu
        · exact hback u hu
        · exact (List.mem_singleton.1 hu).symm ▸ ht
  · rintro ⟨front, s, back, rfl, hs, hback⟩
    have hnone : back.filterMap f = [] := List.filterMap_eq_nil_iff.2 hback
    simp [last, hs, hnone]

theorem ofSteps_eq (steps : List (Step κ)) :
    ofSteps steps = {
      policy := {
        required := (last Step.required? steps).getD true
        cancelIf := last Step.cancelIf? steps
        ifErrored := last Step.ifErrored? steps
        ifFailed := last Step.ifFailed? steps }
      preparators := steps.filterMap Step.prepare? } := by
  induction steps using List.reverseRecOn with
  | nil => rfl
  | append_singleton steps s ih =>
    have hadd : ofSteps (steps ++ [s]) = (ofSteps steps).add s := by
      rw [ofSteps, List.foldl_append]
      rfl
    rw [hadd, ih]
    simp only [last_append, List.filterMap_append]
    cases s <;>
      simp [add, Step.required?, Step.cancelIf?, Step.ifErrored?, Step.ifFailed?, Step.prepare?]

/-- Steps that only differ in how steps that write no common field are mixed. -/
structure Agree (s t : List (Step κ)) : Prop where
  required : s.filterMap Step.required? = t.filterMap Step.required?
  cancelIf : s.filterMap Step.cancelIf? = t.filterMap Step.cancelIf?
  ifErrored : s.filterMap Step.ifErrored? = t.filterMap Step.ifErrored?
  ifFailed : s.filterMap Step.ifFailed? = t.filterMap Step.ifFailed?
  prepare : s.filterMap Step.prepare? = t.filterMap Step.prepare?

theorem Agree.ofSteps_eq {s t : List (Step κ)} (h : Agree s t) : ofSteps s = ofSteps t := by
  rw [Setup.ofSteps_eq, Setup.ofSteps_eq]
  simp only [last, h.required, h.cancelIf, h.ifErrored, h.ifFailed, h.prepare]

end Setup

namespace Policy

structure Sound (p : Policy) : Prop where
  cancelIf : ∀ j, p.cancelIf = some j → j.test.Sound
  ifErrored : ∀ j, p.ifErrored = some j → j.test.Sound
  ifFailed : ∀ j, p.ifFailed = some j → j.test.Sound

/-- What a policy decides over a report: whether the record is canceled, the predicates that are called, in this
order, and the signal. -/
inductive Decides (p : Policy) : Except Payload Payload → Bool → List Asked → Signal → Prop
  | unasked {s : Payload} (hj : p.cancelIf = none) : Decides p (.ok s) false [] .done
  | passed {s : Payload} {j : Judge} (hj : p.cancelIf = some j) (ht : j.test s = .holds false) :
      Decides p (.ok s) false [j.ask s] .done
  | errored {s : Payload} {j : Judge} (hj : p.cancelIf = some j) (ht : j.test s = .holds true)
      (hi : p.ifErrored = none) : Decides p (.ok s) true [j.ask s] .cancel
  | erroredIf {s : Payload} {j i : Judge} {b : Bool} (hj : p.cancelIf = some j) (ht : j.test s = .holds true)
      (hi : p.ifErrored = some i) (hb : i.test s = .holds b) :
      Decides p (.ok s) true [j.ask s, i.ask s] (if b then .cancel else .done)
  | tolerated {f : Payload} (hr : p.required = false) : Decides p (.error f) false [] .done
  | failed {f : Payload} (hr : p.required = true) (hi : p.ifFailed = none) : Decides p (.error f) true [] .cancel
  | failedIf {f : Payload} {i : Judge} {b : Bool} (hr : p.required = true) (hi : p.ifFailed = some i)
      (hb : i.test f = .holds b) : Decides p (.error f) true [i.ask f] (if b then .cancel else .done)

variable {p : Policy} {r : Except Payload Payload} {c : Bool} {as : List Asked} {g : Signal}

theorem Decides.rule (h : p.Decides r c as g) :
    p.rule { state := .ofResult r } = ⟨⟨.ofResult r, c⟩, as, .ok g⟩ := by
  cases h with
  | unasked hj => simp [Policy.rule, rejects, consult, State.ofResult, hj]
  | passed hj ht => simp [Policy.rule, rejects, consult, State.ofResult, hj, ht]
  | errored hj ht hi => simp [Policy.rule, rejects, cascades, consult, State.ofResult, Record.cancel, hj, ht, hi]
  | erroredIf hj ht hi hb =>
    simp [Policy.rule, rejects, cascades, consult, State.ofResult, Record.cancel, hj, ht, hi, hb]
  | tolerated hr => simp [Policy.rule, rejects, State.ofResult, hr]
  | failed hr hi => simp [Policy.rule, rejects, cascades, consult, State.ofResult, Record.cancel, hr, hi]
  | failedIf hr hi hb => simp [Policy.rule, rejects, cascades, consult, State.ofResult, Record.cancel, hr, hi, hb]

theorem Sound.exists_decides (h : p.Sound) (r : Except Payload Payload) : ∃ c as g, p.Decides r c as g := by
  cases r with
  | ok s =>
    cases hj : p.cancelIf with
    | none => exact ⟨_, _, _, .unasked hj⟩
    | some j =>
      obtain ⟨b, hb⟩ := h.cancelIf j hj s
      cases b with
      | false => exact ⟨_, _, _, .passed hj hb⟩
      | true =>
        cases hi : p.ifErrored with
        | none => exact ⟨_, _, _, .errored hj hb hi⟩
        | some i =>
          obtain ⟨d, hd⟩ := h.ifErrored i hi s
          exact ⟨_, _, _, .erroredIf hj hb hi hd⟩
  | error f =>
    cases hr : p.required with
    | false => exact ⟨_, _, _, .tolerated hr⟩
    | true =>
      cases hi : p.ifFailed with
      | none => exact ⟨_, _, _, .failed hr hi⟩
      | some i =>
        obtain ⟨d, hd⟩ := h.ifFailed i hi f
        exact ⟨_, _, _, .failedIf hr hi hd⟩

end Policy

theorem Setup.sound_ofSteps {κ : Type} {steps : List (Step κ)} (h : ∀ s ∈ steps, s.Sound) :
    (ofSteps steps).policy.Sound := by
  have found {f : Step κ → Option Judge} {j : Judge} (hj : last f steps = some j) : ∃ s, s.Sound ∧ f s = some j := by
    obtain ⟨front, s, back, rfl, hs, -⟩ := last_eq_some.1 hj
    exact ⟨s, h s (by simp), hs⟩
  rw [ofSteps_eq]
  refine ⟨fun j hj ↦ ?_, fun j hj ↦ ?_, fun j hj ↦ ?_⟩
  · obtain ⟨s, hs, he⟩ := found hj
    cases s <;> simp [Step.cancelIf?] at he
    exact he ▸ hs
  · obtain ⟨s, hs, he⟩ := found hj
    cases s <;> simp [Step.ifErrored?] at he
    · exact he ▸ hs
    · exact he ▸ hs.1
  · obtain ⟨s, hs, he⟩ := found hj
    cases s <;> simp [Step.ifFailed?] at he
    · exact he ▸ hs
    · exact he ▸ hs.2

def Event.asks? (k : Key) : Event → Option Asked
  | .asked l a => if l = k then some a else none
  | _ => none

/-- The predicates of a node that were called, in the order of the calls. The journal has the latest event first. -/
def asked (k : Key) (j : List Event) : List Asked := (j.filterMap (Event.asks? k)).reverse

theorem asked_append (k : Key) (i j : List Event) : asked k (i ++ j) = asked k j ++ asked k i := by
  rw [asked, List.filterMap_append, List.reverse_append, asked, asked]

theorem asked_asked (k : Key) (as : List Asked) : asked k (as.map (.asked k)).reverse = as := by
  rw [asked, List.filterMap_reverse, List.reverse_reverse, List.filterMap_map]
  have hsome : Event.asks? k ∘ Event.asked k = some := funext fun a ↦ if_pos rfl
  rw [hsome, List.filterMap_some]

theorem Stride.asked_eq {a b : Stage} (hs : Stride a b) {k : Key} (hc : ∀ r, a.call ≠ some (.complete k r)) :
    asked k b.machine.journal = asked k a.machine.journal := by
  obtain ⟨es, hj, hm⟩ := hs.emits
  have hnone : asked k es = [] := by
    rw [asked, List.reverse_eq_nil_iff, List.filterMap_eq_nil_iff]
    intro e he
    cases e with
    | asked l q =>
      refine if_neg ?_
      rintro rfl
      obtain ⟨r, hr⟩ := hm _ he
      exact hc r hr
    | _ => rfl
  rw [hj, asked_append, hnone, List.append_nil]

theorem Stage.Before.keeps_policy {a b : Stage} (h : a.Before b) (ha : a.Reached) {k : Key} {n : Node}
    (hn : a.machine.world.nodes.get? k = some n) :
    ∃ p, b.machine.world.nodes.get? k = some p ∧ p.policy = n.policy ∧ p.collector = n.collector ∧
      p.activity = n.activity := by
  induction h with
  | refl => exact ⟨n, hn, rfl, rfl, rfl⟩
  | tail hb hs ih =>
    obtain ⟨p, hp, hpolicy, hcol, hact⟩ := ih
    obtain ⟨q, hq, hk⟩ := hs.node (ha.before hb) hp
    exact ⟨q, hq, hk.policy.trans hpolicy, hk.place.1.trans hcol, hk.place.2.trans hact⟩

namespace Stage.Reached

variable {a : Stage} {k : Key}

theorem asked_cases (h : a.Reached) (k : Key) :
    (asked k a.machine.journal = [] ∧ reportings k a.machine.journal = 0) ∨
    ∃ r n, .reported k r ∈ a.machine.journal ∧ a.machine.world.nodes.get? k = some n ∧
      asked k a.machine.journal = (n.policy.rule { state := .ofResult r }).asked := by
  refine h.invariant (P := fun a ↦ (asked k a.machine.journal = [] ∧ reportings k a.machine.journal = 0) ∨
    ∃ r n, .reported k r ∈ a.machine.journal ∧ a.machine.world.nodes.get? k = some n ∧
      asked k a.machine.journal = (n.policy.rule { state := .ofResult r }).asked) (fun _ ↦ .inl ⟨rfl, rfl⟩) ?_
  intro a b h ih hs
  have keep (ha : asked k b.machine.journal = asked k a.machine.journal)
      (hr : reportings k b.machine.journal = reportings k a.machine.journal) :
      (asked k b.machine.journal = [] ∧ reportings k b.machine.journal = 0) ∨
      ∃ r n, .reported k r ∈ b.machine.journal ∧ b.machine.world.nodes.get? k = some n ∧
        asked k b.machine.journal = (n.policy.rule { state := .ofResult r }).asked := by
    rw [ha, hr]
    rcases ih with hnone | ⟨r, n, hmem, hn, has⟩
    · exact .inl hnone
    · obtain ⟨p, hp, hk⟩ := hs.node h hn
      exact .inr ⟨r, p, hs.mem_journal hmem, hp, hk.policy.symm ▸ has⟩
  by_cases hc : ∃ r, a.call = some (.complete k r)
  · obtain ⟨r, hc⟩ := hc
    obtain ⟨n, hn, hreport⟩ := h.takes hc
    -- nothing was reported before, since the completion is still in use
    have hzero : reportings k a.machine.journal = 0 := by
      by_contra hne
      have hdue := h.due_of_reportings (Nat.pos_of_ne_zero hne)
      simp [Stage.due, Stage.during, hc, Call.reports] at hdue
    have hnil : asked k a.machine.journal = [] := by
      refine (ih.resolve_right ?_).1
      rintro ⟨r, -, hmem, -⟩
      exact absurd hzero (Nat.ne_of_gt (reportings_pos.2 ⟨r, hmem⟩))
    obtain ⟨c, m⟩ := a
    obtain rfl := hc
    have done (e : Event) (as : List Asked) (he : Event.asks? k e = none)
        (has : as = (n.policy.rule { state := .ofResult r }).asked) :
        asked k (e :: ((as.map (.asked k)).reverse ++ .reported k r :: m.journal)) =
          (n.policy.rule { state := .ofResult r }).asked := by
      have hcons : asked k (e :: ((as.map (.asked k)).reverse ++ .reported k r :: m.journal)) =
          asked k ((as.map (.asked k)).reverse ++ .reported k r :: m.journal) := by
        rw [asked, List.filterMap_cons, he, asked]
      have hreported : asked k (.reported k r :: m.journal) = asked k m.journal := rfl
      rw [hcons, asked_append, asked_asked, hreported, hnil, List.nil_append, has]
    cases hs with
    | lost hk => exact absurd (hn.symm.trans hk) (by simp)
    | repeated => exact keep rfl rfl
    | relinquish => exact keep rfl rfl
    | broken hk hr | completed hk hr =>
      obtain rfl := Option.some.inj (hn.symm.trans hk)
      obtain rfl := Except.ok.inj (hreport.symm.trans hr)
      exact .inr ⟨r, _, by simp, World.get?_modifyNode_self hn _, done _ _ rfl rfl⟩
  · refine keep (hs.asked_eq fun r hr ↦ hc ⟨r, hr⟩) ?_
    refine Nat.le_antisymm (Nat.le_of_not_lt fun hlt ↦ hc ?_) (hs.countP_le _)
    exact hs.of_reportings hlt

end Stage.Reached

theorem State.ofResult_inj {σ φ : Type} {r r' : Except φ σ} (h : State.ofResult r = State.ofResult r') : r = r' := by
  cases r <;> cases r' <;> simp_all [State.ofResult]

/-- How far a node has got, with all that can be told from the policy by then. -/
inductive Decided (j : List Event) (k : Key) (n : Node) : Prop
  | undecided (reported : reportings k j = 0) (abandoned : abandonings k j = 0) (asked : asked k j = [])
      (record : n.record = {}) (signal : n.signal = none)
  | abandoned (reported : reportings k j = 0) (abandoned : abandonings k j = 1) (asked : asked k j = [])
      (record : n.record = { canceled := true }) (signal : n.signal = some .cancel)
  | reported (r : Except Payload Payload) (c : Bool) (g : Signal) (report : .reported k r ∈ j)
      (reported : reportings k j = 1) (abandoned : abandonings k j = 0) (decides : n.policy.Decides r c (asked k j) g)
      (record : n.record = ⟨.ofResult r, c⟩) (signal : n.signal = some g)

namespace Machine

theorem Reachable.decided {m : Machine} (hm : m.Reachable) {k : Key} {n : Node} (hn : m.world.nodes.get? k = some n)
    (hp : n.policy.Sound) : Decided m.journal k n := by
  have h := hm.reached
  have unasked (hr : reportings k m.journal = 0) : asked k m.journal = [] := by
    refine ((h.asked_cases k).resolve_right ?_).1
    rintro ⟨r, -, hmem, -⟩
    exact absurd hr (Nat.ne_of_gt (reportings_pos.2 ⟨r, hmem⟩))
  cases h.fate hn with
  | untouched hrec hrep hab =>
    have hrests : m.world.rests k = 0 := Nat.eq_zero_of_add_eq_zero_right (h.after_eq_zero hab hrep)
    exact .undecided hrep hab (unasked hrep) hrec (World.signal_of_rests hn hrests)
  | abandoned hrec hab _ hrep =>
    obtain ⟨p, hp', -, -, hsettles⟩ := h.abandoned (k := k) (Nat.lt_of_lt_of_eq Nat.one_pos hab.symm)
    obtain rfl := Option.some.inj (hn.symm.trans hp')
    exact .abandoned hrep hab (unasked hrep) hrec hsettles.signal_eq
  | reported r hmem _ hrec hrep _ hab =>
    obtain ⟨c, as, g, hdec⟩ := hp.exists_decides r
    have hrule := hdec.rule
    have hask : asked k m.journal = as := by
      rcases h.asked_cases k with ⟨-, hz⟩ | ⟨r', p, hmem', hp', has⟩
      · exact absurd (hz.symm.trans hrep) (by decide)
      · obtain rfl := Option.some.inj (hn.symm.trans hp')
        obtain ⟨q, hq, -, hrec', -⟩ := h.reported hmem'
        obtain rfl := Option.some.inj (hn.symm.trans hq)
        -- both reports have left the same record
        have hstate := congrArg Record.state (hrec.symm.trans hrec')
        rw [Policy.rule_state, Policy.rule_state] at hstate
        obtain rfl := State.ofResult_inj hstate
        rw [has, hrule]
    obtain ⟨q, hq, -, -, hsettles⟩ := h.reported hmem
    obtain rfl := Option.some.inj (hn.symm.trans hq)
    refine .reported r c g hmem hrep hab (hask.symm ▸ hdec) ?_ (hsettles g (by rw [hrule])).signal_eq
    rw [hrec, hrule]

theorem Takes.node {m n : Machine} {f : Frame} {l : Line Action} (h : m.Takes f l n) {id : String}
    {deps : List String} {setup : Option (List (Step Script))} {work : Work Script} {x : Activity} {c : Key}
    {ss : List Source} (hl : m.Performs l id deps setup work x c ss) (hm : m.Reachable) :
    n.world.nodes.get? (m.world.nodes.fresh id) =
      some (m.newNode x c (.ofSteps (setup.getD [])) work) := by
  obtain ⟨ts, es, rfl⟩ := h.performs hl
  obtain ⟨t, -, he⟩ := addNode_eq { m with
    stack := .answer ⟨f.owner, l.verb⟩ (.now (.text x.label)) :: ts, journal := es ++ m.journal } id x c ss
    (.ofSteps (setup.getD [])) work
  rw [he]
  exact (Table.get?_insert_of_new (hm.reached.sound.nodes.get?_fresh id) ..).trans (if_pos rfl)

theorem act_perform_congr {s t : List (Step Script)} (h : Setup.Agree s t) (m : Machine) (f : Frame) (c : Caller)
    (id key coll : String) (deps : List String) (work : Work Script) :
    m.act f c (.perform id key coll deps (some s) work) = m.act f c (.perform id key coll deps (some t) work) := by
  simp only [act, describeSetup, Option.getD_some, h.ofSteps_eq]

/-- A node that is performed with a setup has the policy whose fields were written last, and keeps it. Once it
reports, it has called just the predicates that this policy calls for, each once and in order, and has the record
and the signal that their answers make; if it is abandoned, none is ever called. Steps that agree on each field
and on the preparators make no difference to what is performed. -/
theorem Reachable.setup_decides {m n p : Machine} (hm : m.Reachable) {f : Frame} {l : Line Action} {id : String}
    {deps : List String} {setup : Option (List (Step Script))} {work : Work Script} {x : Activity} {c : Key}
    {ss : List Source} (hl : m.Performs l id deps setup work x c ss) (hn : m.Takes f l n)
    (hs : ∀ s ∈ setup.getD [], s.Sound) (hp : Later n p) :
    (∃ q, p.world.nodes.get? (m.world.nodes.fresh id) = some q ∧ q.collector = c ∧ q.activity = x ∧
      q.policy = {
        required := (Setup.last Step.required? (setup.getD [])).getD true
        cancelIf := Setup.last Step.cancelIf? (setup.getD [])
        ifErrored := Setup.last Step.ifErrored? (setup.getD [])
        ifFailed := Setup.last Step.ifFailed? (setup.getD []) } ∧
      Decided p.journal (m.world.nodes.fresh id) q) ∧
    ∀ s, Setup.Agree (setup.getD []) s → ∀ (b : Machine) (g : Frame) (d : Caller) (caught : Bool) (key coll : String),
      b.act g d (.perform id key coll deps (some s) work) =
        b.act g d (.perform id key coll deps (some (setup.getD [])) work) ∧
      Scenario.report b g ⟨d.verb, caught, .perform id key coll deps (some s) work⟩ =
        Scenario.report b g ⟨d.verb, caught, .perform id key coll deps (some (setup.getD [])) work⟩ := by
  refine ⟨?_, fun s h b g d caught key coll ↦ ⟨(act_perform_congr h ..).symm, ?_⟩⟩
  · have hr : n.Reachable := hm.later (.single hn.next)
    obtain ⟨q, hq, hpolicy, hcol, hact⟩ := hp.before.keeps_policy hr.reached (hn.node hl hm)
    have hsound : q.policy.Sound := hpolicy.symm ▸ Setup.sound_ofSteps hs
    refine ⟨q, hq, hcol, hact, hpolicy.trans ?_, (hr.later hp).decided hq hsound⟩
    exact congrArg Setup.policy (Setup.ofSteps_eq _)
  · simp only [Scenario.report, Scenario.start, execute, act_perform_congr h]

end Machine

namespace Sample

def steps : List (Step Script) := [.ifCanceled (always true) (always true), .required false, .cancelIf (always true),
  .required true, .ifErrored (always false)]

def performs : Line Action :=
  ⟨"perform", false, .perform "a" "alpha" "s" [] (some steps)
    (.script [⟨"success", false, .report none ⟨.success, some (.int 7)⟩⟩] false .null)⟩

def collected : Machine :=
  Machine.play { catalogue := [("alpha", alpha)] } [⟨"start", false, .start "s" "s" ["alpha"] .null⟩]

def decided : Machine := (Scenario.report collected {} performs).2.play [⟨"begin", false, .begin "a"⟩]

theorem collected_performs : collected.Performs performs "a" [] (some steps)
    (.script [⟨"success", false, .report none ⟨.success, some (.int 7)⟩⟩] false .null) alpha ⟨"s", 0⟩ [] :=
  Machine.performs_of_find rfl (by decide +kernel) (by decide +kernel) rfl

/-- The success is canceled by the one predicate and held back by the other, which was written last. -/
theorem decided_by_setup :
    ∃ q, decided.world.nodes.get? ⟨"a", 0⟩ = some q ∧ q.policy.required = true ∧
      q.policy.ifErrored = some ⟨.ifErrored, always false⟩ ∧ q.policy.ifFailed = some ⟨.abortFailed, always true⟩ ∧
      asked ⟨"a", 0⟩ decided.journal = [⟨.cancelIf, .int 7, .holds true⟩, ⟨.ifErrored, .int 7, .holds false⟩] ∧
      q.record = ⟨.success (.int 7), true⟩ ∧ q.signal = some .done := by
  have hm : collected.Reachable := ⟨_, .play rfl _⟩
  have hn : collected.Takes {} performs (Scenario.start collected {} performs) := .outer (Machine.stack_play rfl _)
  have hp : Machine.Later (Scenario.start collected {} performs) decided :=
    (Machine.Later.run _ _).trans (Machine.Later.play (Machine.stack_finish _) _)
  have answers (b : Bool) : (always b).Sound := fun _ ↦ ⟨b, rfl⟩
  have hsound : ∀ s ∈ steps, s.Sound := by simp [steps, Step.Sound, answers]
  have hasked : asked ⟨"a", 0⟩ decided.journal =
      [⟨.cancelIf, .int 7, .holds true⟩, ⟨.ifErrored, .int 7, .holds false⟩] := by decide +kernel
  obtain ⟨⟨q, hq, -, -, hpolicy, hdecided⟩, -⟩ := hm.setup_decides collected_performs hn hsound hp
  have hfresh : collected.world.nodes.fresh "a" = ⟨"a", 0⟩ := by decide +kernel
  rw [hfresh] at hq hdecided
  refine ⟨q, hq, by rw [hpolicy]; rfl, by rw [hpolicy]; rfl, by rw [hpolicy]; rfl, hasked, ?_⟩
  cases hdecided with
  | undecided _ _ hnone => simp [hasked] at hnone
  | abandoned _ _ hnone => simp [hasked] at hnone
  | reported r c g _ _ _ hdec hrec hsignal =>
    generalize asked ⟨"a", 0⟩ decided.journal = as at hasked hdec
    cases hdec with
    | @erroredIf s j i b _ _ _ hb =>
      -- the first answer tells the value, and the second the signal
      obtain ⟨hfirst, hsecond⟩ := List.cons.inj hasked
      obtain rfl : s = .int 7 := congrArg Asked.value hfirst
      have hverdict := congrArg Asked.verdict (List.cons.inj hsecond).1
      obtain rfl : b = false := Verdict.holds.inj (hb.symm.trans hverdict)
      exact ⟨hrec, hsignal⟩
    | _ => simp at hasked

end Sample

end ActivityGraph
