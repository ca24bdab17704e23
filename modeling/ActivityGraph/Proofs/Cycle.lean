import ActivityGraph.Proofs.Deeds
import ActivityGraph.Proofs.Refusal
import ActivityGraph.Proofs.Standstill

namespace ActivityGraph

/-- A node waits for another one, and the barriers of both are closed. -/
structure World.Chains (w : World) (j : List Event) (k l : Key) : Prop where
  feeds : Feeds j k l
  source : ∃ c, w.Shut (.node k) c
  waiter : ∃ c, w.Shut (.node l) c

namespace Stage

def Chains (a : Stage) : Key → Key → Prop := a.machine.world.Chains a.machine.journal

variable {a b : Stage} {k l : Key}

theorem Reached.chains_of_feeds (h : a.Reached) (hl : ∃ c, a.machine.world.Shut (.node l) c)
    (hf : Feeds a.machine.journal k l) : a.Chains k l := by
  obtain ⟨c, hc⟩ := hl
  obtain ⟨d, hd, -⟩ := h.resolved rfl hc hf
  exact ⟨hf, h.final_shut (Option.isSome_of_eq_some hd), c, hc⟩

theorem Reached.chains_of_stride (h : a.Reached) (hs : Stride a b) (hl : ∃ c, a.machine.world.Shut (.node l) c)
    (hb : b.Chains k l) : a.Chains k l := by
  obtain ⟨c, hc⟩ := hl
  have hf := hb.feeds
  rw [Feeds, h.accepted_eq hs hc] at hf
  exact h.chains_of_feeds ⟨c, hc⟩ hf

/-- Nobody that is closed waits for a node whose barrier has just closed: such a node is not final yet. -/
theorem Reached.shut_of_chains (h : a.Reached) (hs : Stride a b) (hb : b.Chains k l) :
    ∃ c, a.machine.world.Shut (.node k) c := by
  obtain ⟨c, hc⟩ := hb.source
  refine (hs.closes hc).elim (fun hk ↦ ⟨c, hk⟩) fun ⟨d, hd⟩ ↦ ?_
  obtain ⟨e, he⟩ := hb.waiter
  obtain ⟨g, hg, -⟩ := (h.stride hs).resolved rfl he hb.feeds
  have hfinal := hs.final_eq h (.inr (by simp [hd])) (.node k)
  exact h.final_shut (hfinal ▸ Option.isSome_of_eq_some hg)

theorem Reached.acyclic (h : a.Reached) (k : Key) : ¬ Relation.TransGen a.Chains k k := by
  revert k
  refine h.invariant (P := fun a ↦ ∀ k, ¬ Relation.TransGen a.Chains k k) ?_ ?_
  · intro _ k hk
    obtain ⟨l, hkl, -⟩ := Relation.TransGen.head'_iff.1 hk
    simpa [Feeds, accepted] using hkl.feeds
  · intro a b h ih hs k hk
    -- a path that ends at a node that was closed before lies within what was closed before
    have old {l : Key} (hkl : Relation.TransGen b.Chains k l) (hl : ∃ c, a.machine.world.Shut (.node l) c) :
        Relation.TransGen a.Chains k l := by
      induction hkl with
      | single hkl => exact .single (h.chains_of_stride hs hl hkl)
      | tail _ hml ih => exact .tail (ih (h.shut_of_chains hs hml)) (h.chains_of_stride hs hl hml)
    obtain ⟨l, hkl, -⟩ := Relation.TransGen.head'_iff.1 hk
    exact ih k (old hk (h.shut_of_chains hs hkl))

theorem Reached.cycle_open (h : a.Reached) (hk : Relation.TransGen (Feeds a.machine.journal) k k) (c : Bool) :
    ¬ a.machine.world.Shut (.node k) c := by
  intro hc
  -- what is upstream of a closed node is closed, so the whole cycle is
  have chain {l : Key} (hkl : Relation.TransGen (Feeds a.machine.journal) k l)
      (hl : ∃ c, a.machine.world.Shut (.node l) c) : Relation.TransGen a.Chains k l := by
    induction hkl with
    | single hkl => exact .single (h.chains_of_feeds hl hkl)
    | tail _ hml ih =>
      have hchain := h.chains_of_feeds hl hml
      exact .tail (ih hchain.source) hchain
  exact h.acyclic k (chain hk ⟨c, hc⟩)

theorem Reached.behind_cycle_open (h : a.Reached) (hk : Relation.TransGen (Feeds a.machine.journal) k k) {x : Waiter}
    (hx : Behind a.machine.journal k x) (hb : x.bare = false) (c : Bool) : ¬ a.machine.world.Shut x c :=
  h.behind_open (h.still_node (h.cycle_open hk)).2.2.2 hx hb c

end Stage

namespace Machine

theorem act_begin_early {m : Machine} {k : Key} {b : Barrier} (hb : m.world.barriers.get? (.node k) = some b)
    (hc : b.closed = false) (hr : b.remaining ≠ 0) {id : String} (hid : m.desk.nodes.get? id = some k) (f : Frame)
    (c : Caller) :
    m.act f c (.begin id) = .ok (m.raise (.startedEarly (m.world.label (.node k)) b.remaining)) := by
  have hrel : b.release = .error (.unresolved b.remaining) := by simp [Barrier.release, hc, hr]
  have hb' : (m.push (.answer c (.now .nothing))).world.barriers.get? (.node k) = some b := hb
  simp only [act, find, hid, bind, Except.bind, release, hb', hrel]
  exact congrArg Except.ok (raise_answer m c (.now .nothing) _)

/-- No cycle of dependencies ever runs. From when a node lies on a cycle it stays there, and whatever is
downstream of it, which it is itself, never goes on: a node is neither started nor abandoned, reports
nothing and is not final, keeps a pending record, and to begin it is a fault that changes nothing; a
terminal is not called and not marked. So the nodes whose barriers are closed have no cycle at all. -/
theorem Reachable.cycle_never_runs {m : Machine} (hm : m.Reachable) :
    (∀ k, ¬ Relation.TransGen (m.world.Chains m.journal) k k) ∧
    ∀ k, Relation.TransGen (Feeds m.journal) k k → ∀ n, Later m n →
      Behind n.journal k (.node k) ∧
      ∀ x, Behind n.journal k x →
        (∀ l, x = .node l →
          startings l n.journal = 0 ∧ abandonings l n.journal = 0 ∧ reportings l n.journal = 0 ∧
          n.world.final? (.node l) = none ∧ (∃ p, n.world.nodes.get? l = some p ∧ p.record = {}) ∧
          ∀ ts f c id, n.desk.nodes.get? id = some l → ∃ r, 0 < r ∧
            ∃ q, q = raise { n with stack := ts } (.startedEarly (n.world.label (.node l)) r) ∧
              Machine.act { n with stack := ts } f c (.begin id) = .ok q ∧ n.Spares q) ∧
        ∀ t, x = .terminal t → callings t n.journal = 0 ∧ n.world.fired t = false := by
  refine ⟨hm.reached.acyclic, fun k hk n hn ↦ ?_⟩
  have hr : Stage.Reached ⟨none, n⟩ := hm.reached.before hn.before
  have hself : Behind n.journal k (.node k) := (behind_self_iff.2 hk).mono (Later.suffix hn)
  have hcycle := behind_self_iff.1 hself
  refine ⟨hself, fun x hx ↦ ⟨?_, ?_⟩⟩
  · rintro l rfl
    have hopen : ∀ c, ¬ n.world.Shut (.node l) c := hr.behind_cycle_open hcycle hx rfl
    obtain ⟨hst, hab, hrep, hfinal⟩ := hr.still_node hopen
    have hg : n.Gated (.node l) := hr.gated rfl
    -- the node took on a dependency, so it is there, with a barrier that waits for something
    obtain ⟨b, hb⟩ : ∃ b, n.world.barriers.get? (.node l) = some b :=
      Option.ne_none_iff_exists'.1 fun hno ↦ hx.accepted_ne (hg.absent hno).1
    have hc : b.closed = false := Bool.eq_false_iff.2 fun hc ↦ hopen _ ⟨b, hb, hc, rfl⟩
    have hrem : b.remaining ≠ 0 := fun hz ↦ hx.accepted_ne ((hg.fits hb).idle hc hz)
    have hnode : (n.world.nodes.get? l).isSome := (hr.sound.isSome_node l) ▸ Option.isSome_of_eq_some hb
    obtain ⟨p, hp⟩ := Option.isSome_iff_exists.1 hnode
    refine ⟨hst, hab, hrep, hfinal, ⟨p, hp, hr.still_record hopen hp⟩, fun ts f c id hid ↦ ?_⟩
    refine ⟨b.remaining, Nat.pos_of_ne_zero hrem, _, rfl, ?_, ?_⟩
    · exact act_begin_early (m := { n with stack := ts }) hb hc hrem hid f c
    · have hts : Spares n { n with stack := ts } := .of_eq rfl rfl rfl rfl rfl
      exact hts.trans (spares_unwind _ _ _)
  · rintro t rfl
    exact hr.still_terminal (hr.behind_cycle_open hcycle hx rfl)

end Machine

namespace Sample

/-- Two nodes of different collectors that wait for each other, and a terminal behind one of them. -/
def knot : Machine := Machine.play { catalogue := [("work", activity)] } [
  ⟨"start", false, .start "g" "g" ["work"] .null⟩,
  ⟨"start", false, .start "h" "h" ["work"] .null⟩,
  ⟨"perform", false, .perform "a" "work" "g" ["g"] none (.script [] true .null)⟩,
  ⟨"perform", false, .perform "b" "work" "h" ["a"] none (.script [] true .null)⟩,
  ⟨"finish", false, .finish "t" "h" ["b"] []⟩,
  ⟨"after", false, .after "a" "b"⟩]

/-- When the start is run, neither of the two nodes goes on, nor does the terminal, and the first node cannot
be begun. -/
theorem knot_never_runs :
    ∃ n, Machine.Later knot n ∧ n.world.final? (.start ⟨"g", 0⟩) = some .done ∧
      startings ⟨"a", 0⟩ n.journal = 0 ∧ startings ⟨"b", 0⟩ n.journal = 0 ∧ callings ⟨"t", 0⟩ n.journal = 0 ∧
      ∃ r q, q = Machine.raise { n with stack := [] } (.startedEarly (n.world.label (.node ⟨"a", 0⟩)) r) ∧
        Machine.act { n with stack := [] } {} ⟨none, "begin"⟩ (.begin "a") = .ok q ∧ n.Spares q := by
  have hm : knot.Reachable := ⟨_, .play rfl _⟩
  have hab : Feeds knot.journal ⟨"a", 0⟩ ⟨"b", 0⟩ := by unfold Feeds; decide +kernel
  have hba : Feeds knot.journal ⟨"b", 0⟩ ⟨"a", 0⟩ := by unfold Feeds; decide +kernel
  have hn : Machine.Later knot (Scenario.report knot {} ⟨"run", false, .run "g"⟩).2 :=
    .report (Machine.stack_play rfl _) {} _
  obtain ⟨-, hnever⟩ := hm.cycle_never_runs
  obtain ⟨hself, hbehind⟩ := hnever ⟨"a", 0⟩ (.tail (.single hab) hba) _ hn
  have hb : Behind knot.journal ⟨"a", 0⟩ (.node ⟨"b", 0⟩) := .direct hab
  have ht : Behind knot.journal ⟨"a", 0⟩ (.terminal ⟨"t", 0⟩) := ⟨⟨"b", 0⟩, .single hab, by decide +kernel⟩
  obtain ⟨hsa, -, -, -, -, hact⟩ := (hbehind _ hself).1 _ rfl
  obtain ⟨hsb, -⟩ := (hbehind _ (hb.mono hn.suffix)).1 _ rfl
  obtain ⟨htc, -⟩ := (hbehind _ (ht.mono hn.suffix)).2 _ rfl
  obtain ⟨r, -, q, hq, hact, hsp⟩ := hact [] {} ⟨none, "begin"⟩ "a" (by decide +kernel)
  exact ⟨_, hn, by decide +kernel, hsa, hsb, htc, r, q, hq, hact, hsp⟩

end Sample

end ActivityGraph
