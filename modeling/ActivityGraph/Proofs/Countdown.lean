import ActivityGraph.Barrier
import Mathlib.Data.List.Count
import Mathlib.Data.List.Perm.Basic

namespace ActivityGraph

namespace Barrier

inductive Call where
  | arrive (canceled : Bool)
  | expect
  | release
deriving DecidableEq, Repr

namespace Call

def arrives : Call → Bool
  | .arrive _ => true
  | _ => false

def cancels : Call → Bool
  | .arrive canceled => canceled
  | _ => false

/-- What the count has to be for a call to be accepted at a barrier that is open. -/
def Due (remaining : Nat) : Call → Prop
  | .arrive _ => 0 < remaining
  | .expect => True
  | .release => remaining = 0

end Call

variable {b d : Barrier} {c : Call} {cs : List Call}

def take? (b : Barrier) : Call → Option Barrier
  | .arrive canceled => b.arrive? canceled
  | .expect => b.expect?
  | .release => b.release.toOption

def take (b : Barrier) (c : Call) : Barrier := (b.take? c).getD b

/-- Whether a call lets what waits at the barrier go on, and whether as canceled. -/
def crossing? (b : Barrier) : Call → Option Bool
  | .arrive canceled => (b.arrive? canceled).bind fun d ↦ if d.closed then some d.canceled else none
  | .expect => none
  | .release => b.release.toOption.map fun _ ↦ false

def play (b : Barrier) (cs : List Call) : Barrier := cs.foldl take b

def accepted : Barrier → List Call → List Call
  | _, [] => []
  | b, c :: cs => (if (b.take? c).isSome then [c] else []) ++ accepted (b.take c) cs

def crossings : Barrier → List Call → List Bool
  | _, [] => []
  | b, c :: cs => (b.crossing? c).toList ++ crossings (b.take c) cs

theorem play_append (b : Barrier) (cs ds : List Call) : b.play (cs ++ ds) = (b.play cs).play ds :=
  List.foldl_append

theorem crossings_append (b : Barrier) (cs ds : List Call) :
    b.crossings (cs ++ ds) = b.crossings cs ++ (b.play cs).crossings ds := by
  induction cs generalizing b with
  | nil => rfl
  | cons c cs ih => simp only [List.cons_append, crossings, ih, List.append_assoc]; rfl

theorem take?_cases (h : b.take? c = some d) :
    (∃ canceled, c = .arrive canceled ∧ b.closed = false ∧ 0 < b.remaining ∧
      d = ⟨b.remaining - 1, b.canceled || canceled, b.remaining = 1⟩) ∨
    (c = .expect ∧ b.closed = false ∧ d = { b with remaining := b.remaining + 1 }) ∨
    (c = .release ∧ b.closed = false ∧ b.remaining = 0 ∧ d = { b with closed := true }) := by
  cases c with
  | arrive canceled =>
    simp only [take?, arrive?] at h
    split at h
    · simp at h
    · next hn =>
      obtain ⟨hc, hr⟩ := not_or.1 hn
      exact .inl ⟨canceled, rfl, Bool.eq_false_iff.2 hc, Nat.pos_of_ne_zero hr, (Option.some.inj h).symm⟩
  | expect =>
    simp only [take?, expect?] at h
    split at h
    · simp at h
    · next hc => exact .inr (.inl ⟨rfl, Bool.eq_false_iff.2 hc, (Option.some.inj h).symm⟩)
  | release =>
    simp only [take?, release] at h
    split at h
    · simp [Except.toOption] at h
    · next hc =>
      split at h
      · next hr => exact .inr (.inr ⟨rfl, Bool.eq_false_iff.2 hc, hr, (Option.some.inj h).symm⟩)
      · simp [Except.toOption] at h

theorem take?_isSome_iff (b : Barrier) (c : Call) :
    (b.take? c).isSome ↔ b.closed = false ∧ c.Due b.remaining := by
  constructor
  · intro h
    obtain ⟨d, hd⟩ := Option.isSome_iff_exists.1 h
    rcases take?_cases hd with ⟨canceled, rfl, hc, hr, -⟩ | ⟨rfl, hc, -⟩ | ⟨rfl, hc, hr, -⟩
    · exact ⟨hc, hr⟩
    · exact ⟨hc, trivial⟩
    · exact ⟨hc, hr⟩
  · rintro ⟨hc, hd⟩
    cases c with
    | arrive canceled => simp [take?, arrive?, hc, Nat.ne_of_gt hd]
    | expect => simp [take?, expect?, hc]
    | release =>
      have hr : b.remaining = 0 := hd
      simp [take?, release, hc, hr, Except.toOption]

theorem take?_of_closed (h : b.closed) (c : Call) : b.take? c = none := by
  rw [← Option.not_isSome_iff_eq_none, take?_isSome_iff]
  simp [h]

theorem take_of_some (h : b.take? c = some d) : b.take c = d := by rw [take, h, Option.getD_some]

theorem take_of_none (h : b.take? c = none) : b.take c = b := by rw [take, h, Option.getD_none]

theorem play_of_closed (h : b.closed) (cs : List Call) : b.play cs = b := by
  induction cs with
  | nil => rfl
  | cons c cs ih => rwa [play, List.foldl_cons, take_of_none (take?_of_closed h c)]

theorem accepted_of_some (h : b.take? c = some d) (cs : List Call) :
    b.accepted (c :: cs) = c :: d.accepted cs := by
  simp [accepted, h, take_of_some h]

theorem accepted_of_none (h : b.take? c = none) (cs : List Call) : b.accepted (c :: cs) = b.accepted cs := by
  simp [accepted, h, take_of_none h]

theorem remaining_play (b : Barrier) (cs : List Call) :
    (b.play cs).remaining + (b.accepted cs).countP Call.arrives = b.remaining + (b.accepted cs).count .expect := by
  induction cs generalizing b with
  | nil => rfl
  | cons c cs ih =>
    rw [play, List.foldl_cons]
    cases h : b.take? c with
    | none =>
      rw [take_of_none h, accepted_of_none h]
      exact ih b
    | some d =>
      have hd := ih d
      rw [take_of_some h, accepted_of_some h]
      rcases take?_cases h with ⟨canceled, rfl, -, hr, rfl⟩ | ⟨rfl, -, rfl⟩ | ⟨rfl, -, -, rfl⟩
      · have hone : b.remaining - 1 + 1 = b.remaining := Nat.sub_add_cancel hr
        rw [List.countP_cons_of_pos rfl, List.count_cons_of_ne (by simp), ← Nat.add_assoc]
        refine (congrArg (· + 1) hd).trans ?_
        dsimp only
        omega
      · rw [List.countP_cons_of_neg (by simp [Call.arrives]), List.count_cons_self]
        exact hd.trans (Nat.add_right_comm _ _ _)
      · rw [List.countP_cons_of_neg (by simp [Call.arrives]), List.count_cons_of_ne (by simp)]
        exact hd

theorem canceled_play (b : Barrier) (cs : List Call) :
    (b.play cs).canceled = (b.canceled || (b.accepted cs).any Call.cancels) := by
  induction cs generalizing b with
  | nil => simp [play, accepted]
  | cons c cs ih =>
    rw [play, List.foldl_cons]
    cases h : b.take? c with
    | none =>
      rw [take_of_none h, accepted_of_none h]
      exact ih b
    | some d =>
      have hd := ih d
      rw [take_of_some h, accepted_of_some h, ← play, hd]
      rcases take?_cases h with ⟨canceled, rfl, -, -, rfl⟩ | ⟨rfl, -, rfl⟩ | ⟨rfl, -, -, rfl⟩
      · simp [Call.cancels, Bool.or_assoc]
      · simp [Call.cancels]
      · simp [Call.cancels]

/-- On an open barrier where a cancellation has arrived, something is still to come. -/
def Sane (b : Barrier) : Prop := b.closed = false → b.canceled → 0 < b.remaining

theorem Sane.take (hb : b.Sane) (c : Call) : (b.take c).Sane := by
  cases h : b.take? c with
  | none => rwa [take_of_none h]
  | some d =>
    rw [take_of_some h]
    intro hc hcanceled
    -- only arrivals cancel, and the one that takes the last of the count closes the barrier
    rcases take?_cases h with ⟨canceled, rfl, -, hr, rfl⟩ | ⟨rfl, -, rfl⟩ | ⟨rfl, -, -, rfl⟩
    · have hne : b.remaining ≠ 1 := by simpa using hc
      show 0 < b.remaining - 1
      omega
    · exact Nat.succ_pos _
    · simp at hc

theorem Sane.play (hb : b.Sane) (cs : List Call) : (b.play cs).Sane := by
  induction cs generalizing b with
  | nil => exact hb
  | cons c cs ih => exact ih (hb.take c)

theorem crossing?_of_none (h : b.take? c = none) : b.crossing? c = none := by
  cases c with
  | arrive canceled =>
    have hnone : b.arrive? canceled = none := h
    simp [crossing?, hnone]
  | expect => rfl
  | release =>
    have hnone : b.release.toOption = none := h
    simp [crossing?, hnone]

theorem crossing?_eq (hb : b.Sane) (c : Call) :
    b.crossing? c = if b.closed = false ∧ (b.take c).closed then some (b.take c).canceled else none := by
  cases h : b.take? c with
  | none =>
    rw [take_of_none h, if_neg (by simp)]
    exact crossing?_of_none h
  | some d =>
    rw [take_of_some h]
    rcases take?_cases h with ⟨canceled, rfl, hc, -, rfl⟩ | ⟨rfl, hc, rfl⟩ | ⟨rfl, hc, hr, rfl⟩
    · have hsome : b.arrive? canceled = some _ := h
      simp [crossing?, hsome, hc]
    · simp [crossing?, hc]
    · have hsome : b.release.toOption = some _ := h
      have hcanceled : b.canceled = false := by
        by_contra hn
        have hpos := hb hc (by simpa using hn)
        omega
      simp [crossing?, hsome, hc, hcanceled]

theorem crossings_eq (hb : b.Sane) (cs : List Call) :
    b.crossings cs = if b.closed = false ∧ (b.play cs).closed then [(b.play cs).canceled] else [] := by
  induction cs generalizing b with
  | nil =>
    rw [if_neg]
    · rfl
    · simp [play]
  | cons c cs ih =>
    have hplay : b.play (c :: cs) = (b.take c).play cs := rfl
    rw [crossings, ih (hb.take c), crossing?_eq hb, hplay]
    cases hd : (b.take c).closed with
    | true =>
      rw [play_of_closed hd, hd]
      split <;> simp
    | false =>
      have hc : b.closed = false := by
        by_contra hn
        rw [take_of_none (take?_of_closed (by simpa using hn) c)] at hd
        exact hn hd
      simp [hc]

theorem crossing?_isSome_iff (hb : b.Sane) (c : Call) :
    (b.crossing? c).isSome ↔ (b.take? c).isSome ∧ (c = .release ∨ c.arrives ∧ (b.take c).remaining = 0) := by
  rw [crossing?_eq hb]
  cases h : b.take? c with
  | none => simp [take_of_none h]
  | some d =>
    rw [take_of_some h]
    rcases take?_cases h with ⟨canceled, rfl, hc, hr, rfl⟩ | ⟨rfl, hc, rfl⟩ | ⟨rfl, hc, -, rfl⟩
    · simp [hc, Call.arrives]
      omega
    · simp [hc, Call.arrives]
    · simp [hc]

theorem crossing?_eq_any (hb : b.Sane) (hc : b.canceled = false) {flag : Bool} (h : (b.play cs).crossing? c = some flag) :
    flag = (b.accepted (cs ++ [c])).any Call.cancels := by
  have hcanceled := b.canceled_play (cs ++ [c])
  have hplay : b.play (cs ++ [c]) = (b.play cs).take c := b.play_append cs [c]
  rw [crossing?_eq (hb.play cs)] at h
  split at h
  · rw [hplay, hc, Bool.false_or] at hcanceled
    exact (Option.some.inj h).symm.trans hcanceled
  · simp at h

theorem crossing?_release {flag : Bool} (h : b.crossing? .release = some flag) : flag = false := by
  obtain ⟨d, -, rfl⟩ := Option.map_eq_some_iff.1 h
  rfl

theorem accepted_of_closed (h : (b.play cs).closed) (ds : List Call) : b.accepted (cs ++ ds) = b.accepted cs := by
  induction cs generalizing b with
  | nil =>
    have hb : b.closed := h
    induction ds with
    | nil => rfl
    | cons d ds ih => rwa [List.nil_append, accepted_of_none (take?_of_closed hb d)]
  | cons c cs ih => rw [List.cons_append, accepted, accepted, ih h]

theorem play_batch (hb : b.closed = false) {cs : List Call} (hcs : ∀ c ∈ cs, c.arrives)
    (hle : cs.length ≤ b.remaining) :
    b.play cs = ⟨b.remaining - cs.length, b.canceled || cs.any Call.cancels,
      decide (cs ≠ [] ∧ cs.length = b.remaining)⟩ := by
  induction cs generalizing b with
  | nil =>
    obtain ⟨remaining, canceled, closed⟩ := b
    simp_all [play]
  | cons c cs ih =>
    obtain ⟨hc, hrest⟩ := List.forall_mem_cons.1 hcs
    cases c with
    | arrive canceled =>
      have hpos : b.remaining ≠ 0 := by
        rw [List.length_cons] at hle
        omega
      have htake : b.take (.arrive canceled) = ⟨b.remaining - 1, b.canceled || canceled, b.remaining = 1⟩ := by
        simp [take, take?, arrive?, hb, hpos]
      have hplay : b.play (.arrive canceled :: cs) = (b.take (.arrive canceled)).play cs := rfl
      rw [List.length_cons] at hle
      rw [hplay, htake]
      -- if this arrival closes the barrier, the batch ends with it
      by_cases hone : b.remaining = 1
      · have hnil : cs = [] := List.length_eq_zero_iff.1 (by omega)
        simp [hnil, hone, play, Call.cancels]
      · have hlen : cs.length ≤ b.remaining - 1 := by omega
        have hclosed : (cs ≠ [] ∧ cs.length = b.remaining - 1) ↔ cs.length + 1 = b.remaining := by
          rw [← List.length_pos_iff]
          omega
        rw [ih (by simpa using hone) hrest hlen]
        simp [hclosed, Call.cancels, Bool.or_assoc, Nat.sub_sub, Nat.add_comm]
    | expect | release => simp [Call.arrives] at hc

theorem play_perm (hb : b.closed = false) {cs ds : List Call} (hp : cs.Perm ds) (hcs : ∀ c ∈ cs, c.arrives)
    (hle : cs.length ≤ b.remaining) : b.play cs = b.play ds := by
  have hds : ∀ c ∈ ds, c.arrives := fun c hc ↦ hcs c (hp.mem_iff.2 hc)
  have hany : cs.any Call.cancels = ds.any Call.cancels := hp.any_eq
  have hnil : cs = [] ↔ ds = [] := by
    rw [← List.length_eq_zero_iff, ← List.length_eq_zero_iff, hp.length_eq]
  rw [play_batch hb hcs hle, play_batch hb hds (hp.length_eq ▸ hle), hp.length_eq, hany]
  simp only [ne_eq, hnil]

end Barrier

end ActivityGraph
