import ActivityGraph.Proofs.Run

namespace ActivityGraph

structure Ledger where
  signal : Option Signal
  registered : List Waiter
  notified : List (Waiter × Bool)
  listeners : List Waiter
  /-- Who is being registered. -/
  enlisting : Option Waiter
  telling : Option (Waiter × Bool)
  /-- Who was in the list when it was taken, and is still to be called. -/
  pending : List Waiter

def Signal.notice (g : Signal) (x : Waiter) : Waiter × Bool := (x, g = .cancel)

namespace Ledger

/-- What can happen to the ledger of a source. -/
inductive Move : Ledger → Ledger → Prop
  | idle {l} : Move l l
  | register {l} (x : Waiter) (he : l.enlisting = none) :
      Move l { l with registered := l.registered ++ [x], enlisting := some x }
  | wait {l x} (he : l.enlisting = some x) (hg : l.signal = none) :
      Move l { l with listeners := l.listeners ++ [x], enlisting := none }
  | replay {l x g} (he : l.enlisting = some x) (hg : l.signal = some g) (ht : l.telling = none) :
      Move l { l with enlisting := none, telling := some (g.notice x) }
  | take {l x xs g} (hp : l.pending = x :: xs) (hg : l.signal = some g) (ht : l.telling = none) :
      Move l { l with pending := xs, telling := some (g.notice x) }
  | tell {l y} (ht : l.telling = some y) :
      Move l { l with notified := l.notified ++ [y], telling := none }
  | resolve {l} (g : Signal) (hg : l.signal = none) (he : l.enlisting = none) :
      Move l { l with signal := some g, listeners := [], pending := l.listeners ++ l.pending }

def calls (l : Ledger) : List (Waiter × Bool) := l.notified ++ l.telling.toList

/-- Nobody was told anything yet, and whoever registered waits in the list. -/
structure Silent (l : Ledger) : Prop where
  signal : l.signal = none
  calls : l.calls = []
  pending : l.pending = []
  registered : l.registered = l.listeners ++ l.enlisting.toList

/-- How far the calls have come after some of the waiters who registered `early`, before the source was final,
had theirs. Those who came late had theirs as soon as they came. -/
structure Shares (g : Signal) (early done pending late : List Waiter) (calls : List (Waiter × Bool)) : Prop where
  parts : early = done ++ pending
  inOrder : (done.map g.notice).Sublist calls
  atOnce : (late.map g.notice).Sublist calls
  perm : calls.Perm ((done ++ late).map g.notice)

namespace Shares

variable {g : Signal} {early done pending late : List Waiter} {calls : List (Waiter × Bool)} {x : Waiter}

theorem start (g : Signal) (early : List Waiter) : Shares g early [] early [] [] :=
  ⟨rfl, .refl _, .refl _, .refl _⟩

theorem call (h : Shares g early done (x :: pending) late calls) :
    Shares g early (done ++ [x]) pending late (calls ++ [g.notice x]) where
  parts := h.parts.trans (List.append_cons ..)
  inOrder := by
    rw [List.map_append]
    exact h.inOrder.append (.refl _)
  atOnce := h.atOnce.trans (List.sublist_append_left _ _)
  perm := by
    have hp := h.perm.append_right [g.notice x]
    refine hp.trans ?_
    rw [← List.map_singleton, ← List.map_append, List.append_assoc, List.append_assoc]
    exact (List.perm_append_comm.append_left done).map g.notice

theorem replay (h : Shares g early done pending late calls) (x : Waiter) :
    Shares g early done pending (late ++ [x]) (calls ++ [g.notice x]) where
  parts := h.parts
  inOrder := h.inOrder.trans (List.sublist_append_left _ _)
  atOnce := by
    rw [List.map_append]
    exact h.atOnce.append (.refl _)
  perm := by
    have hp := h.perm.append_right [g.notice x]
    rwa [← List.map_singleton, ← List.map_append, List.append_assoc] at hp

end Shares

/-- The source is final, and its list was taken when `early` had registered. -/
structure Told (l : Ledger) (g : Signal) (early : List Waiter) : Prop where
  signal : l.signal = some g
  listeners : l.listeners = []
  shares : ∃ done late, l.registered = early ++ late ++ l.enlisting.toList ∧
    Shares g early done l.pending late l.calls

variable {l m : Ledger} {g : Signal} {early : List Waiter}

theorem Silent.move (h : l.Silent) (hm : Move l m) : m.Silent ∨ ∃ g, m.Told g l.registered := by
  obtain ⟨hsignal, hcalls, hpending, hregistered⟩ := h
  cases hm with
  | idle => exact .inl ⟨hsignal, hcalls, hpending, hregistered⟩
  | register x he => exact .inl ⟨hsignal, hcalls, hpending, by simp [hregistered, he]⟩
  | wait he => exact .inl ⟨hsignal, hcalls, hpending, by simp [hregistered, he]⟩
  | replay _ hg | take _ hg => exact absurd (hsignal.symm.trans hg) (by simp)
  | tell ht => simp [Ledger.calls, ht] at hcalls
  | resolve g hg he =>
    have hlist : l.listeners = l.registered := by simp [hregistered, he]
    refine .inr ⟨g, rfl, rfl, [], [], by simp [he], ?_⟩
    rw [hlist, hpending, List.append_nil]
    exact hcalls ▸ Shares.start g l.registered

/-- Once a source is final its signal stays, and each call goes to the first of those still to be called or to
the one who has just come. -/
theorem Told.move (h : l.Told g early) (hm : Move l m) : m.Told g early := by
  obtain ⟨hsignal, hlisteners, done, late, hregistered, hshares⟩ := h
  cases hm with
  | idle => exact ⟨hsignal, hlisteners, done, late, hregistered, hshares⟩
  | register x he => exact ⟨hsignal, hlisteners, done, late, by simp [hregistered, he], hshares⟩
  | wait _ hg | resolve _ hg => exact absurd (hg.symm.trans hsignal) (by simp)
  | @replay x _ he hg ht =>
    obtain rfl := Option.some.inj (hg.symm.trans hsignal)
    refine ⟨hsignal, hlisteners, done, late ++ [x], by simp [hregistered, he], ?_⟩
    have hnext := hshares.replay x
    simpa only [Ledger.calls, ht, Option.toList_none, Option.toList_some, List.append_nil] using hnext
  | @take x xs _ hp hg ht =>
    obtain rfl := Option.some.inj (hg.symm.trans hsignal)
    rw [hp] at hshares
    refine ⟨hsignal, hlisteners, done ++ [x], late, hregistered, ?_⟩
    have hnext := hshares.call
    simpa only [Ledger.calls, ht, Option.toList_none, Option.toList_some, List.append_nil] using hnext
  | @tell y ht =>
    refine ⟨hsignal, hlisteners, done, late, hregistered, ?_⟩
    simpa only [Ledger.calls, ht, Option.toList_none, Option.toList_some, List.append_nil] using hshares

end Ledger

end ActivityGraph
