import ActivityGraph.Proofs.Stride.Marks

namespace ActivityGraph

namespace World

def slots? (w : World) (c : Key) : Option (Table Activity (Option Outcome)) :=
  (w.collectors.get? c).map Collector.slots

def Declares (w : World) (c : Key) (x : Activity) : Prop := ∃ t, w.slots? c = some t ∧ t.contains x

def slot? (w : World) (c : Key) (x : Activity) : Option Outcome := (w.slots? c).bind fun t ↦ (t.get? x).join

variable {v w : World} {c d : Key} {x y : Activity} {r : Outcome}

theorem declares_iff {col : Collector} (h : w.collectors.get? c = some col) : w.Declares c x ↔ col.declares x := by
  rw [Declares, slots?, h, Option.map_some]
  constructor
  · rintro ⟨t, ht, hx⟩
    obtain rfl := Option.some.inj ht
    exact hx
  · intro hx
    exact ⟨_, rfl, hx⟩

theorem slot?_of_collector {col : Collector} (h : w.collectors.get? c = some col) : w.slot? c x = col.slot? x := by
  rw [slot?, slots?, h]
  rfl

theorem isSome_slots? {col : Collector} (h : w.collectors.get? c = some col) : (w.slots? c).isSome := by
  rw [slots?, h]
  rfl

theorem Declares.of_slots (h : w.Declares c x) (hs : v.slots? c = w.slots? c) : v.Declares c x := by
  rw [Declares, hs]
  exact h

theorem slots?_modifyCollector (w : World) (c : Key) (f : Collector → Collector) (hf : ∀ e, (f e).slots = e.slots)
    (d : Key) : (w.modifyCollector c f).slots? d = w.slots? d := by
  rw [slots?, modifyCollector, Table.get?_modify, slots?]
  split
  · rw [Option.map_map]
    exact Option.map_congr fun e _ ↦ hf e
  · rfl

theorem slots?_drawEdge (w : World) (s : Source) (z : Waiter) (d : Key) : (w.drawEdge s z).slots? d = w.slots? d := by
  unfold drawEdge
  split
  · split
    · exact w.slots?_modifyCollector _ _ (by intro _; rfl) d
    · rfl
  · rfl

theorem slots?_store (h : w.store c x r = .ok v) :
    w.Declares c x ∧ ∀ d, v.slots? d = if c = d then (w.slots? d).map fun t ↦ t.modify x fun _ ↦ some r
      else w.slots? d := by
  unfold store at h
  cases hc : w.collectors.get? c with
  | none => simp [hc] at h
  | some col =>
    simp only [hc, Collector.insert] at h
    by_cases hx : col.declares x
    · rw [if_pos hx] at h
      obtain rfl := Except.ok.inj h
      refine ⟨(declares_iff hc).2 hx, fun d ↦ ?_⟩
      rw [slots?, modifyCollector, Table.get?_modify, slots?]
      split
      · next hd => simp [← hd, hc]
      · rfl
    · rw [if_neg hx] at h
      simp at h

theorem isSome_slots?_store (h : w.store c x r = .ok v) (hd : (w.slots? d).isSome) : (v.slots? d).isSome := by
  rw [(slots?_store h).2 d]
  split
  · rwa [Option.isSome_map]
  · exact hd

theorem exists_store (h : w.Declares c x) (r : Outcome) : ∃ v, w.store c x r = .ok v := by
  obtain ⟨t, ht, hx⟩ := h
  obtain ⟨col, hc, rfl⟩ := Option.map_eq_some_iff.1 ht
  have hd : col.declares x := hx
  simp [store, hc, Collector.insert, hd]

theorem Declares.store (h : w.Declares d y) (hv : w.store c x r = .ok v) : v.Declares d y := by
  obtain ⟨t, ht, hy⟩ := h
  obtain ⟨-, hs⟩ := slots?_store hv
  rw [Declares, hs d, ht]
  split
  · refine ⟨_, rfl, ?_⟩
    rw [Table.contains, Table.isSome_get?_modify]
    exact hy
  · exact ⟨t, rfl, hy⟩

theorem slot?_store (hv : w.store c x r = .ok v) (d : Key) (y : Activity) :
    v.slot? d y = if c = d ∧ x = y then some r else w.slot? d y := by
  obtain ⟨⟨t, ht, hx⟩, hs⟩ := slots?_store hv
  rw [slot?, hs d, slot?]
  by_cases hd : c = d
  · subst hd
    rw [if_pos rfl, ht, Option.map_some, Option.bind_some, Option.bind_some, Table.get?_modify]
    by_cases hy : x = y
    · subst hy
      obtain ⟨o, ho⟩ := Option.isSome_iff_exists.1 hx
      simp [ho]
    · simp [hy]
  · simp [hd]

end World

namespace Table

variable {κ α : Type} [DecidableEq κ]

theorem get?_ofKeys {ks : List κ} {a b : α} {k : κ} (h : (ofKeys ks a).get? k = some b) : b = a := by
  suffices all : ∀ t : Table κ α, (∀ b, t.get? k = some b → b = a) →
      ∀ b, (ks.foldl (fun t l ↦ t.put l a) t).get? k = some b → b = a by
    refine all {} (fun b hb ↦ ?_) b h
    simp [get?] at hb
  clear h
  induction ks with
  | nil => exact fun t ht ↦ ht
  | cons l ks ih =>
    intro t ht
    apply ih
    intro b hb
    rw [get?_put] at hb
    split at hb
    · exact (Option.some.inj hb).symm
    · exact ht b hb

end Table

namespace Machine

variable (m : Machine) (d : Key)

theorem slots?_wireAll (z : Waiter) (ss : List Source) : (m.wireAll z ss).world.slots? d = m.world.slots? d := by
  induction ss generalizing m with
  | nil => rfl
  | cons s ss ih =>
    refine (ih (m.wire z s)).trans ?_
    exact m.world.slots?_drawEdge s z d

theorem slots?_addNode (id : String) (x : Activity) (c : Key) (deps : List Source) (s : Setup Script)
    (work : Work Script) : (m.addNode id x c deps s work).world.slots? d = m.world.slots? d := by
  refine (slots?_wireAll _ d _ deps).trans ?_
  exact m.world.slots?_modifyCollector c _ (by intro _; rfl) d

theorem slots?_placeTerminal (id : String) (c : Key) (deps : List Source) (body : Script) :
    (m.placeTerminal id c deps body).world.slots? d = m.world.slots? d := by
  refine (slots?_wireAll _ d _ deps).trans ?_
  exact m.world.slots?_modifyCollector c _ (by intro _; rfl) d

end Machine

end ActivityGraph
