import ActivityGraph.Proofs.Table
import Mathlib.Data.List.Forall2

namespace ActivityGraph

namespace Table

variable {κ α β : Type}

def restrict (p : κ → Bool) (t : Table κ α) : Table κ α := ⟨t.entries.filter fun e ↦ p e.1⟩

@[simp] theorem entries_restrict (p : κ → Bool) (t : Table κ α) :
    (t.restrict p).entries = t.entries.filter fun e ↦ p e.1 := rfl

theorem keys_restrict (p : κ → Bool) (t : Table κ α) : (t.restrict p).keys = t.keys.filter p := by
  simp [keys, List.filter_map, Function.comp_def]

theorem restrict_insert (p : κ → Bool) (t : Table κ α) (k : κ) (a : α) :
    (t.insert k a).restrict p = if p k then (t.restrict p).insert k a else t.restrict p := by
  cases h : p k <;> simp [restrict, insert, h]

theorem restrict_true (t : Table κ α) : t.restrict (fun _ ↦ true) = t := by
  simp [restrict]

theorem restrict_eq_self {p : κ → Bool} {t : Table κ α} (h : t.restrict (fun k ↦ !p k) = {}) : t.restrict p = t := by
  have hn : t.entries.filter (fun e ↦ !p e.1) = [] := congrArg entries h
  refine congrArg mk (List.filter_eq_self.2 fun e he ↦ ?_)
  simpa using List.filter_eq_nil_iff.1 hn e he

section

variable [DecidableEq κ]

theorem restrict_modify (p : κ → Bool) (t : Table κ α) (k : κ) (f : α → α) :
    (t.modify k f).restrict p = if p k then (t.restrict p).modify k f else t.restrict p := by
  obtain ⟨es⟩ := t
  simp only [restrict, modify, ← apply_ite Table.mk]
  congr 1
  induction es with
  | nil => simp [modifyEntry]
  | cons e es ih =>
    by_cases he : e.1 = k
    · cases h : p k <;> simp [modifyEntry, he, h]
    · cases h : p k <;> cases h' : p e.1 <;> simp_all [modifyEntry]

theorem restrict_erase (p : κ → Bool) (t : Table κ α) (k : κ) :
    (t.erase k).restrict p = (t.restrict p).erase k := by
  simp only [restrict, erase, List.filter_filter, Bool.and_comm]

theorem erase_restrict_of_not {p : κ → Bool} {k : κ} (hk : p k = false) (t : Table κ α) :
    (t.restrict p).erase k = t.restrict p := by
  simp only [restrict, erase, List.filter_filter, mk.injEq]
  refine List.filter_congr fun e _ ↦ ?_
  by_cases he : e.1 = k <;> simp [he, hk]

theorem restrict_put (p : κ → Bool) (t : Table κ α) (k : κ) (a : α) :
    (t.put k a).restrict p = if p k then (t.restrict p).put k a else t.restrict p := by
  rw [put, restrict_insert, restrict_erase]
  cases h : p k
  · rw [erase_restrict_of_not h]
    rfl
  · rfl

theorem get?_restrict {p : κ → Bool} {k : κ} (hk : p k) (t : Table κ α) : (t.restrict p).get? k = t.get? k := by
  simp only [get?, restrict, List.find?_filter]
  congr 2
  funext e
  by_cases he : e.1 = k <;> simp [he, hk]

theorem modify_congr {t : Table κ α} {k : κ} {a : α} (h : t.get? k = some a) {f g : α → α} (hfg : f a = g a) :
    t.modify k f = t.modify k g := by
  obtain ⟨es⟩ := t
  simp only [get?, modify, mk.injEq] at h ⊢
  induction es with
  | nil => rfl
  | cons e es ih =>
    by_cases he : e.1 = k
    · simp only [List.find?_cons, he, decide_true, Option.map_some, Option.some.injEq] at h
      simp only [modifyEntry, he, if_true, h, hfg]
    · simp only [List.find?_cons, he, decide_false] at h
      simp only [modifyEntry, he, if_false, ih h]

theorem modify_insert {t : Table κ α} {k : κ} (h : t.get? k = none) {a : α} (f : α → α) :
    (t.insert k a).modify k f = t.insert k (f a) := by
  obtain ⟨es⟩ := t
  simp only [get?, insert, modify, mk.injEq] at h ⊢
  induction es with
  | nil => simp [modifyEntry]
  | cons e es ih =>
    by_cases he : e.1 = k
    · simp [he] at h
    · simp only [List.find?_cons, he, decide_false] at h
      simp only [List.cons_append, modifyEntry, he, if_false, ih h]

theorem modify_id (t : Table κ α) (k : κ) : t.modify k id = t := by
  obtain ⟨es⟩ := t
  simp only [modify, mk.injEq]
  induction es with
  | nil => rfl
  | cons e es ih => simp [modifyEntry, ih]

end

/-- On the keys that pass, two tables have the same keys in the same order, with related values. -/
def Alike (p : κ → Bool) (R : κ → α → β → Prop) (t : Table κ α) (u : Table κ β) : Prop :=
  List.Forall₂ (fun a b ↦ a.1 = b.1 ∧ R a.1 a.2 b.2) (t.restrict p).entries (u.restrict p).entries

namespace Alike

variable {p : κ → Bool} {R : κ → α → β → Prop} {t : Table κ α} {u : Table κ β} {k : κ} {a : α} {b : β}

theorem of_restrict {t' : Table κ α} {u' : Table κ β} (h : Alike p R t u) (ht : t'.restrict p = t.restrict p)
    (hu : u'.restrict p = u.restrict p) : Alike p R t' u' := by
  rw [Alike, ht, hu]
  exact h

theorem restrict_eq {R : κ → α → α → Prop} {t u : Table κ α} (h : Alike p R t u) (hR : ∀ k a b, R k a b → b = a) :
    u.restrict p = t.restrict p := by
  have he : List.Forall₂ Eq (t.restrict p).entries (u.restrict p).entries :=
    List.Forall₂.imp (fun a b hab ↦ Prod.ext hab.1 (hR _ _ _ hab.2).symm) h
  rw [List.forall₂_eq_eq_eq] at he
  exact congrArg Table.mk he.symm

theorem refl {R : κ → α → α → Prop} {t : Table κ α} (h : ∀ e ∈ t.entries, p e.1 → R e.1 e.2 e.2) : Alike p R t t := by
  refine List.forall₂_same.2 fun e he ↦ ⟨rfl, ?_⟩
  obtain ⟨he, hp⟩ := List.mem_filter.1 he
  exact h e he hp

theorem empty : Alike p R {} {} := .nil

theorem keys (h : Alike p R t u) : (u.restrict p).keys = (t.restrict p).keys := by
  unfold Alike at h
  simp only [Table.keys]
  generalize (t.restrict p).entries = es, (u.restrict p).entries = fs at h
  induction h with
  | nil => rfl
  | cons h _ ih => simp [ih, h.1]

theorem insert (h : Alike p R t u) (hab : p k → R k a b) : Alike p R (t.insert k a) (u.insert k b) := by
  unfold Alike
  rw [restrict_insert, restrict_insert]
  split
  · next hk => exact List.rel_append h (.cons ⟨rfl, hab hk⟩ .nil)
  · exact h

variable [DecidableEq κ]

theorem get? (h : Alike p R t u) (hk : p k) : Option.Rel (R k) (t.get? k) (u.get? k) := by
  rw [← get?_restrict hk t, ← get?_restrict hk u]
  unfold Alike at h
  simp only [Table.get?]
  generalize (t.restrict p).entries = es, (u.restrict p).entries = fs at h ⊢
  induction h with
  | nil => exact .none
  | @cons a b as bs hab _ ih =>
    by_cases hak : a.1 = k
    · have hbk : b.1 = k := hab.1 ▸ hak
      simp only [List.find?_cons, hak, hbk, decide_true, Option.map_some]
      exact .some (hak ▸ hab.2)
    · have hbk : b.1 ≠ k := hab.1 ▸ hak
      simpa only [List.find?_cons, hak, hbk, decide_false] using ih

theorem get?_some (h : Alike p R t u) (hk : p k) (ha : t.get? k = some a) : ∃ b, u.get? k = some b ∧ R k a b := by
  have hr := h.get? hk
  rw [ha] at hr
  generalize u.get? k = o at hr
  cases hr with
  | some hr => exact ⟨_, rfl, hr⟩

theorem get?_none (h : Alike p R t u) (hk : p k) (ha : t.get? k = none) : u.get? k = none := by
  have hr := h.get? hk
  rw [ha] at hr
  generalize u.get? k = o at hr
  cases hr with
  | none => rfl

theorem map_eq {γ : Type} {f : α → γ} {g : β → γ} (h : Alike p R t u) (hk : p k) (hfg : ∀ a b, R k a b → g b = f a) :
    (u.get? k).map g = (t.get? k).map f := by
  cases ha : t.get? k with
  | none => rw [h.get?_none hk ha, Option.map_none, Option.map_none]
  | some a =>
    obtain ⟨b, hb, hab⟩ := h.get?_some hk ha
    rw [hb, Option.map_some, Option.map_some, hfg a b hab]

theorem erase (h : Alike p R t u) (k : κ) : Alike p R (t.erase k) (u.erase k) := by
  unfold Alike at h ⊢
  rw [restrict_erase, restrict_erase]
  simp only [Table.erase]
  generalize (t.restrict p).entries = es, (u.restrict p).entries = fs at h
  induction h with
  | nil => exact .nil
  | cons hab _ ih =>
    rw [List.filter_cons, List.filter_cons, hab.1]
    split
    · exact .cons hab ih
    · exact ih

theorem put (h : Alike p R t u) (hab : p k → R k a b) : Alike p R (t.put k a) (u.put k b) := (h.erase k).insert hab

theorem modify (h : Alike p R t u) {f : α → α} {g : β → β} (hfg : p k → ∀ a b, R k a b → R k (f a) (g b)) :
    Alike p R (t.modify k f) (u.modify k g) := by
  unfold Alike at h ⊢
  rw [restrict_modify, restrict_modify]
  split
  · next hk =>
    simp only [Table.modify]
    generalize (t.restrict p).entries = es, (u.restrict p).entries = fs at h
    induction h with
    | nil => exact .nil
    | @cons a b as bs hab h ih =>
      by_cases hak : a.1 = k
      · have hbk : b.1 = k := hab.1 ▸ hak
        simp only [modifyEntry, hak, hbk, if_true]
        exact .cons ⟨rfl, hfg hk _ _ (hak ▸ hab.2)⟩ h
      · have hbk : b.1 ≠ k := hab.1 ▸ hak
        simp only [modifyEntry, hak, hbk, if_false]
        exact .cons hab ih
  · exact h

/-- A change that the relation does not see can be made on one side only. -/
theorem modify_right (h : Alike p R t u) {g : β → β} (hg : p k → ∀ a b, R k a b → R k a (g b)) :
    Alike p R t (u.modify k g) := by
  have hm := h.modify (k := k) (f := id) hg
  rwa [modify_id] at hm

end Alike

end Table

theorem Table.fresh_restrict {α : Type} {own : String → Bool} {id : String} (hid : own id) (t : Table Key α) :
    (t.restrict fun k ↦ own k.handle).fresh id = t.fresh id := by
  simp only [Table.fresh, keys_restrict, List.countP_filter]
  congr 1
  refine List.countP_congr fun k _ ↦ ?_
  by_cases hk : k.handle = id <;> simp [hk, hid]

theorem Table.Alike.fresh {α β : Type} {own : String → Bool} {R : Key → α → β → Prop} {t : Table Key α}
    {u : Table Key β} (h : Table.Alike (fun k ↦ own k.handle) R t u) {id : String} (hid : own id) :
    u.fresh id = t.fresh id := by
  rw [← fresh_restrict hid t, ← fresh_restrict hid u, Table.fresh, h.keys, Table.fresh]

end ActivityGraph
