import ActivityGraph.Table
import Mathlib.Algebra.BigOperators.Group.List.Basic
import Mathlib.Data.List.Nodup
import Mathlib.Tactic.Abel

namespace ActivityGraph

namespace Table

variable {κ α : Type}

@[simp] theorem keys_insert (t : Table κ α) (k : κ) (a : α) : (t.insert k a).keys = t.keys ++ [k] := by
  simp [keys, insert]

theorem sum_entries_insert {M : Type} [AddCommMonoid M] (g : κ × α → M) (t : Table κ α) (k : κ) (a : α) :
    ((t.insert k a).entries.map g).sum = (t.entries.map g).sum + g (k, a) := by
  simp [insert]

variable [DecidableEq κ]

theorem isSome_get?_iff {t : Table κ α} {k : κ} : (t.get? k).isSome ↔ k ∈ t.keys := by
  simp [get?, keys]

theorem get?_eq_none_iff {t : Table κ α} {k : κ} : t.get? k = none ↔ k ∉ t.keys := by
  rw [← isSome_get?_iff, Option.not_isSome_iff_eq_none]

theorem get?_modify (t : Table κ α) (k l : κ) (f : α → α) :
    (t.modify k f).get? l = if k = l then (t.get? l).map f else t.get? l := by
  split
  · next h => exact h ▸ get?_modify_self t k f
  · next h => exact get?_modify_of_ne t h f

@[simp] theorem isSome_get?_modify (t : Table κ α) (k l : κ) (f : α → α) :
    ((t.modify k f).get? l).isSome = (t.get? l).isSome := by
  rw [get?_modify]
  split <;> simp

@[simp] theorem isSome_get?_insert (t : Table κ α) (k l : κ) (a : α) :
    ((t.insert k a).get? l).isSome = ((t.get? l).isSome || decide (k = l)) := by
  rw [get?_insert]
  by_cases h : k = l <;> cases t.get? l <;> simp [h]

theorem isSome_get?_insert_self (t : Table κ α) (k : κ) (a : α) : ((t.insert k a).get? k).isSome := by
  simp

theorem get?_insert_of_new {t : Table κ α} {k : κ} (h : t.get? k = none) (l : κ) (a : α) :
    (t.insert k a).get? l = if k = l then some a else t.get? l := by
  rw [get?_insert]
  split
  · next he => rw [← he, h, Option.none_or]
  · exact Option.or_none

theorem get?_of_mem {t : Table κ α} (ht : t.keys.Nodup) {e : κ × α} (he : e ∈ t.entries) :
    t.get? e.1 = some e.2 := by
  obtain ⟨es⟩ := t
  simp only [keys, get?] at ht he ⊢
  induction es with
  | nil => exact absurd he List.not_mem_nil
  | cons d es ih =>
    rw [List.map_cons, List.nodup_cons] at ht
    rcases List.mem_cons.1 he with rfl | hm
    · simp
    · have hd : d.1 ≠ e.1 := fun h ↦ ht.1 (h ▸ List.mem_map_of_mem hm)
      simpa [hd] using ih ht.2 hm

theorem mem_of_get? {t : Table κ α} {k : κ} {a : α} (h : t.get? k = some a) : (k, a) ∈ t.entries := by
  unfold get? at h
  obtain ⟨e, he, rfl⟩ := Option.map_eq_some_iff.1 h
  have hk := List.find?_some he
  simp only [decide_eq_true_eq] at hk
  exact hk ▸ List.mem_of_find?_eq_some he

theorem sum_entries_modify {M : Type} [AddCommMonoid M] (g : κ × α → M) {t : Table κ α} {k : κ} {a : α}
    (h : t.get? k = some a) (f : α → α) :
    ((t.modify k f).entries.map g).sum + g (k, a) = (t.entries.map g).sum + g (k, f a) := by
  obtain ⟨es⟩ := t
  simp only [get?, modify] at h ⊢
  induction es with
  | nil => simp at h
  | cons e es ih =>
    by_cases he : e.1 = k
    · simp only [List.find?_cons, he, decide_true, Option.map_some, Option.some.injEq] at h
      subst h
      simp only [modifyEntry, he, if_true, List.map_cons, List.sum_cons]
      rw [show e = (k, e.2) from Prod.ext he rfl]
      abel
    · simp only [List.find?_cons, he, decide_false] at h
      simp only [modifyEntry, he, if_false, List.map_cons, List.sum_cons]
      rw [add_assoc, ih h, add_assoc]

theorem erase_eq_self {t : Table κ α} {k : κ} (h : t.get? k = none) : t.erase k = t := by
  have hk := get?_eq_none_iff.1 h
  refine congrArg Table.mk (List.filter_eq_self.2 fun e he ↦ ?_)
  simp only [ne_eq, decide_eq_true_eq]
  rintro rfl
  exact hk (List.mem_map_of_mem he)

theorem nodup_keys_erase {t : Table κ α} (h : t.keys.Nodup) (k : κ) : (t.erase k).keys.Nodup :=
  h.sublist (List.filter_sublist.map _)

theorem nodup_keys_put {t : Table κ α} (h : t.keys.Nodup) (k : κ) (a : α) : (t.put k a).keys.Nodup := by
  rw [keys_put]
  exact (h.filter _).append (List.nodup_singleton k) (by simp)

variable [DecidableEq α]

theorem count_values_erase_le (t : Table κ α) (k : κ) (a : α) :
    (t.erase k).values.count a ≤ t.values.count a :=
  (List.filter_sublist.map _).count_le a

theorem count_values_erase_lt {t : Table κ α} {k : κ} {a : α} (h : t.get? k = some a) :
    (t.erase k).values.count a < t.values.count a := by
  obtain ⟨es⟩ := t
  simp only [get?, values, erase] at h ⊢
  induction es with
  | nil => simp at h
  | cons e es ih =>
    by_cases he : e.1 = k
    · simp only [List.find?_cons, he, decide_true, Option.map_some, Option.some.injEq] at h
      have := ((List.filter_sublist (p := fun e : κ × α ↦ decide (e.1 ≠ k)) (l := es)).map Prod.snd).count_le a
      simp only [List.filter_cons, he, ne_eq, not_true, decide_false, Bool.false_eq_true, if_false, List.map_cons, h,
        List.count_cons_self] at this ⊢
      omega
    · simp only [List.find?_cons, he, decide_false] at h
      have := ih h
      simp only [List.filter_cons, he, ne_eq, not_false_eq_true, decide_true, if_true, List.map_cons,
        List.count_cons] at this ⊢
      omega

theorem count_values_put_le (t : Table κ α) (k : κ) (b a : α) :
    (t.put k b).values.count a ≤ t.values.count a + if b = a then 1 else 0 := by
  have := count_values_erase_le t k a
  rw [put, values_insert, List.count_append, List.count_singleton]
  simp only [beq_iff_eq]
  omega

theorem count_values_erase {t : Table κ α} (ht : t.keys.Nodup) {k : κ} {b : α} (h : t.get? k = some b) (a : α) :
    (t.erase k).values.count a + (if b = a then 1 else 0) = t.values.count a := by
  obtain ⟨es⟩ := t
  simp only [keys, get?, values, erase] at ht h ⊢
  induction es with
  | nil => simp at h
  | cons e es ih =>
    rw [List.map_cons, List.nodup_cons] at ht
    by_cases he : e.1 = k
    · -- no other entry has this key, so only this one goes
      have hes : es.filter (fun e ↦ e.1 ≠ k) = es := by
        refine List.filter_eq_self.2 fun d hd ↦ ?_
        simp only [ne_eq, decide_eq_true_eq]
        intro hk
        exact ht.1 (he.trans hk.symm ▸ List.mem_map_of_mem hd)
      simp only [List.find?_cons, he, decide_true, Option.map_some, Option.some.injEq] at h
      rw [List.filter_cons_of_neg (by simp [he]), hes, List.map_cons, List.count_cons, h]
      simp only [beq_iff_eq]
    · simp only [List.find?_cons, he, decide_false] at h
      have := ih ht.2 h
      rw [List.filter_cons_of_pos (by simp [he]), List.map_cons, List.map_cons, List.count_cons, List.count_cons]
      omega

theorem count_values_put {t : Table κ α} {k : κ} (h : t.get? k = none) (b a : α) :
    (t.put k b).values.count a = t.values.count a + if b = a then 1 else 0 := by
  rw [put, erase_eq_self h, values_insert, List.count_append, List.count_singleton]
  simp only [beq_iff_eq]

end Table

namespace Table

variable {α : Type}

/-- The keys of a table are all different, and those of a handle are numbered without gaps. -/
structure Numbered (t : Table Key α) : Prop where
  nodup : t.keys.Nodup
  turn_lt : ∀ k ∈ t.keys, k.turn < t.keys.countP fun l ↦ l.handle = k.handle

theorem Numbered.empty : Numbered ({} : Table Key α) := ⟨List.nodup_nil, by simp [keys]⟩

theorem Numbered.fresh_notMem {t : Table Key α} (ht : t.Numbered) (id : String) :
    t.fresh id ∉ t.keys := fun h ↦ Nat.lt_irrefl _ (ht.turn_lt _ h)

theorem Numbered.get?_fresh {t : Table Key α} (ht : t.Numbered) (id : String) :
    t.get? (t.fresh id) = none := get?_eq_none_iff.2 (ht.fresh_notMem id)

theorem Numbered.insert {t : Table Key α} (ht : t.Numbered) (id : String) (a : α) :
    (t.insert (t.fresh id) a).Numbered := by
  constructor
  · rw [keys_insert]
    exact ht.nodup.append (List.nodup_singleton _) (by simpa using ht.fresh_notMem id)
  · intro k hk
    rw [keys_insert, List.mem_append, List.mem_singleton] at hk
    rw [keys_insert, List.countP_append]
    rcases hk with hk | rfl
    · exact Nat.lt_of_lt_of_le (ht.turn_lt k hk) (Nat.le_add_right _ _)
    · simp only [fresh, List.countP_singleton, decide_true, if_true]
      exact Nat.lt_succ_self _

theorem Numbered.of_keys {β : Type} {t : Table Key α} {u : Table Key β} (ht : t.Numbered)
    (h : u.keys = t.keys) : u.Numbered := ⟨h ▸ ht.nodup, h ▸ ht.turn_lt⟩

end Table

end ActivityGraph
