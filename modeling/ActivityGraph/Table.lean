namespace ActivityGraph

def total : List Nat → Nat
  | [] => 0
  | n :: ns => n + total ns

@[simp] theorem total_nil : total [] = 0 := rfl

@[simp] theorem total_cons (n : Nat) (ns : List Nat) : total (n :: ns) = n + total ns := rfl

@[simp] theorem total_append (ms ns : List Nat) : total (ms ++ ns) = total ms + total ns := by
  induction ms with
  | nil => simp
  | cons m ms ih => simp [ih, Nat.add_assoc]

structure Table (κ α : Type) where
  entries : List (κ × α) := []

namespace Table

variable {κ α : Type}

def keys (t : Table κ α) : List κ := t.entries.map Prod.fst

def values (t : Table κ α) : List α := t.entries.map Prod.snd

def insert (t : Table κ α) (k : κ) (a : α) : Table κ α := ⟨t.entries ++ [(k, a)]⟩

@[simp] theorem values_insert (t : Table κ α) (k : κ) (a : α) :
    (t.insert k a).values = t.values ++ [a] := by simp [values, insert]

variable [DecidableEq κ]

def get? (t : Table κ α) (k : κ) : Option α := (t.entries.find? fun e ↦ e.1 = k).map Prod.snd

def contains (t : Table κ α) (k : κ) : Bool := (t.get? k).isSome

def modifyEntry (k : κ) (f : α → α) : List (κ × α) → List (κ × α)
  | [] => []
  | e :: es => if e.1 = k then (e.1, f e.2) :: es else e :: modifyEntry k f es

def modify (t : Table κ α) (k : κ) (f : α → α) : Table κ α := ⟨modifyEntry k f t.entries⟩

def erase (t : Table κ α) (k : κ) : Table κ α := ⟨t.entries.filter fun e ↦ e.1 ≠ k⟩

/-- Writes an entry, which comes last; it takes the place of one with the same key. -/
def put (t : Table κ α) (k : κ) (a : α) : Table κ α := (t.erase k).insert k a

def ofKeys (ks : List κ) (a : α) : Table κ α := ks.foldl (fun t k ↦ t.put k a) {}

theorem get?_insert (t : Table κ α) (k l : κ) (a : α) :
    (t.insert k a).get? l = (t.get? l).or (if k = l then some a else none) := by
  obtain ⟨es⟩ := t
  simp only [get?, insert, List.find?_append, List.find?_cons, List.find?_nil]
  by_cases h : k = l <;> cases es.find? (fun e ↦ decide (e.1 = l)) <;> simp [h]

theorem get?_erase (t : Table κ α) (k l : κ) :
    (t.erase k).get? l = if k = l then none else t.get? l := by
  obtain ⟨es⟩ := t
  simp only [get?, erase, List.find?_filter]
  split
  · next h => simp [h]
  · next h =>
    congr 2
    funext e
    by_cases he : e.1 = l <;> simp [he, Ne.symm h]

theorem get?_put (t : Table κ α) (k l : κ) (a : α) :
    (t.put k a).get? l = if k = l then some a else t.get? l := by
  rw [put, get?_insert, get?_erase]
  split <;> simp

theorem keys_put (t : Table κ α) (k : κ) (a : α) :
    (t.put k a).keys = t.keys.filter (· ≠ k) ++ [k] := by
  simp [put, insert, erase, keys, List.filter_map, Function.comp_def]

theorem get?_modify_self (t : Table κ α) (k : κ) (f : α → α) :
    (t.modify k f).get? k = (t.get? k).map f := by
  obtain ⟨es⟩ := t
  simp only [get?, modify]
  induction es with
  | nil => rfl
  | cons e es ih => by_cases h : e.1 = k <;> simp_all [modifyEntry]

theorem get?_modify_of_ne (t : Table κ α) {k l : κ} (h : k ≠ l) (f : α → α) :
    (t.modify k f).get? l = t.get? l := by
  obtain ⟨es⟩ := t
  simp only [get?, modify]
  induction es with
  | nil => rfl
  | cons e es ih =>
    by_cases he : e.1 = k
    · simp [modifyEntry, he, h]
    · by_cases hl : e.1 = l <;> simp_all [modifyEntry]

@[simp] theorem keys_modify (t : Table κ α) (k : κ) (f : α → α) : (t.modify k f).keys = t.keys := by
  obtain ⟨es⟩ := t
  simp only [keys, modify]
  induction es with
  | nil => rfl
  | cons e es ih => by_cases h : e.1 = k <;> simp_all [modifyEntry]

theorem total_modify (g : α → Nat) {t : Table κ α} {k : κ} {a : α} (h : t.get? k = some a)
    (f : α → α) :
    total ((t.modify k f).values.map g) + g a = total (t.values.map g) + g (f a) := by
  obtain ⟨es⟩ := t
  simp only [get?, values, modify] at h ⊢
  induction es with
  | nil => simp at h
  | cons e es ih =>
    by_cases he : e.1 = k
    · simp only [List.find?_cons, he, decide_true, Option.map_some, Option.some.injEq] at h
      simp only [modifyEntry, he, if_true, List.map_cons, total_cons, h]
      omega
    · simp only [List.find?_cons, he, decide_false] at h
      have := ih h
      simp only [modifyEntry, he, if_false, List.map_cons, total_cons]
      omega

theorem modify_eq_self {t : Table κ α} {k : κ} (h : t.get? k = none) (f : α → α) :
    t.modify k f = t := by
  obtain ⟨es⟩ := t
  simp only [get?, modify, Option.map_eq_none_iff] at h ⊢
  congr 1
  induction es with
  | nil => rfl
  | cons e es ih =>
    obtain ⟨he, hes⟩ := List.find?_eq_none.1 h |> List.forall_mem_cons.1
    simp only [decide_eq_true_eq] at he
    simp only [modifyEntry, he, if_false, ih (List.find?_eq_none.2 hes)]

end Table

/-- What an object is known by: the handle it was asked for under, and how many objects of its kind
were asked for under this handle before. -/
structure Key where
  handle : String
  turn : Nat
deriving DecidableEq, Repr

def Table.fresh {α : Type} (t : Table Key α) (handle : String) : Key :=
  ⟨handle, t.keys.countP fun k ↦ k.handle = handle⟩

end ActivityGraph
