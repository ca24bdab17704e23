import ActivityGraph.Proofs.Json.Scanning

namespace ActivityGraph.Json

open Token

theorem tokens_head (v : Json) : ∃ t ts, v.tokens = t :: ts ∧ t ≠ .closeList := by
  cases v <;> simp [tokens]

theorem itemTokens_cons (v : Json) {vs : List Json} (h : vs ≠ []) :
    itemTokens (v :: vs) = v.tokens ++ .comma :: itemTokens vs := by
  obtain ⟨w, ws, rfl⟩ := List.exists_cons_of_ne_nil h
  rfl

theorem memberTokens_cons (k : Option String) (v : Json) {ms : List (Option String × Json)} (h : ms ≠ []) :
    memberTokens ((k, v) :: ms) = .text k :: .colon :: (v.tokens ++ .comma :: memberTokens ms) := by
  obtain ⟨m, ms, rfl⟩ := List.exists_cons_of_ne_nil h
  rfl

theorem itemTokens_head (v : Json) (vs : List Json) : ∃ t ts, itemTokens (v :: vs) = t :: ts ∧ t ≠ .closeList := by
  obtain ⟨t, ts, he, ht⟩ := v.tokens_head
  cases vs with
  | nil => exact ⟨t, ts ++ [.closeList], by rw [itemTokens, he]; rfl, ht⟩
  | cons w ws => exact ⟨t, ts ++ .comma :: itemTokens (w :: ws), by rw [itemTokens_cons v (by simp), he]; rfl, ht⟩

theorem memberTokens_head (m : Option String × Json) (ms : List (Option String × Json)) :
    ∃ ts, memberTokens (m :: ms) = .text m.1 :: ts := by
  cases ms with
  | nil => exact ⟨_, rfl⟩
  | cons => exact ⟨_, rfl⟩

theorem value?_openList {n : Nat} {t : Token} {ts : List Token} (ht : t ≠ .closeList) :
    value? (n + 1) (.openList :: t :: ts) = (list? n (t :: ts)).map fun p ↦ (.arr p.1, p.2) := by
  rw [value?]
  simpa using ht

theorem value?_openObject {n : Nat} {t : Token} {ts : List Token} (ht : t ≠ .closeObject) :
    value? (n + 1) (.openObject :: t :: ts) = (members? n (t :: ts)).map fun p ↦ (.obj p.1, p.2) := by
  rw [value?]
  simpa using ht

mutual

theorem value?_tokens (v : Json) (r : List Token) {n : Nat} (hn : 2 * v.tokens.length ≤ n) :
    value? n (v.tokens ++ r) = some (v, r) := by
  match n, v with
  | 0, v =>
    obtain ⟨t, ts, he, -⟩ := v.tokens_head
    simp [he] at hn
  | n + 1, .arr [] => rfl
  | n + 1, .arr (v :: vs) =>
    simp only [tokens, List.length_cons] at hn
    have hl := list?_tokens (v :: vs) r (n := n) (by simp) (by omega)
    obtain ⟨t, ts, he, ht⟩ := itemTokens_head v vs
    rw [he, List.cons_append] at hl
    rw [tokens, he, List.cons_append, List.cons_append, value?_openList ht, hl, Option.map_some]
  | n + 1, .obj [] => rfl
  | n + 1, .obj (m :: ms) =>
    simp only [tokens, List.length_cons] at hn
    have hm := members?_tokens (m :: ms) r (n := n) (by simp) (by omega)
    obtain ⟨ts, he⟩ := memberTokens_head m ms
    rw [he, List.cons_append] at hm
    rw [tokens, he, List.cons_append, List.cons_append, value?_openObject (by simp), hm, Option.map_some]
  | n + 1, .null | n + 1, .bool _ | n + 1, .int _ | n + 1, .real _ | n + 1, .str _ | n + 1, .torn => rfl

theorem list?_tokens (vs : List Json) (r : List Token) {n : Nat} (hne : vs ≠ [])
    (hn : 2 * (itemTokens vs).length ≤ n) : list? n (itemTokens vs ++ r) = some (vs, r) := by
  match n, vs with
  | _, [] => exact absurd rfl hne
  | 0, v :: vs =>
    obtain ⟨t, ts, he, -⟩ := itemTokens_head v vs
    simp [he] at hn
  | n + 1, [v] =>
    simp only [itemTokens, List.length_append, List.length_cons, List.length_nil] at hn
    have hv := value?_tokens v (.closeList :: r) (n := n) (by omega)
    simp [itemTokens, list?, hv]
  | n + 1, v :: w :: vs =>
    rw [itemTokens_cons v (by simp), List.length_append, List.length_cons] at hn
    have hv := value?_tokens v (.comma :: (itemTokens (w :: vs) ++ r)) (n := n) (by omega)
    have hl := list?_tokens (w :: vs) r (n := n) (by simp) (by omega)
    simp [itemTokens_cons v (List.cons_ne_nil w vs), list?, hv, hl]

theorem members?_tokens (ms : List (Option String × Json)) (r : List Token) {n : Nat} (hne : ms ≠ [])
    (hn : 2 * (memberTokens ms).length ≤ n) : members? n (memberTokens ms ++ r) = some (ms, r) := by
  match n, ms with
  | _, [] => exact absurd rfl hne
  | 0, m :: ms =>
    obtain ⟨ts, he⟩ := memberTokens_head m ms
    simp [he] at hn
  | n + 1, [(k, v)] =>
    simp only [memberTokens, List.length_append, List.length_cons, List.length_nil] at hn
    have hv := value?_tokens v (.closeObject :: r) (n := n) (by omega)
    simp [memberTokens, members?, hv]
  | n + 1, (k, v) :: m :: ms =>
    rw [memberTokens_cons k v (by simp), List.length_cons, List.length_cons, List.length_append, List.length_cons] at hn
    have hv := value?_tokens v (.comma :: (memberTokens (m :: ms) ++ r)) (n := n) (by omega)
    have hl := members?_tokens (m :: ms) r (n := n) (by simp) (by omega)
    simp [memberTokens_cons k v (List.cons_ne_nil m ms), members?, hv, hl]

end

/-- A word without parts that is its own document. -/
def Token.Atomic (t : Token) : Prop := ∀ v, t = .scalar v → v.tokens = [.scalar v]

theorem Token.Spelled.atomic {t : Token} {w : List Char} (h : Spelled t w) : t.Atomic := by
  rintro v rfl
  cases h with
  | null | yes | no => rfl
  | number =>
    unfold numeral
    dsimp only
    split_ifs <;> rfl

theorem Token.Words.atomic {ts : List Token} {cs : List Char} (h : Words ts cs) : ∀ t ∈ ts, t.Atomic := by
  induction h with
  | nil => simp
  | cons _ hw _ ih => exact List.forall_mem_cons.2 ⟨hw.atomic, ih⟩

theorem ofText_tokens (s : Option String) : (ofText s).tokens = [.text s] := by
  cases s <;> rfl

mutual

theorem tokens_of_value? {n : Nat} {ts r : List Token} {v : Json} (hat : ∀ t ∈ ts, t.Atomic)
    (h : value? n ts = some (v, r)) : ts = v.tokens ++ r := by
  match n with
  | 0 => simp [value?] at h
  | n + 1 =>
    unfold value? at h
    split at h
    · obtain ⟨rfl, rfl⟩ := Prod.mk.inj (Option.some.inj h)
      rw [hat _ List.mem_cons_self _ rfl]
      rfl
    · obtain ⟨rfl, rfl⟩ := Prod.mk.inj (Option.some.inj h)
      rw [ofText_tokens]
      rfl
    · obtain ⟨rfl, rfl⟩ := Prod.mk.inj (Option.some.inj h)
      rfl
    · obtain ⟨⟨vs, r'⟩, hl, he⟩ := Option.map_eq_some_iff.1 h
      obtain ⟨rfl, rfl⟩ := Prod.mk.inj he
      obtain ⟨-, rfl⟩ := tokens_of_list? (fun t ht ↦ hat t (List.mem_cons_of_mem _ ht)) hl
      rfl
    · obtain ⟨rfl, rfl⟩ := Prod.mk.inj (Option.some.inj h)
      rfl
    · obtain ⟨⟨ms, r'⟩, hl, he⟩ := Option.map_eq_some_iff.1 h
      obtain ⟨rfl, rfl⟩ := Prod.mk.inj he
      obtain ⟨-, rfl⟩ := tokens_of_members? (fun t ht ↦ hat t (List.mem_cons_of_mem _ ht)) hl
      rfl
    · simp at h

theorem tokens_of_list? {n : Nat} {ts r : List Token} {vs : List Json} (hat : ∀ t ∈ ts, t.Atomic)
    (h : list? n ts = some (vs, r)) : vs ≠ [] ∧ ts = itemTokens vs ++ r := by
  match n with
  | 0 => simp [list?] at h
  | n + 1 =>
    simp only [list?, Option.bind_eq_bind, Option.bind_eq_some_iff, Option.pure_def, Prod.exists] at h
    obtain ⟨v, u, hv, h⟩ := h
    obtain rfl := tokens_of_value? hat hv
    have hu : ∀ t ∈ u, t.Atomic := fun t ht ↦ hat t (List.mem_append_right _ ht)
    split at h
    · obtain ⟨rfl, rfl⟩ := Prod.mk.inj (Option.some.inj h)
      exact ⟨by simp, by simp [itemTokens]⟩
    · simp only [Option.bind_eq_some_iff, Option.some.injEq, Prod.mk.injEq, Prod.exists] at h
      obtain ⟨ws, r', hl, rfl, rfl⟩ := h
      obtain ⟨hne, rfl⟩ := tokens_of_list? (fun t ht ↦ hu t (List.mem_cons_of_mem _ ht)) hl
      exact ⟨by simp, by simp [itemTokens_cons v hne]⟩
    · simp at h

theorem tokens_of_members? {n : Nat} {ts r : List Token} {ms : List (Option String × Json)}
    (hat : ∀ t ∈ ts, t.Atomic) (h : members? n ts = some (ms, r)) : ms ≠ [] ∧ ts = memberTokens ms ++ r := by
  unfold members? at h
  split at h
  · simp at h
  · next n k ts =>
    simp only [Option.bind_eq_bind, Option.bind_eq_some_iff, Option.pure_def, Prod.exists] at h
    obtain ⟨v, u, hv, h⟩ := h
    have hts : ∀ t ∈ ts, t.Atomic := fun t ht ↦ hat t (by simp [ht])
    obtain rfl := tokens_of_value? hts hv
    have hu : ∀ t ∈ u, t.Atomic := fun t ht ↦ hts t (List.mem_append_right _ ht)
    split at h
    · obtain ⟨rfl, rfl⟩ := Prod.mk.inj (Option.some.inj h)
      exact ⟨by simp, by simp [memberTokens]⟩
    · simp only [Option.bind_eq_some_iff, Option.some.injEq, Prod.mk.injEq, Prod.exists] at h
      obtain ⟨ns, r', hl, rfl, rfl⟩ := h
      obtain ⟨hne, rfl⟩ := tokens_of_members? (fun t ht ↦ hu t (List.mem_cons_of_mem _ ht)) hl
      exact ⟨by simp, by simp [memberTokens_cons k v hne]⟩
    · simp at h
  · simp at h

end

theorem Token.apart_mark {t : Token} {ts : List Token} (ht : t.isMark) (h : Apart ts) : Apart (t :: ts) :=
  ⟨.inl ht, h⟩

mutual

theorem tokens_apart (v : Json) {r : List Token} (hr : Apart r) (hm : ∀ t ∈ r.head?, t.isMark) :
    Apart (v.tokens ++ r) := by
  match v with
  | .arr vs => exact apart_mark rfl (itemTokens_apart vs hr)
  | .obj ms => exact apart_mark rfl (memberTokens_apart ms hr)
  | .null | .bool _ | .int _ | .real _ | .str _ | .torn => exact ⟨.inr hm, hr⟩

theorem itemTokens_apart (vs : List Json) {r : List Token} (hr : Apart r) : Apart (itemTokens vs ++ r) := by
  match vs with
  | [] => exact apart_mark rfl hr
  | [v] =>
    rw [itemTokens, List.append_assoc]
    exact tokens_apart v (apart_mark rfl hr) (by simp [isMark])
  | v :: w :: vs =>
    rw [itemTokens_cons v (by simp), List.append_assoc]
    exact tokens_apart v (apart_mark rfl (itemTokens_apart (w :: vs) hr)) (by simp [isMark])

theorem memberTokens_apart (ms : List (Option String × Json)) {r : List Token} (hr : Apart r) :
    Apart (memberTokens ms ++ r) := by
  match ms with
  | [] => exact apart_mark rfl hr
  | [(k, v)] =>
    have hv := tokens_apart v (apart_mark (t := .closeObject) rfl hr) (by simp [isMark])
    rw [memberTokens, List.cons_append, List.cons_append, List.append_assoc]
    exact ⟨.inr (by simp [isMark]), apart_mark rfl hv⟩
  | (k, v) :: m :: ms =>
    have hv := tokens_apart v (apart_mark (t := .comma) rfl (memberTokens_apart (m :: ms) hr)) (by simp [isMark])
    rw [memberTokens_cons k v (by simp), List.cons_append, List.cons_append, List.append_assoc]
    exact ⟨.inr (by simp [isMark]), apart_mark rfl hv⟩

end

/-- A document is read from exactly the texts that write it. -/
theorem parse?_eq_some_iff {text : String} {v : Json} : parse? text = some v ↔ Writes v text := by
  have hapart : Apart v.tokens := by
    have h := v.tokens_apart (r := []) trivial (by simp)
    rwa [List.append_nil] at h
  have hread : ofTokens? v.tokens = some v := by
    have h := value?_tokens v [] (Nat.le_succ (2 * v.tokens.length))
    rw [List.append_nil] at h
    simp [ofTokens?, h]
  constructor
  · intro h
    obtain ⟨ts, hts, hv⟩ := Option.bind_eq_some_iff.1 h
    have hw : Words ts text.toList := words_of_scan hts
    unfold ofTokens? at hv
    split at hv
    · next w he =>
      obtain rfl := Option.some.inj hv
      have h := tokens_of_value? hw.atomic he
      rw [List.append_nil] at h
      rwa [h] at hw
    · simp at hv
  · intro h
    rw [parse?, ofChars?, (ofChars?_eq_some_iff hapart).2 h]
    exact hread

end ActivityGraph.Json
