import ActivityGraph.Activity
import ActivityGraph.Proofs.Json.Printing
import ActivityGraph.Record.Codec

namespace ActivityGraph

def Record.OfKinds (ks kf : Kind) (r : Outcome) : Prop :=
  (∀ p, r.state = .success p → p.kind = ks) ∧ ∀ p, r.state = .failure p → p.kind = kf

/-- The documents of the form that payloads of a kind have. -/
def Kind.Admits : Kind → Json → Prop
  | .int, .int n => -2 ^ 63 ≤ n ∧ n < 2 ^ 63
  | .list, .arr vs => ∀ v ∈ vs, ∃ n, v = .int n ∧ -2 ^ 63 ≤ n ∧ n < 2 ^ 63
  | .elapsed, .int n => 0 ≤ n
  | .text, .str _ | .unit, .null | .flag, .bool _ | .note, .null | .note, .str _ => True
  | _, _ => False

namespace Codec

open Json

theorem int64_bounds (n : Int64) : -2 ^ 63 ≤ n.toInt ∧ n.toInt < 2 ^ 63 :=
  ⟨n.le_toInt, n.toInt_lt⟩

theorem int64?_eq_some_iff {v : Json} {n : Int64} : v.int64? = some n ↔ v = .int n.toInt := by
  constructor
  · intro h
    cases v with
    | int m =>
      simp only [int64?, Option.ite_none_right_eq_some, Option.some.injEq] at h
      obtain ⟨⟨hl, hu⟩, rfl⟩ := h
      rw [Int64.toInt_ofInt_of_le hl (Int.lt_of_le_of_lt hu (by decide))]
    | _ => simp [int64?] at h
  · rintro rfl
    rw [int64?, if_pos ⟨n.minValue_le_toInt, n.toInt_le⟩, Int64.ofInt_toInt]

theorem mapM_int64? {vs : List Json} {ns : List Int64} :
    vs.mapM Json.int64? = some ns ↔ vs = ns.map fun n ↦ .int n.toInt := by
  induction vs generalizing ns with
  | nil => cases ns <;> simp
  | cons v vs ih =>
    simp only [List.mapM_cons, Option.bind_eq_bind, Option.bind_eq_some_iff, Option.pure_def, Option.some.injEq,
      int64?_eq_some_iff, ih]
    constructor
    · rintro ⟨n, rfl, ms, rfl, rfl⟩
      rfl
    · intro h
      cases ns with
      | nil => simp at h
      | cons n ns =>
        obtain ⟨rfl, rfl⟩ := List.cons.inj h
        exact ⟨n, rfl, ns, rfl, rfl⟩

theorem text?_eq_some_iff {v : Json} {s : String} : v.text? = some s ↔ v = .str s := by
  cases v <;> simp [text?]

theorem bool?_eq_some_iff {v : Json} {b : Bool} : v.bool? = some b ↔ v = .bool b := by
  cases v <;> simp [bool?]

theorem items?_eq_some_iff {v : Json} {vs : List Json} : v.items? = some vs ↔ v = .arr vs := by
  cases v <;> simp [items?]

theorem nat?_eq_some_iff {v : Json} {n : Nat} : v.nat? = some n ↔ v = .int n := by
  cases v with
  | int m =>
    cases m with
    | ofNat m =>
      rw [Json.int.injEq, Int.ofNat_eq_natCast, Int.ofNat_inj]
      exact Option.some_inj
    | negSucc m => simp [nat?, Int.toNat?]
  | _ => simp [nat?]

theorem payload_decode?_eq_some_iff {k : Kind} {v : Json} {p : Payload} :
    (payload k).decode? v = some p ↔ p.kind = k ∧ v = (payload k).encode p := by
  constructor
  · intro h
    cases k with
    | int =>
      obtain ⟨n, hn, rfl⟩ := Option.map_eq_some_iff.1 h
      exact ⟨rfl, int64?_eq_some_iff.1 hn⟩
    | text =>
      obtain ⟨s, hs, rfl⟩ := Option.map_eq_some_iff.1 h
      exact ⟨rfl, text?_eq_some_iff.1 hs⟩
    | unit =>
      cases v with
      | null => obtain rfl := Option.some.inj h; exact ⟨rfl, rfl⟩
      | _ => simp [payload] at h
    | list =>
      obtain ⟨vs, hvs, h⟩ := Option.bind_eq_some_iff.1 h
      obtain ⟨ns, hns, rfl⟩ := Option.map_eq_some_iff.1 h
      rw [items?_eq_some_iff.1 hvs, mapM_int64?.1 hns]
      exact ⟨rfl, rfl⟩
    | flag =>
      obtain ⟨b, hb, rfl⟩ := Option.map_eq_some_iff.1 h
      exact ⟨rfl, bool?_eq_some_iff.1 hb⟩
    | note =>
      cases v with
      | null => obtain rfl := Option.some.inj h; exact ⟨rfl, rfl⟩
      | str s => obtain rfl := Option.some.inj h; exact ⟨rfl, rfl⟩
      | _ => simp [payload] at h
    | elapsed =>
      obtain ⟨n, hn, rfl⟩ := Option.map_eq_some_iff.1 h
      exact ⟨rfl, nat?_eq_some_iff.1 hn⟩
  · rintro ⟨rfl, rfl⟩
    cases p with
    | int n => exact Option.map_eq_some_iff.2 ⟨n, int64?_eq_some_iff.2 rfl, rfl⟩
    | list ns =>
      refine Option.bind_eq_some_iff.2 ⟨_, rfl, ?_⟩
      exact Option.map_eq_some_iff.2 ⟨ns, mapM_int64?.2 rfl, rfl⟩
    | note s => cases s <;> rfl
    | _ => rfl

theorem admits_encode (p : Payload) (k : Kind) : p.kind.Admits ((payload k).encode p) := by
  cases p with
  | int n => exact int64_bounds n
  | list ns =>
    intro v hv
    obtain ⟨n, -, rfl⟩ := List.mem_map.1 hv
    exact ⟨_, rfl, int64_bounds n⟩
  | note s => cases s <;> trivial
  | elapsed d => exact Int.natCast_nonneg _
  | _ => trivial

/-- The documents of a state. A pending state may also be written like a variant without data. -/
inductive StateForm (ks kf : Kind) : State Payload Payload → Json → Prop
  | word : StateForm ks kf .pending (.str "Pending")
  | variant : StateForm ks kf .pending (object [("Pending", .null)])
  | success {p : Payload} (hp : p.kind = ks) :
      StateForm ks kf (.success p) (object [("Success", (payload ks).encode p)])
  | failure {p : Payload} (hp : p.kind = kf) :
      StateForm ks kf (.failure p) (object [("Failure", (payload kf).encode p)])

variable {ks kf : Kind}

theorem state_decode?_eq_some_iff {v : Json} {s : State Payload Payload} :
    (state (payload ks) (payload kf)).decode? v = some s ↔ StateForm ks kf s v := by
  constructor
  · intro h
    simp only [state] at h
    split at h
    · obtain rfl := Option.some.inj h
      exact .word
    · obtain rfl := Option.some.inj h
      exact .variant
    · obtain ⟨p, hp, rfl⟩ := Option.map_eq_some_iff.1 h
      obtain ⟨hk, rfl⟩ := payload_decode?_eq_some_iff.1 hp
      exact .success hk
    · obtain ⟨p, hp, rfl⟩ := Option.map_eq_some_iff.1 h
      obtain ⟨hk, rfl⟩ := payload_decode?_eq_some_iff.1 hp
      exact .failure hk
    · simp at h
  · intro h
    cases h with
    | word | variant => rfl
    | success hp | failure hp =>
      exact Option.map_eq_some_iff.2 ⟨_, payload_decode?_eq_some_iff.2 ⟨hp, rfl⟩, rfl⟩

/-- The documents of a record: the pair of its state and its mark, or an object in which the two
stand once each, among members with other names. -/
inductive RecordForm (ks kf : Kind) (r : Outcome) : Json → Prop
  | pair {s : Json} (hs : StateForm ks kf r.state s) : RecordForm ks kf r (.arr [s, .bool r.canceled])
  | members {s : Json} {ms others : List (String × Json)} (hs : StateForm ks kf r.state s)
      (ho : ∀ m ∈ others, m.1 ≠ "state" ∧ m.1 ≠ "canceled")
      (hm : ms.Perm (("state", s) :: ("canceled", .bool r.canceled) :: others)) : RecordForm ks kf r (object ms)

theorem lookups_object (key : String) (ms : List (String × Json)) :
    (object ms).lookups key = (ms.filter fun m ↦ m.1 = key).map Prod.snd := by
  simp [object, lookups, List.filter_map, Function.comp_def]

theorem lookups_perm (key : String) {ms ns : List (String × Json)} (h : ms.Perm ns) :
    ((object ms).lookups key).Perm ((object ns).lookups key) := by
  rw [lookups_object, lookups_object]
  exact (h.filter _).map _

theorem lookups_eq_singleton_iff {key : String} {ms : List (String × Json)} {v : Json} :
    (object ms).lookups key = [v] ↔ ∃ others, (∀ m ∈ others, m.1 ≠ key) ∧ ms.Perm ((key, v) :: others) := by
  constructor
  · intro h
    rw [lookups_object] at h
    refine ⟨ms.filter fun m ↦ !(m.1 = key), ?_, ?_⟩
    · intro m hm
      simpa using (List.mem_filter.1 hm).2
    · obtain ⟨m, hf, rfl⟩ := List.map_eq_singleton_iff.1 h
      have hm : m ∈ ms.filter fun m ↦ decide (m.1 = key) := by simp [hf]
      have hk : m.1 = key := of_decide_eq_true (List.mem_filter.1 hm).2
      have hp := List.filter_append_perm (fun m : String × Json ↦ decide (m.1 = key)) ms
      rw [hf] at hp
      rw [← hk] at hp ⊢
      exact hp.symm
  · rintro ⟨others, ho, hp⟩
    have hn : others.filter (fun m ↦ decide (m.1 = key)) = [] := by
      simpa [List.filter_eq_nil_iff] using ho
    have hl := lookups_perm key hp
    rw [lookups_object key (_ :: _), List.filter_cons_of_pos (by simp), hn] at hl
    exact List.perm_singleton.1 hl

theorem lookups_eq_singletons_iff {ms : List (String × Json)} {s c : Json} :
    (object ms).lookups "state" = [s] ∧ (object ms).lookups "canceled" = [c] ↔
      ∃ others, (∀ m ∈ others, m.1 ≠ "state" ∧ m.1 ≠ "canceled") ∧
        ms.Perm (("state", s) :: ("canceled", c) :: others) := by
  constructor
  · rintro ⟨hs, hc⟩
    obtain ⟨ns, hns, hp⟩ := lookups_eq_singleton_iff.1 hs
    have hl := lookups_perm "canceled" hp
    rw [hc] at hl
    have hcs : (object ns).lookups "canceled" = [c] := List.perm_singleton.1 (.trans (by simp [lookups_object]) hl.symm)
    obtain ⟨others, ho, hq⟩ := lookups_eq_singleton_iff.1 hcs
    refine ⟨others, ?_, hp.trans (hq.cons _)⟩
    intro m hm
    exact ⟨hns m (hq.mem_iff.2 (List.mem_cons_of_mem _ hm)), ho m hm⟩
  · rintro ⟨others, ho, hp⟩
    constructor
    · refine lookups_eq_singleton_iff.2 ⟨_, ?_, hp⟩
      exact List.forall_mem_cons.2 ⟨by simp, fun m hm ↦ (ho m hm).1⟩
    · refine lookups_eq_singleton_iff.2 ⟨_, ?_, hp.trans (.swap ..)⟩
      exact List.forall_mem_cons.2 ⟨by simp, fun m hm ↦ (ho m hm).2⟩

theorem exists_object {ms : List (Option String × Json)} (h : ms.all fun m ↦ m.1.isSome) :
    ∃ ns, Json.obj ms = object ns := by
  refine ⟨ms.map fun m ↦ (m.1.getD "", m.2), ?_⟩
  rw [object, List.map_map, Json.obj.injEq]
  conv => lhs; rw [← List.map_id ms]
  apply List.map_congr_left
  rintro ⟨k, v⟩ hm
  have hk := List.all_eq_true.1 h _ hm
  obtain ⟨k, rfl⟩ := Option.isSome_iff_exists.1 hk
  rfl

theorem fields_eq_some_iff {s c : Json} {r : Outcome} :
    (do return ⟨← (state (payload ks) (payload kf)).decode? s, ← c.bool?⟩ : Option Outcome) = some r ↔
      StateForm ks kf r.state s ∧ c = .bool r.canceled := by
  simp only [Option.bind_eq_bind, Option.bind_eq_some_iff, Option.pure_def, Option.some.injEq,
    state_decode?_eq_some_iff, bool?_eq_some_iff]
  constructor
  · rintro ⟨st, hs, b, rfl, rfl⟩
    exact ⟨hs, rfl⟩
  · rintro ⟨hs, rfl⟩
    exact ⟨_, hs, _, rfl, rfl⟩

theorem record_decode?_eq_some_iff {v : Json} {r : Outcome} :
    (record (payload ks) (payload kf)).decode? v = some r ↔ RecordForm ks kf r v := by
  constructor
  · intro h
    simp only [record] at h
    split at h
    · obtain ⟨hs, rfl⟩ := fields_eq_some_iff.1 h
      exact .pair hs
    · split at h
      · next ms _ _ _ hkeys hstate hcanceled =>
        obtain ⟨hs, rfl⟩ := fields_eq_some_iff.1 h
        obtain ⟨ns, he⟩ := exists_object hkeys
        rw [he] at hstate hcanceled ⊢
        obtain ⟨others, ho, hp⟩ := lookups_eq_singletons_iff.1 ⟨hstate, hcanceled⟩
        exact .members hs ho hp
      · simp at h
    · simp at h
  · intro h
    cases h with
    | pair hs => exact fields_eq_some_iff.2 ⟨hs, rfl⟩
    | @members s ms others hs ho hm =>
      obtain ⟨hstate, hcanceled⟩ := lookups_eq_singletons_iff.2 ⟨others, ho, hm⟩
      have hkeys : (ms.map fun m ↦ (some m.1, m.2)).all (fun m : Option String × Json ↦ m.1.isSome) := by simp
      have h := fields_eq_some_iff.2 ⟨hs, rfl⟩
      rw [object] at hstate hcanceled ⊢
      simp only [record, hkeys, hstate, hcanceled]
      exact h

/-- A document that holds another in the place of the state. -/
inductive HoldsState : Json → Json → Prop
  | pair (s c : Json) : HoldsState (.arr [s, c]) s
  | member {ms : List (Option String × Json)} {s : Json} (h : (some "state", s) ∈ ms) : HoldsState (.obj ms) s

/-- The ways in which a document is no record: a name is missing or repeated, the state is a word
other than that of the pending state, a variant without or with several names, or its data do not
have the form of the kind. -/
inductive Flawed (ks kf : Kind) : Json → Prop
  | items {vs : List Json} (h : vs.length ≠ 2) : Flawed ks kf (.arr vs)
  | name {key : String} {ms : List (Option String × Json)} (hk : key = "state" ∨ key = "canceled")
      (h : (ms.map Prod.fst).count (some key) ≠ 1) : Flawed ks kf (.obj ms)
  | word {d : Json} {w : String} (h : HoldsState d (.str w)) (hw : w ≠ "Pending") : Flawed ks kf d
  | variants {d : Json} {vs : List (Option String × Json)} (h : HoldsState d (.obj vs)) (hl : vs.length ≠ 1) :
      Flawed ks kf d
  | success {d v : Json} (h : HoldsState d (object [("Success", v)])) (hv : ¬ ks.Admits v) : Flawed ks kf d
  | failure {d v : Json} (h : HoldsState d (object [("Failure", v)])) (hv : ¬ kf.Admits v) : Flawed ks kf d

theorem StateForm.exact {s : State Payload Payload} {d : Json} (h : StateForm ks kf s d) :
    (∀ w, d = .str w → w = "Pending") ∧ (∀ vs, d = .obj vs → vs.length = 1) ∧
      (∀ v, d = object [("Success", v)] → ks.Admits v) ∧ ∀ v, d = object [("Failure", v)] → kf.Admits v := by
  cases h with
  | word => simp [object]
  | variant => simp [object]
  | @success p hp =>
    have := admits_encode p ks
    rw [hp] at this
    simp [object, this]
  | @failure p hp =>
    have := admits_encode p kf
    rw [hp] at this
    simp [object, this]

theorem RecordForm.state_of {r : Outcome} {d s : Json} (h : RecordForm ks kf r d) (hs : HoldsState d s) :
    StateForm ks kf r.state s := by
  cases h with
  | pair h =>
    cases hs
    exact h
  | @members s' ms others h ho hm =>
    rw [object] at hs
    cases hs with
    | member hmem =>
      obtain ⟨⟨k, v⟩, hkv, he⟩ := List.mem_map.1 hmem
      simp only [Prod.mk.injEq, Option.some.injEq] at he
      obtain ⟨rfl, rfl⟩ := he
      have hmem := hm.mem_iff.1 hkv
      simp only [List.mem_cons, Prod.mk.injEq, String.reduceEq, false_and, false_or, true_and] at hmem
      rcases hmem with rfl | hothers
      · exact h
      · exact absurd rfl (ho _ hothers).1

theorem count_name {key : String} {s c : Json} {ms others : List (String × Json)} (hk : key = "state" ∨ key = "canceled")
    (ho : ∀ m ∈ others, m.1 ≠ "state" ∧ m.1 ≠ "canceled") (hm : ms.Perm (("state", s) :: ("canceled", c) :: others)) :
    ((ms.map fun m ↦ (some m.1, m.2)).map Prod.fst).count (some key) = 1 := by
  have hn : (others.map fun m ↦ some m.1).count (some key) = 0 := by
    rw [List.count_eq_zero, List.mem_map]
    rintro ⟨m, hmem, he⟩
    obtain rfl := Option.some.inj he
    exact hk.elim (ho m hmem).1 (ho m hmem).2
  rw [List.map_map, (hm.map _).count_eq]
  simp only [List.map_cons, Function.comp_apply, List.count_cons]
  rw [Function.comp_def, hn]
  rcases hk with rfl | rfl <;> rfl

theorem RecordForm.not_flawed {r : Outcome} {d : Json} (h : RecordForm ks kf r d) : ¬ Flawed ks kf d := by
  intro hf
  cases hf with
  | items hl =>
    cases h
    simp at hl
  | name hk hc =>
    refine hc (?_ : List.count _ _ = 1)
    cases h with
    | members _ ho hm => exact count_name hk ho hm
  | word hs hw => exact hw ((h.state_of hs).exact.1 _ rfl)
  | variants hs hl => exact hl ((h.state_of hs).exact.2.1 _ rfl)
  | success hs hv => exact hv ((h.state_of hs).exact.2.2.1 _ rfl)
  | failure hs hv => exact hv ((h.state_of hs).exact.2.2.2 _ rfl)

theorem encode_form {r : Outcome} (h : r.OfKinds ks kf) :
    RecordForm ks kf r ((record (payload ks) (payload kf)).encode r) := by
  have ho : ∀ m ∈ ([] : List (String × Json)), m.1 ≠ "state" ∧ m.1 ≠ "canceled" := by simp
  refine .members ?_ ho (.refl _)
  cases hr : r.state with
  | pending => exact .word
  | success p => exact .success (h.1 p hr)
  | failure p => exact .failure (h.2 p hr)

theorem payload_plain {k : Kind} {p : Payload} (hp : p.kind ≠ .elapsed) : ((payload k).encode p).Plain := by
  have number (n : Int64) : Plain (.int n.toInt) :=
    .int (int64_bounds n).1 (Int.lt_trans (int64_bounds n).2 (by decide))
  cases p with
  | int n => exact number n
  | text s => exact .str s
  | unit => exact .null
  | list ns =>
    refine .arr fun v hv ↦ ?_
    obtain ⟨n, -, rfl⟩ := List.mem_map.1 hv
    exact number n
  | flag b => exact .bool b
  | note s =>
    cases s with
    | none => exact .null
    | some s => exact .str s
  | elapsed => exact absurd rfl hp

theorem encode_plain {r : Outcome} (hs : ks ≠ .elapsed) (hf : kf ≠ .elapsed) (h : r.OfKinds ks kf) :
    ((record (payload ks) (payload kf)).encode r).Plain := by
  have variant {name : String} {v : Json} (hv : v.Plain) : (object [(name, v)]).Plain := .object (by simpa using hv)
  refine .object (List.forall_mem_cons.2 ⟨?_, by simpa using Plain.bool r.canceled⟩)
  cases hr : r.state with
  | pending => exact .str _
  | success p => exact variant (payload_plain (h.1 p hr ▸ hs))
  | failure p => exact variant (payload_plain (h.2 p hr ▸ hf))

theorem read?_eq_some_iff {text : String} {r : Outcome} :
    (record (payload ks) (payload kf)).read? text = some r ↔ ∃ d, RecordForm ks kf r d ∧ Writes d text := by
  simp only [read?, Option.bind_eq_bind, Option.bind_eq_some_iff, parse?_eq_some_iff, record_decode?_eq_some_iff]
  exact exists_congr fun d ↦ and_comm

/-- A record that is written is read again. A text is read as a record if and only if it writes
one of the forms of the record, so a text that writes a flawed document is not read. -/
theorem record_read?_write (ks kf : Kind) :
    (∀ r : Outcome, ks ≠ .elapsed → kf ≠ .elapsed → r.OfKinds ks kf →
      (record (payload ks) (payload kf)).read? ((record (payload ks) (payload kf)).write r) = some r) ∧
    (∀ (r : Outcome) (text : String),
      (record (payload ks) (payload kf)).read? text = some r ↔ ∃ d, RecordForm ks kf r d ∧ Writes d text) ∧
    ∀ (d : Json) (text : String), Flawed ks kf d → Writes d text →
      (record (payload ks) (payload kf)).read? text = none := by
  refine ⟨?_, fun _ _ ↦ read?_eq_some_iff, ?_⟩
  · intro r hs hf hr
    exact read?_eq_some_iff.2 ⟨_, encode_form hr, (encode_plain hs hf hr).writes⟩
  · intro d text hd hw
    cases h : (record (payload ks) (payload kf)).read? text with
    | none => rfl
    | some r =>
      obtain ⟨d', hr, hw'⟩ := read?_eq_some_iff.1 h
      have he := (parse?_eq_some_iff.2 hw').symm.trans (parse?_eq_some_iff.2 hw)
      obtain rfl := Option.some.inj he
      exact absurd hd hr.not_flawed

def torture : Outcome := ⟨.failure (.text "\"\\\x01\u00e9"), true⟩

theorem record_read?_torture :
    (record (payload .int) (payload .text)).read? ((record (payload .int) (payload .text)).write torture) = some torture ∧
    (record (payload .int) (payload .text)).read?
        "\x7b\"canceled\": true, \"more\": [1e9, null], \"state\": \x7b\"Failure\": \"\\u0022\\\\\\u0001\u00e9\"\x7d\x7d" =
      some torture ∧
    (record (payload .int) (payload .text)).read? "[\"Failure\", true]" = none := by
  obtain ⟨hwrite, hread, hflawed⟩ := record_read?_write .int .text
  refine ⟨?_, (hread _ _).2 ?_, ?_⟩
  · exact hwrite torture (by decide) (by decide) ⟨by simp [torture], by simp [torture, Payload.kind]⟩
  · refine ⟨object [("canceled", .bool true), ("more", .arr [.real "1e9", .null]),
      ("state", object [("Failure", .str "\"\\\x01\u00e9")])], ?_, parse?_eq_some_iff.1 (by decide +kernel)⟩
    have hs : StateForm .int .text torture.state (object [("Failure", .str "\"\\\x01\u00e9")]) := .failure rfl
    have ho : ∀ m ∈ [("more", Json.arr [.real "1e9", .null])], m.1 ≠ "state" ∧ m.1 ≠ "canceled" := by simp
    exact .members hs ho (List.perm_append_singleton _ [_, _])
  · have hw : Flawed .int .text (.arr [.str "Failure", .bool true]) := .word (.pair ..) (by decide)
    exact hflawed _ _ hw (parse?_eq_some_iff.1 (by decide +kernel))

end Codec

end ActivityGraph
