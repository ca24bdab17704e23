import ActivityGraph.Activity
import ActivityGraph.Proofs.Bytes
import Mathlib.Data.List.Infix
import Mathlib.Data.List.TakeWhile

namespace ActivityGraph

namespace Name

section Cut

variable {α : Type} {bracket colon : α} {cs b r s : List α}

/-- The part of a text in front of its first bracket, or all of it if there is none. -/
structure Base (bracket : α) (cs b : List α) : Prop where
  free : bracket ∉ b
  front : b = cs ∨ ∃ rest, cs = b ++ bracket :: rest

/-- What is left of a text that is cut behind a pair of colons, or not at all if there is none. -/
inductive Cut (colon : α) (b : List α) : List α → Prop
  | whole (h : ¬ [colon, colon] <:+: b) : Cut colon b b
  | behind {p r : List α} (h : b = p ++ ([colon, colon] ++ r)) : Cut colon b r

/-- The least that a cut of the base leaves. -/
def Shortest (bracket colon : α) (cs r : List α) : Prop :=
  ∃ b, Base bracket cs b ∧ Cut colon b r ∧ ∀ s, Cut colon b s → r.length ≤ s.length

/-- A cut with no pair of colons further on: none begins with the second colon either. -/
inductive LastCut (colon : α) : List α → List α → Prop
  | whole {b : List α} (h : ¬ [colon, colon] <:+: b) : LastCut colon b b
  | behind (p : List α) {r : List α} (h : ¬ [colon, colon] <:+: colon :: r) :
    LastCut colon (p ++ ([colon, colon] ++ r)) r

theorem Base.eq_takeWhile [DecidableEq α] (h : Base bracket cs b) : b = cs.takeWhile (· ≠ bracket) := by
  have hb : ∀ x ∈ b, decide (x ≠ bracket) = true := by
    intro x hx
    exact decide_eq_true fun he ↦ h.free (he ▸ hx)
  rcases h.front with rfl | ⟨rest, rfl⟩
  · exact (List.takeWhile_eq_self_iff.2 hb).symm
  · rw [List.takeWhile_append_of_pos hb, List.takeWhile_cons_of_neg (by simp), List.append_nil]

theorem Cut.suffix (h : Cut colon b r) : r <:+ b := by
  cases h with
  | whole => exact List.suffix_refl b
  | behind h => exact ⟨_, by rw [h, ← List.append_assoc]⟩

theorem Shortest.unique [DecidableEq α] (h : Shortest bracket colon cs r) (h' : Shortest bracket colon cs s) :
    r = s := by
  obtain ⟨b, hb, hr, hrmin⟩ := h
  obtain ⟨b', hb', hs, hsmin⟩ := h'
  obtain rfl : b = b' := hb.eq_takeWhile.trans hb'.eq_takeWhile.symm
  have hle := hrmin s hs
  have hsuffix := List.suffix_of_suffix_length_le hr.suffix hs.suffix hle
  exact hsuffix.eq_of_length (Nat.le_antisymm hle (hsmin r hr))

theorem LastCut.cut (h : LastCut colon b r) : Cut colon b r := by
  cases h with
  | whole h => exact .whole h
  | behind p h => exact .behind rfl

theorem LastCut.no_colons (h : LastCut colon b r) : ¬ [colon, colon] <:+: r := by
  cases h with
  | whole h => exact h
  | behind p h => exact fun hr ↦ h (List.infix_cons hr)

/-- A cut that leaves less would be behind a pair of colons in what the last one leaves, or begin with its second
colon. -/
theorem LastCut.length_le (h : LastCut colon b r) (hs : Cut colon b s) : r.length ≤ s.length := by
  cases h with
  | whole h =>
    cases hs with
    | whole => exact Nat.le_refl _
    | behind hb => exact absurd (hb ▸ List.infix_append' _ _ _) h
  | behind p h =>
    cases hs with
    | whole h' => exact absurd (List.infix_append' _ _ _) h'
    | @behind q _ hb =>
      by_contra hlt
      have hr : colon :: r <:+ p ++ ([colon, colon] ++ r) := ⟨p ++ [colon], by simp⟩
      have hq : [colon, colon] ++ s <:+ p ++ ([colon, colon] ++ r) := ⟨q, hb.symm⟩
      have hle : ([colon, colon] ++ s).length ≤ (colon :: r).length := by
        simp only [List.length_append, List.length_cons, List.length_nil]
        omega
      have hsuffix := List.suffix_of_suffix_length_le hq hr hle
      exact h ((List.prefix_append _ _).isInfix.trans hsuffix.isInfix)

theorem LastCut.shortest (h : LastCut colon b r) (hb : Base bracket cs b) : Shortest bracket colon cs r :=
  ⟨b, hb, h.cut, fun _ hs ↦ h.length_le hs⟩

end Cut

theorem base_base (cs : List Char) : Base '<' cs (base cs) := by
  have hcs : cs = base cs ++ cs.dropWhile (· ≠ '<') := List.takeWhile_append_dropWhile.symm
  have hhead := List.head?_dropWhile_not (· ≠ '<') cs
  constructor
  · intro h
    simpa using List.mem_takeWhile_imp h
  · cases hrest : cs.dropWhile (· ≠ '<') with
    | nil =>
      rw [hrest, List.append_nil] at hcs
      exact .inl hcs.symm
    | cons c rest =>
      rw [hrest, List.head?_cons] at hhead
      obtain rfl : c = '<' := by simpa using hhead
      exact .inr ⟨rest, hrest ▸ hcs⟩

theorem afterColons?_spec (cs : List Char) :
    match afterColons? cs with
    | some r => (∃ p, cs = p ++ ([':', ':'] ++ r)) ∧ ¬ [':', ':'] <:+: ':' :: r
    | none => ¬ [':', ':'] <:+: cs := by
  fun_induction afterColons? cs with
  | case1 => simp
  | case2 c cs r hr ih =>
    rw [hr] at ih
    obtain ⟨⟨p, hp⟩, hlast⟩ := ih
    exact ⟨⟨c :: p, congrArg (c :: ·) hp⟩, hlast⟩
  | case3 c cs hnone hpair ih =>
    rw [hnone] at ih
    obtain ⟨rfl, hhead⟩ := hpair
    obtain ⟨d, cs, rfl⟩ : ∃ d ds, cs = d :: ds := List.exists_cons_of_ne_nil (by rintro rfl; simp at hhead)
    obtain rfl : d = ':' := by simpa using hhead
    exact ⟨⟨[], rfl⟩, ih⟩
  | case4 c cs hnone hpair ih =>
    rw [hnone] at ih
    rw [List.infix_cons_iff]
    rintro (hfront | hrest)
    · obtain ⟨rfl, hcs⟩ := List.cons_prefix_cons.1 hfront
      obtain ⟨rest, rfl⟩ := hcs
      exact hpair ⟨rfl, rfl⟩
    · exact ih hrest

theorem lastCut_lastSegment (cs : List Char) : LastCut ':' (base cs) (lastSegment cs) := by
  have h := afterColons?_spec (base cs)
  rw [lastSegment]
  cases hr : afterColons? (base cs) with
  | none =>
    rw [hr] at h
    exact .whole h
  | some r =>
    rw [hr] at h
    obtain ⟨⟨p, hp⟩, hlast⟩ := h
    rw [hp]
    exact .behind p hlast

theorem lastCut_short (name : String) : LastCut ':' (base name.toList) (short name).toList := by
  rw [short, String.toList_ofList]
  exact lastCut_lastSegment name.toList

theorem shortest_short (name : String) : Shortest '<' ':' name.toList (short name).toList :=
  (lastCut_short name).shortest (base_base name.toList)

theorem bracket_notMem_short (name : String) : '<' ∉ (short name).toList :=
  fun h ↦ (base_base name.toList).free ((lastCut_short name).cut.suffix.subset h)

theorem short_eq_iff {name s : String} : short name = s ↔ Shortest '<' ':' name.toList s.toList := by
  constructor
  · rintro rfl
    exact shortest_short name
  · intro h
    exact String.toList_inj.1 ((shortest_short name).unique h)

theorem Base.bytes {name b : String} (h : Base '<' name.toList b.toList) :
    Base '<'.toUInt8 (Text.bytes name) (Text.bytes b) where
  free := by
    intro hmem
    have hbracket := Text.toList_infix_of_bytes (t := "<") ((List.singleton_infix_iff _ _).2 hmem)
    exact h.free ((List.singleton_infix_iff _ _).1 hbracket)
  front := by
    rcases h.front with hb | ⟨rest, hrest⟩
    · exact .inl (congrArg Text.bytes (String.toList_inj.1 hb))
    · have hname : name = b ++ ("<" ++ .ofList rest) := by
        rw [← String.toList_inj, hrest]
        simp
      rw [hname, Text.bytes_append, Text.bytes_append]
      exact .inr ⟨_, rfl⟩

theorem LastCut.bytes {b r : List Char} (h : LastCut ':' b r) :
    LastCut ':'.toUInt8 (Text.bytes (.ofList b)) (Text.bytes (.ofList r)) := by
  cases h with
  | whole h =>
    refine .whole fun hb ↦ h ?_
    simpa using Text.toList_infix_of_bytes (t := "::") hb
  | behind p h =>
    rw [String.ofList_append, String.ofList_append, Text.bytes_append, Text.bytes_append]
    refine .behind _ fun hr ↦ h ?_
    have hcolon : ':'.toUInt8 :: Text.bytes (.ofList r) = Text.bytes (":" ++ .ofList r) := by
      rw [Text.bytes_append]
      rfl
    rw [hcolon] at hr
    simpa using Text.toList_infix_of_bytes (t := "::") hr

theorem shortest_bytes (name : String) :
    Shortest '<'.toUInt8 ':'.toUInt8 (Text.bytes name) (Text.bytes (short name)) := by
  have hcut := (lastCut_lastSegment name.toList).bytes
  have hbase : Base '<' name.toList (String.ofList (base name.toList)).toList := by
    rw [String.toList_ofList]
    exact base_base name.toList
  exact hcut.shortest hbase.bytes

theorem short_short (name : String) : short (short name) = short name := by
  have hbase : Base '<' (short name).toList (short name).toList := ⟨bracket_notMem_short name, .inl rfl⟩
  exact short_eq_iff.2 ((LastCut.whole (lastCut_short name).no_colons).shortest hbase)

/-- What the short name of a full name is. -/
structure Law (name : String) : Prop where
  shortest : ∀ r : String, short name = r ↔ Shortest '<' ':' name.toList r.toList
  bytewise : ∀ r : List UInt8, Text.bytes (short name) = r ↔ Shortest '<'.toUInt8 ':'.toUInt8 (Text.bytes name) r
  /-- Where the bytes are cut, no character is: in front of a bracket, and on both sides of a pair of colons. -/
  whole : ∀ t, t = "<" ∨ t = "::" → ∀ p q, Text.bytes name = p ++ (Text.bytes t ++ q) →
    ∃ u v, name = u ++ t ++ v ∧ p = Text.bytes u ∧ q = Text.bytes v
  bracket : '<' ∉ (short name).toList
  colons : ¬ [':', ':'] <:+: (short name).toList
  again : short (short name) = short name

theorem law (name : String) : Law name where
  shortest _ := short_eq_iff
  bytewise r := by
    constructor
    · rintro rfl
      exact shortest_bytes name
    · exact (shortest_bytes name).unique
  whole := by
    rintro t ht p q h
    exact Text.exists_of_bytes_eq (by rcases ht with rfl | rfl <;> decide) h
  bracket := bracket_notMem_short name
  colons := (lastCut_short name).no_colons
  again := short_short name

def Plain (s : String) : Prop := ':' ∉ s.toList ∧ '<' ∉ s.toList

theorem bracket_notMem_intercalate {path : List String} (h : ∀ s ∈ path, Plain s) :
    '<' ∉ ("::".intercalate path).toList := by
  induction path with
  | nil => simp
  | cons s path ih =>
    have hs : '<' ∉ s.toList := (h s (by simp)).2
    cases path with
    | nil => rwa [String.intercalate_singleton]
    | cons t path =>
      have hrest := ih fun u hu ↦ h u (List.mem_cons_of_mem _ hu)
      rw [String.intercalate_cons_of_ne_nil (by simp), String.toList_append, String.toList_append, List.mem_append,
        List.mem_append]
      rintro ((hmem | hmem) | hmem)
      · exact hs hmem
      · exact absurd hmem (by decide)
      · exact hrest hmem

theorem lastCut_intercalate (path : List String) {last : String} (h : Plain last) :
    LastCut ':' ("::".intercalate (path ++ [last])).toList last.toList := by
  have hlast : ¬ [':', ':'] <:+: ':' :: last.toList := by
    rw [List.infix_cons_iff]
    rintro (hfront | hrest)
    · exact h.1 ((List.cons_prefix_cons.1 hfront).2.subset (by simp))
    · exact h.1 (hrest.subset (by simp))
  by_cases hpath : path = []
  · rw [hpath, List.nil_append, String.intercalate_singleton]
    exact .whole fun hr ↦ hlast (List.infix_cons hr)
  · rw [String.intercalate_append_of_ne_nil hpath (by simp), String.intercalate_singleton, String.toList_append,
      String.toList_append, List.append_assoc]
    exact .behind _ hlast

theorem short_path {path : List String} {last args : String} (h : ∀ s ∈ path ++ [last], Plain s)
    (hargs : args = "" ∨ ∃ t, args = "<" ++ t) : short ("::".intercalate (path ++ [last]) ++ args) = last := by
  refine short_eq_iff.2 ((lastCut_intercalate path (h last (by simp))).shortest ⟨bracket_notMem_intercalate h, ?_⟩)
  rcases hargs with rfl | ⟨t, rfl⟩
  · exact .inl (by rw [String.append_empty])
  · exact .inr ⟨t.toList, by simp⟩

end Name

/-- An activity goes by the least that a cut of its full name leaves; of a path that is the last segment, whatever
is in front of it and whatever its arguments are. -/
theorem Activity.named_by_last_segment :
    (∀ name, Name.Law name) ∧
    ∀ (path : List String) (last args : String), (∀ s ∈ path ++ [last], Name.Plain s) →
      (args = "" ∨ ∃ t, args = "<" ++ t) →
      Name.short ("::".intercalate (path ++ [last]) ++ args) = last ∧
      ∀ x : Activity, x.name = "::".intercalate (path ++ [last]) ++ args → x.label = last := by
  refine ⟨Name.law, fun path last args h hargs ↦ ⟨Name.short_path h hargs, fun x hx ↦ ?_⟩⟩
  rw [label, hx]
  exact Name.short_path h hargs

namespace Sample

/-- One segment of its path is empty, and its arguments have paths and brackets of their own. -/
def boxed : Activity := ⟨"größe::::日::Boxed<größe::日<::>>", .int, .unit⟩

theorem boxed_named :
    Name.short "日:::é<" = "é" ∧ Name.Shortest '<' ':' "日:::é<".toList "é".toList ∧
    Name.Shortest '<'.toUInt8 ':'.toUInt8 (Text.bytes "日:::é<") (Text.bytes "é") ∧
    (∃ u v, "日:::é<" = u ++ "::" ++ v ∧ Text.bytes "日:" = Text.bytes u ∧ Text.bytes "é<" = Text.bytes v) ∧
    boxed.label = "Boxed" := by
  obtain ⟨hlaw, hpath⟩ := Activity.named_by_last_segment
  have hshort : Name.short "日:::é<" = "é" := by decide
  refine ⟨hshort, ((hlaw _).shortest _).1 hshort, ((hlaw _).bytewise _).1 (congrArg Text.bytes hshort), ?_, ?_⟩
  · exact (hlaw "日:::é<").whole "::" (.inr rfl) (Text.bytes "日:") (Text.bytes "é<") (by decide)
  · obtain ⟨-, hlabel⟩ := hpath ["größe", "", "日"] "Boxed" "<größe::日<::>>" (by simp [Name.Plain])
      (.inr ⟨"größe::日<::>>", rfl⟩)
    exact hlabel boxed rfl

end Sample

end ActivityGraph
