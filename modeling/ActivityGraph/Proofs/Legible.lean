import ActivityGraph.Diagram
import Mathlib.Data.List.Induction

namespace ActivityGraph.Diagram

/-- A text that is read backwards, in parts: by turns what stands outside of names, and a name. -/
def parts : Bool → List Char → List Char → List (List Char)
  | _, part, [] => [part]
  | true, part, '"' :: '\\' :: cs => parts true ('"' :: part) cs
  | inside, part, c :: cs => if c = '"' then part :: parts (!inside) [] cs else parts inside (c :: part) cs

def shapeOf : List Char → Shape
  | '\x7d' :: _ => .joined
  | ']' :: ')' :: _ => .start
  | _ => .activity

def readVertices : List (List Char) → List Vertex
  | bracket :: name :: ps => readVertices ps ++ [⟨String.ofList name, shapeOf bracket⟩]
  | _ => []

/-- The numbers in a text; `n` is the one whose digits are being read. -/
def numbers : Option Nat → List Char → List Nat
  | n, [] => n.toList
  | n, c :: cs =>
    if c.isDigit then numbers (some (10 * n.getD 0 + (c.toNat - '0'.toNat))) cs else n.toList ++ numbers none cs

def pairs : List Nat → List (Nat × Nat)
  | i :: j :: ns => (i, j) :: pairs ns
  | _ => []

def read (text : String) : Diagram :=
  let ps := parts false [] text.toList.reverse
  ⟨readVertices ps, pairs (numbers none (ps.headD []))⟩

theorem parts_outside {cs : List Char} (h : '"' ∉ cs) (part rest : List Char) :
    parts false part (cs.reverse ++ rest) = parts false (cs ++ part) rest := by
  induction cs using List.reverseRecOn generalizing part with
  | nil => rfl
  | append_singleton cs c ih =>
    have hc : c ≠ '"' := fun he ↦ h (by simp [he])
    have hstep : parts false part (c :: (cs.reverse ++ rest)) = parts false (c :: part) (cs.reverse ++ rest) := by
      rw [parts]
      · exact if_neg hc
      · intro _ he
        exact absurd he (by simp)
    rw [List.reverse_append, List.reverse_singleton, List.singleton_append, List.cons_append, hstep,
      ih fun he ↦ h (List.mem_append_left _ he), List.append_assoc, List.singleton_append]

/-- Going backwards, a name goes on past each quote that a backslash guards, and no further. -/
theorem parts_name (name : String) {c : Char} (hc : c ≠ '\\') (rest : List Char) :
    parts true [] ((escape name).reverse ++ '"' :: c :: rest) = name.toList :: parts false [] (c :: rest) := by
  suffices h : ∀ cs part : List Char,
      parts true part ((cs.flatMap fun c ↦ if c = '"' then ['\\', '"'] else [c]).reverse ++ '"' :: c :: rest) =
        (cs ++ part) :: parts false [] (c :: rest) by
    simpa [escape] using h name.toList []
  intro cs
  induction cs using List.reverseRecOn with
  | nil =>
    intro part
    rw [List.flatMap_nil, List.reverse_nil, List.nil_append, List.nil_append, parts]
    · exact if_pos rfl
    · intro _ _ _ he
      exact absurd (List.cons.inj he).1 hc
  | append_singleton cs d ih =>
    intro part
    rw [List.flatMap_append, List.reverse_append, List.flatMap_singleton, List.append_assoc, List.append_assoc]
    by_cases hd : d = '"'
    · subst hd
      exact ih _
    · rw [if_neg hd]
      refine Eq.trans ?_ (ih _)
      show parts true part (d :: _) = _
      rw [parts]
      · exact if_neg hd
      · intro _ _ he
        exact absurd he hd

theorem quote_notMem_toDigits (n : Nat) : '"' ∉ Nat.toDigits 10 n :=
  fun h ↦ absurd (Nat.isDigit_of_mem_toDigits (by decide) (by decide) h) (by decide)

theorem numbers_skip {cs : List Char} (h : ∀ c ∈ cs, c.isDigit = false) (rest : List Char) :
    numbers none (cs ++ rest) = numbers none rest := by
  induction cs with
  | nil => rfl
  | cons c cs ih =>
    rw [List.cons_append, numbers, h c (by simp), if_neg (by simp), ih fun d hd ↦ h d (List.mem_cons_of_mem _ hd)]
    rfl

theorem numbers_some {ds : List Char} (h : ∀ c ∈ ds, c.isDigit) (n : Nat) {c : Char} (hc : c.isDigit = false)
    (rest : List Char) : numbers (some n) (ds ++ c :: rest) = Nat.ofDigitChars 10 ds n :: numbers none rest := by
  induction ds generalizing n with
  | nil =>
    rw [List.nil_append, numbers, hc, if_neg (by simp)]
    rfl
  | cons d ds ih =>
    rw [List.cons_append, numbers, h d (by simp), if_pos rfl, ih fun c hc ↦ h c (List.mem_cons_of_mem _ hc)]
    rfl

theorem numbers_toDigits (n : Nat) {c : Char} (hc : c.isDigit = false) (rest : List Char) :
    numbers none (Nat.toDigits 10 n ++ c :: rest) = n :: numbers none rest := by
  have hdigits : ∀ c ∈ Nat.toDigits 10 n, c.isDigit := fun c hc ↦
    Nat.isDigit_of_mem_toDigits (by decide) (by decide) hc
  have hnone : numbers none (Nat.toDigits 10 n ++ c :: rest) = numbers (some 0) (Nat.toDigits 10 n ++ c :: rest) := by
    cases h : Nat.toDigits 10 n with
    | nil => exact absurd h Nat.toDigits_ne_nil
    | cons d ds =>
      rw [List.cons_append, numbers, numbers, hdigits d (by simp [h]), if_pos rfl, if_pos rfl]
      rfl
  rw [hnone, numbers_some hdigits 0 hc, Nat.ofDigitChars_ten_toDigits]

theorem quote_notMem_edgeLine (e : Nat × Nat) : '"' ∉ edgeLine e := by
  simp [edgeLine, indent, quote_notMem_toDigits]

theorem numbers_edgeLine (e : Nat × Nat) (rest : List Char) :
    numbers none (edgeLine e ++ rest) = e.1 :: e.2 :: numbers none rest := by
  have hline : edgeLine e ++ rest = indent ++ (Nat.toDigits 10 e.1 ++ ' ' ::
      (['-', '-', '>', ' '] ++ (Nat.toDigits 10 e.2 ++ '\n' :: rest))) := by
    simp [edgeLine]
  rw [hline, numbers_skip (by simp [indent]), numbers_toDigits _ (by decide), numbers_skip (by simp),
    numbers_toDigits _ (by decide)]

theorem pairs_edgeLines (es : List (Nat × Nat)) : pairs (numbers none (es.flatMap edgeLine)) = es := by
  induction es with
  | nil => rfl
  | cons e es ih => rw [List.flatMap_cons, numbers_edgeLine, pairs, ih]

theorem vertexLine_eq (v : Vertex) (i : Nat) :
    ∃ left c right, vertexLine (v, i) =
        indent ++ Nat.toDigits 10 i ++ left ++ c :: '"' :: escape v.name ++ '"' :: right ∧
      '"' ∉ left ∧ c ≠ '"' ∧ c ≠ '\\' ∧ '"' ∉ right ∧ (∀ c ∈ right, c.isDigit = false) ∧
      ∀ rest, shapeOf (right ++ rest) = v.shape := by
  obtain ⟨name, shape⟩ := v
  cases shape with
  | start => exact ⟨['('], '[', [']', ')', '\n'], by simp [vertexLine, vertexBrackets], by decide,
      by decide, by decide, by decide, by simp, fun _ ↦ rfl⟩
  | activity => exact ⟨[], '[', [']', '\n'], by simp [vertexLine, vertexBrackets], by decide,
      by decide, by decide, by decide, by simp, fun _ ↦ rfl⟩
  | joined => exact ⟨[], '\x7b', ['\x7d', '\n'], by simp [vertexLine, vertexBrackets], by decide,
      by decide, by decide, by decide, by simp, fun _ ↦ rfl⟩

/-- The vertices are read from the last to the first. What comes after them belongs to the first part, in which
no digit comes before it. -/
theorem parts_vertices (vs : List Vertex) (rest : List Char) :
    ∃ front ps, parts false rest ("graph LR\n".toList ++ vs.zipIdx.flatMap vertexLine).reverse = (front ++ rest) :: ps ∧
      (∀ c ∈ front, c.isDigit = false) ∧ readVertices ((front ++ rest) :: ps) = vs := by
  induction vs using List.reverseRecOn generalizing rest with
  | nil =>
    refine ⟨"graph LR\n".toList, [], ?_, by simp, rfl⟩
    have hquote : '"' ∉ "graph LR\n".toList := by decide
    have h := parts_outside hquote rest []
    rw [List.append_nil] at h
    rw [List.zipIdx_nil, List.flatMap_nil, List.append_nil, h]
    rfl
  | append_singleton vs v ih =>
    obtain ⟨left, c, right, hline, hleft, hquote, hc, hright, hdigits, hshape⟩ := vertexLine_eq v vs.length
    have hfront : '"' ∉ indent ++ Nat.toDigits 10 vs.length ++ left ++ [c] := by
      simp [indent, quote_notMem_toDigits, hleft, hquote.symm]
    obtain ⟨front, ps, hparts, -, hread⟩ := ih (indent ++ Nat.toDigits 10 vs.length ++ left ++ [c])
    refine ⟨right, v.name.toList :: (front ++ (indent ++ Nat.toDigits 10 vs.length ++ left ++ [c])) :: ps, ?_,
      hdigits, ?_⟩
    · set lines := "graph LR\n".toList ++ vs.zipIdx.flatMap vertexLine with hlines
      have htext : ("graph LR\n".toList ++ (vs ++ [v]).zipIdx.flatMap vertexLine).reverse =
          right.reverse ++ ('"' :: ((escape v.name).reverse ++ '"' ::
            c :: ((indent ++ Nat.toDigits 10 vs.length ++ left).reverse ++ lines.reverse))) := by
        simp [List.zipIdx_append, hline, hlines]
      have hcons : c :: ((indent ++ Nat.toDigits 10 vs.length ++ left).reverse ++ lines.reverse) =
          (indent ++ Nat.toDigits 10 vs.length ++ left ++ [c]).reverse ++ lines.reverse := by
        simp only [List.reverse_append, List.reverse_singleton, List.cons_append, List.nil_append]
      have hback := parts_outside hfront [] lines.reverse
      rw [List.append_nil] at hback
      rw [htext, parts_outside hright, ← hparts, ← hback, parts]
      · rw [if_pos rfl, Bool.not_false, parts_name v.name hc, hcons]
      · intro _ he
        exact absurd he (by simp)
    · rw [readVertices, hread, hshape]
      simp

theorem read_text (d : Diagram) : read d.text = d := by
  have hedges : '"' ∉ d.edges.flatMap edgeLine := by
    rw [List.mem_flatMap]
    rintro ⟨e, -, he⟩
    exact quote_notMem_edgeLine e he
  obtain ⟨front, ps, hparts, hdigits, hvertices⟩ := parts_vertices d.vertices (d.edges.flatMap edgeLine)
  have htext : d.text.toList.reverse = (d.edges.flatMap edgeLine).reverse ++
      ("graph LR\n".toList ++ d.vertices.zipIdx.flatMap vertexLine).reverse := by
    rw [text, String.toList_ofList]
    exact List.reverse_append
  have h : parts false [] d.text.toList.reverse = (front ++ d.edges.flatMap edgeLine) :: ps := by
    rw [htext, parts_outside hedges, List.append_nil, hparts]
  rw [read, h, hvertices, List.headD_cons, numbers_skip hdigits, pairs_edgeLines]

/-- A diagram can be read from its text, and so no two diagrams have the same one. -/
theorem text_legible (d e : Diagram) :
    read d.text = d ∧ (d.text = e.text ↔ d.vertices = e.vertices ∧ d.edges = e.edges) := by
  refine ⟨d.read_text, fun h ↦ ?_, fun ⟨hv, he⟩ ↦ ?_⟩
  · have heq : d = e := by rw [← d.read_text, ← e.read_text, h]
    exact heq ▸ ⟨rfl, rfl⟩
  · obtain ⟨vertices, edges⟩ := d
    obtain rfl := hv
    obtain rfl := he
    rfl

/-- One name ends in a backslash, and the other goes on as if it were a vertex of its own. -/
example : (read (text ⟨[⟨"a\\", .start⟩, ⟨"b\"]\n    7[\"", .joined⟩], [(0, 1)]⟩)).vertices =
    [⟨"a\\", .start⟩, ⟨"b\"]\n    7[\"", .joined⟩] := by decide +kernel

end ActivityGraph.Diagram
