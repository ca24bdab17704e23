import ActivityGraph.Diagram

namespace ActivityGraph

namespace Text

def bytes (s : String) : List UInt8 := s.toUTF8.data.toList

theorem bytes_eq (s : String) : bytes s = s.toList.flatMap String.utf8EncodeChar := by
  rw [bytes, String.toUTF8_eq_toByteArray, ← String.utf8Encode_toList, List.utf8Encode, List.toList_data_toByteArray]

theorem bytes_append (s t : String) : bytes (s ++ t) = bytes s ++ bytes t := by
  rw [bytes_eq, bytes_eq, bytes_eq, String.toList_append, List.flatMap_append]

theorem utf8EncodeChar_lt {c d : Char} (h : c < d) (xs ys : List UInt8) :
    String.utf8EncodeChar c ++ xs < String.utf8EncodeChar d ++ ys := by
  have hcd : c.val.toNat < d.val.toNat := h
  have hd : d.val.toNat < 0x110000 := by
    rcases d.valid with hd | ⟨-, hd⟩ <;> omega
  unfold String.utf8EncodeChar
  generalize c.val.toNat = m, d.val.toNat = n at hcd hd
  dsimp only
  -- the first byte tells how many there are, and grows with this number
  repeat' split
  all_goals
    simp only [List.cons_append, List.nil_append, List.cons_lt_cons_iff, UInt8.lt_iff_toNat_lt, ← UInt8.toNat_inj,
      UInt8.toNat_ofNat']
    simp (disch := omega) only [Nat.mod_eq_of_lt]
    omega

theorem flatMap_utf8EncodeChar_lt {cs ds : List Char} (h : cs < ds) :
    cs.flatMap String.utf8EncodeChar < ds.flatMap String.utf8EncodeChar := by
  induction h with
  | nil =>
    rw [List.flatMap_nil, List.flatMap_cons]
    obtain ⟨x, xs, hx⟩ := List.exists_cons_of_ne_nil (String.utf8EncodeChar_ne_nil (c := _))
    rw [hx]
    exact List.nil_lt_cons x _
  | rel h =>
    rw [List.flatMap_cons, List.flatMap_cons]
    exact utf8EncodeChar_lt h _ _
  | cons _ ih =>
    rw [List.flatMap_cons, List.flatMap_cons]
    exact List.append_left_lt ih

theorem bytes_lt {s t : String} (h : s < t) : bytes s < bytes t := by
  rw [bytes_eq, bytes_eq]
  exact flatMap_utf8EncodeChar_lt h

theorem bytes_le_iff {s t : String} : bytes s ≤ bytes t ↔ s ≤ t := by
  refine ⟨fun h hlt ↦ h (bytes_lt hlt), fun h hlt ↦ ?_⟩
  by_cases he : s = t
  · exact List.lt_irrefl _ (he ▸ hlt)
  · exact List.lt_asymm hlt (bytes_lt (Std.lt_of_le_of_ne h he))

/-- The bytes of a character tell where they end. -/
theorem utf8EncodeChar_append_inj {c d : Char} {xs ys : List UInt8}
    (h : String.utf8EncodeChar c ++ xs = String.utf8EncodeChar d ++ ys) : c = d ∧ xs = ys := by
  have hcd : ¬ c < d := fun hlt ↦ List.lt_irrefl _ (h ▸ utf8EncodeChar_lt hlt xs ys)
  have hdc : ¬ d < c := fun hlt ↦ List.lt_irrefl _ (h ▸ utf8EncodeChar_lt hlt ys xs)
  obtain rfl : c = d := Char.le_antisymm (Char.not_lt.1 hdc) (Char.not_lt.1 hcd)
  exact ⟨rfl, List.append_cancel_left h⟩

theorem flatMap_utf8EncodeChar_eq_append {cs ds : List Char} {q : List UInt8}
    (h : cs.flatMap String.utf8EncodeChar = ds.flatMap String.utf8EncodeChar ++ q) :
    ∃ back, cs = ds ++ back ∧ q = back.flatMap String.utf8EncodeChar := by
  induction ds generalizing cs with
  | nil => exact ⟨cs, rfl, h.symm⟩
  | cons d ds ih =>
    rw [List.flatMap_cons, List.append_assoc] at h
    cases cs with
    | nil => exact absurd (List.append_eq_nil_iff.1 h.symm).1 String.utf8EncodeChar_ne_nil
    | cons c cs =>
      rw [List.flatMap_cons] at h
      obtain ⟨rfl, hcs⟩ := utf8EncodeChar_append_inj h
      obtain ⟨back, rfl, rfl⟩ := ih hcs
      exact ⟨back, rfl, rfl⟩

/-- Only the first byte of a character is also the first byte of a character. -/
theorem eq_nil_of_utf8EncodeChar_eq_append {c d : Char} {p xs ys : List UInt8} {x : UInt8}
    (hc : String.utf8EncodeChar c = p ++ x :: xs) (hd : String.utf8EncodeChar d = x :: ys) : p = [] := by
  have hfirst : x.IsUTF8FirstByte := by
    have h := UInt8.isUTF8FirstByte_getElem_zero_utf8EncodeChar (c := d)
    simpa only [hd, List.getElem_cons_zero] using h
  have hlt : p.length < (String.utf8EncodeChar c).length := by simp [hc]
  have hx : (String.utf8EncodeChar c)[p.length] = x := by simp [hc]
  rw [← hx, UInt8.isUTF8FirstByte_getElem_utf8EncodeChar] at hfirst
  exact List.length_eq_zero_iff.1 hfirst

theorem flatMap_utf8EncodeChar_eq_append_append {cs ds : List Char} (hds : ds ≠ []) {p q : List UInt8}
    (h : cs.flatMap String.utf8EncodeChar = p ++ (ds.flatMap String.utf8EncodeChar ++ q)) :
    ∃ front back, cs = front ++ ds ++ back ∧ p = front.flatMap String.utf8EncodeChar ∧
      q = back.flatMap String.utf8EncodeChar := by
  obtain ⟨d, ds, rfl⟩ := List.exists_cons_of_ne_nil hds
  obtain ⟨x, xs, hd⟩ := List.exists_cons_of_ne_nil (String.utf8EncodeChar_ne_nil (c := d))
  induction cs generalizing p with
  | nil =>
    rw [List.flatMap_cons, hd] at h
    exact absurd h (by simp)
  | cons c cs ih =>
    by_cases hp : p = []
    · subst hp
      obtain ⟨back, hcs, hq⟩ := flatMap_utf8EncodeChar_eq_append h
      exact ⟨[], back, hcs, rfl, hq⟩
    -- what stands further on does not begin inside the first character, and so it begins behind it
    have hbehind : ∃ as, p = String.utf8EncodeChar c ++ as ∧
        cs.flatMap String.utf8EncodeChar = as ++ ((d :: ds).flatMap String.utf8EncodeChar ++ q) := by
      rw [List.flatMap_cons] at h
      rcases List.append_eq_append_iff.1 h with hbehind | ⟨bs, hc, hbs⟩
      · exact hbehind
      cases bs with
      | nil => exact ⟨[], by rw [hc, List.append_nil, List.append_nil], hbs.symm⟩
      | cons y bs =>
        rw [List.flatMap_cons, hd] at hbs
        obtain ⟨rfl, -⟩ := List.cons.inj hbs
        exact absurd (eq_nil_of_utf8EncodeChar_eq_append hc hd) hp
    obtain ⟨as, rfl, hcs⟩ := hbehind
    obtain ⟨front, back, rfl, rfl, rfl⟩ := ih hcs
    exact ⟨c :: front, back, rfl, rfl, rfl⟩

theorem exists_of_bytes_eq {s t : String} (ht : t ≠ "") {p q : List UInt8} (h : bytes s = p ++ (bytes t ++ q)) :
    ∃ u v, s = u ++ t ++ v ∧ p = bytes u ∧ q = bytes v := by
  rw [bytes_eq, bytes_eq] at h
  obtain ⟨front, back, hs, rfl, rfl⟩ := flatMap_utf8EncodeChar_eq_append_append (by simpa using ht) h
  refine ⟨.ofList front, .ofList back, ?_, by simp [bytes_eq], by simp [bytes_eq]⟩
  rw [← String.toList_inj]
  simpa using hs

theorem toList_infix_of_bytes {s t : String} (h : bytes t <:+: bytes s) : t.toList <:+: s.toList := by
  by_cases ht : t = ""
  · subst ht
    exact List.nil_infix
  obtain ⟨p, q, hs⟩ := h
  rw [List.append_assoc] at hs
  obtain ⟨u, v, rfl, -, -⟩ := exists_of_bytes_eq ht hs.symm
  exact ⟨u.toList, v.toList, by simp⟩

end Text

end ActivityGraph
