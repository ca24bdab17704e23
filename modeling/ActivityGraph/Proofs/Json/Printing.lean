import ActivityGraph.Json.Printer
import ActivityGraph.Proofs.Json.Reading
import Mathlib.Algebra.Group.Int.Defs

namespace ActivityGraph.Json

namespace Token

theorem Words.blanks {bs cs : List Char} {ts : List Token} (hb : Blanks bs) (h : Words ts cs) :
    Words ts (bs ++ cs) := by
  induction bs with
  | nil => exact h
  | cons b bs ih =>
    have ht := ih fun c hc ↦ hb c (List.mem_cons_of_mem _ hc)
    exact ht.blank (hb b List.mem_cons_self)

theorem Words.append {ts us : List Token} {cs ds : List Char} (h : Words ts cs) (hu : Words us ds) :
    Words (ts ++ us) (cs ++ ds) := by
  induction h with
  | nil hb => exact hu.blanks hb
  | cons hb hw _ ih =>
    rw [List.append_assoc, List.append_assoc]
    exact .cons hb hw ih

theorem Spelled.words {t : Token} {w : List Char} (h : Spelled t w) : Words [t] w := by
  have hw := Words.cons blanks_nil h (.nil blanks_nil)
  simpa using hw

theorem Words.mark {t : Token} {c : Char} {ts : List Token} {cs : List Char} (hc : Spelled t [c]) (h : Words ts cs) :
    Words (t :: ts) (c :: cs) := hc.words.append h

theorem hexUnit?_control : ∀ n < 0x20, hexUnit? '0' '0' (hexDigit (n / 16)) (hexDigit (n % 16)) = some n := by
  decide

theorem piece_escapeChar (c : Char) : Piece c.toNat (escapeChar c) := by
  unfold escapeChar
  split
  any_goals exact .letter rfl
  next hq hb _ _ _ _ _ =>
    split
    · next hc => exact .digits (hexUnit?_control _ hc)
    · next hc => exact .plain (Nat.not_lt.1 hc) hq hb

theorem body_escaped (cs : List Char) : Body (cs.map Char.toNat) (cs.flatMap escapeChar) := by
  induction cs with
  | nil => exact .nil
  | cons c cs ih => exact .cons (piece_escapeChar c) ih

theorem joined_toNat (cs : List Char) : Joined (cs.map Char.toNat) cs := by
  induction cs with
  | nil => exact .nil
  | cons c cs ih => exact .char c ih

theorem spelled_stringChars (s : String) : Spelled (.text (some s)) (stringChars s) :=
  .text (body_escaped s.toList) (joined_toNat s.toList)

theorem natOfDigits_toDigits (n : Nat) : natOfDigits (Nat.toDigits 10 n) = n := by
  have h := Nat.ofDigitChars_toDigits (b := 10) (n := n) (by decide) (by decide)
  simp only [Nat.ofDigitChars, Nat.mul_comm 10] at h
  exact h

theorem digitChar_ne_zero : ∀ n < 10, 0 < n → n.digitChar ≠ '0' := by decide

theorem toDigits_head {n : Nat} (hn : 0 < n) : ∃ d ds, Nat.toDigits 10 n = d :: ds ∧ d ≠ '0' := by
  induction n using Nat.strongRecOn with
  | ind n ih =>
    by_cases h : n < 10
    · exact ⟨n.digitChar, [], Nat.toDigits_of_lt_base h, digitChar_ne_zero n h hn⟩
    · obtain ⟨d, ds, he, hd⟩ := ih (n / 10) (by omega) (by omega)
      refine ⟨d, ds ++ [(n % 10).digitChar], ?_, hd⟩
      rw [Nat.toDigits_of_base_le (by decide) (Nat.not_lt.1 h), he, List.cons_append]

theorem whole_toDigits (n : Nat) : Whole (Nat.toDigits 10 n) := by
  cases n with
  | zero => exact .zero
  | succ n =>
    obtain ⟨d, ds, he, hd⟩ := toDigits_head n.succ_pos
    rw [he]
    refine .digits hd ⟨by simp, ?_⟩
    intro c hc
    rw [← he] at hc
    exact Nat.isDigit_of_mem_toDigits (by decide) (by decide) hc

theorem spelled_intChars {n : Int} (hl : -2 ^ 63 ≤ n) (hu : n < 2 ^ 64) : Spelled (.scalar (.int n)) (intChars n) := by
  have spell (minus : Bool) (m : Nat) :=
    Spelled.number minus (whole_toDigits m) Fraction.absent Exponent.absent
  cases n with
  | ofNat m =>
    have h := spell false m
    have hm : m < UInt64.size := Int.ofNat_lt.1 hu
    simpa [numeral, natOfDigits_toDigits, hm, intChars, toString, Int.repr, Nat.repr_eq_ofList_toDigits] using h
  | negSucc m =>
    have h := spell true (m + 1)
    have hm : m + 1 ≤ UInt64.size / 2 := by
      simp only [UInt64.size]
      omega
    simpa [numeral, natOfDigits_toDigits, hm, Int.negSucc_eq, intChars, toString, Int.repr,
      Nat.repr_eq_ofList_toDigits] using h

end Token

open Token

/-- Documents that can be written: their numbers are integers of 64 bits, their strings and keys
are texts. -/
inductive Plain : Json → Prop
  | null : Plain .null
  | bool (b : Bool) : Plain (.bool b)
  | int {n : Int} (hl : -2 ^ 63 ≤ n) (hu : n < 2 ^ 64) : Plain (.int n)
  | str (s : String) : Plain (.str s)
  | arr {vs : List Json} (h : ∀ v ∈ vs, Plain v) : Plain (.arr vs)
  | object {ms : List (String × Json)} (h : ∀ m ∈ ms, Plain m.2) : Plain (object ms)

theorem words_itemChars {vs : List Json} (h : ∀ v ∈ vs, Words v.tokens v.chars) :
    Words (itemTokens vs) (itemChars vs ++ [']']) := by
  induction vs with
  | nil => exact Spelled.closeList.words
  | cons v vs ih =>
    have hv := h v List.mem_cons_self
    have hvs := ih fun w hw ↦ h w (List.mem_cons_of_mem _ hw)
    cases vs with
    | nil => exact hv.append Spelled.closeList.words
    | cons w ws =>
      have := hv.append (.mark .comma hvs)
      simpa [itemTokens, itemChars] using this

theorem words_memberChars {ms : List (String × Json)} (h : ∀ m ∈ ms, Words m.2.tokens m.2.chars) :
    Words (memberTokens (ms.map fun m ↦ (some m.1, m.2))) (memberChars (ms.map fun m ↦ (some m.1, m.2)) ++ ['\x7d']) := by
  induction ms with
  | nil => exact Spelled.closeObject.words
  | cons m ms ih =>
    have hk := (spelled_stringChars m.1).words
    have hv := h m List.mem_cons_self
    have hms := ih fun m' hm ↦ h m' (List.mem_cons_of_mem _ hm)
    cases ms with
    | nil =>
      have := hk.append (.mark .colon (hv.append Spelled.closeObject.words))
      simpa [memberTokens, memberChars] using this
    | cons m' ms =>
      have := hk.append (.mark .colon (hv.append (.mark .comma hms)))
      simpa [memberTokens, memberChars] using this

theorem words_chars {v : Json} (h : v.Plain) : Words v.tokens v.chars := by
  induction h with
  | null => exact Spelled.null.words
  | bool b =>
    cases b with
    | true => exact Spelled.yes.words
    | false => exact Spelled.no.words
  | int hl hu => exact (spelled_intChars hl hu).words
  | str s => exact (spelled_stringChars s).words
  | arr _ ih => exact .mark .openList (words_itemChars ih)
  | object _ ih => exact .mark .openObject (words_memberChars ih)

theorem Plain.writes {v : Json} (h : v.Plain) : Writes v v.render := by
  rw [Writes, render, String.toList_ofList]
  exact words_chars h

end ActivityGraph.Json
