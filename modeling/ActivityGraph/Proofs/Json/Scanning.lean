import ActivityGraph.Json.Parser
import ActivityGraph.Proofs.Json.Grammar
import Mathlib.Data.List.TakeWhile

namespace ActivityGraph.Json.Token

theorem hexValue?_lt {c : Char} {n : Nat} (h : hexValue? c = some n) : n < 16 := by
  unfold hexValue? at h
  split at h
  · next hc =>
    have h9 : c.toNat ≤ 57 := hc.2
    simp only [Option.some.injEq, show '0'.toNat = 48 from rfl] at h
    omega
  · split at h
    · next hc =>
      have hf : c.toNat ≤ 102 := hc.2
      simp only [Option.some.injEq, show 'a'.toNat = 97 from rfl] at h
      omega
    · split at h
      · next hc =>
        have hf : c.toNat ≤ 70 := hc.2
        simp only [Option.some.injEq, show 'A'.toNat = 65 from rfl] at h
        omega
      · simp at h

theorem hexUnit?_lt {a b c d : Char} {u : Nat} (h : hexUnit? a b c d = some u) : u < 0x10000 := by
  simp only [hexUnit?, Option.bind_eq_bind, Option.bind_eq_some_iff, Option.pure_def, Option.some.injEq] at h
  obtain ⟨i, hi, j, hj, k, hk, l, hl, rfl⟩ := h
  have := hexValue?_lt hi
  have := hexValue?_lt hj
  have := hexValue?_lt hk
  have := hexValue?_lt hl
  omega

theorem Piece.valid {u : Nat} {p : List Char} (h : Piece u p) : isHigh u ∨ isLow u ∨ u.isValidChar := by
  cases h with
  | plain | letter => exact .inr (.inr (Char.valid _))
  | digits hu =>
    have := hexUnit?_lt hu
    simp only [isHigh, isLow, decide_eq_true_eq, Nat.isValidChar]
    omega

theorem not_surrogate (c : Char) : isHigh c.toNat = false ∧ isLow c.toNat = false := by
  have : c.toNat < 0xd800 ∨ 0xdfff < c.toNat ∧ c.toNat < 0x110000 := c.valid
  simp only [isHigh, isLow, decide_eq_false_iff_not]
  omega

theorem Body.valid {us : List Nat} {cs : List Char} (h : Body us cs) :
    ∀ u ∈ us, isHigh u ∨ isLow u ∨ u.isValidChar := by
  induction h with
  | nil => simp
  | cons hp _ ih => exact List.forall_mem_cons.2 ⟨hp.valid, ih⟩

theorem Joined.unit {us : List Nat} {cs : List Char} {u : Nat} (hu : isHigh u ∨ isLow u ∨ u.isValidChar)
    (hn : ¬ (isHigh u ∨ isLow u)) (h : Joined us cs) : Joined (u :: us) (Char.ofNat u :: cs) := by
  have hv : u.isValidChar := (or_assoc.2 hu).resolve_left hn
  have hc := Joined.char (Char.ofNat u) h
  have he : (Char.ofNat u).toNat = u := by rw [Char.ofNat, dif_pos hv]; rfl
  rwa [he] at hc

theorem joined_of_pairUp? {us : List Nat} {cs : List Char} (hv : ∀ u ∈ us, isHigh u ∨ isLow u ∨ u.isValidChar)
    (h : pairUp? us = some cs) : Joined us cs := by
  fun_induction pairUp? us generalizing cs with
  | case1 =>
    obtain rfl := Option.some.inj h
    exact .nil
  | case2 => simp at h
  | case3 u hn =>
    obtain rfl := Option.some.inj h
    exact .unit (hv u List.mem_cons_self) hn .nil
  | case4 u l us hu hl ih =>
    obtain ⟨ds, hd, rfl⟩ := Option.map_eq_some_iff.1 h
    exact .pair hu hl (ih (fun x hx ↦ hv x (by simp [hx])) hd)
  | case5 => simp at h
  | case6 => simp at h
  | case7 u l us hh hl ih =>
    obtain ⟨ds, hd, rfl⟩ := Option.map_eq_some_iff.1 h
    exact .unit (hv u List.mem_cons_self) (by simp [hh, hl]) (ih (fun x hx ↦ hv x (List.mem_cons_of_mem _ hx)) hd)

theorem pairUp?_of_joined {us : List Nat} {cs : List Char} (h : Joined us cs) : pairUp? us = some cs := by
  induction h with
  | nil => rfl
  | @char us cs c h ih =>
    obtain ⟨hh, hl⟩ := not_surrogate c
    cases us with
    | nil => cases h; simp [pairUp?, hh, hl]
    | cons u us => simp [pairUp?, hh, hl, ih]
  | pair hu hl h ih => simp [pairUp?, hu, hl, ih]

theorem units?_piece {u : Nat} {p : List Char} (hp : Piece u p) (r : List Char) :
    units? (p ++ r) = (units? r).map fun x ↦ (u :: x.1, x.2) := by
  cases hp with
  | @plain c hc hq hb =>
    have hn : ¬ (c.toNat < 0x20 ∨ c = '\\') := by simp [hc, hb]
    rw [List.singleton_append, units?, if_neg hn]
    · cases units? r <;> rfl
    · exact hq
    · rintro a b c d r rfl
      simp at hb
    · rintro e r rfl
      simp at hb
  | @letter e c he =>
    rw [List.cons_append, List.singleton_append, units?, he]
    · cases units? r <;> rfl
    · rintro a b c d r rfl
      simp [unescape?] at he
  | digits hu =>
    simp only [List.cons_append, List.nil_append, units?, hu]
    cases units? r <;> rfl

theorem units?_body {us : List Nat} {body : List Char} (h : Body us body) (r : List Char) :
    units? (body ++ '"' :: r) = some (us, r) := by
  induction h with
  | nil => rfl
  | cons hp _ ih => rw [List.append_assoc, units?_piece hp, ih, Option.map_some]

theorem body_of_units? {cs r : List Char} {us : List Nat} (h : units? cs = some (us, r)) :
    ∃ body, Body us body ∧ cs = body ++ '"' :: r := by
  have step {u : Nat} {p cs r : List Char} {us : List Nat} (hp : Piece u p)
      (h : ∃ body, Body us body ∧ cs = body ++ '"' :: r) :
      ∃ body, Body (u :: us) body ∧ p ++ cs = body ++ '"' :: r := by
    obtain ⟨body, hb, rfl⟩ := h
    exact ⟨p ++ body, .cons hp hb, (List.append_assoc ..).symm⟩
  fun_induction units? cs generalizing us r with
  | case1 => simp at h
  | case2 r' =>
    simp only [Option.some.injEq, Prod.mk.injEq] at h
    obtain ⟨rfl, rfl⟩ := h
    exact ⟨[], .nil, rfl⟩
  | case3 a b c d r' ih =>
    simp only [Option.bind_eq_bind, Option.bind_eq_some_iff, Option.pure_def, Option.some.injEq, Prod.mk.injEq,
      Prod.exists] at h
    obtain ⟨u, hu, us, r, hr, rfl, rfl⟩ := h
    exact step (.digits hu) (ih hr)
  | case4 e r' _ ih =>
    simp only [Option.bind_eq_bind, Option.bind_eq_some_iff, Option.pure_def, Option.some.injEq, Prod.mk.injEq,
      Prod.exists] at h
    obtain ⟨c, hc, us, r, hr, rfl, rfl⟩ := h
    exact step (.letter hc) (ih hr)
  | case5 => simp at h
  | case6 c r' hq _ _ hn ih =>
    simp only [Option.bind_eq_bind, Option.bind_eq_some_iff, Option.pure_def, Option.some.injEq, Prod.mk.injEq,
      Prod.exists] at h
    obtain ⟨us, r, hr, rfl, rfl⟩ := h
    obtain ⟨hc, hb⟩ := not_or.1 hn
    exact step (.plain (Nat.not_lt.1 hc) hq hb) (ih hr)

/-- Nothing that could still belong to a number comes next. -/
def Stops (cs : List Char) : Prop := ∀ c ∈ cs.head?, c.isDigit = false ∧ c ≠ '.' ∧ c ≠ 'e' ∧ c ≠ 'E'

theorem digits_eq (cs : List Char) : digits false cs = (cs.takeWhile Char.isDigit, cs.dropWhile Char.isDigit) := by
  unfold digits
  split
  · simp [show '0'.isDigit = true from rfl]
  · rfl

theorem digits_append {ds r : List Char} (h : ∀ d ∈ ds, d.isDigit) (hr : ∀ c ∈ r.head?, c.isDigit = false) :
    digits false (ds ++ r) = (ds, r) := by
  rw [digits_eq, List.takeWhile_append_of_pos h, List.dropWhile_append_of_pos h]
  cases r with
  | nil => simp
  | cons c r => simp [hr c rfl]

theorem of_digits {cs ds r : List Char} (h : digits false cs = (ds, r)) :
    cs = ds ++ r ∧ ∀ d ∈ ds, d.isDigit := by
  rw [digits_eq, Prod.mk.injEq] at h
  obtain ⟨rfl, rfl⟩ := h
  refine ⟨List.takeWhile_append_dropWhile.symm, ?_⟩
  intro d hd
  exact List.mem_takeWhile_imp hd

theorem digits_whole {whole r : List Char} (h : Whole whole) (hr : ∀ c ∈ r.head?, c.isDigit = false) :
    digits true (whole ++ r) = (whole, r) := by
  cases h with
  | zero => rfl
  | @digits d ds hd h =>
    rw [← digits_append h.2 hr, digits_eq, List.cons_append, digits]
    rintro t ht
    exact hd (List.cons.inj ht).1

theorem whole_of_digits {cs ds r : List Char} (h : digits true cs = (ds, r)) (hn : ds ≠ []) :
    Whole ds ∧ cs = ds ++ r := by
  unfold digits at h
  split at h
  · obtain ⟨rfl, rfl⟩ := Prod.mk.inj h
    exact ⟨.zero, rfl⟩
  · next cs hz =>
    rw [← digits_eq] at h
    obtain ⟨rfl, hd⟩ := of_digits h
    cases ds with
    | nil => exact absurd rfl hn
    | cons d ds => exact ⟨.digits (fun he ↦ hz (ds ++ r) (by rw [he]; rfl)) ⟨hn, hd⟩, rfl⟩

theorem fraction?_append {frac r : List Char} (h : Fraction frac)
    (hr : ∀ c ∈ r.head?, c.isDigit = false ∧ c ≠ '.') : fraction? (frac ++ r) = some (frac, r) := by
  cases h with
  | absent =>
    rw [List.nil_append, fraction?]
    rintro t rfl
    exact (hr '.' rfl).2 rfl
  | @digits ds h =>
    obtain ⟨d, es, rfl⟩ := List.exists_cons_of_ne_nil h.1
    rw [List.cons_append, fraction?, digits_append h.2 fun c hc ↦ (hr c hc).1]

theorem of_fraction? {cs frac r : List Char} (h : fraction? cs = some (frac, r)) :
    Fraction frac ∧ cs = frac ++ r := by
  unfold fraction? at h
  split at h
  · split at h
    · simp at h
    · next ds r' hne he =>
      simp only [Option.some.injEq, Prod.mk.injEq] at h
      obtain ⟨rfl, rfl⟩ := h
      obtain ⟨rfl, hd⟩ := of_digits he
      exact ⟨.digits ⟨hne, hd⟩, rfl⟩
  · simp only [Option.some.injEq, Prod.mk.injEq] at h
    obtain ⟨rfl, rfl⟩ := h
    exact ⟨.absent, rfl⟩

theorem exponent?_append {exp r : List Char} (h : Exponent exp) (hr : Stops r) :
    exponent? (exp ++ r) = some (exp, r) := by
  cases h with
  | absent =>
    cases r with
    | nil => rfl
    | cons c r =>
      obtain ⟨-, -, he, hE⟩ := hr c rfl
      simp [exponent?, he, hE]
  | @digits e sign ds he hs h =>
    have hd := digits_append h.2 fun c hc ↦ (hr c hc).1
    obtain ⟨d, es, rfl⟩ := List.exists_cons_of_ne_nil h.1
    have hsign : d ≠ '+' ∧ d ≠ '-' := by
      have := h.2 d List.mem_cons_self
      constructor <;> (rintro rfl; simp at this)
    rw [List.cons_append] at hd
    rcases hs with rfl | rfl | rfl
    · simp [exponent?, he, hd, hsign]
    · simp [exponent?, he, hd]
    · simp [exponent?, he, hd]

theorem of_exponent? {cs exp r : List Char} (h : exponent? cs = some (exp, r)) :
    Exponent exp ∧ cs = exp ++ r := by
  unfold exponent? at h
  split at h
  · simp only [Option.some.injEq, Prod.mk.injEq] at h
    obtain ⟨rfl, rfl⟩ := h
    exact ⟨.absent, rfl⟩
  · next e t =>
    split at h
    · next he =>
      split at h
      next _ sign u hp =>
      have hsign : (sign = [] ∨ sign = ['+'] ∨ sign = ['-']) ∧ t = sign ++ u := by
        split at hp <;> obtain ⟨rfl, rfl⟩ := Prod.mk.inj hp <;> simp
      obtain ⟨hs, rfl⟩ := hsign
      split at h
      · simp at h
      · next ds r' hne hd =>
        simp only [Option.some.injEq, Prod.mk.injEq] at h
        obtain ⟨rfl, rfl⟩ := h
        obtain ⟨rfl, hall⟩ := of_digits hd
        exact ⟨.digits he hs ⟨hne, hall⟩, by simp⟩
    · simp only [Option.some.injEq, Prod.mk.injEq] at h
      obtain ⟨rfl, rfl⟩ := h
      exact ⟨.absent, rfl⟩

theorem Exponent.stops {exp r : List Char} (h : Exponent exp) (hr : Stops r) :
    ∀ c ∈ (exp ++ r).head?, c.isDigit = false ∧ c ≠ '.' := by
  cases h with
  | absent =>
    intro c hc
    exact ⟨(hr c hc).1, (hr c hc).2.1⟩
  | digits he hs h =>
    intro c hc
    obtain rfl := Option.some.inj hc
    rcases he with rfl | rfl <;> decide

theorem Fraction.stops {frac r : List Char} (h : Fraction frac)
    (hr : ∀ c ∈ r.head?, c.isDigit = false ∧ c ≠ '.') : ∀ c ∈ (frac ++ r).head?, c.isDigit = false := by
  cases h with
  | absent => exact fun c hc ↦ (hr c hc).1
  | digits h =>
    intro c hc
    obtain rfl := Option.some.inj hc
    rfl

theorem Whole.head {whole : List Char} (h : Whole whole) : ∃ d ds, whole = d :: ds ∧ d.isDigit := by
  cases h with
  | zero => exact ⟨_, _, rfl, rfl⟩
  | digits _ h => exact ⟨_, _, rfl, h.2 _ List.mem_cons_self⟩

theorem number?_append {whole frac exp r : List Char} (minus : Bool) (hw : Whole whole) (hf : Fraction frac)
    (he : Exponent exp) (hr : Stops r) :
    number? ((if minus then ['-'] else []) ++ (whole ++ (frac ++ exp)) ++ r) =
      some (numeral minus whole (frac ++ exp), r) := by
  have hexp := exponent?_append he hr
  have hfrac := fraction?_append hf (he.stops hr)
  have hwhole := digits_whole hw (hf.stops (he.stops hr))
  obtain ⟨d, ds, rfl, hd⟩ := hw.head
  have hne : d ≠ '-' := by
    rintro rfl
    simp at hd
  rw [List.cons_append] at hwhole
  cases minus with
  | true => simp [number?, hwhole, hfrac, hexp]
  | false => simp [number?, hne, hwhole, hfrac, hexp]

theorem of_number? {cs r : List Char} {v : Json} (h : number? cs = some (v, r)) :
    ∃ w, Spelled (.scalar v) w ∧ cs = w ++ r := by
  unfold number? at h
  split at h
  next _ minus t hp =>
  have hsign : cs = (if minus then ['-'] else []) ++ t := by
    split at hp <;> obtain ⟨rfl, rfl⟩ := Prod.mk.inj hp <;> rfl
  split at h
  next _ whole u hw =>
  dsimp only at h
  split at h
  · simp at h
  · next hne =>
    obtain ⟨hwhole, rfl⟩ := whole_of_digits hw hne
    simp only [Option.bind_eq_bind, Option.bind_eq_some_iff, Option.pure_def, Option.some.injEq, Prod.mk.injEq,
      Prod.exists] at h
    obtain ⟨frac, u', hf, exp, r', he, rfl, rfl⟩ := h
    obtain ⟨hfrac, rfl⟩ := of_fraction? hf
    obtain ⟨hexp, rfl⟩ := of_exponent? he
    exact ⟨_, .number minus hwhole hfrac hexp, by simp [hsign]⟩

def isMark : Token → Bool
  | .text _ | .scalar _ => false
  | _ => true

theorem next?_number {c : Char} {cs : List Char} (hc : c = '-' ∨ c.isDigit) :
    next? (c :: cs) = (number? (c :: cs)).map fun v ↦ (.scalar v.1, v.2) := by
  unfold next?
  split
  case h_11 => rfl
  all_goals
    next he =>
    obtain ⟨rfl, -⟩ := List.cons.inj he
    simp at hc

theorem next?_spelled {t : Token} {w r : List Char} (hw : Spelled t w) (hr : t.isMark ∨ Stops r) :
    next? (w ++ r) = some (t, r) := by
  cases hw with
  | openList | closeList | openObject | closeObject | colon | comma | null | yes | no => rfl
  | @number whole frac exp minus hwhole hf he =>
    have hn := number?_append minus hwhole hf he (hr.resolve_left (by simp [isMark]))
    have hstart : ∃ c cs, (if minus then ['-'] else []) ++ (whole ++ (frac ++ exp)) ++ r = c :: cs ∧
        (c = '-' ∨ c.isDigit) := by
      obtain ⟨d, ds, rfl, hd⟩ := hwhole.head
      cases minus with
      | true => exact ⟨_, _, rfl, .inl rfl⟩
      | false => exact ⟨_, _, rfl, .inr hd⟩
    obtain ⟨c, cs, he, hc⟩ := hstart
    rw [he] at hn ⊢
    rw [next?_number hc, hn, Option.map_some]
  | @text us body s hb hs =>
    simp [next?, string?, units?_body hb, pairUp?_of_joined hs]
  | @torn us body hb hs =>
    have hn : pairUp? us = none := by
      cases hp : pairUp? us with
      | none => rfl
      | some cs => exact absurd (joined_of_pairUp? hb.valid hp) (hs cs)
    simp [next?, string?, units?_body hb, hn]

theorem of_string? {cs r : List Char} {s : Option String} (h : string? cs = some (s, r)) :
    ∃ w, Spelled (.text s) w ∧ '"' :: cs = w ++ r := by
  simp only [string?, Option.bind_eq_bind, Option.bind_eq_some_iff, Option.pure_def, Option.some.injEq,
    Prod.mk.injEq, Prod.exists] at h
  obtain ⟨us, r', hu, rfl, rfl⟩ := h
  obtain ⟨body, hb, rfl⟩ := body_of_units? hu
  refine ⟨'"' :: (body ++ ['"']), ?_, by simp⟩
  cases hp : pairUp? us with
  | none => exact .torn hb fun cs hj ↦ by simp [pairUp?_of_joined hj] at hp
  | some cs => exact .text hb (by simpa using joined_of_pairUp? hb.valid hp)

theorem of_next? {cs r : List Char} {t : Token} (h : next? cs = some (t, r)) :
    ∃ w, Spelled t w ∧ cs = w ++ r := by
  have literal {u : Token} {w r' : List Char} (hw : Spelled u w) (h : some (u, r') = some (t, r)) :
      ∃ w', Spelled t w' ∧ w ++ r' = w' ++ r := by
    simp only [Option.some.injEq, Prod.mk.injEq] at h
    obtain ⟨rfl, rfl⟩ := h
    exact ⟨w, hw, rfl⟩
  unfold next? at h
  split at h
  · exact literal .openList h
  · exact literal .closeList h
  · exact literal .openObject h
  · exact literal .closeObject h
  · exact literal .colon h
  · exact literal .comma h
  · exact literal .null h
  · exact literal .yes h
  · exact literal .no h
  · obtain ⟨⟨s, r'⟩, hs, he⟩ := Option.map_eq_some_iff.1 h
    obtain ⟨rfl, rfl⟩ := Prod.mk.inj he
    exact of_string? hs
  · obtain ⟨⟨v, r'⟩, hv, he⟩ := Option.map_eq_some_iff.1 h
    obtain ⟨rfl, rfl⟩ := Prod.mk.inj he
    exact of_number? hv

theorem Spelled.head {t : Token} {w : List Char} (h : Spelled t w) : ∃ c cs, w = c :: cs ∧ isBlank c = false := by
  cases h with
  | @number whole frac exp minus hw =>
    obtain ⟨d, ds, rfl, hd⟩ := hw.head
    cases minus with
    | true => exact ⟨_, _, rfl, rfl⟩
    | false =>
      refine ⟨_, _, rfl, ?_⟩
      simp only [isBlank, decide_eq_false_iff_not]
      rintro (rfl | rfl | rfl | rfl) <;> simp at hd
  | _ => exact ⟨_, _, rfl, rfl⟩

theorem Spelled.mark_stops {t : Token} {w r : List Char} (h : Spelled t w) (ht : t.isMark) : Stops (w ++ r) := by
  cases h with
  | openList | closeList | openObject | closeObject | colon | comma =>
    intro c hc
    obtain rfl := Option.some.inj hc
    decide
  | _ => simp [isMark] at ht

theorem blanks_nil : Blanks [] := by simp [Blanks]

theorem Words.stops {ts : List Token} {cs : List Char} (h : Words ts cs) (ht : ∀ t ∈ ts.head?, t.isMark) :
    Stops cs := by
  have blank {bs r : List Char} (hb : Blanks bs) (hr : Stops r) : Stops (bs ++ r) := by
    cases bs with
    | nil => exact hr
    | cons b bs =>
      intro c hc
      obtain rfl := Option.some.inj hc
      have hbl := hb b List.mem_cons_self
      simp only [isBlank, decide_eq_true_eq] at hbl
      rcases hbl with rfl | rfl | rfl | rfl <;> decide
  cases h with
  | nil hb => simpa using blank (r := []) hb (by simp [Stops])
  | cons hb hw _ => exact blank hb (hw.mark_stops (ht _ rfl))

/-- Of two words next to each other one is a mark at least. -/
def Apart : List Token → Prop
  | [] => True
  | t :: ts => (t.isMark ∨ ∀ u ∈ ts.head?, u.isMark) ∧ Apart ts

theorem scan_blanks {bs cs : List Char} {n : Nat} (hb : Blanks bs) (hn : (bs ++ cs).length ≤ n) :
    ∃ m, cs.length ≤ m ∧ scan n (bs ++ cs) = scan m cs := by
  induction bs generalizing n with
  | nil => exact ⟨n, hn, rfl⟩
  | cons b bs ih =>
    cases n with
    | zero => simp at hn
    | succ n =>
      obtain ⟨m, hm, he⟩ := ih (fun c hc ↦ hb c (List.mem_cons_of_mem _ hc)) (Nat.le_of_succ_le_succ hn)
      exact ⟨m, hm, by rw [← he, List.cons_append, scan, if_pos (hb b List.mem_cons_self)]⟩

theorem scan_words {ts : List Token} {cs : List Char} (h : Words ts cs) (ha : Apart ts) {n : Nat}
    (hn : cs.length ≤ n) : scan n cs = some ts := by
  induction h generalizing n with
  | @nil bs hb =>
    rw [← List.append_nil bs] at hn
    obtain ⟨m, -, he⟩ := scan_blanks hb hn
    rw [List.append_nil] at he
    rw [he, scan]
  | @cons bs w cs t ts hb hw h ih =>
    obtain ⟨m, hm, he⟩ := scan_blanks hb hn
    rw [he]
    obtain ⟨c, w', rfl, hc⟩ := hw.head
    have hnext := next?_spelled hw (ha.1.imp_right h.stops)
    cases m with
    | zero => simp at hm
    | succ m =>
      rw [List.cons_append] at hnext ⊢
      have hlen : cs.length ≤ m := by
        simp only [List.cons_append, List.length_cons, List.length_append] at hm
        omega
      simp [scan, hc, hnext, ih ha.2 hlen]

theorem Words.blank {b : Char} {ts : List Token} {cs : List Char} (hb : isBlank b) (h : Words ts cs) :
    Words ts (b :: cs) := by
  cases h with
  | nil hbs => exact .nil (List.forall_mem_cons.2 ⟨hb, hbs⟩)
  | cons hbs hw h => exact .cons (List.forall_mem_cons.2 ⟨hb, hbs⟩) hw h

theorem words_of_scan {n : Nat} {cs : List Char} {ts : List Token} (h : scan n cs = some ts) : Words ts cs := by
  fun_induction scan n cs generalizing ts with
  | case1 =>
    obtain rfl := Option.some.inj h
    exact .nil blanks_nil
  | case2 => simp at h
  | case3 n c r hc ih => exact (ih h).blank hc
  | case4 n c r hc ih =>
    simp only [Option.bind_eq_bind, Option.bind_eq_some_iff, Option.pure_def, Option.some.injEq, Prod.exists] at h
    obtain ⟨t, r', ht, us, hus, rfl⟩ := h
    obtain ⟨w, hw, hcs⟩ := of_next? ht
    rw [hcs]
    exact .cons blanks_nil hw (ih _ hus)

theorem ofChars?_eq_some_iff {ts : List Token} (ha : Apart ts) {cs : List Char} :
    ofChars? cs = some ts ↔ Words ts cs :=
  ⟨words_of_scan, fun h ↦ scan_words h ha (Nat.le_refl _)⟩

end ActivityGraph.Json.Token
