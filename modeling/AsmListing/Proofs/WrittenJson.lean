/-
  AsmListing.Proofs.WrittenJson — the reader of JSON gives back what was written. So it is
  with every value whose numbers are integers, at any depth and with any characters in its
  texts. Other numbers are written by the digits they hold, which may be no number at all.

  A value is read with the text behind it left over (`ReadsBack`). Behind an item this
  text starts with a comma or a bracket, which is what ends a number (`EndsNumber`); in
  front, the first character tells the kinds of values apart (`Opens`).

  Proved:
  - `string?_quote`: a quoted text, one that names half of a pair too.
  - `number?_signed`: an integer, whatever its size.
  - `items?_writeItems` / `members?_writeMembers`: the inside of an array or object, from
    what holds of each value in it.
  - `IntegersOnly.readsBack`, and with nothing left over `parse?_text`: all values.
-/

import AsmListing.Json.Reader
import AsmListing.Json.Writer
import AsmListing.Proofs.Numerals
import Mathlib.Data.List.Basic

namespace AsmListing.Json

/-! ## Strings -/

theorem padZero_hexDigits_control : ∀ n < 0x20, Numeral.padZero 4 (Numeral.hexDigits n)
    = ['0', '0', (n / 16).digitChar, (n % 16).digitChar] := by decide

theorem unit?_control : ∀ n < 0x20, unit? '0' '0' (n / 16).digitChar (n % 16).digitChar = some n := by decide

/-- A character that needs no escape is read as it stands. -/
theorem codes?_cons {c : Char} (hquote : c ≠ '"') (hslash : c ≠ '\\') (hcode : ¬ c.toNat < 0x20) (rest : List Char) :
    codes? (c :: rest) = (codes? rest).map fun r => (c.toNat :: r.1, r.2) := by
  rw [codes?]
  · simp only [hcode, if_false]
    cases codes? rest <;> rfl
  · exact hquote
  · exact fun _ _ _ _ _ e _ => hslash e
  · exact fun e _ => hslash e
  · exact fun _ _ e _ => hslash e

theorem codes?_short {e c : Char} (he : shortEscape? e = some c) (rest : List Char) :
    codes? ('\\' :: e :: rest) = (codes? rest).map fun r => (c.toNat :: r.1, r.2) := by
  have hletter : e ≠ 'u' := by
    rintro rfl
    cases he
  rw [codes?]
  · rw [he]
    cases codes? rest <;> rfl
  · exact fun _ _ _ _ _ e _ => hletter e

theorem codes?_escapeChar (c : Char) (rest : List Char) :
    codes? (escapeChar c ++ rest) = (codes? rest).map fun r => (c.toNat :: r.1, r.2) := by
  unfold escapeChar
  split
  case h_8 hquote hslash _ _ _ _ _ =>
    split
    case isTrue hcontrol =>
      rw [padZero_hexDigits_control c.toNat hcontrol]
      simp only [List.cons_append, List.nil_append, codes?, unit?_control c.toNat hcontrol]
      cases codes? rest <;> rfl
    case isFalse hcode => exact codes?_cons hquote hslash hcode rest
  all_goals exact codes?_short rfl rest

theorem codes?_escaped (cs rest : List Char) :
    codes? (cs.flatMap escapeChar ++ '"' :: rest) = some (cs.map Char.toNat, rest) := by
  induction cs with
  | nil => rfl
  | cons c cs ih => rw [List.flatMap_cons, List.append_assoc, codes?_escapeChar, ih, Option.map_some, List.map_cons]

/-- No character is half of a pair. -/
theorem not_surrogate (c : Char) : (isHigh c.toNat || isLow c.toNat) = false := by
  have hvalid : c.toNat < 0xd800 ∨ 0xdfff < c.toNat ∧ c.toNat < 0x110000 := c.valid
  simp only [isHigh, isLow, Bool.or_eq_false_iff, Bool.and_eq_false_iff, decide_eq_false_iff_not]
  omega

theorem assemble?_cons (c : Char) (codes : List Nat) :
    assemble? (c.toNat :: codes) = (assemble? codes).map (c :: ·) := by
  have hwhole := not_surrogate c
  obtain ⟨hhigh, hlow⟩ := Bool.or_eq_false_iff.mp hwhole
  cases codes with
  | nil => simp [assemble?, hwhole, Char.ofNat_toNat]
  | cons code codes => simp [assemble?, hhigh, hlow, Char.ofNat_toNat]

theorem assemble?_map_toNat (cs : List Char) : assemble? (cs.map Char.toNat) = some cs := by
  induction cs with
  | nil => rfl
  | cons c cs ih => rw [List.map_cons, assemble?_cons, ih, Option.map_some]

/-- What stands behind the opening quote of a string that is no text. -/
def halfPair : List Char := ['\\', 'u', 'd', '8', '0', '0', '"']

theorem quote_some (s : String) : quote (some s) = '"' :: (s.toList.flatMap escapeChar ++ ['"']) := rfl

theorem quote_none : quote none = '"' :: halfPair := rfl

theorem string?_halfPair (rest : List Char) : string? (halfPair ++ rest) = some (none, rest) := rfl

theorem string?_escaped (s : String) (rest : List Char) :
    string? (s.toList.flatMap escapeChar ++ '"' :: rest) = some (some s, rest) := by
  rw [string?, codes?_escaped, Option.map_some]
  simp only [assemble?_map_toNat, Option.map_some, String.ofList_toList]

/-- Behind its opening quote, a quoted text is read as it was. -/
theorem string?_quote (s : Option String) (rest : List Char) :
    ∃ body, quote s ++ rest = '"' :: body ∧ string? body = some (s, rest) := by
  cases s with
  | none => exact ⟨halfPair ++ rest, by rw [quote_none, List.cons_append], string?_halfPair rest⟩
  | some s =>
    refine ⟨s.toList.flatMap escapeChar ++ '"' :: rest, ?_, string?_escaped s rest⟩
    rw [quote_some, List.cons_append, List.append_assoc, List.singleton_append]

/-! ## Numbers -/

/-- A number in front of this character goes on with it. -/
def continuesNumber (c : Char) : Bool := isDigit c || c == '.' || c == 'e' || c == 'E'

/-- A number in front of this text ends there. -/
def EndsNumber (rest : List Char) : Prop := ∀ c ∈ rest.head?, continuesNumber c = false

theorem endsNumber_cons {c : Char} (hc : continuesNumber c = false) (rest : List Char) : EndsNumber (c :: rest) := by
  rintro d hd
  cases hd
  exact hc

theorem decimalDigits_isDigit (n : Nat) : ∀ d ∈ Numeral.decimalDigits n, isDigit d = true := by
  intro d hd
  have hdigit : d.isDigit = true := Numeral.decimalDigits_isDigit hd
  simpa [isDigit, Char.isDigit, Char.le_def] using hdigit

theorem decimalDigits_cons (n : Nat) : ∃ d ds, Numeral.decimalDigits n = d :: ds ∧ isDigit d = true := by
  obtain ⟨d, ds, hds⟩ := List.exists_cons_of_ne_nil (l := Numeral.decimalDigits n) Nat.toDigits_ne_nil
  exact ⟨d, ds, hds, decimalDigits_isDigit n d (hds ▸ List.mem_cons_self)⟩

theorem digitsValue_decimalDigits (n : Nat) : digitsValue (Numeral.decimalDigits n) = n := by
  have hvalue : digitsValue (Numeral.decimalDigits n) = Nat.ofDigitChars 10 (Nat.toDigits 10 n) 0 := by
    simp only [digitsValue, Nat.ofDigitChars_eq_foldl, Nat.mul_comm]
    rfl
  rw [hvalue, Nat.ofDigitChars_toDigits (by decide) (by decide)]

section

variable {rest : List Char} (hrest : EndsNumber rest)

include hrest

theorem digits?_decimalDigits (n : Nat) :
    digits? (Numeral.decimalDigits n ++ rest) = some (Numeral.decimalDigits n, rest) := by
  have hends : rest.takeWhile isDigit = [] ∧ rest.dropWhile isDigit = rest := by
    cases rest with
    | nil => exact ⟨rfl, rfl⟩
    | cons c cs =>
      have hc : isDigit c = false := by
        have := hrest c rfl
        simp only [continuesNumber, Bool.or_eq_false_iff] at this
        exact this.1.1.1
      simp only [List.takeWhile_cons, List.dropWhile_cons, hc, Bool.false_eq_true, if_false, and_self]
  have hall := decimalDigits_isDigit n
  rw [digits?, List.takeWhile_append_of_pos hall, List.dropWhile_append_of_pos hall, hends.1, hends.2, List.append_nil]
  split
  case h_1 hnil => exact absurd hnil Nat.toDigits_ne_nil
  case h_2 => rfl

theorem whole?_decimalDigits (n : Nat) :
    whole? (Numeral.decimalDigits n ++ rest) = some (Numeral.decimalDigits n, rest) := by
  -- A leading zero is refused, but zero itself is that one digit.
  have hleading : ((Numeral.decimalDigits n).head? == some '0' && (Numeral.decimalDigits n).length != 1) = false := by
    by_cases hzero : (Numeral.decimalDigits n).head? = some '0'
    · rw [Numeral.toDigits_head (by decide) hzero]
      rfl
    · rw [beq_false_of_ne hzero, Bool.false_and]
  simp only [whole?, digits?_decimalDigits hrest, Option.bind_eq_bind, Option.bind_some, hleading]
  rfl

theorem fraction?_absent : fraction? rest = some ([], rest) := by
  cases rest with
  | nil => rfl
  | cons c cs =>
    have hc : c ≠ '.' := by
      rintro rfl
      cases hrest '.' rfl
    unfold fraction?
    split
    case h_1 e => exact absurd (List.cons.inj e).1 hc
    case h_2 => rfl

theorem exponent?_absent : exponent? rest = some ([], rest) := by
  cases rest with
  | nil => rfl
  | cons c cs =>
    have hc : (c == 'e' || c == 'E') = false := by
      have := hrest c rfl
      simp only [continuesNumber, Bool.or_eq_false_iff] at this ⊢
      exact ⟨this.1.2, this.2⟩
    simp only [exponent?, hc, Bool.false_eq_true, if_false]

theorem unsigned?_decimalDigits {negative : Bool} {n : Nat} (hsign : negative = true → n ≠ 0) :
    unsigned? negative (Numeral.decimalDigits n ++ rest) = some (.integer (if negative then -n else n), rest) := by
  have hkept : (negative && n == 0) = false := by
    cases negative with
    | false => rfl
    | true => simpa using hsign rfl
  simp only [unsigned?, whole?_decimalDigits hrest, fraction?_absent hrest, exponent?_absent hrest,
    Option.bind_eq_bind, Option.bind_some, digitsValue_decimalDigits, hkept]
  rfl

theorem number?_signed (n : Int) :
    number? (Numeral.signed Numeral.decimalDigits n ++ rest) = some (.integer n, rest) := by
  unfold Numeral.signed
  split
  case isTrue hneg =>
    have hvalue : -(n.natAbs : Int) = n := by omega
    have hread : number? ('-' :: (Numeral.decimalDigits n.natAbs ++ rest))
        = unsigned? true (Numeral.decimalDigits n.natAbs ++ rest) := rfl
    rw [List.cons_append, hread, unsigned?_decimalDigits hrest fun _ => by omega, if_pos rfl, hvalue]
  case isFalse hpos =>
    have hvalue : (n.natAbs : Int) = n := by omega
    have hread : number? (Numeral.decimalDigits n.natAbs ++ rest)
        = unsigned? false (Numeral.decimalDigits n.natAbs ++ rest) := by
      obtain ⟨d, ds, hds, hd⟩ := decimalDigits_cons n.natAbs
      rw [hds, List.cons_append, number?]
      rintro tail e
      cases (List.cons.inj e).1
      cases hd
    rw [hread, unsigned?_decimalDigits hrest Bool.noConfusion, if_neg Bool.false_ne_true, hvalue]

end

/-- A number can start with this character. -/
def startsNumber (c : Char) : Bool := c == '-' || isDigit c

theorem signed_cons (n : Int) :
    ∃ c cs, Numeral.signed Numeral.decimalDigits n = c :: cs ∧ startsNumber c = true := by
  unfold Numeral.signed
  split
  case isTrue => exact ⟨'-', _, rfl, rfl⟩
  case isFalse =>
    obtain ⟨d, ds, hds, hd⟩ := decimalDigits_cons n.natAbs
    exact ⟨d, ds, hds, by rw [startsNumber, hd, Bool.or_true]⟩

/-! ## Values -/

/-- Every number in it is an integer. -/
inductive IntegersOnly : Json → Prop
  | null : IntegersOnly .null
  | bool (b : Bool) : IntegersOnly (.bool b)
  | integer (n : Int) : IntegersOnly (.integer n)
  | string (s : Option String) : IntegersOnly (.string s)
  | array {items : List Json} (h : ∀ j ∈ items, IntegersOnly j) : IntegersOnly (.array items)
  | object {members : List (Option String × Json)} (h : ∀ m ∈ members, IntegersOnly m.2) :
    IntegersOnly (.object members)

/-- A text that starts with what a value can start with. -/
def Opens (cs : List Char) : Prop := ∃ c tail, cs = c :: tail ∧ isBlank c = false ∧ c ≠ ']' ∧ c ≠ '\x7d'

theorem Opens.append {cs : List Char} (h : Opens cs) (rest : List Char) : Opens (cs ++ rest) := by
  obtain ⟨c, tail, rfl, hc⟩ := h
  exact ⟨c, tail ++ rest, rfl, hc⟩

theorem Opens.length_pos {cs : List Char} (h : Opens cs) : 0 < cs.length := by
  obtain ⟨c, tail, rfl, -⟩ := h
  exact Nat.zero_lt_succ _

theorem Opens.skipBlanks {cs : List Char} (h : Opens cs) : skipBlanks cs = cs := by
  obtain ⟨c, tail, rfl, hc, -⟩ := h
  rw [Json.skipBlanks, List.dropWhile_cons_of_neg (by rw [hc]; nofun)]

theorem quote_opens (s : Option String) : Opens (quote s) := by
  cases s with
  | none => exact ⟨'"', halfPair, rfl, by decide⟩
  | some s => exact ⟨'"', _, quote_some s, by decide⟩

theorem opens_of_startsNumber {c : Char} (hc : startsNumber c = true) (cs : List Char) : Opens (c :: cs) := by
  have hne : ∀ d, startsNumber d = false → c ≠ d := by
    rintro d hd rfl
    cases hc.symm.trans hd
  refine ⟨c, cs, rfl, ?_, hne _ (by decide), hne _ (by decide)⟩
  simp only [isBlank, Bool.or_eq_false_iff, beq_eq_false_iff_ne]
  exact ⟨⟨⟨hne _ (by decide), hne _ (by decide)⟩, hne _ (by decide)⟩, hne _ (by decide)⟩

theorem value?_string (fuel : Nat) (rest : List Char) :
    value? (fuel + 1) ('"' :: rest) = (string? rest).map fun r => (.string r.1, r.2) := rfl

theorem value?_number {c : Char} (hc : startsNumber c = true) (fuel : Nat) (cs : List Char) :
    value? (fuel + 1) (c :: cs) = number? (c :: cs) := by
  rw [value?, (opens_of_startsNumber hc cs).skipBlanks]
  split
  case h_7 => rfl
  all_goals
    rename_i e
    cases (List.cons.inj e).1
    cases hc

theorem value?_array {cs : List Char} (h : Opens cs) (fuel : Nat) :
    value? (fuel + 1) ('[' :: cs) = (items? fuel cs).map fun r => (.array r.1, r.2) := by
  have hbracket : skipBlanks ('[' :: cs) = '[' :: cs := rfl
  rw [value?, hbracket]
  simp only [h.skipBlanks]
  obtain ⟨c, tail, rfl, -, hc, -⟩ := h
  split
  case h_1 e => exact absurd (List.cons.inj e).1 hc
  case h_2 => rfl

theorem value?_object {cs : List Char} (h : Opens cs) (fuel : Nat) :
    value? (fuel + 1) ('\x7b' :: cs) = (members? fuel cs).map fun r => (.object r.1, r.2) := by
  have hbrace : skipBlanks ('\x7b' :: cs) = '\x7b' :: cs := rfl
  rw [value?, hbrace]
  simp only [h.skipBlanks]
  obtain ⟨c, tail, rfl, -, -, hc⟩ := h
  split
  case h_1 e => exact absurd (List.cons.inj e).1 hc
  case h_2 => rfl

/-- The value is read from its text, whatever stands behind it that is no more of a number.
    Twice the length of the text is fuel enough, less the step into the value. -/
structure ReadsBack (j : Json) : Prop where
  opens : Opens j.write
  read : ∀ fuel rest, 2 * j.write.length ≤ fuel + 1 → EndsNumber rest →
    value? fuel (j.write ++ rest) = some (j, rest)

/-! ### Arrays -/

section

variable {j : Json} (hj : ReadsBack j) {fuel : Nat} (hfuel : 2 * j.write.length ≤ fuel + 1)

include hj hfuel

theorem items?_last (rest : List Char) : items? (fuel + 1) (j.write ++ ']' :: rest) = some ([j], rest) := by
  have hread := hj.read fuel (']' :: rest) hfuel (endsNumber_cons (by decide) rest)
  simp only [items?, hread, Option.bind_eq_bind, Option.bind_some]
  rfl

theorem items?_more (rest : List Char) :
    items? (fuel + 1) (j.write ++ ',' :: rest) = (items? fuel rest).map fun r => (j :: r.1, r.2) := by
  have hread := hj.read fuel (',' :: rest) hfuel (endsNumber_cons (by decide) rest)
  have hcomma : skipBlanks (',' :: rest) = ',' :: rest := rfl
  simp only [items?, hread, Option.bind_eq_bind, Option.bind_some, hcomma]
  cases items? fuel rest <;> rfl

theorem members?_last (key : Option String) (rest : List Char) :
    members? (fuel + 1) (quote key ++ ':' :: (j.write ++ '\x7d' :: rest)) = some ([(key, j)], rest) := by
  obtain ⟨body, hquote, hkey⟩ := string?_quote key (':' :: (j.write ++ '\x7d' :: rest))
  have hread := hj.read fuel ('\x7d' :: rest) hfuel (endsNumber_cons (by decide) rest)
  have hmark : skipBlanks ('"' :: body) = '"' :: body := rfl
  have hcolon : skipBlanks (':' :: (j.write ++ '\x7d' :: rest)) = ':' :: (j.write ++ '\x7d' :: rest) := rfl
  rw [hquote]
  simp only [members?, hmark, hkey, hcolon, hread, Option.bind_eq_bind, Option.bind_some]
  rfl

theorem members?_more (key : Option String) (rest : List Char) :
    members? (fuel + 1) (quote key ++ ':' :: (j.write ++ ',' :: rest))
      = (members? fuel rest).map fun r => ((key, j) :: r.1, r.2) := by
  obtain ⟨body, hquote, hkey⟩ := string?_quote key (':' :: (j.write ++ ',' :: rest))
  have hread := hj.read fuel (',' :: rest) hfuel (endsNumber_cons (by decide) rest)
  have hmark : skipBlanks ('"' :: body) = '"' :: body := rfl
  have hcolon : skipBlanks (':' :: (j.write ++ ',' :: rest)) = ':' :: (j.write ++ ',' :: rest) := rfl
  have hcomma : skipBlanks (',' :: rest) = ',' :: rest := rfl
  rw [hquote]
  simp only [members?, hmark, hkey, hcolon, hread, hcomma, Option.bind_eq_bind, Option.bind_some]
  cases members? fuel rest <;> rfl

end

theorem writeItems_cons_cons (j k : Json) (items : List Json) :
    writeItems (j :: k :: items) = j.write ++ ',' :: writeItems (k :: items) := rfl

theorem writeMembers_single (m : Option String × Json) : writeMembers [m] = quote m.1 ++ ':' :: m.2.write := rfl

theorem writeMembers_cons_cons (m n : Option String × Json) (members : List (Option String × Json)) :
    writeMembers (m :: n :: members) = quote m.1 ++ ':' :: (m.2.write ++ ',' :: writeMembers (n :: members)) := by
  rw [← List.cons_append, ← List.append_assoc]
  rfl

theorem writeItems_opens {items : List Json} (h : ∀ j ∈ items, ReadsBack j) (hne : items ≠ []) :
    Opens (writeItems items) := by
  match items with
  | [] => exact absurd rfl hne
  | [j] => exact (h j List.mem_cons_self).opens
  | j :: _ :: _ => exact (h j List.mem_cons_self).opens.append _

theorem items?_writeItems {items : List Json} (h : ∀ j ∈ items, ReadsBack j) (hne : items ≠ []) {fuel : Nat}
    (hfuel : 2 * (writeItems items).length ≤ fuel) (rest : List Char) :
    items? fuel (writeItems items ++ ']' :: rest) = some (items, rest) := by
  induction items generalizing fuel with
  | nil => exact absurd rfl hne
  | cons j items ih =>
    have hj := h j List.mem_cons_self
    have hlength := (writeItems_opens h hne).length_pos
    obtain ⟨fuel, rfl⟩ : ∃ n, fuel = n + 1 := ⟨fuel - 1, by omega⟩
    cases items with
    | nil => exact items?_last hj hfuel rest
    | cons k items =>
      -- The comma pays for the step past the item, the item for the step into it.
      rw [writeItems_cons_cons, List.length_append, List.length_cons] at hfuel
      have hrest : items? fuel (writeItems (k :: items) ++ ']' :: rest) = some (k :: items, rest) :=
        ih (fun i hi => h i (List.mem_cons_of_mem _ hi)) (List.cons_ne_nil _ _) (by omega)
      rw [writeItems_cons_cons, List.append_assoc, List.cons_append, items?_more hj (by omega), hrest]
      rfl

theorem writeMembers_opens {members : List (Option String × Json)} (hne : members ≠ []) :
    Opens (writeMembers members) := by
  match members with
  | [] => exact absurd rfl hne
  | [m] => exact (quote_opens m.1).append _
  | m :: n :: rest =>
    rw [writeMembers_cons_cons]
    exact (quote_opens m.1).append _

theorem members?_writeMembers {members : List (Option String × Json)} (h : ∀ m ∈ members, ReadsBack m.2)
    (hne : members ≠ []) {fuel : Nat} (hfuel : 2 * (writeMembers members).length ≤ fuel) (rest : List Char) :
    members? fuel (writeMembers members ++ '\x7d' :: rest) = some (members, rest) := by
  induction members generalizing fuel with
  | nil => exact absurd rfl hne
  | cons m members ih =>
    obtain ⟨key, j⟩ := m
    have hj : ReadsBack j := h _ List.mem_cons_self
    have hlength := (writeMembers_opens hne).length_pos
    obtain ⟨fuel, rfl⟩ : ∃ n, fuel = n + 1 := ⟨fuel - 1, by omega⟩
    cases members with
    | nil =>
      rw [writeMembers_single] at hfuel
      simp only [List.length_append, List.length_cons] at hfuel
      rw [writeMembers_single, List.append_assoc, List.cons_append, members?_last hj (by omega)]
    | cons n members =>
      rw [writeMembers_cons_cons] at hfuel
      simp only [List.length_append, List.length_cons] at hfuel
      have hrest : members? fuel (writeMembers (n :: members) ++ '\x7d' :: rest) = some (n :: members, rest) :=
        ih (fun i hi => h i (List.mem_cons_of_mem _ hi)) (List.cons_ne_nil _ _) (by omega)
      rw [writeMembers_cons_cons]
      simp only [List.append_assoc, List.cons_append]
      rw [members?_more hj (by omega), hrest]
      rfl

/-! ### All values -/

/-- A text that opens has a character, so that there is fuel for the step into the value. -/
theorem readsBack_of_step {j : Json} (hopens : Opens j.write)
    (h : ∀ fuel rest, 2 * j.write.length ≤ fuel + 2 → EndsNumber rest →
      value? (fuel + 1) (j.write ++ rest) = some (j, rest)) : ReadsBack j where
  opens := hopens
  read fuel rest hfuel hrest := by
    have hlength := hopens.length_pos
    obtain ⟨fuel, rfl⟩ : ∃ n, fuel = n + 1 := ⟨fuel - 1, by omega⟩
    exact h fuel rest hfuel hrest

theorem write_integer (n : Int) : write (.integer n) = Numeral.signed Numeral.decimalDigits n := rfl

theorem write_string (s : Option String) : write (.string s) = quote s := rfl

theorem write_array (items : List Json) : write (.array items) = '[' :: (writeItems items ++ [']']) := rfl

theorem write_object (members : List (Option String × Json)) :
    write (.object members) = '\x7b' :: (writeMembers members ++ ['\x7d']) := rfl

theorem readsBack_integer (n : Int) : ReadsBack (.integer n) := by
  obtain ⟨c, cs, hcs, hc⟩ := signed_cons n
  have hopens : Opens (write (.integer n)) := by
    rw [write_integer, hcs]
    exact opens_of_startsNumber hc cs
  refine readsBack_of_step hopens fun fuel rest _ hrest => ?_
  have hread := number?_signed hrest n
  rw [hcs, List.cons_append] at hread
  rw [write_integer, hcs, List.cons_append, value?_number hc, hread]

theorem readsBack_string (s : Option String) : ReadsBack (.string s) := by
  refine readsBack_of_step (quote_opens s) fun fuel rest _ _ => ?_
  obtain ⟨body, hquote, hread⟩ := string?_quote s rest
  rw [write_string, hquote, value?_string, hread, Option.map_some]

theorem readsBack_array {items : List Json} (h : ∀ j ∈ items, ReadsBack j) : ReadsBack (.array items) := by
  refine readsBack_of_step ⟨'[', writeItems items ++ [']'], rfl, by decide⟩ fun fuel rest hfuel _ => ?_
  cases items with
  | nil => rfl
  | cons j items =>
    have hopens := writeItems_opens h (List.cons_ne_nil j items)
    rw [write_array, List.length_cons, List.length_append, List.length_singleton] at hfuel
    rw [write_array, List.cons_append, List.append_assoc, List.singleton_append, value?_array (hopens.append _),
      items?_writeItems h (List.cons_ne_nil _ _) (by omega), Option.map_some]

theorem readsBack_object {members : List (Option String × Json)} (h : ∀ m ∈ members, ReadsBack m.2) :
    ReadsBack (.object members) := by
  refine readsBack_of_step ⟨'\x7b', writeMembers members ++ ['\x7d'], rfl, by decide⟩ fun fuel rest hfuel _ => ?_
  cases members with
  | nil => rfl
  | cons m members =>
    have hopens := writeMembers_opens (List.cons_ne_nil m members)
    rw [write_object, List.length_cons, List.length_append, List.length_singleton] at hfuel
    rw [write_object, List.cons_append, List.append_assoc, List.singleton_append, value?_object (hopens.append _),
      members?_writeMembers h (List.cons_ne_nil _ _) (by omega), Option.map_some]

theorem IntegersOnly.readsBack {j : Json} (h : j.IntegersOnly) : ReadsBack j := by
  induction h with
  | null => exact readsBack_of_step ⟨'n', _, rfl, by decide⟩ fun _ _ _ _ => rfl
  | bool b => cases b <;> exact readsBack_of_step ⟨_, _, rfl, by decide⟩ fun _ _ _ _ => rfl
  | integer n => exact readsBack_integer n
  | string s => exact readsBack_string s
  | array _ ih => exact readsBack_array ih
  | object _ ih => exact readsBack_object ih

theorem parse?_text {j : Json} (h : j.IntegersOnly) : parse? j.text = some j := by
  have hread := h.readsBack.read (2 * j.write.length + 1) [] (by omega) nofun
  rw [List.append_nil] at hread
  rw [parse?, text]
  simp only [String.toList_ofList, hread]
  rfl

end AsmListing.Json
