/-
  AsmListing.Proofs.EscapedText — escaped text is read back. The reader takes text behind an
  opening quote, up to the first quote that no backslash takes away: a backslash goes with a
  letter, a backslash or a quote behind it, or with `x` and exactly two hexadecimal digits;
  every other character stands for itself (`quoted?`).

  What is written for one character has three shapes (`Stands`), for text in double quotes
  and for the byte of a character literal alike. Everything below is read off the shapes.

  Proved:
  - `escapeChar_stands` / `quotedByte_stands`: there are no other shapes.
  - `Stands.read`: each is read as its character, whatever follows.
  - `quote_escaped_iff`: of the quotes in an escaped text and behind it, only the one behind
    it is not taken away by a backslash.
  - `escaped_text_reads_back`: this, no control character, and the text read back.
-/

import AsmListing.Proofs.Characters
import AsmListing.Proofs.Numerals
import Mathlib.Algebra.Ring.Parity
import Mathlib.Data.List.DropRight

namespace AsmListing.Text

/-! ## Reading -/

/-- The character behind a backslash, for the escapes of one letter. -/
def shortEscape? (quote : Char) : Char → Option Char
  | '\\' => some '\\'
  | 'n' => some '\n'
  | 'r' => some '\r'
  | 't' => some '\t'
  | e => if e = quote then some quote else none

/-- Text up to its closing quote, and what follows the quote. -/
def quoted? (quote : Char) : List Char → Option (List Char × List Char)
  | [] => none
  | '\\' :: 'x' :: a :: b :: rest => do
    let code ← Numeral.value? 16 [a, b]
    let (text, rest) ← quoted? quote rest
    return (Char.ofNat code :: text, rest)
  | ['\\'] => none
  | '\\' :: e :: rest => do
    let c ← shortEscape? quote e
    let (text, rest) ← quoted? quote rest
    return (c :: text, rest)
  | c :: rest => if c = quote then some ([], rest) else (quoted? quote rest).map fun r => (c :: r.1, r.2)

section

variable {quote : Char}

theorem quoted?_plain {c : Char} (hslash : c ≠ '\\') (hquote : c ≠ quote) (rest : List Char) :
    quoted? quote (c :: rest) = (quoted? quote rest).map fun r => (c :: r.1, r.2) := by
  rw [quoted?]
  · rw [if_neg hquote]
  · exact fun _ _ _ e _ => hslash e
  · exact fun e _ => hslash e
  · exact fun _ _ e _ => hslash e

theorem quoted?_close (hslash : quote ≠ '\\') (rest : List Char) : quoted? quote (quote :: rest) = some ([], rest) := by
  rw [quoted?]
  · rw [if_pos rfl]
  · exact fun _ _ _ e _ => hslash e
  · exact fun e _ => hslash e
  · exact fun _ _ e _ => hslash e

theorem quoted?_short {e c : Char} (hletter : e ≠ 'x') (he : shortEscape? quote e = some c) (rest : List Char) :
    quoted? quote ('\\' :: e :: rest) = (quoted? quote rest).map fun r => (c :: r.1, r.2) := by
  rw [quoted?]
  · rw [he]
    cases quoted? quote rest <;> rfl
  · exact fun _ _ _ e _ => hletter e

theorem quoted?_hex {code : Nat} (hcode : code < 256) (rest : List Char) :
    quoted? quote (hexEscape code ++ rest) = (quoted? quote rest).map fun r => (Char.ofNat code :: r.1, r.2) := by
  have hvalue := Numeral.value?_two hcode
  rw [Numeral.padZero_two hcode] at hvalue
  rw [hexEscape, Numeral.padZero_two hcode]
  simp only [List.cons_append, List.nil_append, quoted?, hvalue]
  cases quoted? quote rest <;> rfl

end

/-! ## Shapes of a character -/

/-- What stands for a character between quotes: itself, a backslash with one more character,
    or a backslash with `x` and the two digits of its code. -/
inductive Stands (quote c : Char) : List Char → Prop
  | plain (hslash : c ≠ '\\') (hquote : c ≠ quote) (hcontrol : isControl c = false) : Stands quote c [c]
  | short {e : Char} (hletter : e ≠ 'x') (hprinted : Printed e) (he : shortEscape? quote e = some c) :
      Stands quote c ['\\', e]
  | hex (hcode : c.toNat < 256) : Stands quote c (hexEscape c.toNat)

theorem escapeChar_stands (c : Char) : Stands '"' c (escapeChar c) := by
  have hshort : ∀ {e c : Char}, e ≠ 'x' ∧ Printed e ∧ shortEscape? '"' e = some c → Stands '"' c ['\\', e] :=
    fun h => .short h.1 h.2.1 h.2.2
  unfold escapeChar
  split
  case h_6 hslash hquote _ _ _ =>
    by_cases hcontrol : isControl c = true
    · have hcode : c.toNat < 256 := by
        simp only [isControl, Bool.or_eq_true, Bool.and_eq_true, decide_eq_true_eq] at hcontrol
        omega
      rw [if_pos hcontrol]
      exact .hex hcode
    · rw [if_neg hcontrol]
      exact .plain hslash hquote (Bool.eq_false_iff.mpr hcontrol)
  all_goals exact hshort (by decide)

theorem quotedByte_stands (b : UInt8) : Stands '\x27' (Char.ofUInt8 b) (quotedByte b).toList := by
  have hshort : ∀ {e c : Char}, e ≠ 'x' ∧ Printed e ∧ shortEscape? '\x27' e = some c → Stands '\x27' c ['\\', e] :=
    fun h => .short h.1 h.2.1 h.2.2
  rw [quotedByte, String.toList_ofList]
  split
  case h_6 hslash hquote =>
    by_cases hvisible : (0x20 ≤ b && b ≤ 0x7e) = true
    · have hcontrol : isControl (Char.ofUInt8 b) = false := by
        have hcode : 32 ≤ b.toNat ∧ b.toNat ≤ 126 := by
          simpa [UInt8.le_iff_toNat_le] using hvisible
        rw [isControl, toNat_ofUInt8, Bool.or_eq_false_iff, Bool.and_eq_false_iff]
        simp only [decide_eq_false_iff_not]
        omega
      rw [if_pos hvisible]
      exact .plain hslash hquote hcontrol
    · rw [if_neg hvisible]
      exact .hex b.toNat_lt
  all_goals rename_i hb; rw [hb]; exact hshort (by decide)

namespace Stands

variable {quote c : Char} {cs : List Char}

theorem read (h : Stands quote c cs) (rest : List Char) :
    quoted? quote (cs ++ rest) = (quoted? quote rest).map fun r => (c :: r.1, r.2) := by
  cases h with
  | plain hslash hquote _ => exact quoted?_plain hslash hquote rest
  | short hletter _ he => exact quoted?_short hletter he rest
  | hex hcode =>
    rw [quoted?_hex hcode, Char.ofNat_toNat]

theorem not_control (h : Stands quote c cs) : ∀ d ∈ cs, isControl d = false := by
  have hprinted : ∀ {d}, Printed d → isControl d = false := by
    intro d hd
    simp only [Printed] at hd
    simp [isControl]
    omega
  intro d hd
  cases h with
  | plain _ _ hcontrol =>
    rw [List.mem_singleton.mp hd]
    exact hcontrol
  | short _ hletter _ => exact hprinted (backslashed_printed hletter d hd)
  | hex _ => exact hprinted (hexEscape_printed _ d hd)

end Stands

/-! ## Backslashes in front of a quote -/

/-- The character behind `cs` is taken away by a backslash that none takes away itself. -/
def escapesNext (cs : List Char) : Bool := cs.foldl (fun escaped c => c == '\\' && !escaped) false

theorem escapesNext_snoc (cs : List Char) (c : Char) : escapesNext (cs ++ [c]) = (c == '\\' && !escapesNext cs) := by
  simp [escapesNext]

theorem escapesNext_append {front : List Char} (h : escapesNext front = false) (back : List Char) :
    escapesNext (front ++ back) = escapesNext back := by
  rw [escapesNext] at h
  rw [escapesNext, List.foldl_append, h, escapesNext]

/-- It is the run of backslashes right in front that decides. -/
theorem escapesNext_iff_odd (cs : List Char) :
    escapesNext cs = true ↔ Odd (cs.rtakeWhile (· == '\\')).length := by
  induction cs using List.reverseRecOn with
  | nil => decide
  | append_singleton cs c ih =>
    rw [escapesNext_snoc]
    by_cases hslash : c = '\\'
    · subst hslash
      have hrun : (cs ++ ['\\']).rtakeWhile (· == '\\') = cs.rtakeWhile (· == '\\') ++ ['\\'] :=
        List.rtakeWhile_concat_pos _ _ _ rfl
      rw [hrun, List.length_append, List.length_singleton, Nat.odd_add_one, ← ih]
      simp
    · have hrun : (cs ++ [c]).rtakeWhile (· == '\\') = [] :=
        List.rtakeWhile_concat_neg _ _ _ (by simpa using hslash)
      rw [hrun]
      simp [hslash]

namespace Stands

variable {c : Char} {cs : List Char} (h : Stands '"' c cs)

include h

/-- A character never takes the one behind it away. -/
theorem not_escapesNext : escapesNext cs = false := by
  cases h with
  | plain hslash _ _ => simp [escapesNext, hslash]
  | short _ _ _ => simp [escapesNext]
  | hex hcode =>
    have hdigit : ∀ d < 16, d.digitChar ≠ '\\' := by decide
    rw [hexEscape, Numeral.padZero_two hcode]
    simp [escapesNext, hdigit (c.toNat / 16) (by omega), hdigit (c.toNat % 16) (by omega)]

/-- A quote comes in behind a backslash only. -/
theorem quote_escaped {before after : List Char} (hsplit : cs = before ++ '"' :: after) : escapesNext before = true := by
  have hquote : '"' ∈ cs := by
    rw [hsplit]
    simp
  cases h with
  | plain _ hne _ => exact absurd (List.mem_singleton.mp hquote).symm hne
  | short _ _ _ =>
    rcases before with _ | ⟨b, _ | ⟨b', before⟩⟩
    · cases hsplit
    · cases hsplit
      rfl
    · have hlength := congrArg List.length hsplit
      simp at hlength
  | hex hcode =>
    have hdigit : ∀ d < 16, '"' ≠ d.digitChar := by decide
    rw [hexEscape, Numeral.padZero_two hcode] at hquote
    simp [hdigit (c.toNat / 16) (by omega), hdigit (c.toNat % 16) (by omega)] at hquote

end Stands

theorem quote_escaped_iff (cs : List Char) {before after : List Char}
    (h : cs.flatMap escapeChar ++ ['"'] = before ++ '"' :: after) : escapesNext before = true ↔ after ≠ [] := by
  induction cs generalizing before with
  | nil =>
    -- the closing quote is all there is
    rcases before with _ | ⟨b, before⟩
    · cases h
      simp [escapesNext]
    · have hlength := congrArg List.length h
      simp at hlength
  | cons c cs ih =>
    rw [List.flatMap_cons, List.append_assoc] at h
    rcases List.append_eq_append_iff.mp h with ⟨later, rfl, hlater⟩ | ⟨piece, hpiece, hafter⟩
    · rw [escapesNext_append (escapeChar_stands c).not_escapesNext]
      exact ih hlater
    · rcases piece with _ | ⟨q, piece⟩
      · -- the quote is the first character of what follows
        have hfirst : escapesNext [] = true ↔ after ≠ [] := ih hafter.symm
        rw [List.append_nil] at hpiece
        rwa [← hpiece, (escapeChar_stands c).not_escapesNext]
      · cases hafter
        have hescaped := (escapeChar_stands c).quote_escaped hpiece
        simp [hescaped]

/-! ## Whole texts -/

theorem quoted?_escaped (cs rest : List Char) :
    quoted? '"' (cs.flatMap escapeChar ++ '"' :: rest) = some (cs, rest) := by
  induction cs with
  | nil => exact quoted?_close (by decide) rest
  | cons c cs ih => rw [List.flatMap_cons, List.append_assoc, (escapeChar_stands c).read, ih, Option.map_some]

theorem quoted?_escape (s : String) (rest : List Char) :
    quoted? '"' ((escape s).toList ++ '"' :: rest) = some (s.toList, rest) := by
  rw [escape, String.toList_ofList]
  exact quoted?_escaped s.toList rest

theorem quoted?_quotedByte (b : UInt8) (rest : List Char) :
    quoted? '\x27' ((quotedByte b).toList ++ '\x27' :: rest) = some ([Char.ofUInt8 b], rest) := by
  rw [(quotedByte_stands b).read, quoted?_close (by decide), Option.map_some]

theorem escape_injective {s t : String} (h : escape s = escape t) : s = t := by
  have hs := quoted?_escape s []
  rw [h, quoted?_escape t []] at hs
  have htexts : t.toList = s.toList := congrArg Prod.fst (Option.some.inj hs)
  exact (String.toList_inj.mp htexts).symm

/-- An escaped text holds no control character; of its quotes, and one put behind it, each
    but the last has an odd run of backslashes right in front of it, and that one has an even
    run; and read behind an opening quote it gives the text, up to that quote. -/
theorem escaped_text_reads_back (s : String) :
    (∀ c ∈ (escape s).toList, 0x20 ≤ c.toNat ∧ (c.toNat < 0x7f ∨ 0x9f < c.toNat)) ∧
      (∀ before after, (escape s).toList ++ ['"'] = before ++ '"' :: after →
        (Odd (before.rtakeWhile (· == '\\')).length ↔ after ≠ [])) ∧
      (∀ rest, quoted? '"' ((escape s).toList ++ '"' :: rest) = some (s.toList, rest)) ∧
      ∀ t, escape t = escape s → t = s := by
  refine ⟨fun c hc => ?_, fun before after h => ?_, quoted?_escape s, fun t h => escape_injective h⟩
  · rw [escape, String.toList_ofList] at hc
    obtain ⟨d, -, hc⟩ := List.mem_flatMap.mp hc
    have hcontrol := (escapeChar_stands d).not_control c hc
    simp only [isControl, Bool.or_eq_false_iff, Bool.and_eq_false_iff, decide_eq_false_iff_not] at hcontrol
    omega
  · rw [escape, String.toList_ofList] at h
    rw [← escapesNext_iff_odd]
    exact quote_escaped_iff s.toList h

/-- Backslashes, digits behind an `x`, and the first and last of the upper controls. -/
example : escape "a\\\"x41\n\x7f\u009f" = "a\\\\\\\"x41\\n\\x7f\\x9f" := by decide

end AsmListing.Text
