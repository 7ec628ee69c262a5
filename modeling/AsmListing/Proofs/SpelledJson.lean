/-
  AsmListing.Proofs.SpelledJson — an object of scalars in any of its spellings. The writer
  of JSON knows one of them: a text by hand has blanks around its marks, and spells the same
  string with escapes that need not be there, or a character as a pair of codes. Members
  keep their order, and a key may come again. An integer has no other spelling than its own;
  zero with a sign is not one.

  A scalar is read wherever it is followed by something that does not go on with a number,
  blanks do not (`endsNumber_blanks`), and one step of fuel for each member is enough.

  Proved:
  - `string?_spelled`: a string, by the codes it is spelled with.
  - `members?_spelled`: the members between the braces.
  - `parse?_spelled`: the object, with nothing but blanks around it.
-/

import AsmListing.Proofs.WrittenJson
import Mathlib.Data.List.DropRight

namespace AsmListing.Json

/-! ## Spellings -/

def Blank (bs : List Char) : Prop := ∀ b ∈ bs, isBlank b = true

theorem blank_nil : Blank [] := List.forall_mem_nil _

/-- Between quotes, these characters stand for these codes. -/
inductive SpelledCodes : List Char → List Nat → Prop
  | nil : SpelledCodes [] []
  | plain {c : Char} {cs : List Char} {codes : List Nat} (hquote : c ≠ '"') (hslash : c ≠ '\\')
    (hcode : ¬c.toNat < 0x20) (h : SpelledCodes cs codes) : SpelledCodes (c :: cs) (c.toNat :: codes)
  | short {e c : Char} {cs : List Char} {codes : List Nat} (he : shortEscape? e = some c)
    (h : SpelledCodes cs codes) : SpelledCodes ('\\' :: e :: cs) (c.toNat :: codes)
  | unit {a b c d : Char} {code : Nat} {cs : List Char} {codes : List Nat} (hcode : unit? a b c d = some code)
    (h : SpelledCodes cs codes) : SpelledCodes ('\\' :: 'u' :: a :: b :: c :: d :: cs) (code :: codes)

def SpelledString (cs : List Char) (s : Option String) : Prop :=
  ∃ body codes, cs = '"' :: (body ++ ['"']) ∧ SpelledCodes body codes ∧ (assemble? codes).map String.ofList = s

inductive SpelledScalar : List Char → Json → Prop
  | null : SpelledScalar "null".toList .null
  | true : SpelledScalar "true".toList (.bool true)
  | false : SpelledScalar "false".toList (.bool false)
  | integer (n : Int) : SpelledScalar (Numeral.signed Numeral.decimalDigits n) (.integer n)
  | string {cs : List Char} {s : Option String} (h : SpelledString cs s) : SpelledScalar cs (.string s)

/-- One of the spellings, with blanks around it. -/
def Padded {α : Type} (spelled : List Char → α → Prop) (cs : List Char) (a : α) : Prop :=
  ∃ before core after, cs = before ++ (core ++ after) ∧ Blank before ∧ Blank after ∧ spelled core a

def SpelledMember (cs : List Char) (m : String × Json) : Prop :=
  ∃ key value, cs = key ++ ':' :: value ∧ Padded SpelledString key (some m.1) ∧ Padded SpelledScalar value m.2

inductive SpelledMembers : List Char → List (String × Json) → Prop
  | last {cs : List Char} {m : String × Json} (h : SpelledMember cs m) : SpelledMembers cs [m]
  | more {cs ds : List Char} {m : String × Json} {ms : List (String × Json)} (h : SpelledMember cs m)
    (hs : SpelledMembers ds ms) : SpelledMembers (cs ++ ',' :: ds) (m :: ms)

def SpelledBraces (cs : List Char) (ms : List (String × Json)) : Prop :=
  ∃ inner, cs = '\x7b' :: (inner ++ ['\x7d']) ∧ (Blank inner ∧ ms = [] ∨ SpelledMembers inner ms)

/-- The text is an object of scalars with these members. -/
def SpelledObject (text : String) (ms : List (String × Json)) : Prop := Padded SpelledBraces text.toList ms

/-! ## The spelling of the writer -/

theorem SpelledCodes.escapeChar (c : Char) {cs : List Char} {codes : List Nat} (h : SpelledCodes cs codes) :
    SpelledCodes (Json.escapeChar c ++ cs) (c.toNat :: codes) := by
  unfold Json.escapeChar
  split
  case h_8 hquote hslash _ _ _ _ _ =>
    split
    case isTrue hcontrol =>
      rw [padZero_hexDigits_control c.toNat hcontrol]
      exact .unit (unit?_control c.toNat hcontrol) h
    case isFalse hcode => exact .plain hquote hslash hcode h
  all_goals exact .short rfl h

theorem spelledCodes_escaped (cs : List Char) : SpelledCodes (cs.flatMap escapeChar) (cs.map Char.toNat) := by
  induction cs with
  | nil => exact .nil
  | cons c cs ih => exact ih.escapeChar c

theorem spelledString_quote (s : String) : SpelledString (quote (some s)) (some s) := by
  refine ⟨_, _, quote_some s, spelledCodes_escaped s.toList, ?_⟩
  rw [assemble?_map_toNat, Option.map_some, String.ofList_toList]

theorem Padded.bare {α : Type} {spelled : List Char → α → Prop} {cs : List Char} {a : α} (h : spelled cs a) :
    Padded spelled cs a :=
  ⟨[], cs, [], (List.append_nil cs).symm, blank_nil, blank_nil, h⟩

theorem spelledMembers_written {ms : List (String × Json)} (h : ∀ m ∈ ms, SpelledScalar m.2.write m.2) (hne : ms ≠ []) :
    SpelledMembers (writeMembers (ms.map fun m => (some m.1, m.2))) ms := by
  induction ms with
  | nil => exact absurd rfl hne
  | cons m ms ih =>
    obtain ⟨hm, hms⟩ := List.forall_mem_cons.mp h
    have hmember : SpelledMember (quote (some m.1) ++ ':' :: m.2.write) m :=
      ⟨_, _, rfl, .bare (spelledString_quote m.1), .bare hm⟩
    cases ms with
    | nil => exact .last hmember
    | cons n ms => exact .more hmember (ih hms (List.cons_ne_nil n ms))

/-- Written without blanks, an object of scalars is spelled in one of the ways it can be. -/
theorem spelledObject_text {ms : List (String × Json)} (h : ∀ m ∈ ms, SpelledScalar m.2.write m.2) :
    SpelledObject (text (.object (ms.map fun m => (some m.1, m.2)))) ms := by
  refine .bare (a := ms) ⟨writeMembers (ms.map fun m => (some m.1, m.2)), ?_, ?_⟩
  · rw [text, String.toList_ofList, write_object]
  · rcases eq_or_ne ms [] with rfl | hne
    · exact Or.inl ⟨blank_nil, rfl⟩
    · exact Or.inr (spelledMembers_written h hne)

/-! ## Blanks -/

theorem skipBlanks_append {bs : List Char} (h : Blank bs) (rest : List Char) :
    skipBlanks (bs ++ rest) = skipBlanks rest := List.dropWhile_append_of_pos h

theorem skipBlanks_cons {c : Char} (h : isBlank c = false) (rest : List Char) : skipBlanks (c :: rest) = c :: rest := by
  rw [skipBlanks, List.dropWhile_cons_of_neg (by rw [h]; exact Bool.false_ne_true)]

theorem value?_blanks {bs : List Char} (h : Blank bs) (fuel : Nat) (rest : List Char) :
    value? fuel (bs ++ rest) = value? fuel rest := by
  cases fuel with
  | zero => rfl
  | succ fuel => rw [value?, value?, skipBlanks_append h]

theorem members?_skipBlanks (fuel : Nat) (cs : List Char) : members? fuel (skipBlanks cs) = members? fuel cs := by
  cases fuel with
  | zero => rfl
  | succ fuel =>
    have htwice : skipBlanks (skipBlanks cs) = skipBlanks cs := List.dropWhile_idempotent ..
    rw [members?, members?, htwice]

theorem endsNumber_blanks {bs : List Char} (h : Blank bs) {c : Char} (hc : continuesNumber c = false)
    (rest : List Char) : EndsNumber (bs ++ c :: rest) := by
  cases bs with
  | nil => exact endsNumber_cons hc rest
  | cons b bs =>
    have hb := h b List.mem_cons_self
    simp only [isBlank, Bool.or_eq_true, beq_iff_eq] at hb
    refine endsNumber_cons ?_ _
    rcases hb with ((rfl | rfl) | rfl) | rfl <;> rfl

/-! ## Reading -/

theorem codes?_spelled {body : List Char} {codes : List Nat} (h : SpelledCodes body codes) (rest : List Char) :
    codes? (body ++ '"' :: rest) = some (codes, rest) := by
  induction h with
  | nil => rfl
  | plain hquote hslash hcode _ ih => rw [List.cons_append, codes?_cons hquote hslash hcode, ih, Option.map_some]
  | short he _ ih => rw [List.cons_append, List.cons_append, codes?_short he, ih, Option.map_some]
  | unit hcode _ ih => simp only [List.cons_append, codes?, hcode, ih]; rfl

theorem string?_spelled {cs : List Char} {s : Option String} (h : SpelledString cs s) (rest : List Char) :
    ∃ body, cs ++ rest = '"' :: body ∧ string? body = some (s, rest) := by
  obtain ⟨body, codes, rfl, hbody, rfl⟩ := h
  refine ⟨body ++ '"' :: rest, by simp, ?_⟩
  rw [string?, codes?_spelled hbody, Option.map_some]

theorem value?_spelled {cs : List Char} {j : Json} (h : SpelledScalar cs j) (fuel : Nat) {rest : List Char}
    (hrest : EndsNumber rest) : value? (fuel + 1) (cs ++ rest) = some (j, rest) := by
  cases h with
  | null => rfl
  | true => rfl
  | false => rfl
  | integer n =>
    obtain ⟨c, tail, hcs, hc⟩ := signed_cons n
    have hread := number?_signed hrest n
    rw [hcs, List.cons_append] at hread
    rw [hcs, List.cons_append, value?_number hc, hread]
  | string h =>
    obtain ⟨body, hcs, hread⟩ := string?_spelled h rest
    rw [hcs, value?_string, hread, Option.map_some]

/-- A member is read up to the mark behind it. -/
theorem member_spelled {cs : List Char} {m : String × Json} (h : SpelledMember cs m) (mark : Char)
    (hmark : isBlank mark = false) (hends : continuesNumber mark = false) (rest : List Char) :
    ∃ body tail after, skipBlanks (cs ++ mark :: rest) = '"' :: body ∧ string? body = some (some m.1, tail) ∧
      skipBlanks tail = ':' :: after ∧
      ∀ fuel, ∃ behind, value? (fuel + 1) after = some (m.2, behind) ∧ skipBlanks behind = mark :: rest := by
  obtain ⟨_, _, rfl, ⟨b₁, key, b₂, rfl, hb₁, hb₂, hkey⟩, b₃, value, b₄, rfl, hb₃, hb₄, hvalue⟩ := h
  have hcolon : isBlank ':' = false := by decide
  obtain ⟨body, hquote, hread⟩ := string?_spelled hkey (b₂ ++ ':' :: (b₃ ++ (value ++ (b₄ ++ mark :: rest))))
  refine ⟨body, b₂ ++ ':' :: (b₃ ++ (value ++ (b₄ ++ mark :: rest))), b₃ ++ (value ++ (b₄ ++ mark :: rest)),
    ?_, hread, ?_, fun fuel => ⟨b₄ ++ mark :: rest, ?_, ?_⟩⟩
  · simp only [List.append_assoc, List.cons_append]
    rw [skipBlanks_append hb₁, hquote, skipBlanks_cons (by decide)]
  · rw [skipBlanks_append hb₂, skipBlanks_cons hcolon]
  · rw [value?_blanks hb₃, value?_spelled hvalue fuel (endsNumber_blanks hb₄ hends rest)]
  · rw [skipBlanks_append hb₄, skipBlanks_cons hmark]

section

variable {cs : List Char} {m : String × Json} (h : SpelledMember cs m) (fuel : Nat) (rest : List Char)

include h

theorem members?_spelled_last : members? (fuel + 2) (cs ++ '\x7d' :: rest) = some ([(some m.1, m.2)], rest) := by
  obtain ⟨body, tail, after, hquote, hkey, hcolon, hvalue⟩ := member_spelled h '\x7d' (by decide) (by decide) rest
  obtain ⟨behind, hread, hmark⟩ := hvalue fuel
  rw [members?]
  simp only [hquote, hkey, hcolon, hread, hmark, Option.bind_eq_bind, Option.bind_some]
  rfl

theorem members?_spelled_more :
    members? (fuel + 2) (cs ++ ',' :: rest)
      = (members? (fuel + 1) rest).map fun r => ((some m.1, m.2) :: r.1, r.2) := by
  obtain ⟨body, tail, after, hquote, hkey, hcolon, hvalue⟩ := member_spelled h ',' (by decide) (by decide) rest
  obtain ⟨behind, hread, hmark⟩ := hvalue fuel
  rw [members?]
  simp only [hquote, hkey, hcolon, hread, hmark, Option.bind_eq_bind, Option.bind_some]
  cases members? (fuel + 1) rest <;> rfl

end

theorem members?_spelled {cs : List Char} {ms : List (String × Json)} (h : SpelledMembers cs ms) {fuel : Nat}
    (hfuel : ms.length < fuel) (rest : List Char) :
    members? fuel (cs ++ '\x7d' :: rest) = some (ms.map fun m => (some m.1, m.2), rest) := by
  induction h generalizing fuel with
  | last h =>
    obtain ⟨fuel, rfl⟩ : ∃ n, fuel = n + 2 := Nat.exists_eq_add_of_le' hfuel
    exact members?_spelled_last h fuel rest
  | more h hs ih =>
    obtain ⟨fuel, rfl⟩ : ∃ n, fuel = n + 2 := Nat.exists_eq_add_of_le' (Nat.le_trans (by simp) hfuel)
    rw [List.append_assoc, List.cons_append, members?_spelled_more h, ih (Nat.lt_of_succ_lt_succ hfuel)]
    rfl

theorem SpelledMembers.length_le {cs : List Char} {ms : List (String × Json)} (h : SpelledMembers cs ms) :
    ms.length ≤ cs.length := by
  induction h with
  | last h =>
    obtain ⟨key, value, rfl, -⟩ := h
    simp only [List.length_append, List.length_cons, List.length_nil]
    omega
  | more _ _ ih =>
    simp only [List.length_append, List.length_cons]
    omega

/-- What the reader meets first is no closing brace. -/
theorem SpelledMembers.opens {cs : List Char} {ms : List (String × Json)} (h : SpelledMembers cs ms)
    (rest : List Char) : ∃ body, skipBlanks (cs ++ '\x7d' :: rest) = '"' :: body := by
  cases h with
  | last h =>
    obtain ⟨body, _, _, hquote, -⟩ := member_spelled h '\x7d' (by decide) (by decide) rest
    exact ⟨body, hquote⟩
  | @more cs ds _ _ h _ =>
    obtain ⟨body, _, _, hquote, -⟩ :=
      member_spelled h ',' (by decide) (by decide) (ds ++ '\x7d' :: rest)
    exact ⟨body, by rw [List.append_assoc, List.cons_append, hquote]⟩

theorem value?_braces {cs : List Char} {ms : List (String × Json)} (h : SpelledBraces cs ms) (fuel : Nat)
    (hfuel : cs.length ≤ fuel) (rest : List Char) :
    value? (fuel + 1) (cs ++ rest) = some (.object (ms.map fun m => (some m.1, m.2)), rest) := by
  obtain ⟨inner, rfl, hinner⟩ := h
  have hbrace : ∀ tail, skipBlanks ('\x7b' :: tail) = '\x7b' :: tail := skipBlanks_cons (by decide)
  simp only [List.cons_append, List.append_assoc, List.nil_append, value?, hbrace]
  rcases hinner with ⟨hblank, rfl⟩ | hmembers
  · have hclosed : skipBlanks (inner ++ '\x7d' :: rest) = '\x7d' :: rest := by
      rw [skipBlanks_append hblank, skipBlanks_cons (by decide)]
    rw [hclosed]
    rfl
  · obtain ⟨body, hquote⟩ := hmembers.opens rest
    have hlength := hmembers.length_le
    have henough : ms.length < fuel := by
      simp only [List.length_cons, List.length_append] at hfuel
      omega
    have hread := members?_spelled hmembers henough rest
    rw [← members?_skipBlanks, hquote] at hread
    rw [hquote]
    show (members? fuel ('"' :: body)).map _ = _
    rw [hread, Option.map_some]

theorem parse?_spelled {text : String} {ms : List (String × Json)} (h : SpelledObject text ms) :
    parse? text = some (.object (ms.map fun m => (some m.1, m.2))) := by
  obtain ⟨before, core, after, htext, hbefore, hafter, hcore⟩ := h
  have hfuel : core.length ≤ 2 * text.toList.length := by
    simp only [htext, List.length_append]
    omega
  have hread := value?_braces hcore (2 * text.toList.length) hfuel after
  have hnothing : skipBlanks after = [] := by
    have hskip := skipBlanks_append hafter []
    rwa [List.append_nil] at hskip
  rw [← value?_blanks hbefore, ← htext] at hread
  simp only [parse?, hread, hnothing]
  rfl

end AsmListing.Json
