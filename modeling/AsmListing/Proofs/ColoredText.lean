/-
  AsmListing.Proofs.ColoredText — color adds to the text and takes nothing from it. A
  colored print holds, around the texts of the tokens, sequences that start with an escape
  character and end with the first `m`. A reader that deletes these (`Terminal.erase`) is
  left with the plain print, as long as no token brings an escape character of its own:
  then every escape character starts a sequence that is all there, and digits, brackets
  or an `m` of the texts around it are never taken for a part of it.

  Proved:
  - `afterSequence?_eq_some_iff`: what counts as a sequence.
  - `erase_sequence` / `erase_append_of_no_escape`: a sequence goes, other text stays,
    whatever comes behind it.
  - `erase_paint`: of a painted text, its text is left.
  - `colored_print_erases_to_plain`: so it is with a whole rendering, for any palettes.
-/

import AsmListing.Proofs.LineFeeds
import Mathlib.Data.List.TakeWhile

namespace AsmListing

/-! ## Deleting sequences -/

namespace Terminal

def isParameter (c : Char) : Bool := c.isDigit || c == ';'

/-- The text behind the sequence that stands in front, if one does. -/
def afterSequence? : List Char → Option (List Char)
  | '\x1b' :: '[' :: cs =>
    match cs.dropWhile isParameter with
    | 'm' :: rest => some rest
    | _ => none
  | _ => none

theorem dropWhile_parameters {ps : List Char} (hps : ∀ p ∈ ps, isParameter p = true) (rest : List Char) :
    (ps ++ 'm' :: rest).dropWhile isParameter = 'm' :: rest := by
  rw [List.dropWhile_append_of_pos hps]
  rfl

theorem afterSequence?_eq_some_iff {cs rest : List Char} :
    afterSequence? cs = some rest ↔
      ∃ ps : List Char, (∀ p ∈ ps, isParameter p = true) ∧ cs = '\x1b' :: '[' :: (ps ++ 'm' :: rest) := by
  constructor
  · intro h
    unfold afterSequence? at h
    split at h
    · rename_i tail
      split at h
      · rename_i behind hdrop
        cases h
        refine ⟨tail.takeWhile isParameter, fun p hp => List.mem_takeWhile_imp hp, ?_⟩
        rw [← hdrop, List.takeWhile_append_dropWhile]
      · cases h
    · cases h
  · rintro ⟨ps, hps, rfl⟩
    simp only [afterSequence?, dropWhile_parameters hps]

theorem afterSequence?_length {cs rest : List Char} (h : afterSequence? cs = some rest) :
    rest.length < cs.length := by
  obtain ⟨ps, -, rfl⟩ := afterSequence?_eq_some_iff.mp h
  simp only [List.length_cons, List.length_append]
  omega

/-- The text without its sequences. -/
def erase (cs : List Char) : List Char :=
  match cs with
  | [] => []
  | c :: cs =>
    match _h : afterSequence? (c :: cs) with
    | some rest => erase rest
    | none => c :: erase cs
termination_by cs.length
decreasing_by
  · exact afterSequence?_length _h
  · exact Nat.lt_succ_self _

theorem erase_nil : erase [] = [] := by rw [erase]

theorem erase_sequence {ps : List Char} (hps : ∀ p ∈ ps, isParameter p = true) (rest : List Char) :
    erase ('\x1b' :: '[' :: (ps ++ 'm' :: rest)) = erase rest := by
  have hbehind : afterSequence? ('\x1b' :: '[' :: (ps ++ 'm' :: rest)) = some rest :=
    afterSequence?_eq_some_iff.mpr ⟨ps, hps, rfl⟩
  rw [erase]
  split
  · rename_i behind h
    cases h.symm.trans hbehind
    rfl
  · rename_i h
    cases h.symm.trans hbehind

theorem erase_cons {c : Char} (hc : c ≠ '\x1b') (cs : List Char) : erase (c :: cs) = c :: erase cs := by
  rw [erase]
  split
  · rename_i rest h
    obtain ⟨ps, -, e⟩ := afterSequence?_eq_some_iff.mp h
    exact absurd (List.cons.inj e).1 hc
  · rfl

theorem erase_append_of_no_escape {text : List Char} (h : '\x1b' ∉ text) (rest : List Char) :
    erase (text ++ rest) = text ++ erase rest := by
  induction text with
  | nil => rfl
  | cons c text ih =>
    have hc : c ≠ '\x1b' := fun e => h (e ▸ List.mem_cons_self)
    rw [List.cons_append, erase_cons hc, ih fun hin => h (List.mem_cons_of_mem _ hin), List.cons_append]

/-! ## Painted texts -/

theorem isParameter_of_mem_codes {ns : List Nat} {c : Char}
    (h : c ∈ List.intercalate [';'] (ns.map Numeral.decimalDigits)) : isParameter c = true := by
  rcases Text.mem_intercalate h with hsep | ⟨digits, hdigits, hc⟩
  · rw [List.mem_singleton.mp hsep]
    rfl
  · obtain ⟨n, -, rfl⟩ := List.mem_map.mp hdigits
    have hdigit : c.isDigit = true := Nat.isDigit_of_mem_toDigits (by decide) (by decide) hc
    rw [isParameter, hdigit, Bool.true_or]

theorem erase_select (ns : List Nat) (rest : List Char) : erase (select ns ++ rest) = erase rest := by
  have hsplit : select ns ++ rest
      = '\x1b' :: '[' :: (List.intercalate [';'] (ns.map Numeral.decimalDigits) ++ 'm' :: rest) := by
    simp only [select, List.cons_append, List.append_assoc, List.nil_append]
  rw [hsplit, erase_sequence fun _ => isParameter_of_mem_codes]

theorem erase_reset (rest : List Char) : erase (reset ++ rest) = erase rest := by
  have hdigit : ∀ p ∈ ['0'], isParameter p = true := List.forall_mem_singleton.mpr rfl
  exact erase_sequence hdigit rest

theorem reselect_of_no_escape (start : List Char) {text : List Char} (h : '\x1b' ∉ text) :
    reselect start text = text := by
  induction text with
  | nil => rfl
  | cons c text ih =>
    have hc : c ≠ '\x1b' := fun e => h (e ▸ List.mem_cons_self)
    rw [reselect, ih fun hin => h (List.mem_cons_of_mem _ hin)]
    rintro rest rfl
    exact absurd rfl hc

theorem erase_paint {text : String} (h : '\x1b' ∉ text.toList) (color : Option Color) (bold : Bool)
    (rest : List Char) : erase ((paint color bold text).toList ++ rest) = text.toList ++ erase rest := by
  unfold paint
  split
  · exact erase_append_of_no_escape h rest
  · -- Without an escape character there is no reset in the text to start again behind.
    rw [String.toList_ofList, reselect_of_no_escape _ h, List.append_assoc, List.append_assoc, erase_select,
      erase_append_of_no_escape h, erase_reset]

end Terminal

/-! ## Printed renderings -/

namespace Rendering

open Terminal

/-- No token brings an escape character of its own. -/
def EscapeFree (r : Rendering) : Prop := ∀ line ∈ r.lines, ∀ t ∈ line.tokens, '\x1b' ∉ t.text.toList

instance : DecidablePred EscapeFree := fun r =>
  inferInstanceAs (Decidable (∀ line ∈ r.lines, ∀ t ∈ line.tokens, '\x1b' ∉ t.text.toList))

variable (r : Rendering) (palette : Palette)

theorem erase_printToken {t : Token} (h : '\x1b' ∉ t.text.toList) (rest : List Char) :
    erase (r.printToken palette t ++ rest) = t.text.toList ++ erase rest := by
  unfold printToken
  split
  · exact erase_paint h _ _ rest
  · exact erase_append_of_no_escape h rest

theorem erase_printLine {l : Line} (h : ∀ t ∈ l.tokens, '\x1b' ∉ t.text.toList) (rest : List Char) :
    erase (r.printLine palette l ++ rest) = l.text.toList ++ '\n' :: erase rest := by
  rw [printLine, Line.text, String.toList_ofList, List.append_assoc, List.singleton_append]
  generalize l.tokens = ts at h ⊢
  induction ts with
  | nil => exact erase_cons (by decide) rest
  | cons t ts ih =>
    rw [List.flatMap_cons, List.flatMap_cons, List.append_assoc, List.append_assoc,
      erase_printToken r palette (h t List.mem_cons_self), ih fun u hu => h u (List.mem_cons_of_mem _ hu)]

/-- Colored or not, what is left of a print is its texts. -/
theorem erase_print (h : r.EscapeFree) :
    erase (r.print palette).toList = (r.lines.map (·.text.toList)).flatMap (· ++ ['\n']) := by
  rw [print, String.toList_ofList]
  unfold EscapeFree at h
  generalize r.lines = lines at h ⊢
  induction lines with
  | nil => exact erase_nil
  | cons l lines ih =>
    rw [List.flatMap_cons, List.map_cons, List.flatMap_cons, erase_printLine r palette (h l List.mem_cons_self),
      ih fun m hm => h m (List.mem_cons_of_mem _ hm), List.append_assoc, List.singleton_append]

/-- What is handed out as the lines of a finished rendering is the joined text. -/
theorem text?_ofBuffer {b : Buffer} {index : LineIndex} {color : Bool} {r : Rendering}
    (h : ofBuffer b index color = .ok r) :
    ∃ joined, b.join = .ok joined ∧ joined.joined = some (r.lines.map Line.text) ∧
      ∀ i, r.text? i = (r.lines.map Line.text)[i]? := by
  unfold ofBuffer Buffer.join at h
  unfold Buffer.join
  split at h
  · rename_i joined hjoin
    split at hjoin
    · cases hjoin
    · rename_i hopen
      cases hjoin
      cases h
      exact ⟨_, if_neg hopen, rfl, fun i => List.getElem?_map.symm⟩
  · cases h

end Rendering

/-- Without the sequences that color brings, the print of a finished rendering is its plain
    print, which is its lines, each ended by a line feed. The palette need not be the one
    its tokens were made with. -/
theorem colored_print_erases_to_plain {b : Buffer} {index : LineIndex} {color : Bool} {r : Rendering}
    (hr : Rendering.ofBuffer b index color = .ok r) (hfree : r.EscapeFree) (palette other : Palette) :
    ∃ joined texts, b.join = .ok joined ∧ joined.joined = some texts ∧ (∀ i, r.text? i = texts[i]?) ∧
      Terminal.erase ({ r with color := true }.print palette).toList
        = ({ r with color := false }.print other).toList ∧
      { r with color := false }.print other = String.join (texts.map (· ++ "\n")) := by
  obtain ⟨joined, hjoin, htexts, hlines⟩ := Rendering.text?_ofBuffer hr
  have hplain : ({ r with color := false }.print other).toList = (r.lines.map (·.text.toList)).flatMap (· ++ ['\n']) :=
    Rendering.print_toList rfl other
  refine ⟨joined, r.lines.map Line.text, hjoin, htexts, hlines, ?_, ?_⟩
  · rw [hplain]
    exact Rendering.erase_print { r with color := true } palette hfree
  · rw [← String.toList_inj, hplain, String.toList_join]
    simp only [List.flatMap_map, String.toList_append]
    rfl

/-- Texts that look like the middle of a sequence, next to ones that are not there. -/
def lookalikes : Buffer where
  page := ⟨[{ tokens := [.plain "1m]"] },
    { tokens := [⟨"[", .plain, true⟩, ⟨"", .keyword, true⟩, .plain "31;1m"] }]⟩

theorem lookalikes_stay :
    ∃ r, Rendering.ofBuffer lookalikes {} true = .ok r ∧
      r.print .standard = "\x1b[1m[\x1b[0m\x1b[1;38;2;255;107;107m\x1b[0m31;1m\n1m]\n" ∧
      Terminal.erase (r.print .standard).toList = "[31;1m\n1m]\n".toList := by
  have hr : Rendering.ofBuffer lookalikes {} true = .ok ⟨lookalikes.page.lines, {}, true⟩ := rfl
  obtain ⟨_, _, -, -, -, herase, -⟩ := colored_print_erases_to_plain hr (by decide) .standard .standard
  exact ⟨_, hr, rfl, herase⟩

end AsmListing
