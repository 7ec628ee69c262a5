/-
  AsmListing.Proofs.LineFeeds — one line of a listing is one line of its text, so that a
  line number of the index is one of the printed text. It is so as long as no token holds
  a line feed (`Listing.Broken`). With texts supplied that hold none, a single operation
  brings one in: a byte of data that is a line feed, which is shown as it is.

  Proved, for every scene whose texts hold no line feed:
  - `run_broken` / `runAll_broken`: an operation breaks a line just if it shows the byte
    0x0a, and a run of operations just if one of them does.
  - `only_line_feed_bytes_break_lines`: the rendering of a run prints line by line just if
    the byte is not shown.
  - `function_prints_line_by_line`: the rendering of a function always does.
  - `line_feed_byte_takes_two_lines`: a line that prints as two.
-/

import AsmListing.Proofs.Growth

namespace AsmListing

open Text

/-! ## Printed lines -/

namespace Text

def NoFeed (c : Char) : Prop := c ≠ '\n'

instance : DecidablePred NoFeed := fun c => inferInstanceAs (Decidable (c ≠ '\n'))

theorem noFeed_of_printed : ∀ c, Printed c → NoFeed c := by
  rintro c hc rfl
  revert hc
  decide

theorem within_noFeed_iff {text : String} : Within NoFeed text ↔ '\n' ∉ text.toList :=
  ⟨fun h hfeed => h '\n' hfeed rfl, fun h _ hc e => h (e ▸ hc)⟩

/-- What was split at a character does not hold it any more. -/
theorem not_mem_of_mem_splitOn {c : Char} {cs piece : List Char} (h : piece ∈ cs.splitOn c) : c ∉ piece := by
  induction cs generalizing piece with
  | nil =>
    rw [List.splitOn_nil, List.mem_singleton] at h
    rw [h]
    exact List.not_mem_nil
  | cons d cs ih =>
    rw [List.splitOn_cons_eq_if_modifyHead] at h
    split at h
    · rcases List.mem_cons.mp h with rfl | h
      · exact List.not_mem_nil
      · exact ih h
    · rename_i hd
      obtain ⟨first, rest, hsplit⟩ := List.exists_cons_of_ne_nil (List.splitOn_ne_nil c cs)
      rw [hsplit, List.modifyHead_cons] at h
      rcases List.mem_cons.mp h with rfl | h
      · have hfirst : c ∉ first := ih (hsplit ▸ List.mem_cons_self)
        intro hc
        rcases List.mem_cons.mp hc with rfl | hc
        · exact hd BEq.rfl
        · exact hfirst hc
      · exact ih (hsplit ▸ List.mem_cons_of_mem _ h)

/-- Texts ended by a line feed each are found again by splitting there. -/
theorem splitOn_ended {texts : List (List Char)} (h : ∀ text ∈ texts, '\n' ∉ text) :
    (texts.flatMap (· ++ ['\n'])).splitOn '\n' = texts ++ [[]] := by
  induction texts with
  | nil => rfl
  | cons text texts ih =>
    rw [List.flatMap_cons, List.append_assoc, List.singleton_append,
      List.splitOn_append_cons_self_of_not_mem (h text List.mem_cons_self),
      ih fun other hother => h other (List.mem_cons_of_mem _ hother), List.cons_append]

end Text

namespace Rendering

/-- The lines of the printed text are those of the rendering, one by one; behind the last
    line feed there is nothing. -/
def PrintsLineByLine (r : Rendering) (palette : Palette) : Prop :=
  (r.print palette).toList.splitOn '\n' = r.lines.map (·.text.toList) ++ [[]]

theorem print_toList {r : Rendering} (hcolor : r.color = false) (palette : Palette) :
    (r.print palette).toList = (r.lines.map (·.text.toList)).flatMap (· ++ ['\n']) := by
  have htoken : r.printToken palette = fun t => t.text.toList := by
    funext t
    simp [printToken, hcolor]
  have hline : r.printLine palette = fun line => line.text.toList ++ ['\n'] := by
    funext line
    rw [printLine, htoken, Line.text, String.toList_ofList]
  rw [print, String.toList_ofList, hline, List.flatMap_map]

theorem printsLineByLine_iff {r : Rendering} (hcolor : r.color = false) (palette : Palette) :
    r.PrintsLineByLine palette ↔ ∀ line ∈ r.lines, ∀ t ∈ line.tokens, t.Within NoFeed := by
  constructor
  · intro h line hline t ht
    have hpiece : line.text.toList ∈ (r.print palette).toList.splitOn '\n' := by
      rw [h]
      exact List.mem_append_left _ (List.mem_map.mpr ⟨line, hline, rfl⟩)
    refine within_noFeed_iff.mpr fun hfeed => not_mem_of_mem_splitOn hpiece ?_
    rw [Line.text, String.toList_ofList]
    exact List.mem_flatMap.mpr ⟨t, ht, hfeed⟩
  · intro h
    rw [PrintsLineByLine, print_toList hcolor]
    refine splitOn_ended fun text htext hfeed => ?_
    obtain ⟨line, hline, rfl⟩ := List.mem_map.mp htext
    rw [Line.text, String.toList_ofList] at hfeed
    obtain ⟨t, ht, hfeed⟩ := List.mem_flatMap.mp hfeed
    exact within_noFeed_iff.mp (h line hline t ht) hfeed

end Rendering

/-! ## Broken lines -/

namespace Listing

/-- Some token holds a line feed. -/
def Broken (l : Listing) : Prop := ∃ t, l.Holds t ∧ ¬ t.Within NoFeed

theorem empty_not_broken : ¬ ({} : Listing).Broken := by
  rintro ⟨t, ⟨line, hline, -⟩, -⟩
  cases hline

theorem Grows.broken_iff {l m : Listing} (h : Grows (Token.Within NoFeed) l m) : m.Broken ↔ l.Broken := by
  constructor
  · rintro ⟨t, ht, hfeed⟩
    exact ⟨t, ((h.holds t).2 ht).resolve_right hfeed, hfeed⟩
  · rintro ⟨t, ht, hfeed⟩
    exact ⟨t, (h.holds t).1 ht, hfeed⟩

theorem finish_broken (l : Listing) (color : Bool) :
    ∃ r, l.finish color = .ok r ∧ r.color = color ∧
      ((∀ line ∈ r.lines, ∀ t ∈ line.tokens, t.Within NoFeed) ↔ ¬ l.Broken) := by
  refine ⟨⟨l.page.lines, l.index, color⟩, rfl, rfl, ?_⟩
  simp only [Broken, Holds, Page.lines, List.mem_reverse]
  constructor
  · rintro h ⟨t, ⟨line, hline, ht⟩, hfeed⟩
    exact hfeed (h line hline t ht)
  · intro h line hline t ht
    by_cases hfree : t.Within NoFeed
    · exact hfree
    · exact absurd ⟨t, ⟨line, hline, ht⟩, hfree⟩ h

end Listing

open Listing

namespace Pass

variable {p : Pass} (ho : p.operands.Within NoFeed) (hs : p.toScene.Within NoFeed)

include ho hs

theorem run_broken (l : Listing) {op : Operation} (hop : op.Within NoFeed) :
    (p.run l op).listing.Broken ↔ l.Broken ∨ op = .dataByte (some 0x0a) := by
  by_cases hfeed : op = .dataByte (some 0x0a)
  · subst hfeed
    have hshown : p.styled .string "  '\n'" ∈ p.dataByte (some 0x0a) :=
      List.mem_cons_of_mem _ (List.mem_cons_of_mem _ List.mem_cons_self)
    have hfeed : ¬ Text.Within NoFeed "  '\n'" := by decide
    exact iff_of_true ⟨_, (put_holds l _ _).mpr (Or.inr hshown), hfeed⟩ (Or.inr rfl)
  · have hgrows : Grows (Token.Within NoFeed) l (p.run l op).listing := by
      refine run_grows noFeed_of_printed hs ho .refl hop fun b hb _ e => hfeed ?_
      have hbyte : b = 0x0a := by
        have hcode : b.toNat = 10 := congrArg Char.toNat e
        exact UInt8.toNat_inj.mp hcode
      rw [hb, hbyte]
    rw [hgrows.broken_iff, or_iff_left hfeed]

theorem runAll_broken {ops : List Operation} (hops : ∀ op ∈ ops, op.Within NoFeed) (l : Listing) :
    (p.runAll l ops).Broken ↔ l.Broken ∨ .dataByte (some 0x0a) ∈ ops := by
  induction ops generalizing l with
  | nil => simp [runAll]
  | cons op ops ih =>
    have hstep : p.runAll l (op :: ops) = p.runAll (p.run l op).listing ops := rfl
    rw [hstep, ih fun other hother => hops other (List.mem_cons_of_mem _ hother),
      run_broken ho hs l (hops op List.mem_cons_self), List.mem_cons, or_assoc, eq_comm (a := op)]

/-- The header, the local variables and the tree of a function bring no line feed in. -/
theorem function_prints_line_by_line {entry : Address} {tree : Tree} (htree : tree.Within NoFeed) {r : Rendering}
    (h : p.function entry tree = .ok r) (hcolor : r.color = false) (palette : Palette) :
    r.PrintsLineByLine palette := by
  unfold function at h
  split at h
  · cases h
  · simp only at h
    split at h
    · cases h
    · have hclose : (Token.plain "\x7d").Within NoFeed := by decide
      have hheader : Grows (Token.Within NoFeed) {} ((Listing.newLine {}).putLine (p.header entry)) :=
        (Grows.newLine .refl).putLine (Scene.header_within noFeed_of_printed hs entry)
      have hlocals := Scene.writeLocals_grows noFeed_of_printed hs hheader
      have hbody := write_grows noFeed_of_printed hs ho hlocals 1 tree htree
      have hall := hbody.put (List.forall_mem_singleton.mpr hclose)
      obtain ⟨r', hr', -, hwithin⟩ := finish_broken _ p.settings.color
      cases hr'.symm.trans h
      refine (Rendering.printsLineByLine_iff hcolor palette).mpr (hwithin.mpr ?_)
      rw [hall.broken_iff]
      exact empty_not_broken

end Pass

/-- A run of operations, with no line feed in any text supplied, is rendered without one
    and prints line by line just if it does not show the byte. The printers at hand supply
    none (`generic_within`, `bare_within`). -/
theorem only_line_feed_bytes_break_lines {p : Pass} {ops : List Operation} (ho : p.operands.Within NoFeed)
    (hs : p.toScene.Within NoFeed) (hops : ∀ op ∈ ops, op.Within NoFeed) :
    ∃ r, (p.runAll {} ops).finish p.settings.color = .ok r ∧
      ((∀ line ∈ r.lines, ∀ t ∈ line.tokens, t.Within NoFeed) ↔ .dataByte (some 0x0a) ∉ ops) ∧
      (p.settings.color = false → ∀ palette, r.PrintsLineByLine palette ↔ .dataByte (some 0x0a) ∉ ops) := by
  obtain ⟨r, hr, hcolor, hwithin⟩ := finish_broken (p.runAll {} ops) p.settings.color
  rw [Pass.runAll_broken ho hs hops, or_iff_right empty_not_broken] at hwithin
  refine ⟨r, hr, hwithin, fun hplain palette => ?_⟩
  rw [Rendering.printsLineByLine_iff (hcolor.trans hplain), hwithin]

/-- Nothing is known of the file, and nothing is colored. -/
def plainPass : Pass where
  context := { mode := .decompiled, entry := ⟨0x1000⟩, settings := { color := false } }
  binary := ({} : Image).view
  analysis := ({} : Findings).view

theorem plainPass_within : plainPass.toScene.Within NoFeed := by
  refine ⟨?_, ?_, ?_, ?_, ?_, ?_, ?_, ?_⟩ <;> nofun

/-- As a character and inside a packed text, a line feed is written by its escape. -/
theorem escaped_line_feeds_stay_on_their_lines :
    ∃ r, (plainPass.runAll {} [.dataByte (some 0x41), .newLine, .immediate 0x0a 1 none {}, .newLine,
        .immediate 0x0a414141 4 none {}]).finish false = .ok r ∧
      r.print .standard = ".db 41  'A'\n'\\n'\n\"AAA\\n\"\n" ∧ r.PrintsLineByLine .standard := by
  have hops : ∀ op ∈ ([.dataByte (some 0x41), .newLine, .immediate 0x0a 1 none {}, .newLine,
      .immediate 0x0a414141 4 none {}] : List Operation), op.Within NoFeed := by
    simp [Operation.Within]
  obtain ⟨r, hr, -, hprint⟩ := only_line_feed_bytes_break_lines (p := plainPass)
    (OperandPrinter.generic_within noFeed_of_printed) plainPass_within hops
  refine ⟨r, hr, ?_, (hprint rfl .standard).mpr (by simp)⟩
  cases hr
  rfl

/-- As a byte of data it is written as it is, so that one line prints as two. -/
theorem line_feed_byte_takes_two_lines :
    ∃ r, (plainPass.runAll {} [.dataByte (some 0x0a)]).finish false = .ok r ∧ r.lines.length = 1 ∧
      r.print .standard = ".db 0a  '\n'\n" ∧ ¬ r.PrintsLineByLine .standard := by
  refine ⟨_, rfl, rfl, rfl, ?_⟩
  rw [Rendering.printsLineByLine_iff rfl]
  decide

end AsmListing
