/-
  AsmListing.Proofs.Echoes — the lines of an instruction that is only echoed. It was merged
  into another, so no line of it may be taken for code: each starts with `# `, unless it is
  a comment stored for the instruction, or the empty line that sets comments off.

  The line of the instruction itself is marked, wherever its label stands. Where labels have
  lines of their own, the label's line is not: it is written as it is above an instruction
  that is not echoed.

  Proved, for every listing whose current line holds no token:
  - `commentsAbove_fills` / `mem_aboveLines`: the comments fill lines of their own, each empty
    or stored.
  - `heading_fills`: a label on a line of its own fills that line; the start of the
    instruction stands on the next one.
  - `labelLine_not_marked`: no label looks like a mark.
  - `echo_marks_all_but_label_line`: an echo succeeds; all lines it fills below the comments
    are marked just if no label has a line of its own.
  - `label_line_of_echo_unmarked`: an echo with a label on a line of its own.
-/

import AsmListing.Proofs.Layout
import AsmListing.Proofs.Transcript

namespace AsmListing

/-! ## Filled lines -/

namespace Listing

def tokenLines (l : Listing) : List (List Token) := l.page.lines.map Line.tokens

/-- The lines above the current one. -/
def finished (l : Listing) : List (List Token) := l.tokenLines.dropLast

/-- What the current line holds: nothing, where there is no line yet. -/
def current (l : Listing) : List Token := l.tokenLines.getLast?.getD []

theorem tokenLines_put (l : Listing) {ts : List Token} (h : ts ≠ []) :
    (l.put ts).tokenLines = l.finished ++ [l.current ++ ts] := by
  have hlast : l.current = l.page.lastLine.tokens := by
    rw [current, tokenLines, List.getLast?_map, Page.lastLine]
    cases l.page.lines.getLast? <;> rfl
  rw [tokenLines, put, Page.lines_append _ h, List.map_append, List.map_dropLast, hlast]
  rfl

theorem tokenLines_newLine (l : Listing) : l.newLine.tokenLines = l.tokenLines ++ [[]] := by
  rw [tokenLines, newLine, Page.lines_newLine, List.map_append]
  rfl

theorem tokenLines_mark (l : Listing) : l.mark.tokenLines = l.tokenLines :=
  Page.map_lines_mark Line.markHere_tokens l.page

/-- Recording may start a first line, which is as empty as none. -/
theorem tokenLines_tag (l : Listing) (a : Address) :
    (l.tag a).tokenLines = l.tokenLines ∨ l.tokenLines = [] ∧ (l.tag a).tokenLines = [[]] := by
  by_cases hnone : l.page.lineCount = 0
  · right
    have hlines : l.page.lines = [] := by rwa [Page.lineCount_eq, List.length_eq_zero_iff] at hnone
    simp [tokenLines, tag, hnone, hlines, Page.lines_newLine]
  · left
    simp [tokenLines, tag, hnone]

@[simp] theorem finished_put (l : Listing) (ts : List Token) : (l.put ts).finished = l.finished := by
  by_cases h : ts = []
  · rw [h, put_nil]
  · rw [finished, tokenLines_put l h, List.dropLast_concat]

@[simp] theorem current_put (l : Listing) (ts : List Token) : (l.put ts).current = l.current ++ ts := by
  by_cases h : ts = []
  · rw [h, put_nil, List.append_nil]
  · rw [current, tokenLines_put l h, List.getLast?_concat, Option.getD_some]

@[simp] theorem finished_mark (l : Listing) : l.mark.finished = l.finished := by rw [finished, tokenLines_mark, finished]

@[simp] theorem current_mark (l : Listing) : l.mark.current = l.current := by rw [current, tokenLines_mark, current]

@[simp] theorem finished_tag (l : Listing) (a : Address) : (l.tag a).finished = l.finished := by
  rcases l.tokenLines_tag a with h | ⟨hnone, h⟩
  · rw [finished, h, finished]
  · simp [finished, h, hnone]

@[simp] theorem current_tag (l : Listing) (a : Address) : (l.tag a).current = l.current := by
  rcases l.tokenLines_tag a with h | ⟨hnone, h⟩
  · rw [current, h, current]
  · simp [current, h, hnone]

@[simp] theorem current_newLine (l : Listing) : l.newLine.current = [] := by
  rw [current, tokenLines_newLine, List.getLast?_concat, Option.getD_some]

theorem finished_newLine {l : Listing} (h : l.tokenLines ≠ []) : l.newLine.finished = l.finished ++ [l.current] := by
  rw [finished, tokenLines_newLine, List.dropLast_concat, finished, current, List.getLast?_eq_some_getLast h,
    Option.getD_some, List.dropLast_concat_getLast]

theorem tokenLines_ne_nil {l : Listing} (h : l.current ≠ []) : l.tokenLines ≠ [] := by
  intro hnone
  simp [current, hnone] at h

/-- Only above a line can an empty one be missing. -/
theorem tokenLines_ne_nil_of_endsBlank {l : Listing} (h : l.page.endsBlank = false) : l.tokenLines ≠ [] := by
  obtain ⟨⟨_ | ⟨line, above⟩⟩, ix⟩ := l
  · cases h
  · simp [tokenLines, Page.lines]

theorem tokenLines_putLine_ne_nil (l : Listing) (ts : List Token) : (l.putLine ts).tokenLines ≠ [] := by
  rw [putLine, tokenLines_newLine]
  exact List.concat_ne_nil _ _

/-- From `l` to `m` these lines were filled, from the current one on; the one below them is
    empty. -/
structure Fills (l m : Listing) (lines : List (List Token)) : Prop where
  finished : m.finished = l.finished ++ lines
  current : m.current = []

namespace Fills

variable {l m n : Listing} {lines more : List (List Token)}

theorem nil (h : l.current = []) : Fills l l [] := ⟨(List.append_nil _).symm, h⟩

theorem trans (h : Fills l m lines) (h' : Fills m n more) : Fills l n (lines ++ more) :=
  ⟨by rw [h'.finished, h.finished, List.append_assoc], h'.current⟩

theorem newLine (h : l.tokenLines ≠ []) : Fills l l.newLine [l.current] := ⟨finished_newLine h, l.current_newLine⟩

/-- The current line is filled with `ts` and then ended. -/
theorem line {ts : List Token} (hts : ts ≠ []) (hcurrent : m.current = ts) (hfinished : m.finished = l.finished) :
    Fills l m.newLine [ts] := by
  subst hcurrent
  have hfills := newLine (tokenLines_ne_nil hts)
  exact ⟨hfinished ▸ hfills.finished, hfills.current⟩

theorem putLine (h : l.current = []) {ts : List Token} (hts : ts ≠ []) : Fills l (l.putLine ts) [ts] :=
  line hts (by simp [h]) (by simp)

theorem putLines_of_started (h : l.current = []) (hstarted : l.tokenLines ≠ []) (lines : List (List Token)) :
    Fills l (l.putLines lines) lines := by
  induction lines generalizing l with
  | nil => exact .nil h
  | cons ts lines ih =>
    have hfirst : Fills l (l.putLine ts) [ts] := by
      by_cases hts : ts = []
      · subst hts
        have hempty := newLine hstarted
        rwa [h] at hempty
      · exact .putLine h hts
    exact hfirst.trans (ih hfirst.current (l.tokenLines_putLine_ne_nil ts))

/-- An empty line can come first only where a line is there already. -/
theorem putLines (h : l.current = []) {lines : List (List Token)}
    (hstart : lines.head? = some [] → l.tokenLines ≠ []) : Fills l (l.putLines lines) lines := by
  cases lines with
  | nil => exact .nil h
  | cons ts lines =>
    by_cases hts : ts = []
    · exact putLines_of_started h (hstart (congrArg some hts)) _
    · have hfirst := putLine h hts
      exact hfirst.trans (putLines_of_started hfirst.current (l.tokenLines_putLine_ne_nil ts) lines)

/-- The line of an instruction, recorded and marked on the way. -/
theorem instruction (h : l.current = []) {start : List Token} (hstart : start ≠ []) (a : Address)
    (code beside : List Token) :
    Fills l (((((l.put start).tag a).put code).mark).put beside).newLine [start ++ (code ++ beside)] :=
  line (List.append_ne_nil_of_left_ne_nil hstart _) (by simp [h]) (by simp)

end Fills

end Listing

namespace Scene

variable (s : Scene)

/-! ## Kinds of lines -/

/-- The line of a comment stored above `i`. -/
def StoredAbove (i : Instruction) (level : Nat) (ts : List Token) : Prop :=
  (∃ text ∈ s.analysis.internalAbove i.address, ts = s.commentLine level .internalComment text) ∨
    ∃ text ∈ s.analysis.userAbove i.address, ts = s.commentLine level .userComment text

instance (i : Instruction) (level : Nat) (ts : List Token) : Decidable (s.StoredAbove i level ts) :=
  inferInstanceAs (Decidable (_ ∨ _))

/-- Right behind its indentation, the line has the mark of an echo. -/
def Marked (level : Nat) (ts : List Token) : Prop := s.indent level ++ s.echoMark true <+: ts

instance (level : Nat) (ts : List Token) : Decidable (s.Marked level ts) := inferInstanceAs (Decidable (_ <+: _))

/-- The label of `a` on a line of its own, where it has one. -/
def labelLine? (a : Address) (level : Nat) : Option (List Token) :=
  if s.settings.labelOwnLine then (s.headingLabel a true).map (s.indent level ++ ·) else none

theorem labelLine?_eq_some_iff {a : Address} {level : Nat} {ts : List Token} :
    s.labelLine? a level = some ts ↔ s.settings.labelOwnLine = true ∧ s.isNamedByHeader a = false ∧
      ∃ l, s.label? a = some l ∧ ts = s.indent level ++ s.labelTokens a l true false := by
  unfold labelLine? headingLabel
  by_cases hown : s.settings.labelOwnLine = true
  · cases hheader : s.isNamedByHeader a with
    | true => simp [hown]
    | false => simp [hown, label, Option.map_eq_some_iff, @eq_comm _ ts]
  · simp [hown]

/-- A label ends with a colon, and what is told in front of it is no mark either. -/
theorem labelLine_not_marked {a : Address} {level : Nat} {ts : List Token} (h : s.labelLine? a level = some ts) :
    ¬s.Marked level ts := by
  obtain ⟨-, -, l, -, rfl⟩ := s.labelLine?_eq_some_iff.mp h
  intro hmarked
  obtain ⟨rest, hrest⟩ := (List.prefix_append_right_inj _).mp hmarked
  unfold labelTokens at hrest
  split at hrest
  · have hremark : "# " = "__noreturn__ " := congrArg Token.text (List.cons.inj hrest).1
    exact absurd hremark (by decide)
  · have hname : "# " = l.text ++ ":" := congrArg Token.text (List.cons.inj hrest).1
    have hend := congrArg (fun text : String => text.toList.getLast?) hname
    simp at hend

theorem lineStart_marked (a : Address) (level : Nat) (sec : Option Section) (rest : List Token) :
    s.Marked level (s.lineStart a level sec true true ++ rest) := by
  rw [Marked, lineStart, List.append_assoc]
  exact List.prefix_append _ _

/-! ## Comments above -/

/-- Only what stands above is set off, so an empty line comes first only behind another. -/
theorem groupLines_head {blank : Bool} {level : Nat} {style : Style} {texts : List String}
    (h : (s.groupLines blank level style texts).head? = some []) : blank = false := by
  cases texts with
  | nil => cases h
  | cons text texts =>
    cases blank with
    | false => rfl
    | true =>
      have hempty : s.commentLine level style text = [] := by simpa [groupLines] using h
      exact absurd hempty (s.commentLine_ne_nil level style text)

theorem aboveLines_head {blank : Bool} {i : Instruction} {level : Nat}
    (h : (s.aboveLines blank i level).head? = some []) : blank = false := by
  rw [aboveLines, List.head?_append] at h
  cases hinternal : (s.groupLines blank level .internalComment (s.analysis.internalAbove i.address)).head? with
  | some ts =>
    rw [hinternal, Option.some_or] at h
    exact s.groupLines_head (hinternal.trans h)
  | none =>
    rw [hinternal, Option.none_or] at h
    have hnone : (s.analysis.internalAbove i.address).isEmpty = true := by
      rw [← s.groupLines_isEmpty blank level .internalComment, List.head?_eq_none_iff.mp hinternal]
      rfl
    have hblank := s.groupLines_head h
    rwa [hnone, Bool.and_true] at hblank

theorem mem_groupLines {blank : Bool} {level : Nat} {style : Style} {texts : List String} {ts : List Token}
    (h : ts ∈ s.groupLines blank level style texts) :
    ts = [] ∨ ∃ text ∈ texts, ts = s.commentLine level style text := by
  unfold groupLines at h
  split at h
  · cases h
  · rcases List.mem_append.mp h with h | h
    · split at h
      · exact Or.inl (List.mem_singleton.mp h)
      · cases h
    · obtain ⟨text, htext, rfl⟩ := List.mem_map.mp h
      exact Or.inr ⟨text, htext, rfl⟩

theorem mem_aboveLines {blank : Bool} {i : Instruction} {level : Nat} {ts : List Token}
    (h : ts ∈ s.aboveLines blank i level) : ts = [] ∨ s.StoredAbove i level ts := by
  rcases List.mem_append.mp h with h | h
  · exact (s.mem_groupLines h).imp_right Or.inl
  · exact (s.mem_groupLines h).imp_right Or.inr

/-! ## Filling -/

variable {l : Listing} (h : l.current = [])

include h

theorem commentsAbove_fills (i : Instruction) (level : Nat) :
    Listing.Fills l (s.commentsAbove i level l) (s.aboveLines l.page.endsBlank i level) := by
  rw [commentsAbove_eq_putLines]
  exact .putLines h fun hhead => Listing.tokenLines_ne_nil_of_endsBlank (s.aboveLines_head hhead)

theorem heading_fills (a : Address) (level : Nat) (sec : Option Section) (echoed : Bool) :
    ∃ m, Listing.Fills l m (s.labelLine? a level).toList ∧
      s.heading a level sec true echoed l = m.put (s.lineStart a level sec true echoed) := by
  unfold heading lineStart labelLine?
  cases hlabel : s.headingLabel a true with
  | none => exact ⟨l, by simpa using .nil h, rfl⟩
  | some label =>
    by_cases hown : s.settings.labelOwnLine = true
    · have hne : s.indent level ++ label ≠ [] := by
        obtain ⟨t, ht, -⟩ := s.headingLabel_heads hlabel
        exact List.append_ne_nil_of_right_ne_nil _ (List.ne_nil_of_mem ht)
      refine ⟨l.putLine (s.indent level ++ label), ?_, ?_⟩
      · simpa [hown] using Listing.Fills.putLine h hne
      · simp [hown]
    · refine ⟨l, ?_, ?_⟩
      · simpa [hown] using .nil h
      · simp [hown]

theorem echo_fills (i : Instruction) (level : Nat) (sec : Option Section) :
    ∃ above line, Listing.Fills l (s.echo i level sec l) (above ++ (s.labelLine? i.address level).toList ++ [line]) ∧
      (∀ ts ∈ above, ts = [] ∨ s.StoredAbove i level ts) ∧ s.Marked level line ∧ s.styled .comment i.text ∈ line := by
  have habove := s.commentsAbove_fills h i level
  obtain ⟨m, hlabel, hheading⟩ := s.heading_fills habove.current i.address level sec true
  have hstart : s.lineStart i.address level sec true true ≠ [] := by
    obtain ⟨t, ht, -⟩ := s.lineStart_heads i.address level sec true
    exact List.ne_nil_of_mem ht
  have hline := Listing.Fills.instruction hlabel.current hstart i.address
    (s.rawBytes i true ++ [s.styled .comment i.text]) (s.besideTokens i)
  have hfills := (habove.trans hlabel).trans hline
  rw [← hheading] at hfills
  exact ⟨_, _, hfills, fun ts => s.mem_aboveLines, s.lineStart_marked i.address level sec _, by simp⟩

end Scene

/-- An echo that starts on a line without tokens succeeds and fills whole lines. First come
    the comments stored above the instruction, with the empty lines that set them off; then
    its label, where labels have lines of their own and it is not named by the header of its
    function; then its own line, with its text. What stands below the comments is marked just if there is
    no such label: the own line always is, and the line of the label never. -/
theorem echo_marks_all_but_label_line (p : Pass) {l : Listing} (h : l.current = []) (i : Instruction) (level : Nat)
    (sec : Option Section) :
    ∃ m above line, p.run l (.instruction i level sec true) = ⟨m, .ok none⟩ ∧
      m.finished = l.finished ++ (above ++ (p.labelLine? i.address level).toList ++ [line]) ∧ m.current = [] ∧
      (∀ ts ∈ above, ts = [] ∨ p.StoredAbove i level ts) ∧
      (∀ ts, p.labelLine? i.address level = some ts ↔
        p.settings.labelOwnLine = true ∧ p.isNamedByHeader i.address = false ∧
          ∃ label, p.label? i.address = some label ∧
            ts = p.indent level ++ p.labelTokens i.address label true false) ∧
      p.styled .comment i.text ∈ line ∧ p.Marked level line ∧
      ∀ ts, p.labelLine? i.address level = some ts → ¬p.Marked level ts := by
  obtain ⟨above, line, hfills, hstored, hmarked, htext⟩ := p.echo_fills h i level sec
  exact ⟨_, above, line, rfl, hfills.finished, hfills.current, hstored, fun ts => p.labelLine?_eq_some_iff, htext,
    hmarked, fun ts => p.labelLine_not_marked⟩

/-- A dump with labels on lines of their own, in which only the place at `0x1004` is code. -/
def ownLinePass : Pass where
  context := { mode := .dump, entry := ⟨0x1000⟩, settings := { color := false, labelOwnLine := true } }
  binary := ({} : Image).view
  analysis := ({ kinds := ({} : Table Address MemoryKind).insert ⟨0x1004⟩ .code } : Findings).view

/-- A return that is echoed: the line of its label and its own. -/
theorem labelled_return_echoed :
    let ret : Instruction := { address := ⟨0x1004⟩, mnemonic := "ret", category := .ret }
    (Listing.newLine {}).current = [] ∧
      ∃ m above line, ownLinePass.run (Listing.newLine {}) (.instruction ret 0 none true) = ⟨m, .ok none⟩ ∧
        m.finished = above ++ [[⟨"loc_1004:", .codeAddress, false⟩], line] ∧ (∀ ts ∈ above, ts = []) ∧
        ownLinePass.Marked 0 line ∧ ¬ownLinePass.Marked 0 [⟨"loc_1004:", .codeAddress, false⟩] := by
  intro ret
  have hstart : (Listing.newLine {}).current = [] := rfl
  have hlabel : ownLinePass.labelLine? ⟨0x1004⟩ 0 = some [⟨"loc_1004:", .codeAddress, false⟩] := by decide
  obtain ⟨m, above, line, hrun, hfinished, -, hstored, -, -, hmarked, hunmarked⟩ :=
    echo_marks_all_but_label_line ownLinePass hstart ret 0 none
  have hlines : m.finished = above ++ [[⟨"loc_1004:", .codeAddress, false⟩], line] := by
    rw [hfinished, hlabel, List.append_assoc]
    rfl
  refine ⟨hstart, m, above, line, hrun, hlines, fun ts hts => ?_, hmarked, hunmarked _ hlabel⟩
  rcases hstored ts hts with hempty | ⟨text, htext, -⟩ | ⟨text, htext, -⟩
  · exact hempty
  · cases htext
  · cases htext

/-- The label of the echoed return stands on a line without a mark. -/
theorem label_line_of_echo_unmarked :
    let ret : Instruction := { address := ⟨0x1004⟩, mnemonic := "ret", category := .ret }
    let o := ownLinePass.run (Listing.newLine {}) (.instruction ret 0 none true)
    (Listing.newLine {}).current = [] ∧ o.result = .ok none ∧
      o.listing.finished = [[⟨"loc_1004:", .codeAddress, false⟩],
        [⟨"# ", .comment, false⟩, ⟨"0x1004: ", .address, false⟩, ⟨"ret", .comment, false⟩]] ∧
      ¬∀ ts ∈ o.listing.finished, ts = [] ∨ ownLinePass.StoredAbove ret 0 ts ∨ ownLinePass.Marked 0 ts := by
  refine ⟨rfl, rfl, rfl, ?_⟩
  decide

end AsmListing
