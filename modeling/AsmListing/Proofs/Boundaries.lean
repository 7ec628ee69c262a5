/-
  AsmListing.Proofs.Boundaries — where the instruction part of a line ends, told twice: as
  a count of tokens and as a column. The column is taken from the cursor when the line is
  marked; tokens come to the line before and after that, and the line may be marked again.

  What edits did to a line is told by its cuts (`Page.cuts`): the counts of tokens it had
  whenever it was marked, oldest first.

  Proved:
  - `onPage_coherent` / `edited_coherent`: on every line the column is the width of the
    tokens counted.
  - `markAt_edited`: the mark of a line is its last cut.
  - `Line.Coherent.instructionText_eq`: stripping a line leaves the tokens counted.
  - `boundaries_cut_lines`: so it is with every line of a finished run of operations.
-/

import AsmListing.Proofs.AppendOnly
import AsmListing.Proofs.Rows

namespace AsmListing

/-! ## Lines -/

namespace Line

/-- The mark lies within the line, at the column where the tokens it counts end. -/
def Coherent (l : Line) : Prop :=
  ∀ b ∈ l.mark, b.tokens ≤ l.tokens.length ∧ b.column = Token.totalWidth (l.tokens.take b.tokens)

theorem empty_coherent : Coherent {} := nofun

theorem markHere_coherent (l : Line) : l.markHere.Coherent := by
  intro b hb
  cases hb
  exact ⟨Nat.le_refl _, congrArg Token.totalWidth (List.take_length).symm⟩

theorem Coherent.extend {l : Line} (h : l.Coherent) (ts : List Token) : (l.extend ts).Coherent := by
  intro b hb
  obtain ⟨hle, hcolumn⟩ := h b hb
  have htake : (l.tokens ++ ts).take b.tokens = l.tokens.take b.tokens := List.take_append_of_le_length hle
  refine ⟨?_, ?_⟩
  · show b.tokens ≤ (l.tokens ++ ts).length
    rw [List.length_append]
    exact Nat.le_add_right_of_le hle
  · show b.column = Token.totalWidth ((l.tokens ++ ts).take b.tokens)
    rw [htake, hcolumn]

theorem boundary_tokens_le {l : Line} (h : l.Coherent) : l.boundary.tokens ≤ l.tokens.length := by
  unfold boundary
  cases hm : l.mark with
  | none => exact Nat.le_refl _
  | some b => exact (h b hm).1

theorem Coherent.instructionText_eq {l : Line} (h : l.Coherent) :
    l.instructionText = Line.text { tokens := l.tokens.take l.boundary.tokens } := by
  cases hm : l.mark with
  | none =>
    rw [instructionText_of_no_mark hm, boundary, hm, Option.getD_none, List.take_length]
    rfl
  | some b => rw [instructionText, boundary, hm, Option.getD_some, (h b hm).2, take_text]

/-- The boundary of a line by its last cut, if it was ever cut. -/
def boundaryBy (tokens : List Token) : Option Nat → Boundary
  | some n => ⟨(Line.text { tokens := tokens.take n }).length, n⟩
  | none => ⟨(Line.text { tokens := tokens }).length + 1, tokens.length⟩

theorem Coherent.boundary_eq {l : Line} (h : l.Coherent) :
    l.boundary = boundaryBy l.tokens (l.mark.map Boundary.tokens) := by
  unfold boundary
  cases hm : l.mark with
  | none =>
    rw [Option.getD_none, Option.map_none, boundaryBy, length_text]
    rfl
  | some b =>
    rw [Option.getD_some, Option.map_some, boundaryBy, length_text]
    exact congrArg (Boundary.mk · b.tokens) (h b hm).2

end Line

/-! ## Cuts -/

namespace Page

/-- Every line of the page is coherent. -/
def Coherent (p : Page) : Prop := ∀ l ∈ p.newest, l.Coherent

theorem Coherent.empty : Coherent {} := fun _ hl => absurd hl List.not_mem_nil

theorem Coherent.push {p : Page} (h : p.Coherent) (t : Token) : (p.push t).Coherent := by
  obtain ⟨_ | ⟨l, above⟩⟩ := p
  · exact List.forall_mem_singleton.mpr (Line.empty_coherent.extend [t])
  · obtain ⟨hl, habove⟩ := List.forall_mem_cons.mp h
    exact List.forall_mem_cons.mpr ⟨hl.extend [t], habove⟩

theorem onPage_coherent {p : Page} (h : p.Coherent) (e : Buffer.Edit) : (e.onPage p).Coherent := by
  cases e with
  | newLine => exact List.forall_mem_cons.mpr ⟨Line.empty_coherent, h⟩
  | push t => exact h.push t
  | padTo column =>
    show (p.padTo column).Coherent
    unfold padTo
    split
    · exact h.push _
    · exact h
  | mark =>
    obtain ⟨_ | ⟨l, above⟩⟩ := p
    · exact h
    · exact List.forall_mem_cons.mpr ⟨l.markHere_coherent, (List.forall_mem_cons.mp h).2⟩
  | join => exact h

theorem edited_coherent {p : Page} (h : p.Coherent) (es : List Buffer.Edit) : (p.edited es).Coherent := by
  induction es generalizing p with
  | nil => exact h
  | cons e es ih => exact ih (onPage_coherent h e)

/-- The mark of line `i`, as the count of tokens in front of it. -/
def markAt (p : Page) (i : Nat) : Option Nat := ((p.line? i).bind Line.mark).map Boundary.tokens

/-- Where an edit cuts line `i`: behind the tokens it has, if it is the current one and the
    edit marks it. -/
def cutBy (p : Page) (i : Nat) : Buffer.Edit → Option Nat
  | .mark => if i + 1 = p.lineCount then (p.line? i).map (·.tokens.length) else none
  | _ => none

/-- Where edits cut line `i`, oldest first. -/
def cuts (i : Nat) : Page → List Buffer.Edit → List Nat
  | _, [] => []
  | p, e :: es => (p.cutBy i e).toList ++ cuts i (e.onPage p) es

/-- The mark of line `i`. A line that does not exist has none. -/
def mark? (p : Page) (i : Nat) : Option Boundary := (p.line? i).bind Line.mark

theorem mark?_of_current (l m : Line) (above : List Line) (h : m.mark = l.mark) (i : Nat) :
    (Page.mk (m :: above)).mark? i = (Page.mk (l :: above)).mark? i := by
  by_cases hi : i = above.length
  · subst hi
    rw [mark?, mark?, line?_current, line?_current, Option.bind_some, Option.bind_some, h]
  · rw [mark?, mark?, line?_above m l above hi]

theorem mark?_push (p : Page) (t : Token) (i : Nat) : (p.push t).mark? i = p.mark? i := by
  obtain ⟨_ | ⟨l, above⟩⟩ := p
  · cases i <;> rfl
  · exact mark?_of_current l (l.extend [t]) above rfl i

theorem mark?_append (p : Page) (ts : List Token) (i : Nat) : (p.append ts).mark? i = p.mark? i := by
  induction ts generalizing p with
  | nil => rfl
  | cons t ts ih => exact (ih (p.push t)).trans (p.mark?_push t i)

theorem mark?_newLine (p : Page) (i : Nat) : p.newLine.mark? i = p.mark? i := by
  rw [mark?, mark?, line?, line?, lines_newLine, List.getElem?_append]
  split
  · rfl
  · rename_i hi
    rw [List.getElem?_eq_none (Nat.le_of_not_lt hi)]
    cases i - p.lines.length <;> rfl

theorem markAt_push (p : Page) (t : Token) (i : Nat) : (p.push t).markAt i = p.markAt i :=
  congrArg (Option.map Boundary.tokens) (p.mark?_push t i)

theorem markAt_newLine (p : Page) (i : Nat) : p.newLine.markAt i = p.markAt i :=
  congrArg (Option.map Boundary.tokens) (p.mark?_newLine i)

theorem markAt_onPage (p : Page) (e : Buffer.Edit) (i : Nat) :
    (e.onPage p).markAt i = (p.cutBy i e).or (p.markAt i) := by
  cases e with
  | newLine => exact p.markAt_newLine i
  | push t => exact p.markAt_push t i
  | padTo column =>
    show (p.padTo column).markAt i = p.markAt i
    unfold padTo
    split
    · exact p.markAt_push _ i
    · rfl
  | mark =>
    obtain ⟨_ | ⟨l, above⟩⟩ := p
    · rfl
    · by_cases hi : i = above.length
      · subst hi
        have hcurrent : above.length + 1 = (Page.mk (l :: above)).lineCount := rfl
        rw [cutBy, if_pos hcurrent, line?_current, Option.map_some, Option.some_or, markAt]
        show ((Page.mk (l.markHere :: above)).line? above.length |>.bind Line.mark).map Boundary.tokens = _
        rw [line?_current]
        rfl
      · have hcurrent : i + 1 ≠ (Page.mk (l :: above)).lineCount := fun h => hi (Nat.succ.inj h)
        rw [cutBy, if_neg hcurrent, Option.none_or, markAt, markAt]
        show ((Page.mk (l.markHere :: above)).line? i |>.bind Line.mark).map Boundary.tokens = _
        rw [line?_above l.markHere l above hi]
  | join => rfl

/-- The last cut counts. -/
theorem markAt_edited (p : Page) (es : List Buffer.Edit) (i : Nat) :
    (p.edited es).markAt i = (cuts i p es).getLast?.or (p.markAt i) := by
  induction es generalizing p with
  | nil => rfl
  | cons e es ih =>
    have hlast : ((p.cutBy i e).toList ++ cuts i (e.onPage p) es).getLast? =
        (cuts i (e.onPage p) es).getLast?.or (p.cutBy i e) := by
      rw [List.getLast?_append]
      cases p.cutBy i e <;> rfl
    rw [cuts, hlast, Option.or_assoc, ← markAt_onPage]
    exact ih (e.onPage p)

end Page

/-! ## Finished runs -/

/-- A finished run shows a page that an open buffer was filled with. The boundary of a line
    counts tokens of the line, those that are left when the line is stripped. Whatever the
    edits were, it is the last cut they made in the line, at the column behind the text of
    these tokens, or lies one column behind a line they never cut. There are no others. -/
theorem boundaries_cut_lines (p : Pass) (ops : List Operation) :
    let page := (p.runAll {} ops).page
    ∃ r : Rendering, (p.runAll {} ops).finish p.settings.color = .ok r ∧ (∃ es, Buffer.Takes es {} page) ∧
      (∀ i line, r.lines[i]? = some line → ∃ b, r.boundary? i = some b ∧
        b.tokens ≤ line.tokens.length ∧
        r.stripped? i = some (Line.text { tokens := line.tokens.take b.tokens }) ∧
        ∀ es, Buffer.Takes es {} page →
          b = match (Page.cuts i {} es).getLast? with
            | some n => ⟨(Line.text { tokens := line.tokens.take n }).length, n⟩
            | none => ⟨line.text.length + 1, line.tokens.length⟩) ∧
      ∀ i, r.lines.length ≤ i → r.boundary? i = none ∧ r.stripped? i = none := by
  intro page
  have htaken := (p.runAll_grows_anyway {} ops).edits
  have hall : page.Coherent := by
    obtain ⟨es, hes⟩ := htaken
    obtain ⟨-, hpage⟩ := Buffer.takes_iff.mp hes
    show (p.runAll {} ops).page.Coherent
    rw [hpage]
    exact Page.edited_coherent .empty es
  refine ⟨⟨page.lines, (p.runAll {} ops).index, p.settings.color⟩, rfl, htaken, ?_, ?_⟩
  · intro i line hline
    have hcoherent : line.Coherent := hall line (List.mem_reverse.mp (List.mem_of_getElem? hline))
    refine ⟨line.boundary, ?_, Line.boundary_tokens_le hcoherent, ?_, ?_⟩
    · rw [Rendering.boundary?, hline]; rfl
    · rw [Rendering.stripped?, hline, Option.map_some, hcoherent.instructionText_eq]
    · intro es hes
      obtain ⟨-, hpage⟩ := Buffer.takes_iff.mp hes
      have hmark : line.mark.map Boundary.tokens = (Page.cuts i {} es).getLast? := by
        have hlast := Page.markAt_edited {} es i
        rw [← hpage, Page.markAt, Page.line?, hline] at hlast
        exact hlast.trans (Option.or_none)
      rw [hcoherent.boundary_eq, hmark]
      rfl
  · intro i hi
    have hnone := List.getElem?_eq_none hi
    exact ⟨by rw [Rendering.boundary?, hnone]; rfl, by rw [Rendering.stripped?, hnone]; rfl⟩

/-- Marked twice, the line is cut at the second mark; the line below was never cut. -/
example (p : Pass) :
    ((p.runAll {} [.plain "nop", .mark, .plain ", nop", .mark, .plain " ; pad", .newLine, .plain "ret"]).finish
        p.settings.color).map (fun r => (r.boundary? 0, r.stripped? 0, r.boundary? 1, r.boundary? 2)) =
      .ok (some ⟨8, 2⟩, some "nop, nop", some ⟨4, 1⟩, none) := rfl

end AsmListing
