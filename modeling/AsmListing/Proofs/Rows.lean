/-
  AsmListing.Proofs.Rows — a listing told as rows. A row is a finished line with the
  address recorded for it. Added to a listing whose current line is fresh, it takes the
  place of that line and leaves a fresh one below (`addRow`), so what a run writes is a
  list of rows that says nothing about what was written before.

  Proved, for every listing with a fresh current line:
  - `putLine_bare` / `newLine_bare` / `line_of_instruction`: the ways to finish a line
    each add one row.
  - `newest_addRows` / `index_addRows`: the page and the index after any number of rows.
  - `endsBlank_addRows`: whether the listing ends blank is decided by the last row.
  - `bare_instructionText` / `ofInstruction_instructionText`: stripping a row takes away the
    comments beside its instruction and nothing else.
  - `finish_addRows`: a listing of rows, closed by a last line, is finished as the
    rendering of these rows (`Rendering.ofRows`).
-/

import AsmListing.Proofs.LineIndex
import AsmListing.Listing.Rendering
import Mathlib.Data.List.Chain

namespace AsmListing

structure Row where
  line : Line
  tag : Option Address := none
  deriving DecidableEq, Repr

namespace Row

/-- A row that belongs to no instruction. -/
def bare (ts : List Token) : Row := { line := { tokens := ts } }

/-- The row of the instruction at `a`: its code, then the comments beside it. -/
def ofInstruction (a : Address) (code beside : List Token) : Row :=
  { line := (Line.markHere { tokens := code }).extend beside, tag := some a }

def isBlank (r : Row) : Bool := r.line.isBlank

/-- Some token of the row has a text. -/
def Visible (r : Row) : Prop := ∃ t ∈ r.line.tokens, t.text ≠ ""

theorem Visible.not_blank {r : Row} (h : r.Visible) : r.isBlank = false := by
  obtain ⟨t, ht, _⟩ := h
  cases e : r.line.tokens with
  | nil => rw [e] at ht; cases ht
  | cons _ _ => simp [isBlank, Line.isBlank, e]

theorem Visible.text_ne_empty {r : Row} (h : r.Visible) : r.line.text ≠ "" := by
  obtain ⟨t, ht, hne⟩ := h
  intro hempty
  have hchars : r.line.tokens.flatMap (·.text.toList) = [] := by
    rw [Line.text] at hempty
    exact String.ofList_injective hempty
  exact hne (String.toList_eq_nil_iff.mp (List.flatMap_eq_nil_iff.mp hchars t ht))

/-- No two rows without text meet, and the last one has some. -/
structure Spaced (rs : List Row) : Prop where
  chain : rs.IsChain fun r q => r.Visible ∨ q.Visible
  last : ∀ r, rs.getLast? = some r → r.Visible

namespace Spaced

variable {rs qs : List Row}

theorem nil : Spaced [] := ⟨.nil, fun r h => by cases h⟩

theorem append (hr : Spaced rs) (hq : Spaced qs) : Spaced (rs ++ qs) := by
  refine ⟨hr.chain.append hq.chain fun r h q _ => Or.inl (hr.last r h), ?_⟩
  intro r h
  rw [List.getLast?_append] at h
  cases e : qs.getLast? with
  | none => rw [e] at h; exact hr.last r h
  | some q => rw [e] at h; exact hq.last r (e.trans h)

theorem of_visible (h : ∀ r ∈ rs, r.Visible) : Spaced rs := by
  refine ⟨List.isChain_iff_getElem.mpr fun n hn => Or.inl (h _ (List.getElem_mem _)), ?_⟩
  intro r hr
  exact h r (List.mem_of_getLast? hr)

/-- Whatever comes first, visible rows behind it set it right. -/
theorem cons_of_visible (r : Row) (hne : rs ≠ []) (h : ∀ q ∈ rs, q.Visible) : Spaced (r :: rs) := by
  have hrs := of_visible h
  cases rs with
  | nil => exact absurd rfl hne
  | cons q rs =>
    refine ⟨hrs.chain.cons_cons (Or.inr (h q List.mem_cons_self)), ?_⟩
    intro q' hq'
    rw [List.getLast?_cons_cons] at hq'
    exact hrs.last q' hq'

end Spaced

end Row

namespace Listing

/-- The current line holds neither tokens nor a mark. -/
def Fresh (l : Listing) : Prop := l.page.newest.head? = some {}

def addRow (l : Listing) (r : Row) : Listing where
  page := ⟨{} :: r.line :: l.page.newest.tail⟩
  index := l.index.recordTag (l.page.lineCount - 1) r.tag

def addRows (l : Listing) (rs : List Row) : Listing := rs.foldl addRow l

def putLines (l : Listing) (lines : List (List Token)) : Listing := lines.foldl putLine l

@[simp] theorem addRows_nil (l : Listing) : l.addRows [] = l := rfl

theorem addRows_cons (l : Listing) (r : Row) (rs : List Row) : l.addRows (r :: rs) = (l.addRow r).addRows rs := rfl

theorem addRows_append (l : Listing) (rs qs : List Row) : l.addRows (rs ++ qs) = (l.addRows rs).addRows qs :=
  List.foldl_append

/-! ## Fresh lines -/

theorem Fresh.exists_above {l : Listing} (h : l.Fresh) : ∃ above ix, l = ⟨⟨{} :: above⟩, ix⟩ := by
  obtain ⟨⟨newest⟩, ix⟩ := l
  cases newest with
  | nil => cases h
  | cons line above => cases h; exact ⟨above, ix, rfl⟩

theorem newLine_fresh (l : Listing) : l.newLine.Fresh := rfl

theorem addRow_fresh (l : Listing) (r : Row) : (l.addRow r).Fresh := rfl

theorem addRows_fresh {l : Listing} (h : l.Fresh) (rs : List Row) : (l.addRows rs).Fresh := by
  induction rs generalizing l with
  | nil => exact h
  | cons r rs ih => exact ih (addRow_fresh l r)

theorem put_current (above : List Line) (ix : LineIndex) (line : Line) (ts : List Token) :
    (Listing.mk ⟨line :: above⟩ ix).put ts = ⟨⟨line.extend ts :: above⟩, ix⟩ := by
  simp only [put, Page.append_current]

/-! ## Finishing a line -/

theorem putLine_bare {l : Listing} (h : l.Fresh) (ts : List Token) : l.putLine ts = l.addRow (.bare ts) := by
  obtain ⟨above, ix, rfl⟩ := h.exists_above
  rw [putLine, put_current]; rfl

/-- The line of an instruction: tagged somewhere in its code, marked behind it. -/
theorem line_of_instruction {l : Listing} (h : l.Fresh) (a : Address) (start code beside : List Token) :
    (((((l.put start).tag a).put code).mark).put beside).newLine =
      l.addRow (.ofInstruction a (start ++ code) beside) := by
  obtain ⟨above, ix, rfl⟩ := h.exists_above
  have hput : (Listing.mk ⟨{} :: above⟩ ix).put start = ⟨⟨Line.extend {} start :: above⟩, ix⟩ :=
    put_current above ix {} start
  have htag : ((Listing.mk ⟨{} :: above⟩ ix).put start).tag a =
      ⟨⟨Line.extend {} start :: above⟩, ix.record a above.length⟩ := by
    rw [hput]; rfl
  rw [htag, put_current, Line.extend_extend]
  show ((Listing.mk ⟨(Line.extend {} (start ++ code)).markHere :: above⟩ _).put beside).newLine = _
  rw [put_current]; rfl

theorem foldl_putLine {α : Type} {l : Listing} (h : l.Fresh) (f : α → List Token) (xs : List α) :
    xs.foldl (fun l x => l.putLine (f x)) l = l.addRows (xs.map fun x => .bare (f x)) := by
  induction xs generalizing l with
  | nil => rfl
  | cons x xs ih =>
    rw [List.foldl_cons, List.map_cons, addRows_cons, putLine_bare h]
    exact ih (addRow_fresh _ _)

theorem putLines_bare {l : Listing} (h : l.Fresh) (lines : List (List Token)) :
    l.putLines lines = l.addRows (lines.map .bare) := foldl_putLine h id lines

/-! ## What rows leave -/

theorem endsBlank_putLine (l : Listing) {ts : List Token} (h : ts ≠ []) : (l.putLine ts).page.endsBlank = false := by
  obtain ⟨line, above, hnewest⟩ : ∃ line above, (l.page.append ts).newest = Line.extend line ts :: above := by
    obtain ⟨⟨_ | ⟨line, above⟩⟩, ix⟩ := l
    · obtain ⟨t, ts, rfl⟩ := List.exists_cons_of_ne_nil h
      have hfirst : (Page.mk []).append (t :: ts) = (Page.mk [Line.extend {} [t]]).append ts := rfl
      exact ⟨{}, [], by rw [hfirst, Page.append_current, Line.extend_extend]; rfl⟩
    · exact ⟨line, above, by rw [Page.append_current]⟩
  have hfilled : (line.extend ts).isBlank = false := by simp [Line.extend, Line.isBlank, h]
  simp only [putLine, put, newLine, Page.newLine, Page.endsBlank, hnewest, hfilled, Bool.false_and]

theorem endsBlank_putLines {α : Type} {f : α → List Token} (hf : ∀ x, f x ≠ []) (l : Listing) (xs : List α) :
    (l.putLines (xs.map f)).page.endsBlank = (l.page.endsBlank && xs.isEmpty) := by
  induction xs generalizing l with
  | nil => simp [putLines]
  | cons x xs ih =>
    have hrest := ih (l.putLine (f x))
    rw [endsBlank_putLine l (hf x), Bool.false_and] at hrest
    rw [List.isEmpty_cons, Bool.and_false]
    exact hrest

theorem endsBlank_addRows (l : Listing) {rs : List Row} (h : Row.Spaced rs) :
    (l.addRows rs).page.endsBlank = (l.page.endsBlank && rs.isEmpty) := by
  rcases List.eq_nil_or_concat rs with rfl | ⟨qs, r, rfl⟩
  · simp
  · rw [List.concat_eq_append] at h ⊢
    have hr : r.isBlank = false := (h.last r (by simp)).not_blank
    have hlast : (l.addRows (qs ++ [r])).page.endsBlank = r.isBlank := by
      rw [addRows_append]
      exact Bool.and_true _
    rw [hlast, hr]; simp

theorem newest_addRows {l : Listing} (h : l.Fresh) (rs : List Row) :
    (l.addRows rs).page.newest = {} :: ((rs.map Row.line).reverse ++ l.page.newest.tail) := by
  induction rs generalizing l with
  | nil => obtain ⟨above, ix, rfl⟩ := h.exists_above; rfl
  | cons r rs ih => rw [addRows_cons, ih (addRow_fresh l r)]; simp [addRow]

theorem index_addRows {l : Listing} (h : l.Fresh) (rs : List Row) :
    (l.addRows rs).index = l.index.recordTags (l.page.lineCount - 1) (rs.map Row.tag) := by
  induction rs generalizing l with
  | nil => rfl
  | cons r rs ih =>
    rw [addRows_cons, ih (addRow_fresh l r)]
    obtain ⟨above, ix, rfl⟩ := h.exists_above
    rfl

end Listing

/-! ## Boundaries -/

namespace Line

theorem length_text (l : Line) : l.text.length = l.width := by
  rw [text, String.length_ofList, width]
  induction l.tokens with
  | nil => rfl
  | cons t ts ih => rw [List.flatMap_cons, List.length_append, ih, String.length_toList]; rfl

/-- The text of the first `n` tokens stands in front, as wide as they are. -/
theorem take_text (l : Line) (n : Nat) :
    String.ofList (l.text.toList.take (Token.totalWidth (l.tokens.take n))) =
      text { tokens := l.tokens.take n } := by
  have hwidth : Token.totalWidth (l.tokens.take n) = ((l.tokens.take n).flatMap (·.text.toList)).length := by
    rw [← String.length_ofList]
    exact (length_text { tokens := l.tokens.take n }).symm
  have hsplit : l.text.toList =
      (l.tokens.take n).flatMap (·.text.toList) ++ (l.tokens.drop n).flatMap (·.text.toList) := by
    rw [text, String.toList_ofList, ← List.flatMap_append, List.take_append_drop]
  rw [hwidth, hsplit, List.take_left]
  rfl

/-- Without a mark, stripping leaves the whole line: it would be cut behind its end. -/
theorem instructionText_of_no_mark {l : Line} (h : l.mark = none) : l.instructionText = l.text := by
  have hlong : l.text.toList.length ≤ l.boundary.column := by
    rw [String.length_toList, length_text, boundary, h]
    exact Nat.le_succ _
  rw [instructionText, List.take_of_length_le hlong, String.ofList_toList]

end Line

namespace Row

theorem bare_boundary (ts : List Token) :
    (bare ts).line.boundary = ⟨(bare ts).line.width + 1, (bare ts).line.tokens.length⟩ := rfl

theorem ofInstruction_boundary (a : Address) (code beside : List Token) :
    (ofInstruction a code beside).line.boundary = ⟨Token.totalWidth code, code.length⟩ := rfl

theorem ofInstruction_width (a : Address) (code beside : List Token) :
    (ofInstruction a code beside).line.width = Token.totalWidth code + Token.totalWidth beside :=
  Line.width_extend _ _

theorem bare_instructionText (ts : List Token) : (bare ts).line.instructionText = (bare ts).line.text :=
  Line.instructionText_of_no_mark rfl

/-- Stripping leaves the code. -/
theorem ofInstruction_instructionText (a : Address) (code beside : List Token) :
    (ofInstruction a code beside).line.instructionText = (ofInstruction a code []).line.text := by
  have hcode : (ofInstruction a code beside).line.tokens.take code.length = code := List.take_left
  have htext := (ofInstruction a code beside).line.take_text code.length
  have hplain : (ofInstruction a code []).line.text = Line.text { tokens := code } := by
    rw [ofInstruction, Line.extend_nil]; rfl
  rw [hcode] at htext
  rw [Line.instructionText, ofInstruction_boundary, htext, hplain]

end Row

/-! ## Renderings -/

/-- The rendering that shows these rows. -/
def Rendering.ofRows (rs : List Row) (color : Bool) : Rendering :=
  ⟨rs.map Row.line, .ofTags (rs.map Row.tag), color⟩

theorem Listing.finish_addRows (rs : List Row) (ts : List Token) (color : Bool) :
    (((Listing.newLine {}).addRows rs).put ts).finish color = .ok (Rendering.ofRows (rs ++ [.bare ts]) color) := by
  have hpage := newest_addRows (newLine_fresh {}) rs
  have hindex := index_addRows (newLine_fresh {}) rs
  generalize (Listing.newLine {}).addRows rs = l at hpage hindex
  obtain ⟨⟨newest⟩, ix⟩ := l
  simp only at hpage hindex
  subst hpage hindex
  rw [put_current]
  have hix : LineIndex.ofTags ((rs ++ [Row.bare ts]).map Row.tag) = .ofTags (rs.map Row.tag) := by
    rw [List.map_append, List.map_singleton, LineIndex.ofTags_snoc]; rfl
  rw [Rendering.ofRows, hix]
  simp [finish, Rendering.ofBuffer, Buffer.join, Buffer.isJoined, Page.lines, Page.newLine, Row.bare, Line.extend,
    Listing.newLine, LineIndex.ofTags, Page.lineCount]

namespace Rendering

theorem addressOf_ofRows (rs : List Row) (color : Bool) (line : Nat) (a : Address) :
    (ofRows rs color).addressOf line = some a ↔ ∃ r, rs[line]? = some r ∧ r.tag = some a := by
  rw [addressOf, ofRows, LineIndex.addressOf_ofTags, List.getElem?_map, Option.map_eq_some_iff]

theorem addressOf_of_row {rs : List Row} {color : Bool} {line : Nat} {r : Row} (h : rs[line]? = some r) :
    (ofRows rs color).addressOf line = r.tag := by
  apply Option.ext
  intro a
  rw [addressOf_ofRows, h]
  simp

theorem lines_ofRows (rs : List Row) (color : Bool) (line : Nat) :
    (ofRows rs color).lines[line]? = rs[line]?.map Row.line := List.getElem?_map

end Rendering

end AsmListing
