/-
  AsmListing.Proofs.JoinedBuffer — what can still happen to a buffer after it was joined.
  An edit that is refused leaves the buffer as it was (`after`), so a run of edits goes on
  past refusals (`afterAll`).

  A joined buffer refuses every edit but two: padding to a column that is reached already,
  which adds nothing, and a mark. Marks are not guarded: one that comes after the join
  moves the boundary of the last line to the end of that line.

  Proved:
  - `after_joined` / `afterAll_joined`: an edit, then any run of them, leaves a joined
    buffer as it was, or as one mark leaves it.
  - `only_marks_reach_joined`: tokens, texts, cursor, line count and joined text stay,
    whatever edits follow; so do the boundaries above the last line; the last one stays
    just if no mark follows, or if a mark would not move it.
  - `late_mark_moves_boundary`: a mark that does move it.
-/

import AsmListing.Page.Buffer

namespace AsmListing

/-! ## Marks -/

namespace Line

theorem markHere_tokens (l : Line) : l.markHere.tokens = l.tokens := rfl
theorem markHere_text (l : Line) : l.markHere.text = l.text := rfl

/-- Only a line marked at its very end keeps its boundary: one without a mark has it one
    column further. -/
theorem markHere_eq_of_boundary {l : Line} (h : l.markHere.boundary = l.boundary) : l.markHere = l := by
  obtain ⟨tokens, mark⟩ := l
  cases mark with
  | none =>
    have hcolumn : Token.totalWidth tokens = Token.totalWidth tokens + 1 := congrArg Boundary.column h
    omega
  | some m => exact congrArg (fun m => Line.mk tokens (some m)) h

end Line

namespace Page

theorem line?_current (l : Line) (above : List Line) : (Page.mk (l :: above)).line? above.length = some l := by
  rw [line?, lines, List.reverse_cons, List.getElem?_append_right (by simp)]
  simp

/-- The lines above the current one are the same whatever that one is. -/
theorem line?_above (l m : Line) (above : List Line) {i : Nat} (hi : i ≠ above.length) :
    (Page.mk (l :: above)).line? i = (Page.mk (m :: above)).line? i := by
  simp only [line?, lines, List.reverse_cons]
  by_cases hlt : i < above.length
  · rw [List.getElem?_append_left (by simpa using hlt), List.getElem?_append_left (by simpa using hlt)]
  · rw [List.getElem?_eq_none (by simp; omega), List.getElem?_eq_none (by simp; omega)]

@[simp] theorem mark_mark (p : Page) : p.mark.mark = p.mark := by
  obtain ⟨_ | ⟨l, above⟩⟩ := p <;> rfl

theorem map_lines_mark {α : Type} {f : Line → α} (hf : ∀ l, f l.markHere = f l) (p : Page) :
    p.mark.lines.map f = p.lines.map f := by
  obtain ⟨_ | ⟨l, above⟩⟩ := p
  · rfl
  · show (l.markHere :: above).reverse.map f = (l :: above).reverse.map f
    rw [List.map_reverse, List.map_reverse, List.map_cons, List.map_cons, hf]

theorem cursor_mark (p : Page) : p.mark.cursor = p.cursor := by
  obtain ⟨_ | ⟨l, above⟩⟩ := p <;> rfl

theorem lineCount_mark (p : Page) : p.mark.lineCount = p.lineCount := by
  obtain ⟨_ | ⟨l, above⟩⟩ := p <;> rfl

end Page

namespace Buffer

/-! ## Runs of edits -/

/-- The buffer after an edit; one that is refused leaves it as it was. -/
def after (b : Buffer) (e : Edit) : Buffer :=
  match b.apply e with
  | .ok c => c
  | .error _ => b

def afterAll (b : Buffer) (es : List Edit) : Buffer := es.foldl after b

/-- The buffer with the instruction part of its last line ended at the end of that line. -/
def marked (b : Buffer) : Buffer := { b with page := b.page.mark }

@[simp] theorem marked_marked (b : Buffer) : b.marked.marked = b.marked := by simp [marked]

theorem isJoined_of_join {b c : Buffer} (h : b.apply .join = .ok c) : c.isJoined = true := by
  by_cases hb : b.isJoined = true
  · simp [apply, join, hb] at h
  · simp only [apply, join, hb, Bool.false_eq_true, if_false, Except.ok.injEq] at h
    rw [← h]; rfl

/-! ## Edits of a joined buffer -/

variable {b : Buffer} (h : b.isJoined = true)

include h

/-- Text is refused. -/
theorem write_joined (f : Page → Page) : b.write f = .error .frozen := by
  simp [write, h]

theorem after_joined (e : Edit) : b.after e = if e = .mark then b.marked else b := by
  cases e with
  | newLine => simp [after, apply, write_joined h]
  | push t => simp [after, apply, write_joined h]
  | padTo column =>
    -- with nothing to add there is no text to refuse
    by_cases hwide : b.page.cursor < column
    · simp [after, apply, hwide, write_joined h]
    · simp [after, apply, hwide]
  | mark => simp [after, apply, marked]
  | join => simp [after, apply, join, h]

theorem afterAll_joined (es : List Edit) : b.afterAll es = if .mark ∈ es then b.marked else b := by
  induction es generalizing b with
  | nil => rfl
  | cons e es ih =>
    have hstep : b.afterAll (e :: es) = (b.after e).afterAll es := rfl
    rw [hstep, after_joined h]
    by_cases he : e = .mark
    · subst he
      have hmarked : b.marked.isJoined = true := h
      rw [if_pos rfl, ih hmarked, marked_marked, ite_self, if_pos List.mem_cons_self]
    · have hmem : Edit.mark ∈ e :: es ↔ Edit.mark ∈ es := by
        simp [List.mem_cons, Ne.symm he]
      rw [if_neg he, ih h]
      simp only [hmem]

/-! ## Boundaries -/

theorem boundary?_marked_above {i : Nat} (hi : i + 1 ≠ b.page.lineCount) :
    b.marked.boundary? i = b.boundary? i := by
  obtain ⟨⟨_ | ⟨l, above⟩⟩, joined⟩ := b
  · rfl
  · have hne : i ≠ above.length := by
      intro e
      subst e
      exact hi rfl
    show ((Page.mk (l.markHere :: above)).line? i).bind _ = ((Page.mk (l :: above)).line? i).bind _
    rw [Page.line?_above l.markHere l above hne]
    rfl

/-- All boundaries stay under a mark just if the whole page does. -/
theorem boundary?_marked_iff : (∀ i, b.marked.boundary? i = b.boundary? i) ↔ b.page.mark = b.page := by
  obtain ⟨⟨_ | ⟨l, above⟩⟩, joined⟩ := b
  · exact ⟨fun _ => rfl, fun _ _ => rfl⟩
  · constructor
    · intro hall
      have hlast := hall above.length
      have hjoined : joined.isSome = true := h
      simp only [boundary?, marked, Page.mark, Page.line?_current, isJoined, hjoined, Option.bind_some, if_true,
        Option.some.injEq] at hlast
      show Page.mk (l.markHere :: above) = ⟨l :: above⟩
      rw [Line.markHere_eq_of_boundary hlast]
    · intro hpage i
      rw [marked, hpage]

omit h

/-- After a join nothing but a mark has an effect, and a mark none but on the boundary of
    the last line. -/
theorem only_marks_reach_joined {before later : List Edit} {b : Buffer}
    (hjoin : (afterAll {} before).apply .join = .ok b) :
    (b.afterAll later).page.lines.map Line.tokens = b.page.lines.map Line.tokens ∧
      (b.afterAll later).page.lines.map Line.text = b.page.lines.map Line.text ∧
      (b.afterAll later).page.cursor = b.page.cursor ∧
      (b.afterAll later).page.lineCount = b.page.lineCount ∧
      (b.afterAll later).joined = b.joined ∧
      (∀ i, i + 1 ≠ b.page.lineCount → (b.afterAll later).boundary? i = b.boundary? i) ∧
      ((∀ i, (b.afterAll later).boundary? i = b.boundary? i) ↔ (.mark ∈ later → b.page.mark = b.page)) := by
  have h := isJoined_of_join hjoin
  rw [afterAll_joined h]
  by_cases hmark : Edit.mark ∈ later
  · rw [if_pos hmark]
    refine ⟨?_, ?_, b.page.cursor_mark, b.page.lineCount_mark, rfl, fun i hi => boundary?_marked_above h hi, ?_⟩
    · exact Page.map_lines_mark Line.markHere_tokens b.page
    · exact Page.map_lines_mark Line.markHere_text b.page
    · rw [boundary?_marked_iff h]
      exact ⟨fun hpage _ => hpage, fun hpage => hpage hmark⟩
  · rw [if_neg hmark]
    exact ⟨rfl, rfl, rfl, rfl, rfl, fun _ _ => rfl, fun _ hm => absurd hm hmark, fun _ _ => rfl⟩

/-- A commented instruction, joined; then text, padding and a second join are tried. -/
theorem joined_instruction_stays :
    ∃ b, (afterAll {} [.newLine, .push (.plain "nop"), .mark, .push (.plain " ; pad")]).apply .join = .ok b ∧
      b.boundary? 0 = some ⟨3, 1⟩ ∧
      ∀ i, (b.afterAll [.push (.plain "late"), .newLine, .padTo 40, .join]).boundary? i = b.boundary? i := by
  refine ⟨_, rfl, rfl, ?_⟩
  have hstays := @only_marks_reach_joined [.newLine, .push (.plain "nop"), .mark, .push (.plain " ; pad")]
    [.push (.plain "late"), .newLine, .padTo 40, .join] _ rfl
  exact hstays.2.2.2.2.2.2.mpr fun hmark => absurd hmark (by decide)

/-- The boundary that joining gave to a line without a mark lies one column behind the line;
    a late mark moves it back. -/
theorem late_mark_moves_boundary :
    ∃ b, (afterAll {} [.newLine, .push (.plain "nop")]).apply .join = .ok b ∧ b.boundary? 0 = some ⟨4, 1⟩ ∧
      (b.afterAll [.mark]).boundary? 0 = some ⟨3, 1⟩ := ⟨_, rfl, rfl, rfl⟩

end Buffer

end AsmListing
