/-
  AsmListing.Proofs.Position — a tree written at two places. Writing starts on a fresh line
  without a tag, and only one thing is asked of what stands above it: whether the listing
  ends blank there, and that for the comments of a dump alone.

  What a tree leaves behind is a draft (`Draft`): the rows it finished and the one it
  stopped in, which is fresh unless a step failed. `Layout` has the rows of trees that
  succeed; here a step that fails leaves what it had written by then (`brokenOff`).

  Proved, for every scene, printer, tree and level:
  - `perform_leaves` / `performAll_leaves`: steps leave their draft and fail as their rows
    do, on every listing with a fresh current line.
  - `same_draft`: the draft and the result depend on a blank end in a dump only.
  - `tree_ignores_position`: the result, the lines with their marks, and the tags counted
    from the first of these lines are the same at both places.
-/

import AsmListing.Proofs.AppendOnly
import AsmListing.Proofs.Layout

namespace AsmListing

open Listing

/-! ## Drafts -/

/-- What was written from a fresh line on. -/
structure Draft where
  finished : List Row := []
  current : Row := .bare []

namespace Draft

def rows (d : Draft) : List Row := d.finished ++ [d.current]

/-- The draft below rows that were finished before it. -/
def below (rs : List Row) (d : Draft) : Draft := { d with finished := rs ++ d.finished }

end Draft

namespace Listing

/-- Puts a row in the place of the current line, without ending it. -/
def startRow (l : Listing) (r : Row) : Listing where
  page := ⟨r.line :: l.page.newest.tail⟩
  index := l.index.recordTag (l.page.lineCount - 1) r.tag

def addDraft (l : Listing) (d : Draft) : Listing := (l.addRows d.finished).startRow d.current

variable {l : Listing} (h : l.Fresh)

include h

theorem startRow_empty : l.startRow (.bare []) = l := by
  obtain ⟨above, ix, rfl⟩ := h.exists_above
  rfl

theorem put_started (ts : List Token) : l.put ts = l.startRow (.bare ts) := by
  obtain ⟨above, ix, rfl⟩ := h.exists_above
  rw [put_current]; rfl

theorem put_tag_started (a : Address) (ts : List Token) :
    (l.put ts).tag a = l.startRow { line := { tokens := ts }, tag := some a } := by
  obtain ⟨above, ix, rfl⟩ := h.exists_above
  rw [put_current]; rfl

theorem addDraft_finished (rs : List Row) : l.addDraft { finished := rs } = l.addRows rs :=
  startRow_empty (addRows_fresh h rs)

omit h in
theorem addDraft_below (l : Listing) (rs : List Row) (d : Draft) :
    l.addDraft (d.below rs) = (l.addRows rs).addDraft d := by
  rw [addDraft, addDraft, Draft.below, addRows_append]

/-- A draft takes the place of the current line and stands below all others. -/
theorem lines_addDraft (d : Draft) :
    (l.addDraft d).page.lines = l.page.lines.dropLast ++ d.rows.map Row.line := by
  have hnewest := newest_addRows h d.finished
  obtain ⟨above, ix, rfl⟩ := h.exists_above
  have hfront : (Listing.mk ⟨{} :: above⟩ ix).page.lines.dropLast = above.reverse := by
    rw [Page.lines, List.reverse_cons, List.dropLast_concat]
  rw [hfront, Page.lines, addDraft, startRow, hnewest, Draft.rows]
  simp

theorem index_addDraft (d : Draft) :
    (l.addDraft d).index = l.index.recordTags (l.page.lineCount - 1) (d.rows.map Row.tag) := by
  have hline : (l.addRows d.finished).page.lineCount - 1 = l.page.lineCount - 1 + (d.finished.map Row.tag).length := by
    have hnewest := newest_addRows h d.finished
    obtain ⟨above, ix, rfl⟩ := h.exists_above
    rw [Page.lineCount, hnewest]
    simp [Page.lineCount, Nat.add_comm]
  rw [Draft.rows, List.map_append, LineIndex.recordTags_append, ← index_addRows h d.finished, ← hline]
  rfl

end Listing

/-! ## Steps that fail -/

theorem Outcome.eq_mk {α : Type} {o : Outcome α} {l : Listing} {result : Except Failure α} (hl : o.listing = l)
    (hresult : o.result = result) : o = ⟨l, result⟩ := by
  rw [← hl, ← hresult]

namespace Pass

variable (p : Pass)

/-- What a step that fails has written by then. -/
def brokenOff (blank : Bool) : Step → Draft
  | .visit i level =>
    { finished := (p.stepAbove blank (.visit i level)).map .bare ++ p.ownLabelRows i level
      current :=
        { line := { tokens := p.ownStart i level (p.binary.sectionOf i.address) }, tag := some i.address } }
  | .openCond jump fused level => { current := .bare (p.condStart jump fused level) }
  | _ => {}

def draft (blank : Bool) (st : Step) : Draft :=
  match p.rows blank st with
  | .ok rs => { finished := rs }
  | .error _ => p.brokenOff blank st

/-- The draft of steps in order, up to the first that fails. -/
def draftAll (blank : Bool) : List Step → Draft
  | [] => {}
  | st :: rest =>
    match p.rows blank st with
    | .ok rs => (draftAll (blank && rs.isEmpty) rest).below rs
    | .error _ => p.brokenOff blank st

theorem perform_brokenOff {st : Step} {l : Listing} (h : l.Fresh) {e : Failure}
    (he : p.rows l.page.endsBlank st = .error e) :
    (p.perform st l).listing = l.addDraft (p.brokenOff l.page.endsBlank st) := by
  -- everything up to the call of the missing hook is written
  cases st with
  | visit i level =>
    have habove := addRows_fresh h ((p.aboveLines l.page.endsBlank i level).map .bare)
    rw [rows, codeRows] at he
    rw [perform, visit, p.commentsAbove_eq h]
    split at he
    · cases he
    · rename_i hfused
      rw [ownRows] at he
      rw [if_neg hfused, ownLine, ownHeading_eq p habove, put_tag_started (addRows_fresh habove _), printInstruction]
      split at he
      · cases he
      · rename_i hnone
        rw [hnone, brokenOff, addDraft, addRows_append]
        rfl
  | echo i level => cases he
  | openCond jump fused level =>
    rw [rows, codeRows] at he
    rw [perform, printCondition, put_started h]
    split at he
    · cases he
    · rename_i hnone
      rw [hnone]
      rfl
  | closeCond level => cases he
  | unwritable => exact (startRow_empty h).symm

theorem perform_leaves (st : Step) {l : Listing} (h : l.Fresh) :
    p.perform st l =
      ⟨l.addDraft (p.draft l.page.endsBlank st), (p.rows l.page.endsBlank st).map fun _ => ()⟩ := by
  have hwrites := p.perform_writes st h
  unfold draft
  cases hrows : p.rows l.page.endsBlank st with
  | ok rs =>
    rw [hrows] at hwrites
    have hdone : p.perform st l = .done (l.addRows rs) := hwrites
    rw [hdone]
    simp only [addDraft_finished h]
    rfl
  | error e =>
    rw [hrows] at hwrites
    have hresult : (p.perform st l).result = .error e := hwrites
    exact Outcome.eq_mk (p.perform_brokenOff h hrows) hresult

theorem performAll_leaves (ss : List Step) {l : Listing} (h : l.Fresh) :
    p.performAll ss l =
      ⟨l.addDraft (p.draftAll l.page.endsBlank ss), (p.rowsAll l.page.endsBlank ss).map fun _ => ()⟩ := by
  induction ss generalizing l with
  | nil => rw [performAll, draftAll, addDraft_finished h]; rfl
  | cons st ss ih =>
    rw [performAll, p.perform_leaves st h, draftAll, rowsAll, draft]
    cases hrows : p.rows l.page.endsBlank st with
    | error e => rfl
    | ok rs =>
      have hblank := endsBlank_addRows l (p.rows_spaced hrows)
      have hrest := ih (addRows_fresh h rs)
      rw [hblank] at hrest
      simp only [addDraft_finished h, addDraft_below]
      show p.performAll ss (l.addRows rs) = _
      rw [hrest]
      refine Outcome.eq_mk rfl ?_
      show _ = ((p.rowsAll (l.page.endsBlank && rs.isEmpty) ss).map (rs ++ ·)).map fun _ => ()
      cases p.rowsAll (l.page.endsBlank && rs.isEmpty) ss <;> rfl

/-! ## Blank ends -/

variable {p} (hreading : p.context.isDump = false)

include hreading

theorem stepAbove_of_reading (blank blank' : Bool) (st : Step) : p.stepAbove blank st = p.stepAbove blank' st := by
  have hgroup : ∀ blank blank' level style texts,
      p.groupLines blank level style texts = p.groupLines blank' level style texts := by
    intro blank blank' level style texts
    simp only [Scene.groupLines, hreading, Bool.false_and]
  unfold stepAbove
  split
  · rw [Scene.aboveLines, Scene.aboveLines, hgroup blank blank', hgroup (blank && _) (blank' && _)]
  · rfl

theorem rows_of_reading (blank blank' : Bool) (st : Step) : p.rows blank st = p.rows blank' st := by
  rw [rows, rows, stepAbove_of_reading hreading blank blank']

theorem rowsAll_of_reading (blank blank' : Bool) (ss : List Step) : p.rowsAll blank ss = p.rowsAll blank' ss := by
  induction ss generalizing blank blank' with
  | nil => rfl
  | cons st ss ih =>
    rw [rowsAll, rowsAll, rows_of_reading hreading blank blank']
    refine congrArg _ (funext fun rs => ?_)
    rw [ih]

theorem brokenOff_of_reading (blank blank' : Bool) (st : Step) : p.brokenOff blank st = p.brokenOff blank' st := by
  cases st with
  | visit i level => rw [brokenOff, brokenOff, stepAbove_of_reading hreading blank blank']
  | _ => rfl

theorem draftAll_of_reading (blank blank' : Bool) (ss : List Step) : p.draftAll blank ss = p.draftAll blank' ss := by
  induction ss generalizing blank blank' with
  | nil => rfl
  | cons st ss ih =>
    rw [draftAll, draftAll, rows_of_reading hreading blank blank', brokenOff_of_reading hreading blank blank']
    cases p.rows blank' st with
    | error e => rfl
    | ok rs => exact congrArg (Draft.below rs) (ih _ _)

omit hreading

/-- Only a dump tells a blank end from another. -/
theorem same_draft {blank blank' : Bool} (hblank : p.context.isDump = true → blank = blank') (ss : List Step) :
    p.draftAll blank ss = p.draftAll blank' ss ∧ p.rowsAll blank ss = p.rowsAll blank' ss := by
  cases hdump : p.context.isDump with
  | true => rw [hblank hdump]; exact ⟨rfl, rfl⟩
  | false => exact ⟨draftAll_of_reading hdump blank blank' ss, rowsAll_of_reading hdump blank blank' ss⟩

end Pass

/-! ## Two places -/

/-- The current line has neither tokens nor a mark nor a tag. -/
structure Listing.AtFreshLine (l : Listing) : Prop where
  fresh : l.Fresh
  untagged : l.index.addressOf (l.page.lineCount - 1) = none

/-- The step added these lines to `l`, from its current line on, and these tags, counted from
    that line. -/
structure Outcome.Adds (o : Outcome Unit) (l : Listing) (lines : List Line) (tags : List (Nat × Address)) : Prop where
  lines : o.listing.page.lines = l.page.lines.dropLast ++ lines
  tags : o.listing.index.lines = l.index.lines ++ tags.map fun x => (l.page.lineCount - 1 + x.1, x.2)

namespace Listing.AtFreshLine

variable {l : Listing} (h : l.AtFreshLine) (hs : l.Sound)

include h hs

theorem tags_above : ∀ x ∈ l.index.tags, x.1 < l.page.lineCount - 1 := by
  intro x hx
  have hx : l.index.addressOf x.1 = some x.2 := (LineIndex.addressOf_eq_some hs.sorted x.1 x.2).mpr hx
  have hlt := hs.tagged x.1 x.2 hx
  have hne : x.1 ≠ l.page.lineCount - 1 := by
    intro e
    rw [e, h.untagged] at hx
    cases hx
  omega

theorem addDraft_adds (d : Draft) (result : Except Failure Unit) :
    Outcome.Adds ⟨l.addDraft d, result⟩ l (d.rows.map Row.line) (LineIndex.numbered (d.rows.map Row.tag)) := by
  refine ⟨lines_addDraft h.fresh d, ?_⟩
  rw [index_addDraft h.fresh, LineIndex.lines_recordTags (h.tags_above hs)]

end Listing.AtFreshLine

/-- Wherever a run has got to a fresh line without a tag, a tree has the same result there,
    adds the same lines with the same boundaries, and tags the same of them. In a dump the
    two places have to agree in whether the listing ends blank. -/
theorem tree_ignores_position {p : Pass} {before before' : List Operation}
    (h : (p.runAll {} before).AtFreshLine) (h' : (p.runAll {} before').AtFreshLine)
    (hblank : p.context.isDump = true →
      (p.runAll {} before).page.endsBlank = (p.runAll {} before').page.endsBlank)
    (level : Nat) (t : Tree) :
    let o := p.write level t (p.runAll {} before)
    let o' := p.write level t (p.runAll {} before')
    o.result = o'.result ∧
      ∃ lines tags, o.Adds (p.runAll {} before) lines tags ∧ o'.Adds (p.runAll {} before') lines tags := by
  obtain ⟨hdraft, hrows⟩ := Pass.same_draft hblank (t.steps p.settings.comments level)
  have hwrite := (p.write_eq_performAll level t (p.runAll {} before)).trans (p.performAll_leaves _ h.fresh)
  have hwrite' := (p.write_eq_performAll level t (p.runAll {} before')).trans (p.performAll_leaves _ h'.fresh)
  rw [hdraft, hrows] at hwrite
  rw [hwrite, hwrite']
  exact ⟨rfl, _, _, h.addDraft_adds (p.runAll_sound before) _ _, h'.addDraft_adds (p.runAll_sound before') _ _⟩

/-- The merged pair, with nobody to write its condition. -/
def barePass : Pass := { mergedPass with operands := .bare }

/-- On its second line, and below a block that was broken off, the pair is echoed and then
    broken off itself. -/
theorem broken_off_at_two_places :
    let l := barePass.runAll {} [.plain "first", .newLine]
    let l' := barePass.runAll {} [.rule, .block [{ address := ⟨0x2000⟩, mnemonic := "nop" }] 0 none, .newLine]
    l.page.lineCount = 2 ∧ l'.page.lineCount = 4 ∧
      (barePass.write 1 mergedTree l).result = .error (.missing .condition) ∧
      ∃ lines tags, (barePass.write 1 mergedTree l).Adds l lines tags ∧
        (barePass.write 1 mergedTree l').Adds l' lines tags := by
  refine ⟨rfl, rfl, rfl, ?_⟩
  exact (@tree_ignores_position barePass [.plain "first", .newLine]
    [.rule, .block [{ address := ⟨0x2000⟩, mnemonic := "nop" }] 0 none, .newLine] ⟨rfl, rfl⟩ ⟨rfl, rfl⟩
    (fun _ => rfl) 1 mergedTree).2

end AsmListing
