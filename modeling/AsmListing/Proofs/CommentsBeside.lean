/-
  AsmListing.Proofs.CommentsBeside — one function listed twice: with the comments stored
  beside its instructions, and without. Row by row, the second listing is the first one
  with the instruction rows cut behind their code (`Row.Stripped`).

  Proved, for two analyses that differ in the comments beside alone, of which one has none:
  - `codeRows_stripped` / `rowsAll_stripped`: a step, then a whole tree, writes the same
    rows in both up to what is cut, or fails in both for the same reason.
  - `stripping_undoes_comments_beside`: the two renderings agree in everything a reader can
    ask for but the comments, which stripping takes away again.
-/

import AsmListing.Proofs.StoredComments

namespace AsmListing

/-! ## Rows without comments -/

namespace Row

/-- The second row is the first one without the comments beside its instruction. -/
inductive Stripped : Row → Row → Prop
  | bare (ts : List Token) : Stripped (.bare ts) (.bare ts)
  | instruction (a : Address) (code beside : List Token) :
    Stripped (.ofInstruction a code beside) (.ofInstruction a code [])

namespace Stripped

variable {r r₀ : Row}

theorem tag_eq (h : Stripped r r₀) : r.tag = r₀.tag := by
  cases h <;> rfl

theorem boundary_eq (h : Stripped r r₀) : r.line.boundary = r₀.line.boundary := by
  cases h <;> rfl

theorem instructionText_eq (h : Stripped r r₀) : r.line.instructionText = r₀.line.text := by
  cases h with
  | bare ts => exact bare_instructionText ts
  | instruction a code beside => exact ofInstruction_instructionText a code beside

/-- Nothing is left to strip in the second row. -/
theorem right (h : Stripped r r₀) : Stripped r₀ r₀ := by
  cases h with
  | bare ts => exact .bare ts
  | instruction a code beside => exact .instruction a code []

end Stripped

theorem bares_stripped (lines : List (List Token)) : List.Forall₂ Stripped (lines.map bare) (lines.map bare) := by
  induction lines with
  | nil => exact .nil
  | cons ts lines ih => exact .cons (.bare ts) ih

theorem all_right {rs qs : List Row} (h : List.Forall₂ Stripped rs qs) : List.Forall₂ Stripped qs qs := by
  induction h with
  | nil => exact .nil
  | cons hr _ ih => exact .cons hr.right ih

end Row

/-! ## Two listings of a tree -/

theorem labelRows_stripped (s : Scene) (a : Address) (level : Nat) (colon : Bool) :
    List.Forall₂ Row.Stripped (s.labelRows a level colon) (s.labelRows a level colon) := by
  unfold Scene.labelRows
  split
  · split
    · exact .cons (.bare _) .nil
    · exact .nil
  · exact .nil

namespace Pass

variable (p : Pass)

theorem ownLabelRows_stripped (i : Instruction) (level : Nat) :
    List.Forall₂ Row.Stripped (p.ownLabelRows i level) (p.ownLabelRows i level) := by
  unfold ownLabelRows
  split
  · exact labelRows_stripped _ _ _ _
  · exact .nil

theorem codeRows_stripped (beside : Instruction → List Token) (st : Step) :
    Alike (List.Forall₂ Row.Stripped) (p.codeRows beside st) (p.codeRows (fun _ => []) st) := by
  cases st with
  | visit i level =>
    simp only [codeRows, ownRows]
    split
    · exact .ok .nil
    · cases p.operands.instruction? with
      | none => exact .error _
      | some f => exact .ok (List.rel_append (p.ownLabelRows_stripped i level) (.cons (.instruction _ _ _) .nil))
  | echo i level => exact .ok (List.rel_append (labelRows_stripped _ _ _ _) (.cons (.instruction _ _ _) .nil))
  | openCond jump fused level =>
    simp only [codeRows]
    cases p.operands.condition? with
    | none => exact .error _
    | some f => exact .ok (.cons (.bare _) .nil)
  | closeCond level => exact .ok (.cons (.bare _) .nil)
  | unwritable => exact .error _

variable {p} {d : Analysis}

theorem stepAbove_sameAbove (ha : p.analysis.SameAbove d) (blank : Bool) (st : Step) :
    (p.withAnalysis d).stepAbove blank st = p.stepAbove blank st := by
  unfold stepAbove
  cases st.commented? with
  | none => rfl
  | some visited =>
    show (p.withAnalysis d).aboveLines blank visited.1 visited.2 = p.aboveLines blank visited.1 visited.2
    rw [Scene.aboveLines, Scene.aboveLines, withAnalysis_analysis, ha.internal, ha.user]; rfl

theorem besideTokens_noneBeside (hn : d.NoneBeside) :
    (p.withAnalysis d).besideTokens = fun _ => [] := by
  funext i
  rw [Scene.besideTokens, withAnalysis_analysis, hn.internal, hn.user]; rfl

variable (h : p.analysis.SameFacts d) (ha : p.analysis.SameAbove d) (hn : d.NoneBeside)
  (ho : p.operands.OverlooksComments)

include h ha hn ho

theorem rows_stripped (blank : Bool) (st : Step) :
    Alike (List.Forall₂ Row.Stripped) (p.rows blank st) ((p.withAnalysis d).rows blank st) := by
  rw [rows, rows, besideTokens_noneBeside hn, codeRows_sameFacts h ho, stepAbove_sameAbove ha]
  exact (p.codeRows_stripped _ st).map fun rs qs hrq => List.rel_append (Row.bares_stripped _) hrq

theorem rowsAll_stripped (blank : Bool) (ss : List Step) :
    Alike (List.Forall₂ Row.Stripped) (p.rowsAll blank ss) ((p.withAnalysis d).rowsAll blank ss) :=
  rowsAll_alike (rows_stripped h ha hn ho) blank ss

end Pass

/-! ## Two renderings -/

namespace Rendering

variable {rs qs : List Row} (h : List.Forall₂ Row.Stripped rs qs) (color : Bool)

include h

theorem index_stripped : (ofRows rs color).index = (ofRows qs color).index :=
  index_of_related h color color fun _ _ hr => hr.tag_eq

theorem boundary_stripped (line : Nat) : (ofRows rs color).boundary? line = (ofRows qs color).boundary? line :=
  line_of_related h color color (fun _ _ hr => hr.boundary_eq) line

theorem text_stripped (line : Nat) : (ofRows rs color).stripped? line = (ofRows qs color).text? line :=
  line_of_related h color color (fun _ _ hr => hr.instructionText_eq) line

end Rendering

/-- Comments beside instructions are undone by stripping them, and leave no other trace,
    with every printer that overlooks stored comments, as those at hand do. -/
theorem stripping_undoes_comments_beside :
    OperandPrinter.generic.OverlooksComments ∧ OperandPrinter.bare.OverlooksComments ∧
      ∀ {p : Pass} {d : Analysis} (entry : Address) (tree : Tree), p.operands.OverlooksComments →
        p.analysis.SameFacts d → p.analysis.SameAbove d → d.NoneBeside →
        Alike (fun r r₀ => r.lines.length = r₀.lines.length ∧
            (∀ line, r.addressOf line = r₀.addressOf line) ∧ (∀ a, r.lineOf a = r₀.lineOf a) ∧
            (∀ line, r.boundary? line = r₀.boundary? line) ∧
            ∀ line, r.stripped? line = r₀.stripped? line ∧ r₀.stripped? line = r₀.text? line)
          (p.function entry tree) ((p.withAnalysis d).function entry tree) := by
  refine ⟨generic_overlooksComments, bare_overlooksComments, fun {p d} entry tree ho h ha hn => ?_⟩
  refine Pass.alike_function h (Pass.rowsAll_stripped h ha hn ho false _) fun rs qs hrq => ?_
  have hall : List.Forall₂ Row.Stripped ((p.frontLines entry).map Row.bare ++ rs ++ [.bare Pass.closingLine])
      ((p.frontLines entry).map Row.bare ++ qs ++ [.bare Pass.closingLine]) :=
    List.rel_append (List.rel_append (Row.bares_stripped _) hrq) (Row.bares_stripped [_])
  have hindex := Rendering.index_stripped hall p.settings.color
  have htext := Rendering.text_stripped hall p.settings.color
  have htext₀ := Rendering.text_stripped (Row.all_right hall) p.settings.color
  refine ⟨?_, fun line => ?_, fun a => ?_, Rendering.boundary_stripped hall _, fun line => ?_⟩
  · exact (List.length_map _).trans (hall.length_eq.trans (List.length_map _).symm)
  · exact congrArg (·.addressOf line) hindex
  · exact congrArg (·.firstLineOf a) hindex
  · exact ⟨(htext line).trans (htext₀ line).symm, htext₀ line⟩

/-- The merged pair without its comment beside. -/
theorem merged_pair_stripped :
    ∃ r r₀, mergedPass.function ⟨0x1000⟩ mergedTree = .ok r ∧
      (mergedPass.withAnalysis { mergedPass.analysis with internalBeside := fun _ => none }).function ⟨0x1000⟩
        mergedTree = .ok r₀ ∧
      r.text? 11 = some "        0x1004: ret ; done" ∧ r.stripped? 11 = r₀.text? 11 := by
  have halike := stripping_undoes_comments_beside.2.2 (p := mergedPass)
    (d := { mergedPass.analysis with internalBeside := fun _ => none }) ⟨0x1000⟩ mergedTree
    generic_overlooksComments ⟨fun _ => rfl, fun _ => rfl, fun _ => rfl⟩ ⟨fun _ => rfl, fun _ => rfl⟩
    ⟨fun _ => rfl, fun _ => rfl⟩
  obtain ⟨-, -, -, -, htext⟩ := halike.of_ok
  exact ⟨_, _, rfl, rfl, rfl, (htext 11).1.trans (htext 11).2⟩

end AsmListing
