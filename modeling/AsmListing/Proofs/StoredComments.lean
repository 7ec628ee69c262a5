/-
  AsmListing.Proofs.StoredComments — how far the comments stored in an analysis reach. A
  silent scene has none of them. Headings, raw bytes, echoes and the lines of an `if` read
  only the facts of the analysis, so they are the same in a silent scene, provided that
  the printer of operands overlooks stored comments too.

  Proved:
  - `generic_overlooksComments` / `bare_overlooksComments`: the printers at hand do.
  - `codeRows_sameFacts` / `frontLines_sameFacts`: with the same facts, a tree is written
    as the same code whatever comments are stored.
  - `alike_function`: two functions over the same facts are alike as the rows of their trees are.
-/

import AsmListing.Proofs.TwoListings

namespace AsmListing

/-! ## Facts and comments -/

namespace Analysis

/-- Kinds, references and function attributes agree; comments may differ. -/
structure SameFacts (d e : Analysis) : Prop where
  kindOf : ∀ a, d.kindOf a = e.kindOf a
  isReferenced : ∀ a, d.isReferenced a = e.isReferenced a
  flags : ∀ a, d.flags a = e.flags a

structure SameAbove (d e : Analysis) : Prop where
  internal : ∀ a, d.internalAbove a = e.internalAbove a
  user : ∀ a, d.userAbove a = e.userAbove a

structure SameBeside (d e : Analysis) : Prop where
  internal : ∀ a, d.internalBeside a = e.internalBeside a
  user : ∀ a, d.userBeside a = e.userBeside a

structure NoneAbove (d : Analysis) : Prop where
  internal : ∀ a, d.internalAbove a = []
  user : ∀ a, d.userAbove a = []

structure NoneBeside (d : Analysis) : Prop where
  internal : ∀ a, d.internalBeside a = none
  user : ∀ a, d.userBeside a = none

def silent (d : Analysis) : Analysis :=
  { d with
    internalAbove := fun _ => []
    userAbove := fun _ => []
    internalBeside := fun _ => none
    userBeside := fun _ => none }

theorem SameFacts.silent_eq {d e : Analysis} (h : d.SameFacts e) : d.silent = e.silent := by
  obtain ⟨hk, hr, hf⟩ := h
  simp only [silent, mk.injEq, and_true]
  exact ⟨funext hk, funext hr, funext hf⟩

end Analysis

def Scene.silent (s : Scene) : Scene := { s with analysis := s.analysis.silent }

/-- Whatever the hooks answer, they answer in a silent scene too. -/
structure OperandPrinter.OverlooksComments (o : OperandPrinter) : Prop where
  instruction : ∀ f, o.instruction? = some f → ∀ s, f s.silent = f s
  operand : ∀ f, o.operand? = some f → ∀ s, f s.silent = f s
  condition : ∀ f, o.condition? = some f → ∀ s, f s.silent = f s

theorem bare_overlooksComments : OperandPrinter.bare.OverlooksComments := by
  refine ⟨?_, ?_, ?_⟩ <;> intro f h <;> cases h

theorem genericOperand_silent (s : Scene) :
    OperandPrinter.genericOperand s.silent = OperandPrinter.genericOperand s := rfl

theorem generic_overlooksComments : OperandPrinter.generic.OverlooksComments := by
  refine ⟨?_, ?_, ?_⟩
  · intro f h s; cases h; rfl
  · intro f h s; cases h; exact genericOperand_silent s
  · intro f h s; cases h; rfl

/-! ## The code of a tree -/

namespace Pass

variable (p : Pass)

/-- The same pass over another analysis. -/
def withAnalysis (d : Analysis) : Pass := { p with analysis := d }

@[simp] theorem withAnalysis_analysis (d : Analysis) : (p.withAnalysis d).analysis = d := rfl

def silent : Pass := { p with toScene := p.toScene.silent }

theorem codeRows_silent (ho : p.operands.OverlooksComments) (beside : Instruction → List Token) (st : Step) :
    p.silent.codeRows beside st = p.codeRows beside st := by
  cases st with
  | visit i level =>
    simp only [codeRows, ownRows, show p.silent.operands = p.operands from rfl]
    cases hf : p.operands.instruction? with
    | none => rfl
    | some f => simp only [← ho.instruction f hf p.toScene]; rfl
  | echo i level => rfl
  | openCond jump fused level =>
    simp only [codeRows, show p.silent.operands = p.operands from rfl]
    cases hf : p.operands.condition? with
    | none => rfl
    | some f => simp only [← ho.condition f hf p.toScene]; rfl
  | closeCond level => rfl
  | unwritable => rfl

variable {p} {d : Analysis}

theorem silent_sameFacts (h : p.analysis.SameFacts d) : (p.withAnalysis d).silent = p.silent := by
  unfold silent Scene.silent withAnalysis
  rw [h.silent_eq]

theorem codeRows_sameFacts (h : p.analysis.SameFacts d) (ho : p.operands.OverlooksComments)
    (beside : Instruction → List Token) (st : Step) :
    (p.withAnalysis d).codeRows beside st = p.codeRows beside st := by
  have hq := codeRows_silent (p.withAnalysis d) ho beside st
  rw [← hq, silent_sameFacts h, codeRows_silent p ho]

theorem frontLines_sameFacts (h : p.analysis.SameFacts d) (entry : Address) :
    (p.withAnalysis d).frontLines entry = p.frontLines entry := by
  show (p.withAnalysis d).silent.frontLines entry = p.silent.frontLines entry
  rw [silent_sameFacts h]

/-- Two functions over the same facts are alike as the rows of their trees are. -/
theorem alike_function {R : List Row → List Row → Prop} {S : Rendering → Rendering → Prop} {entry : Address}
    {tree : Tree} (h : p.analysis.SameFacts d)
    (hrows : Alike R (p.rowsAll false (tree.steps p.settings.comments 1))
      ((p.withAnalysis d).rowsAll false (tree.steps p.settings.comments 1)))
    (hS : ∀ rs qs, R rs qs → S (p.rendered entry rs) (p.rendered entry qs)) :
    Alike S (p.function entry tree) ((p.withAnalysis d).function entry tree) := by
  have hrendered : (p.withAnalysis d).rendered entry = p.rendered entry := by
    funext rs
    rw [rendered, frontLines_sameFacts h]; rfl
  refine alike_functions rfl rfl hrows fun rs qs hrq => ?_
  rw [hrendered]
  exact hS rs qs hrq

end Pass

end AsmListing
