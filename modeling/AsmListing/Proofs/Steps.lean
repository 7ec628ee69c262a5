/-
  AsmListing.Proofs.Steps — a tree is written by its steps, one after another.

  Proved:
  - `write_eq_performAll`: writing a tree, on any listing, is performing its steps one
    after another up to the first that fails.
-/

import AsmListing.Listing.Function

namespace AsmListing

/-- The instruction, and its level, whose comments above are written with the step. -/
def Step.commented? : Step → Option (Instruction × Nat)
  | .visit i level | .echo i level => some (i, level)
  | _ => none

namespace Outcome

theorem andThen_assoc {α β γ : Type} (o : Outcome α) (f : α → Listing → Outcome β) (g : β → Listing → Outcome γ) :
    (o.andThen f).andThen g = o.andThen fun a l => (f a l).andThen g := by
  obtain ⟨l, _ | a⟩ := o <;> rfl

theorem andThen_done (o : Outcome Unit) : (o.andThen fun _ l => done l) = o := by
  obtain ⟨l, _ | a⟩ := o <;> rfl

end Outcome

namespace Pass

variable (p : Pass)

/-- The header of an `if` up to its condition. Without comments the merged pair shows here,
    by its addresses. -/
def condStart (jump : Instruction) (fused : Option Instruction) (level : Nat) : List Token :=
  (if p.settings.comments then [] else
    (fused.toList ++ [jump]).flatMap fun i => p.addressIfColored i level none) ++
    (p.indent level ++ [p.styled .keyword "if "])

def perform : Step → Listing → Outcome Unit
  | .visit i level, l => p.visit i level (p.binary.sectionOf i.address) l
  | .echo i level, l => .done (p.echo i level none l)
  | .openCond jump fused level, l =>
    (p.printCondition jump fused (l.put (p.condStart jump fused level))).andThen fun _ l =>
      .done (l.putLine [.plain " \x7b"])
  | .closeCond level, l => .done (l.putLine (p.indent level ++ [.plain "\x7d"]))
  | .unwritable, l => ⟨l, .error (.missing .dump)⟩

/-- The steps in order, up to the first that fails. -/
def performAll : List Step → Listing → Outcome Unit
  | [], l => .done l
  | s :: rest, l => (p.perform s l).andThen fun _ l => performAll rest l

theorem performAll_append (ss ts : List Step) (l : Listing) :
    p.performAll (ss ++ ts) l = (p.performAll ss l).andThen fun _ l => p.performAll ts l := by
  induction ss generalizing l with
  | nil => rfl
  | cons s ss ih => simp only [List.cons_append, performAll, Outcome.andThen_assoc, ih]

theorem visitAll_eq_performAll (level : Nat) (is : List Instruction) (l : Listing) :
    p.visitAll level none is l = p.performAll (is.map (.visit · level)) l := by
  induction is generalizing l with
  | nil => rfl
  | cons i rest ih => simp only [visitAll, List.map_cons, performAll, perform, ih]; rfl

theorem performAll_echoes (level : Nat) (is : List Instruction) (l : Listing) :
    p.performAll (is.map (.echo · level)) l = .done (is.foldl (fun l i => p.echo i level none l) l) := by
  induction is generalizing l with
  | nil => rfl
  | cons i rest ih => simp only [List.map_cons, performAll, perform, Outcome.done_andThen, ih, List.foldl_cons]

theorem openCond_eq_performAll (jump : Instruction) (fused : Option Instruction) (level : Nat) (l : Listing) :
    p.openCond jump fused level l =
      p.performAll ((if p.settings.comments then (fused.toList ++ [jump]).map (.echo · level) else []) ++
        [.openCond jump fused level]) l := by
  rw [performAll_append]
  simp only [openCond, Scene.echoMerged, Option.toList_some]
  cases hc : p.settings.comments with
  | true =>
    rw [if_pos rfl, if_pos rfl, performAll_echoes, Outcome.done_andThen, performAll, perform, condStart, if_pos hc]
    exact (Outcome.andThen_done _).symm
  | false =>
    rw [if_neg Bool.false_ne_true, if_neg Bool.false_ne_true, performAll, Outcome.done_andThen, performAll, perform,
      condStart, hc, if_neg Bool.false_ne_true, Listing.put_put]
    exact (Outcome.andThen_done _).symm

mutual

theorem write_eq_performAll (level : Nat) (t : Tree) (l : Listing) :
    p.write level t l = p.performAll (t.steps p.settings.comments level) l := by
  match t with
  | .block instructions => rw [write, Tree.steps, visitAll_eq_performAll]
  | .seq parts => rw [write, Tree.steps, writeAll_eq_performAll]
  | .cond jump fused body =>
    rw [write, Tree.steps, performAll_append, performAll_append, ← openCond_eq_performAll, Outcome.andThen_assoc]
    simp only [write_eq_performAll (level + 1) body]
    rfl
  | .unwritable => rfl

theorem writeAll_eq_performAll (level : Nat) (ts : List Tree) (l : Listing) :
    p.writeAll level ts l = p.performAll (Tree.stepsAll p.settings.comments level ts) l := by
  match ts with
  | [] => rfl
  | t :: rest =>
    rw [writeAll, Tree.stepsAll, performAll_append, write_eq_performAll level t]
    simp only [writeAll_eq_performAll level rest]

end

end Pass

end AsmListing
