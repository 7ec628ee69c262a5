/-
  AsmListing.Proofs.TwoListings — two listings of one tree, compared. Two results are alike
  if both are the same failure, or both are successes whose values some relation relates
  (`Alike`). For listings the values are rows, related place by place, and the relation
  says in what two rows agree.

  Proved, for two passes and any relation between rows:
  - `rowsAll_alike`: passes that are alike step by step are alike over all steps.
  - `alike_functions`: two functions are alike as the rows of their trees are.
  - `index_of_related` / `lines_of_related`: renderings of related rows agree in whatever
    related rows agree in.
-/

import AsmListing.Proofs.Layout
import Mathlib.Data.List.Forall2

namespace AsmListing

/-! ## Two results -/

/-- Both failed for the same reason, or both succeeded with results that `R` relates. -/
inductive Alike {α β : Type} (R : α → β → Prop) : Except Failure α → Except Failure β → Prop
  | error (e : Failure) : Alike R (.error e) (.error e)
  | ok {a : α} {b : β} (h : R a b) : Alike R (.ok a) (.ok b)

namespace Alike

variable {α β γ δ : Type} {R : α → β → Prop} {S : γ → δ → Prop} {x : Except Failure α} {y : Except Failure β}

theorem of_ok {a : α} {b : β} (h : Alike R (.ok a) (.ok b)) : R a b := by
  cases h with
  | ok h => exact h

theorem map {f : α → γ} {g : β → δ} (h : Alike R x y) (hfg : ∀ a b, R a b → S (f a) (g b)) :
    Alike S (x.map f) (y.map g) := by
  cases h with
  | error e => exact .error e
  | ok h => exact .ok (hfg _ _ h)

theorem bind {f : α → Except Failure γ} {g : β → Except Failure δ} (h : Alike R x y)
    (hfg : ∀ a b, R a b → Alike S (f a) (g b)) : Alike S (x.bind f) (y.bind g) := by
  cases h with
  | error e => exact .error e
  | ok h => exact hfg _ _ h

theorem mono {R' : α → β → Prop} (h : Alike R x y) (hR : ∀ a b, R a b → R' a b) : Alike R' x y := by
  cases h with
  | error e => exact .error e
  | ok h => exact .ok (hR _ _ h)

/-- Alike to a third result, two results are alike. -/
theorem join {S : γ → β → Prop} {z : Except Failure γ} (h : Alike R x y) (h' : Alike S z y) :
    Alike (fun a c => ∃ b, R a b ∧ S c b) x z := by
  cases h with
  | error e => cases h' with | error => exact .error e
  | ok h => cases h' with | ok h' => exact .ok ⟨_, h, h'⟩

/-- What is related are the results. -/
theorem results (h : Alike R x y) : Alike (fun a b => R a b ∧ x = .ok a ∧ y = .ok b) x y := by
  cases h with
  | error e => exact .error e
  | ok h => exact .ok ⟨h, rfl, rfl⟩

end Alike

/-! ## Two trees -/

namespace Pass

variable {p q : Pass}

/-- Related rows are equally many, so both sides find the same blank end. -/
theorem rowsAll_alike {R : Row → Row → Prop}
    (hstep : ∀ blank st, Alike (List.Forall₂ R) (p.rows blank st) (q.rows blank st)) (blank : Bool) (ss : List Step) :
    Alike (List.Forall₂ R) (p.rowsAll blank ss) (q.rowsAll blank ss) := by
  induction ss generalizing blank with
  | nil => exact .ok .nil
  | cons st ss ih =>
    refine (hstep blank st).bind fun rs qs hrq => ?_
    have hempty : rs.isEmpty = qs.isEmpty := by cases hrq <;> rfl
    rw [hempty]
    exact (ih _).map fun rest rest' hrest => List.rel_append hrq hrest

/-- Two functions under settings that are equally valid are alike as the rows of their trees
    are. -/
theorem alike_functions {R : List Row → List Row → Prop} {S : Rendering → Rendering → Prop} {entry : Address}
    {tree : Tree} (hvalid : q.settings.validate = p.settings.validate)
    (hcomments : q.settings.comments = p.settings.comments)
    (hrows : Alike R (p.rowsAll false (tree.steps p.settings.comments 1))
      (q.rowsAll false (tree.steps p.settings.comments 1)))
    (hS : ∀ rs qs, R rs qs → S (p.rendered entry rs) (q.rendered entry qs)) :
    Alike S (p.function entry tree) (q.function entry tree) := by
  rw [function_eq, function_eq, hvalid, hcomments]
  cases p.settings.validate with
  | error fault => exact .error _
  | ok _ => exact hrows.map hS

end Pass

/-! ## Two renderings -/

theorem Row.map_eq_of_related {R : Row → Row → Prop} {α : Type} {f g : Row → α} (hfg : ∀ r q, R r q → f r = g q)
    {rs qs : List Row} (h : List.Forall₂ R rs qs) : rs.map f = qs.map g := by
  induction h with
  | nil => rfl
  | cons hr _ ih => rw [List.map_cons, List.map_cons, hfg _ _ hr, ih]

namespace Rendering

variable {R : Row → Row → Prop} {rs qs : List Row} (h : List.Forall₂ R rs qs) (color color' : Bool)

include h

theorem index_of_related (htag : ∀ r q, R r q → r.tag = q.tag) : (ofRows rs color).index = (ofRows qs color').index :=
  congrArg LineIndex.ofTags (Row.map_eq_of_related htag h)

theorem lines_of_related {α : Type} {f g : Line → α} (hfg : ∀ r q, R r q → f r.line = g q.line) :
    (ofRows rs color).lines.map f = (ofRows qs color').lines.map g := by
  rw [ofRows, ofRows, List.map_map, List.map_map]
  exact Row.map_eq_of_related hfg h

theorem line_of_related {α : Type} {f g : Line → α} (hfg : ∀ r q, R r q → f r.line = g q.line) (line : Nat) :
    (ofRows rs color).lines[line]?.map f = (ofRows qs color').lines[line]?.map g := by
  rw [← List.getElem?_map, ← List.getElem?_map, lines_of_related h color color' hfg]

end Rendering

end AsmListing
