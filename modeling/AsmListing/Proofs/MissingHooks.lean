/-
  AsmListing.Proofs.MissingHooks — why a function is not listed. Settings that cannot be used
  are refused first. After that only a hook can be missing, and the one reported is the
  first that the tree calls for and nobody supplied (`Tree.hooks`, depth first): an
  instruction with a line of its own calls for its text, an `if` for its condition before
  its body is reached, and a part that cannot be written calls in vain. Merged
  instructions and echoes call for nothing. On a machine, blanks that are too long for a
  text and come before that hook leave no result at all.

  Proved, for every scene, printer and tree:
  - `steps_hooks` / `needs_hooks`: the steps of a tree call for the hooks of the tree, and
    so do the needs of its function.
  - `rowsAll_outcome` / `function_outcome`: the first missing hook is the failure, and
    without one there is none.
  - `front_and_tree_taken`: whatever is written until then, an open buffer takes.
  - `failure_reported`: what this says of the two printers at hand.
-/

import AsmListing.Proofs.AppendOnly
import AsmListing.Proofs.Frame

namespace AsmListing

open Listing

/-! ## Hooks called for -/

namespace Tree

mutual

/-- The hooks a tree calls for, depth first. -/
def hooks (isFused : Address → Bool) : Tree → List Hook
  | .block instructions => (instructions.filter fun i => !isFused i.address).map fun _ => .instruction
  | .seq parts => hooksAll isFused parts
  | .cond _ _ body => .condition :: hooks isFused body
  | .unwritable => [.dump]

def hooksAll (isFused : Address → Bool) : List Tree → List Hook
  | [] => []
  | t :: rest => hooks isFused t ++ hooksAll isFused rest

end

mutual

/-- No part of the tree is unwritable. -/
def isWritable : Tree → Bool
  | .block _ => true
  | .seq parts => areWritable parts
  | .cond _ _ body => isWritable body
  | .unwritable => false

def areWritable : List Tree → Bool
  | [] => true
  | t :: rest => isWritable t && areWritable rest

end

mutual

theorem dump_mem_hooks (isFused : Address → Bool) (t : Tree) : .dump ∈ t.hooks isFused ↔ t.isWritable = false := by
  match t with
  | .block instructions => simp [hooks, isWritable]
  | .seq parts => rw [hooks, isWritable, dump_mem_hooksAll isFused parts]
  | .cond jump fused body => simp [hooks, isWritable, dump_mem_hooks isFused body]
  | .unwritable => simp [hooks, isWritable]

theorem dump_mem_hooksAll (isFused : Address → Bool) (ts : List Tree) :
    .dump ∈ hooksAll isFused ts ↔ areWritable ts = false := by
  match ts with
  | [] => simp [hooksAll, areWritable]
  | t :: rest =>
    rw [hooksAll, areWritable, List.mem_append, dump_mem_hooks isFused t, dump_mem_hooksAll isFused rest,
      Bool.and_eq_false_iff]

end

end Tree

def Step.hook? (isFused : Address → Bool) : Step → Option Hook
  | .visit i _ => if isFused i.address then none else some .instruction
  | .openCond _ _ _ => some .condition
  | .unwritable => some .dump
  | .echo _ _ | .closeCond _ => none

theorem visits_hooks (isFused : Address → Bool) (level : Nat) (is : List Instruction) :
    (is.map (Step.visit · level)).filterMap (Step.hook? isFused) =
      (is.filter fun i => !isFused i.address).map fun _ => .instruction := by
  induction is with
  | nil => rfl
  | cons i is ih =>
    rw [List.map_cons, List.filterMap_cons, ih, List.filter_cons, Step.hook?]
    cases isFused i.address <;> rfl

theorem echoes_hooks (isFused : Address → Bool) (level : Nat) (is : List Instruction) :
    (is.map (Step.echo · level)).filterMap (Step.hook? isFused) = [] := by
  induction is with
  | nil => rfl
  | cons i is ih => exact ih

mutual

theorem steps_hooks (isFused : Address → Bool) (comments : Bool) (level : Nat) (t : Tree) :
    (t.steps comments level).filterMap (Step.hook? isFused) = t.hooks isFused := by
  match t with
  | .block instructions => rw [Tree.steps, Tree.hooks, visits_hooks]
  | .seq parts => rw [Tree.steps, Tree.hooks, stepsAll_hooks]
  | .cond jump fused body =>
    rw [Tree.steps, Tree.hooks, List.filterMap_append, List.filterMap_append, List.filterMap_append,
      steps_hooks isFused comments (level + 1) body]
    cases comments with
    | true => rw [if_pos rfl, echoes_hooks]; simp [Step.hook?]
    | false => simp [Step.hook?]
  | .unwritable => rfl

theorem stepsAll_hooks (isFused : Address → Bool) (comments : Bool) (level : Nat) (ts : List Tree) :
    (Tree.stepsAll comments level ts).filterMap (Step.hook? isFused) = Tree.hooksAll isFused ts := by
  match ts with
  | [] => rfl
  | t :: rest =>
    rw [Tree.stepsAll, Tree.hooksAll, List.filterMap_append, steps_hooks isFused comments level t,
      stepsAll_hooks isFused comments level rest]

end

def Need.hook? : Need → Option Hook
  | .hook h => some h
  | .blanks _ | .bits _ => none

theorem stepNeeds_hooks (p : Pass) (st : Step) :
    (p.stepNeeds st).filterMap Need.hook? = (st.hook? p.context.isFused).toList := by
  cases st with
  | visit i level =>
    rw [Pass.stepNeeds, Step.hook?]
    split
    · split <;> rfl
    · rfl
  | echo i level => rfl
  | openCond jump fused level => rfl
  | closeCond level => rfl
  | unwritable => rfl

theorem needs_hooks (p : Pass) (tree : Tree) :
    (p.needs tree).filterMap Need.hook? = tree.hooks p.context.isFused := by
  have hlocals : (p.context.locals.flatMap fun v => [Need.blanks 1, .bits v.size]).filterMap Need.hook? = [] := by
    simp [List.filterMap_flatMap, Need.hook?]
  rw [Pass.needs, List.filterMap_append, hlocals, List.nil_append, List.filterMap_flatMap,
    ← steps_hooks p.context.isFused p.settings.comments 1, List.filterMap_eq_flatMap_toList]
  exact congrArg (List.flatMap · _) (funext (stepNeeds_hooks p))

/-! ## The failure -/

namespace Pass

/-- The result of work that calls for these hooks in order: it fails for the first that is
    missing, and succeeds if none is. -/
inductive CallsFor (p : Pass) {α : Type} : List Hook → Except Failure α → Prop
  | supplied {hooks : List Hook} (h : ∀ hook ∈ hooks, p.operands.supplies hook = true) (a : α) :
      CallsFor p hooks (.ok a)
  | missing {before after : List Hook} {hook : Hook} (h : ∀ b ∈ before, p.operands.supplies b = true)
      (hmissing : p.operands.supplies hook = false) : CallsFor p (before ++ hook :: after) (.error (.missing hook))

namespace CallsFor

variable {p : Pass} {α β : Type} {e : Except Failure α} {hooks more : List Hook}

theorem nothing (a : α) : p.CallsFor [] (.ok a) := .supplied (fun _ h => absurd h List.not_mem_nil) a

theorem one {hook : Hook} (h : p.operands.supplies hook = true) (a : α) : p.CallsFor [hook] (.ok a) :=
  .supplied (List.forall_mem_singleton.mpr h) a

theorem unsupplied {hook : Hook} (h : p.operands.supplies hook = false) :
    p.CallsFor [hook] (.error (.missing hook) : Except Failure α) :=
  @missing p α [] [] hook (fun _ h => absurd h List.not_mem_nil) h

theorem map (h : p.CallsFor hooks e) (f : α → β) : p.CallsFor hooks (e.map f) := by
  cases h with
  | supplied h a => exact .supplied h (f a)
  | missing h hmissing => exact .missing h hmissing

/-- Later calls count only if none failed before. -/
theorem bind (h : p.CallsFor hooks e) {f : α → Except Failure β} (hf : ∀ a, p.CallsFor more (f a)) :
    p.CallsFor (hooks ++ more) (e.bind f) := by
  cases h with
  | missing h hmissing =>
    rw [List.append_assoc, List.cons_append]
    exact .missing h hmissing
  | supplied h a =>
    have hfa := hf a
    show p.CallsFor (hooks ++ more) (f a)
    generalize f a = e at hfa
    cases hfa with
    | supplied hmore b => exact .supplied (List.forall_mem_append.mpr ⟨h, hmore⟩) b
    | missing hmore hmissing =>
      rw [← List.append_assoc]
      exact .missing (List.forall_mem_append.mpr ⟨h, hmore⟩) hmissing

theorem missing_of_error (h : p.CallsFor hooks e) {failure : Failure} (he : e = .error failure) :
    ∃ hook, failure = .missing hook := by
  cases h with
  | supplied _ _ => cases he
  | missing _ _ => cases he; exact ⟨_, rfl⟩

/-- All but the writing of an unwritable part is supplied. -/
theorem of_generic (h : p.CallsFor hooks e) (hgeneric : p.operands = .generic) :
    (.dump ∈ hooks → e = .error (.missing .dump)) ∧ (.dump ∉ hooks → ∃ a, e = .ok a) := by
  have hsupplies : ∀ hook, p.operands.supplies hook = true ↔ hook ≠ .dump := by
    rw [hgeneric]
    intro hook
    cases hook <;> decide
  cases h with
  | supplied h a => exact ⟨fun hdump => absurd rfl ((hsupplies .dump).mp (h .dump hdump)), fun _ => ⟨a, rfl⟩⟩
  | @missing before after hook h hmissing =>
    have hdump : hook = .dump := by
      by_contra hne
      rw [(hsupplies hook).mpr hne] at hmissing
      cases hmissing
    subst hdump
    exact ⟨fun _ => rfl, fun hnone => absurd (List.mem_append_right _ List.mem_cons_self) hnone⟩

/-- Nothing is supplied, so the first call fails. -/
theorem of_bare (h : p.CallsFor hooks e) (hbare : p.operands = .bare) :
    match hooks.head? with
    | none => ∃ a, e = .ok a
    | some hook => e = .error (.missing hook) := by
  have hsupplies : ∀ hook, p.operands.supplies hook ≠ true := by
    rw [hbare]
    intro hook
    cases hook <;> decide
  cases h with
  | supplied h a =>
    cases hooks with
    | nil => exact ⟨a, rfl⟩
    | cons hook rest => exact absurd (h hook List.mem_cons_self) (hsupplies hook)
  | @missing before after hook h hmissing =>
    cases before with
    | nil => rfl
    | cons b before => exact absurd (h b List.mem_cons_self) (hsupplies b)

end CallsFor

variable (p : Pass)

theorem codeRows_outcome (beside : Instruction → List Token) (st : Step) :
    p.CallsFor (st.hook? p.context.isFused).toList (p.codeRows beside st) := by
  cases st with
  | visit i level =>
    rw [codeRows, Step.hook?]
    split
    · exact .nothing _
    · rw [ownRows]
      cases hf : p.operands.instruction? with
      | some f =>
        have hsupplied : p.operands.supplies .instruction = true := congrArg Option.isSome hf
        exact .one hsupplied _
      | none =>
        have hmissing : p.operands.supplies .instruction = false := congrArg Option.isSome hf
        exact .unsupplied hmissing
  | echo i level => exact .nothing _
  | openCond jump fused level =>
    rw [codeRows]
    cases hf : p.operands.condition? with
    | some f =>
      have hsupplied : p.operands.supplies .condition = true := congrArg Option.isSome hf
      exact .one hsupplied _
    | none =>
      have hmissing : p.operands.supplies .condition = false := congrArg Option.isSome hf
      exact .unsupplied hmissing
  | closeCond level => exact .nothing _
  | unwritable => exact .unsupplied rfl

theorem rowsAll_outcome (blank : Bool) (ss : List Step) :
    p.CallsFor (ss.filterMap (Step.hook? p.context.isFused)) (p.rowsAll blank ss) := by
  induction ss generalizing blank with
  | nil => exact .nothing _
  | cons st ss ih =>
    have hst : p.CallsFor (st.hook? p.context.isFused).toList (p.rows blank st) := (p.codeRows_outcome _ st).map _
    have hcons : (st :: ss).filterMap (Step.hook? p.context.isFused) =
        (st.hook? p.context.isFused).toList ++ ss.filterMap (Step.hook? p.context.isFused) := by
      rw [List.filterMap_cons]
      cases st.hook? p.context.isFused <;> rfl
    rw [hcons]
    exact hst.bind fun rs => (ih _).map _

/-- A function is refused for its settings, or comes out as the hooks of its tree do. -/
theorem function_outcome (entry : Address) (tree : Tree) :
    (∃ fault, p.settings.validate = .error fault ∧ p.function entry tree = .error (.settings fault)) ∨
      p.settings.validate = .ok () ∧ p.CallsFor (tree.hooks p.context.isFused) (p.function entry tree) := by
  rw [function_eq]
  cases p.settings.validate with
  | error fault => exact Or.inl ⟨fault, rfl, rfl⟩
  | ok _ =>
    have hrows := p.rowsAll_outcome false (tree.steps p.settings.comments 1)
    rw [steps_hooks] at hrows
    exact Or.inr ⟨rfl, hrows.map _⟩

/-- Up to the brace, an open buffer takes whatever is written, failed tree or not. -/
theorem front_and_tree_taken (entry : Address) (tree : Tree) :
    ∃ es, Buffer.Takes es {} ((p.write 1 tree (p.front entry)).listing.put closingLine).page := by
  have hT : ∀ c, Text.Printed c → Text.Anything c := fun _ _ => trivial
  have htitle : Grows (Token.Within Text.Anything) {} ((Listing.newLine {}).putLine (p.header entry)) :=
    (Grows.newLine .refl).putLine fun t _ => t.within_anything
  have hfront : Grows (Token.Within Text.Anything) {} (p.front entry) :=
    Scene.writeLocals_grows hT p.toScene.within_anything htitle
  have htree := write_grows hT p.toScene.within_anything p.operands.within_anything hfront 1 tree tree.within_anything
  exact (htree.put fun t _ => t.within_anything).edits

/-- What the two printers at hand make of a tree, where its function is listed. -/
theorem function_of_usable {p : Pass} (hvalid : p.settings.validate = .ok ()) (entry : Address) (tree : Tree) :
    (p.operands = .generic →
      if tree.isWritable then ∃ r, p.function entry tree = .ok r
      else p.function entry tree = .error (.missing .dump)) ∧
    (p.operands = .bare →
      match (tree.hooks p.context.isFused).head? with
      | none => ∃ r, p.function entry tree = .ok r
      | some hook => p.function entry tree = .error (.missing hook)) := by
  rcases p.function_outcome entry tree with ⟨fault, hfault, -⟩ | ⟨-, hcalls⟩
  · rw [hvalid] at hfault
    cases hfault
  · refine ⟨fun hgeneric => ?_, hcalls.of_bare⟩
    obtain ⟨hfails, hsucceeds⟩ := hcalls.of_generic hgeneric
    rw [Tree.dump_mem_hooks] at hfails hsucceeds
    split
    · rename_i hwritable
      exact hsucceeds (by rw [hwritable]; decide)
    · rename_i hunwritable
      exact hfails (Bool.eq_false_iff.mpr hunwritable)

theorem function_refused_iff (p : Pass) (entry : Address) (tree : Tree) :
    (∃ fault, p.function entry tree = .error (.settings fault)) ↔ ∃ fault, p.settings.validate = .error fault := by
  rcases p.function_outcome entry tree with ⟨fault, hvalidate, hrefused⟩ | ⟨hvalidate, hcalls⟩
  · exact iff_of_true ⟨fault, hrefused⟩ ⟨fault, hvalidate⟩
  · refine iff_of_false ?_ ?_
    · rintro ⟨fault, h⟩
      obtain ⟨hook, h⟩ := hcalls.missing_of_error h
      cases h
    · rintro ⟨fault, h⟩
      rw [hvalidate] at h
      cases h

theorem function_ne_buffer (p : Pass) (entry : Address) (tree : Tree) (fault : Buffer.Fault) :
    p.function entry tree ≠ .error (.buffer fault) := by
  intro h
  rcases p.function_outcome entry tree with ⟨_, -, hrefused⟩ | ⟨-, hcalls⟩
  · rw [hrefused] at h
    cases h
  · obtain ⟨hook, h⟩ := hcalls.missing_of_error h
    cases h

theorem render_refused_iff (m : Arithmetic) (p : Pass) (entry : Address) (tree : Tree) :
    (∃ fault, p.render m entry tree = .ok (.error (.settings fault))) ↔ ∃ fault, p.settings.validate = .error fault := by
  refine ⟨fun ⟨fault, h⟩ => ?_, fun ⟨fault, h⟩ => ⟨fault, by rw [render, h]⟩⟩
  exact (p.function_refused_iff entry tree).mp ⟨fault, function_of_render h⟩

end Pass

/-- Unusable settings are reported whatever the tree. Under usable ones a pass is stopped by
    blanks that are too long for a text, if it comes to them, and by nothing else. Without
    them the generic printer fails for a part that cannot be written and for nothing else,
    and a printer without hooks for the first thing that calls for one. A buffer is never at
    fault: it is open and takes all that is written, until it is closed once. -/
theorem failure_reported (m : Arithmetic) (p : Pass) (entry : Address) (tree : Tree) :
    ((∃ fault, p.render m entry tree = .ok (.error (.settings fault))) ↔
      p.settings.maxDataSize = 0 ∨ p.settings.indentWidth = 0) ∧
    (p.settings.maxDataSize ≠ 0 → p.settings.indentWidth ≠ 0 → p.SizesFit m →
      if p.Overlong tree then p.render m entry tree = .error .capacity
      else
        (p.operands = .generic →
          if tree.isWritable then ∃ r, p.render m entry tree = .ok (.ok r)
          else p.render m entry tree = .ok (.error (.missing .dump))) ∧
        (p.operands = .bare →
          match (tree.hooks p.context.isFused).head? with
          | none => ∃ r, p.render m entry tree = .ok (.ok r)
          | some hook => p.render m entry tree = .ok (.error (.missing hook))) ∧
        ∀ panic, p.render m entry tree ≠ .error panic) ∧
    (∀ fault, p.render m entry tree ≠ .ok (.error (.buffer fault))) ∧
    ∃ es, Buffer.Takes es {} ((p.write 1 tree (p.front entry)).listing.put Pass.closingLine).page := by
  refine ⟨(Pass.render_refused_iff m p entry tree).trans p.settings.validate_error_iff, fun hsize hwidth hsizes => ?_,
    fun fault h => p.function_ne_buffer entry tree fault (Pass.function_of_render h), p.front_and_tree_taken _ _⟩
  have hvalid : p.settings.validate = .ok () := by
    cases hvalidate : p.settings.validate with
    | ok _ => rfl
    | error fault => exact absurd (p.settings.validate_error_iff.mp ⟨fault, hvalidate⟩) (not_or.mpr ⟨hsize, hwidth⟩)
  have hrender := Pass.render_of_usable hvalid hsizes entry tree
  split
  · rename_i htoo
    rw [hrender, if_pos htoo]
  · rename_i hmade
    rw [if_neg hmade] at hrender
    simp only [hrender, Except.ok.injEq]
    obtain ⟨hgeneric, hbare⟩ := Pass.function_of_usable hvalid entry tree
    exact ⟨hgeneric, hbare, nofun⟩

/-- Echoes of the pair come first and cannot fail; its condition is the first to call for a
    hook. With all of them supplied, a part behind it that cannot be written still fails. -/
theorem merged_pair_lacks_condition :
    let bare := { mergedPass with operands := .bare }
    let broken := Tree.seq [mergedTree, .unwritable]
    mergedTree.hooks bare.context.isFused = [.condition, .instruction] ∧ ¬ bare.Overlong mergedTree ∧
      bare.render .checked ⟨0x1000⟩ mergedTree = .ok (.error (.missing .condition)) ∧
      broken.isWritable = false ∧ ¬ mergedPass.Overlong broken ∧
      mergedPass.render .wrapping ⟨0x1000⟩ broken = .ok (.error (.missing .dump)) := by
  intro bare broken
  have hshort : ¬ bare.Overlong mergedTree := by decide
  have hbroken : ¬ mergedPass.Overlong broken := by decide
  have hbare := (failure_reported .checked bare ⟨0x1000⟩ mergedTree).2.1 (by decide) (by decide) (fun _ _ h => by cases h)
  have hgeneric := (failure_reported .wrapping mergedPass ⟨0x1000⟩ broken).2.1 (by decide) (by decide) nofun
  rw [if_neg hshort] at hbare
  rw [if_neg hbroken] at hgeneric
  exact ⟨rfl, hshort, hbare.2.1 rfl, rfl, hbroken, hgeneric.1 rfl⟩

/-- The merged pair, indented by 2^63 blanks for each level. -/
def widePass : Pass :=
  { mergedPass with
    context := { mergedPass.context with settings := { indentWidth := 0x8000000000000000 } } }

/-- No text holds that many, so it never comes to what cannot be written, or to the end. -/
theorem wide_blanks_stop_all :
    let broken := Tree.seq [mergedTree, .unwritable]
    widePass.settings.validate = .ok () ∧ widePass.operands = .generic ∧ broken.isWritable = false ∧
      widePass.render .checked ⟨0x1000⟩ broken = .error .capacity ∧
      widePass.render .wrapping ⟨0x1000⟩ broken = .error .capacity ∧
      mergedTree.isWritable = true ∧ widePass.render .wrapping ⟨0x1000⟩ mergedTree = .error .capacity :=
  ⟨rfl, rfl, rfl, rfl, rfl, rfl, rfl⟩

end AsmListing
