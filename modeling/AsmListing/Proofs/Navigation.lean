/-
  AsmListing.Proofs.Navigation — finding an address in a rendered function, and the
  address of a line. Rows are tagged by the instructions they belong to and by nothing
  else (`rowsAll_tags`), so the index of a rendering is read off the tree. What a tagged
  row has to show is said row by row (`Scene.Told`).

  Proved, for every scene, printer and tree whose function can be rendered:
  - `function_navigable`: the two directions of the index agree; the tagged lines stand
    between the lines in front and the closing brace; they are exactly the lines with a
    marked end, and in front of that end they tell their address.
  - `index_lists_instructions`: from the first tagged line to the last, the addresses are
    those of the instructions shown, depth first (`Tree.listed`).
-/

import AsmListing.Proofs.Layout

namespace AsmListing

/-! ## Instructions of a tree -/

namespace Tree

mutual

/-- The addresses a tree shows, depth first. A merged instruction is left out of its block;
    with comments it shows, as its jump does, above the `if` it was merged into. -/
def listed (isFused : Address → Bool) (comments : Bool) : Tree → List Address
  | .block instructions => (instructions.map (·.address)).filter fun a => !isFused a
  | .seq parts => listedAll isFused comments parts
  | .cond jump fused body =>
    (if comments then (fused.toList ++ [jump]).map (·.address) else []) ++ listed isFused comments body
  | .unwritable => []

def listedAll (isFused : Address → Bool) (comments : Bool) : List Tree → List Address
  | [] => []
  | t :: rest => listed isFused comments t ++ listedAll isFused comments rest

end

end Tree

def Step.listed (isFused : Address → Bool) : Step → List Address
  | .visit i _ => if isFused i.address then [] else [i.address]
  | .echo i _ => [i.address]
  | _ => []

theorem visits_listed (isFused : Address → Bool) (level : Nat) (is : List Instruction) :
    (is.map (Step.visit · level)).flatMap (Step.listed isFused) = (is.map (·.address)).filter fun a => !isFused a := by
  induction is with
  | nil => rfl
  | cons i is ih =>
    rw [List.map_cons, List.flatMap_cons, ih, List.map_cons, List.filter_cons, Step.listed]
    cases isFused i.address <;> rfl

theorem echoes_listed (isFused : Address → Bool) (level : Nat) (is : List Instruction) :
    (is.map (Step.echo · level)).flatMap (Step.listed isFused) = is.map (·.address) := by
  induction is with
  | nil => rfl
  | cons i is ih => rw [List.map_cons, List.flatMap_cons, ih]; rfl

mutual

theorem steps_listed (isFused : Address → Bool) (comments : Bool) (level : Nat) (t : Tree) :
    (t.steps comments level).flatMap (Step.listed isFused) = t.listed isFused comments := by
  match t with
  | .block instructions => rw [Tree.steps, Tree.listed, visits_listed]
  | .seq parts => rw [Tree.steps, Tree.listed, stepsAll_listed]
  | .cond jump fused body =>
    rw [Tree.steps, Tree.listed, List.flatMap_append, List.flatMap_append, List.flatMap_append,
      steps_listed isFused comments (level + 1) body]
    cases comments with
    | true => rw [if_pos rfl, if_pos rfl, echoes_listed]; simp [Step.listed]
    | false => simp [Step.listed]
  | .unwritable => rfl

theorem stepsAll_listed (isFused : Address → Bool) (comments : Bool) (level : Nat) (ts : List Tree) :
    (Tree.stepsAll comments level ts).flatMap (Step.listed isFused) = Tree.listedAll isFused comments ts := by
  match ts with
  | [] => rfl
  | t :: rest =>
    rw [Tree.stepsAll, Tree.listedAll, List.flatMap_append, steps_listed isFused comments level t,
      stepsAll_listed isFused comments level rest]

end

/-! ## Tags of rows -/

/-- A row that belongs to no instruction, or tells the address of its own. -/
inductive Scene.Told (s : Scene) : Row → Prop
  | bare (ts : List Token) : s.Told (.bare ts)
  | instruction {a : Address} {code : List Token} (h : ∃ t ∈ code, s.Heads a t.text) (beside : List Token) :
      s.Told (.ofInstruction a code beside)

namespace Scene.Told

variable {s : Scene} {r : Row} (h : s.Told r)

include h

/-- The end of an instruction's code lies in its line, and any other end behind it. -/
theorem tag_iff_boundary : r.tag.isSome ↔ r.line.boundary.column ≤ r.line.text.length := by
  rw [Line.length_text]
  cases h with
  | bare ts => rw [Row.bare_boundary]; simp [Row.bare]
  | instruction _ beside =>
    rw [Row.ofInstruction_boundary, Row.ofInstruction_width]
    simp [Row.ofInstruction]

theorem boundary_of_no_tag (htag : r.tag = none) :
    r.line.boundary = ⟨r.line.text.length + 1, r.line.tokens.length⟩ := by
  rw [Line.length_text]
  cases h with
  | bare ts => exact Row.bare_boundary ts
  | instruction _ beside => cases htag

theorem heads_of_tag {a : Address} (htag : r.tag = some a) :
    ∃ t ∈ r.line.tokens.take r.line.boundary.tokens, s.Heads a t.text := by
  cases h with
  | bare ts => cases htag
  | @instruction _ code hh beside =>
    cases htag
    obtain ⟨t, ht, hh⟩ := hh
    refine ⟨t, ?_, hh⟩
    show t ∈ (code ++ beside).take code.length
    rw [List.take_left]
    exact ht

end Scene.Told

theorem bare_tags (lines : List (List Token)) : (lines.map Row.bare).filterMap Row.tag = [] := by
  induction lines with
  | nil => rfl
  | cons ts lines ih => exact ih

theorem labelRows_tags (s : Scene) (a : Address) (level : Nat) (colon : Bool) :
    (s.labelRows a level colon).filterMap Row.tag = [] := by
  unfold Scene.labelRows
  split
  · split <;> rfl
  · rfl

namespace Pass

variable (p : Pass)

theorem codeRows_tags {beside : Instruction → List Token} {st : Step} {rs : List Row}
    (h : p.codeRows beside st = .ok rs) :
    rs.filterMap Row.tag = st.listed p.context.isFused := by
  cases st with
  | visit i level =>
    simp only [codeRows] at h
    rw [Step.listed]
    split at h
    · rename_i hf; cases h; rw [if_pos hf]; rfl
    · rename_i hf
      rw [if_neg hf]
      unfold ownRows at h
      split at h
      · cases h
        rw [List.filterMap_append]
        unfold ownLabelRows
        split
        · rw [labelRows_tags]; rfl
        · rfl
      · cases h
  | echo i level =>
    cases h
    rw [Scene.echoRows, List.filterMap_append, labelRows_tags]; rfl
  | openCond jump fused level =>
    simp only [codeRows] at h
    split at h
    · cases h; rfl
    · cases h
  | closeCond level => cases h; rfl
  | unwritable => cases h

theorem rowsAll_tags {blank : Bool} {ss : List Step} {rs : List Row} (h : p.rowsAll blank ss = .ok rs) :
    rs.filterMap Row.tag = ss.flatMap (Step.listed p.context.isFused) := by
  induction ss generalizing blank rs with
  | nil => cases h; rfl
  | cons st ss ih =>
    obtain ⟨code, rest, hcode, hrest, rfl⟩ := p.rowsAll_cons h
    rw [List.filterMap_append, List.filterMap_append, bare_tags, p.codeRows_tags hcode, ih hrest, List.flatMap_cons]
    rfl

theorem rowsAll_told {blank : Bool} {ss : List Step} {rs : List Row} (h : p.rowsAll blank ss = .ok rs) :
    ∀ r ∈ rs, p.Told r := by
  intro r hr
  rcases p.mem_rowsAll h r hr with ⟨_, _, ts, _, rfl⟩ | hshown
  · exact .bare ts
  · cases hshown with
    | bare _ => exact .bare _
    | instruction hh beside => exact .instruction hh beside

/-- So it is with every line of a function. -/
theorem function_told (entry : Address) {ss : List Step} {rs : List Row} (h : p.rowsAll false ss = .ok rs) :
    ∀ r ∈ (p.frontLines entry).map Row.bare ++ rs ++ [.bare closingLine], p.Told r := by
  intro r hr
  rcases List.mem_append.mp hr with hr | hr
  · rcases List.mem_append.mp hr with hr | hr
    · obtain ⟨ts, _, rfl⟩ := List.mem_map.mp hr
      exact .bare ts
    · exact p.rowsAll_told h r hr
  · rw [List.mem_singleton.mp hr]
    exact .bare closingLine

end Pass

/-- Only rows between bare lines can be tagged. -/
theorem tagged_between {front : List (List Token)} {rs : List Row} {closing : List Token} {line : Nat} {r : Row}
    {a : Address} (hr : (front.map Row.bare ++ rs ++ [.bare closing])[line]? = some r) (ha : r.tag = some a) :
    front.length ≤ line ∧ line < front.length + rs.length := by
  have hbare : ∀ ts, r ≠ .bare ts := by rintro ts rfl; cases ha
  constructor
  · by_contra hlt
    rw [List.append_assoc, List.getElem?_append_left (by rw [List.length_map]; omega), List.getElem?_map,
      Option.map_eq_some_iff] at hr
    obtain ⟨ts, _, rfl⟩ := hr
    exact hbare ts rfl
  · by_contra hge
    rw [List.getElem?_append_right (by rw [List.length_append, List.length_map]; omega)] at hr
    exact hbare closing (List.mem_singleton.mp (List.mem_of_getElem? hr))

/-! ## The index of a function -/

/-- The lines of a rendered function can be navigated by address, both ways. -/
theorem function_navigable {p : Pass} {entry : Address} {tree : Tree} {r : Rendering}
    (h : p.function entry tree = .ok r) :
    (∀ line a, r.lineOf a = some line ↔
      r.addressOf line = some a ∧ ∀ m, r.addressOf m = some a → line ≤ m) ∧
    (∃ body, r.lines.map Line.tokens =
        p.header entry :: p.context.locals.map p.localLine ++ body ++ [[.plain "\x7d"]] ∧
      ∀ line a, r.addressOf line = some a → p.context.locals.length < line ∧ line + 1 < r.lines.length) ∧
    (∀ line l b, r.lines[line]? = some l → r.boundary? line = some b →
      ((r.addressOf line).isSome ↔ b.column ≤ l.text.length) ∧
        (r.addressOf line = none → b = ⟨l.text.length + 1, l.tokens.length⟩)) ∧
    ∀ line a, r.addressOf line = some a → ∃ l b t, r.lines[line]? = some l ∧ r.boundary? line = some b ∧
      t ∈ l.tokens.take b.tokens ∧ p.Heads a t.text := by
  obtain ⟨rs, hrs, rfl⟩ := p.ok_of_function h
  have htold := p.function_told entry hrs
  unfold Pass.rendered
  refine ⟨fun line a => LineIndex.firstLineOf_least _ a line, ⟨rs.map (·.line.tokens), ?_, ?_⟩, ?_, ?_⟩
  · simp [Rendering.ofRows, Pass.frontLines, Pass.closingLine, Row.bare, Function.comp_def]
  · intro line a ha
    obtain ⟨row, hrow, htag⟩ := (Rendering.addressOf_ofRows _ _ _ _).mp ha
    obtain ⟨hfront, hclosing⟩ := tagged_between hrow htag
    simp only [Rendering.ofRows, Pass.frontLines, List.length_map, List.length_append, List.length_cons,
      List.length_nil] at hfront hclosing ⊢
    omega
  · intro line l b hl hb
    rw [Rendering.boundary?, hl] at hb
    cases hb
    rw [Rendering.lines_ofRows, Option.map_eq_some_iff] at hl
    obtain ⟨row, hrow, rfl⟩ := hl
    have hrowTold := htold row (List.mem_of_getElem? hrow)
    rw [Rendering.addressOf_of_row hrow]
    exact ⟨hrowTold.tag_iff_boundary, hrowTold.boundary_of_no_tag⟩
  · intro line a ha
    obtain ⟨row, hrow, htag⟩ := (Rendering.addressOf_ofRows _ _ _ _).mp ha
    have hline := (Rendering.lines_ofRows _ p.settings.color line).trans (congrArg _ hrow)
    obtain ⟨t, ht, hh⟩ := (htold row (List.mem_of_getElem? hrow)).heads_of_tag htag
    exact ⟨_, _, t, hline, congrArg (Option.map Line.boundary) hline, ht, hh⟩

theorem merged_pair_navigable :
    ∃ r, mergedPass.function ⟨0x1000⟩ mergedTree = .ok r ∧ r.lineOf ⟨0x1000⟩ = some 6 ∧
      ∀ m, r.addressOf m = some ⟨0x1000⟩ → 6 ≤ m := by
  obtain ⟨r, h, hline⟩ : ∃ r, mergedPass.function ⟨0x1000⟩ mergedTree = .ok r ∧ r.lineOf ⟨0x1000⟩ = some 6 :=
    ⟨_, rfl, rfl⟩
  exact ⟨r, h, hline, (((function_navigable h).1 6 ⟨0x1000⟩).mp hline).2⟩

/-- The tagged lines, from the first on, are those of the instructions that the tree shows. -/
theorem index_lists_instructions {p : Pass} {entry : Address} {tree : Tree} {r : Rendering}
    (h : p.function entry tree = .ok r) :
    r.index.lines.map (·.2) = tree.listed p.context.isFused p.settings.comments ∧
      (r.index.lines.Pairwise fun x y => x.1 < y.1) ∧
      ∀ line a, (line, a) ∈ r.index.lines ↔ r.addressOf line = some a := by
  obtain ⟨rs, hrs, rfl⟩ := p.ok_of_function h
  unfold Pass.rendered
  refine ⟨?_, LineIndex.lines_sorted _, fun line a => ?_⟩
  · calc (LineIndex.ofTags _).lines.map (·.2)
        = (((p.frontLines entry).map Row.bare ++ rs ++ [Row.bare Pass.closingLine]).map Row.tag).filterMap id :=
          LineIndex.addresses_ofTags _
      _ = rs.filterMap Row.tag := by
          rw [List.filterMap_map, Function.id_comp, List.filterMap_append, List.filterMap_append, bare_tags,
            List.nil_append]
          exact List.append_nil _
      _ = tree.listed p.context.isFused p.settings.comments := by
          rw [p.rowsAll_tags hrs, steps_listed]
  · exact LineIndex.mem_lines_ofTags _ line a

theorem merged_pair_listed :
    ∃ r, mergedPass.function ⟨0x1000⟩ mergedTree = .ok r ∧
      r.index.lines.map (·.2) = [⟨0x1000⟩, ⟨0x1002⟩, ⟨0x1004⟩] := by
  obtain ⟨r, h⟩ : ∃ r, mergedPass.function ⟨0x1000⟩ mergedTree = .ok r := ⟨_, rfl⟩
  exact ⟨r, h, (index_lists_instructions h).1⟩

end AsmListing
