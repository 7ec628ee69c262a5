/-
  AsmListing.Proofs.Layout — the rows each step of a tree writes, told without a listing:
  the comments above an instruction, the line of its label where labels have lines of
  their own, and the line of the instruction. The only thing a step asks of what was
  written before is whether it ends blank, and it asks for the comments above alone.

  Proved, for every listing with a fresh current line:
  - `perform_writes` / `performAll_writes`: steps write their rows and nothing else, or
    fail as their rows do.
  - `mem_rowsAll`: a row of a tree is a line above a step or shows some text, an
    instruction's row its address.
  - `function_eq`: the rendering of a function is that of its header, its local
    variables, the rows of its tree and the closing brace.
-/

import AsmListing.Proofs.Rows
import AsmListing.Proofs.Steps

namespace AsmListing

open Listing

theorem append_ne_empty {a b : String} (h : a ≠ "") : a ++ b ≠ "" := by
  intro e
  exact h (String.append_eq_empty_iff.mp e).1

namespace Scene

variable (s : Scene)

/-! ## Comments above -/

/-- The lines of one author's comments, where `blank` tells that the listing ends blank. -/
def groupLines (blank : Bool) (level : Nat) (style : Style) (texts : List String) : List (List Token) :=
  if texts.isEmpty then []
  else (if s.context.isDump && !blank then [[]] else []) ++ texts.map (s.commentLine level style)

def aboveLines (blank : Bool) (i : Instruction) (level : Nat) : List (List Token) :=
  let internal := s.analysis.internalAbove i.address
  s.groupLines blank level .internalComment internal ++
    s.groupLines (blank && internal.isEmpty) level .userComment (s.analysis.userAbove i.address)

theorem commentLine_visible (level : Nat) (style : Style) (text : String) :
    (Row.bare (s.commentLine level style text)).Visible :=
  ⟨s.styled style ("; " ++ text), by simp [Row.bare, commentLine], append_ne_empty (by decide)⟩

theorem groupLines_isEmpty (blank : Bool) (level : Nat) (style : Style) (texts : List String) :
    (s.groupLines blank level style texts).isEmpty = texts.isEmpty := by
  cases texts with
  | nil => rfl
  | cons text texts => simp [groupLines]

/-- Comments end with a comment, never with the line that sets them off. -/
theorem groupLines_spaced (blank : Bool) (level : Nat) (style : Style) (texts : List String) :
    Row.Spaced ((s.groupLines blank level style texts).map .bare) := by
  have hvisible : ∀ r ∈ (texts.map (s.commentLine level style)).map Row.bare, r.Visible := by
    intro r hr
    rw [List.map_map] at hr
    obtain ⟨text, _, rfl⟩ := List.mem_map.mp hr
    exact s.commentLine_visible level style text
  unfold groupLines
  split
  · exact .nil
  · rename_i hne
    rw [List.map_append]
    split
    · show Row.Spaced (.bare [] :: (texts.map (s.commentLine level style)).map Row.bare)
      refine .cons_of_visible _ ?_ hvisible
      intro e
      rw [List.map_eq_nil_iff, List.map_eq_nil_iff] at e
      exact hne (List.isEmpty_iff.mpr e)
    · exact .of_visible hvisible

theorem aboveLines_spaced (blank : Bool) (i : Instruction) (level : Nat) :
    Row.Spaced ((s.aboveLines blank i level).map .bare) := by
  rw [aboveLines, List.map_append]
  exact (s.groupLines_spaced _ _ _ _).append (s.groupLines_spaced _ _ _ _)

theorem commentLine_ne_nil (level : Nat) (style : Style) (text : String) : s.commentLine level style text ≠ [] := by
  simp [commentLine]

theorem commentGroup_eq_putLines (l : Listing) (level : Nat) (style : Style) (texts : List String) :
    s.commentGroup level style texts l = l.putLines (s.groupLines l.page.endsBlank level style texts) := by
  unfold commentGroup groupLines putLines
  split
  · rfl
  · rw [List.foldl_append, List.foldl_map]
    split <;> rfl

theorem endsBlank_commentGroup (l : Listing) (level : Nat) (style : Style) (texts : List String) :
    (s.commentGroup level style texts l).page.endsBlank = (l.page.endsBlank && texts.isEmpty) := by
  unfold commentGroup
  split
  case isTrue hempty => rw [hempty, Bool.and_true]
  case isFalse hsome =>
    rw [← List.foldl_map]
    exact (endsBlank_putLines (s.commentLine_ne_nil level style) _ texts).trans (by simp [hsome])

/-- Comments above are lines of their own, whatever they are put behind. -/
theorem commentsAbove_eq_putLines (i : Instruction) (level : Nat) (l : Listing) :
    s.commentsAbove i level l = l.putLines (s.aboveLines l.page.endsBlank i level) := by
  rw [commentsAbove, commentGroup_eq_putLines, endsBlank_commentGroup, commentGroup_eq_putLines, aboveLines]
  exact List.foldl_append.symm

theorem commentsAbove_eq {l : Listing} (h : l.Fresh) (i : Instruction) (level : Nat) :
    s.commentsAbove i level l = l.addRows ((s.aboveLines l.page.endsBlank i level).map .bare) := by
  rw [commentsAbove_eq_putLines, putLines_bare h]

/-! ## The line of an instruction -/

/-- The line of a label that stands above its instruction. -/
def labelRows (a : Address) (level : Nat) (colon : Bool) : List Row :=
  match s.headingLabel a colon with
  | some label => if s.settings.labelOwnLine then [.bare (s.indent level ++ label)] else []
  | none => []

/-- The start of an instruction's own line. -/
def lineStart (a : Address) (level : Nat) (sec : Option Section) (colon echoed : Bool) : List Token :=
  s.indent level ++ s.echoMark echoed ++
    match s.headingLabel a colon with
    | some label =>
      if s.settings.labelOwnLine then s.address a sec colon true
      else label ++ if colon then [.plain " "] else []
    | none => s.address a sec colon false

theorem heading_eq {l : Listing} (h : l.Fresh) (a : Address) (level : Nat) (sec : Option Section)
    (colon echoed : Bool) :
    s.heading a level sec colon echoed l =
      (l.addRows (s.labelRows a level colon)).put (s.lineStart a level sec colon echoed) := by
  unfold heading labelRows lineStart
  cases s.headingLabel a colon with
  | none => rfl
  | some label =>
    by_cases own : s.settings.labelOwnLine = true
    · simp only [own, if_true, putLine_bare h]; rfl
    · simp only [own, Bool.false_eq_true, if_false, List.append_assoc, addRows_nil]

/-- What tells the address of an instruction at the start of its line. -/
def Heads (a : Address) (text : String) : Prop :=
  (∃ label, s.label? a = some label ∧ text = label.text ++ ":") ∨ text = a.text ++ ": "

theorem Heads.ne_empty {a : Address} {text : String} (h : s.Heads a text) : text ≠ "" := by
  rcases h with ⟨label, _, rfl⟩ | rfl
  · intro e; exact absurd (String.append_eq_empty_iff.mp e).2 (by decide)
  · intro e; exact absurd (String.append_eq_empty_iff.mp e).2 (by decide)

theorem address_heads (a : Address) (sec : Option Section) (ownStyle : Bool) :
    ∃ t ∈ s.address a sec true ownStyle, s.Heads a t.text :=
  ⟨_, List.mem_append_right _ (List.mem_singleton_self _), Or.inr rfl⟩

theorem headingLabel_heads {a : Address} {label : List Token} (h : s.headingLabel a true = some label) :
    ∃ t ∈ label, s.Heads a t.text := by
  unfold headingLabel at h
  split at h
  · cases h
  · simp only [Scene.label, Option.map_eq_some_iff] at h
    obtain ⟨l, hl, rfl⟩ := h
    exact ⟨_, List.mem_append_right _ (List.mem_singleton_self _), Or.inl ⟨l, hl, rfl⟩⟩

theorem lineStart_heads (a : Address) (level : Nat) (sec : Option Section) (echoed : Bool) :
    ∃ t ∈ s.lineStart a level sec true echoed, s.Heads a t.text := by
  have hmem : ∀ {ts : List Token}, (∃ t ∈ ts, s.Heads a t.text) →
      ∃ t ∈ s.indent level ++ s.echoMark echoed ++ ts, s.Heads a t.text := fun ⟨t, ht, hh⟩ =>
    ⟨t, List.mem_append_right _ ht, hh⟩
  unfold lineStart
  apply hmem
  cases hl : s.headingLabel a true with
  | none => exact s.address_heads a sec false
  | some label =>
    simp only
    split
    · exact s.address_heads a sec true
    · obtain ⟨t, ht, hh⟩ := s.headingLabel_heads hl
      exact ⟨t, List.mem_append_left _ ht, hh⟩

/-- The rows of a step: an instruction's, with its address told in the code, or another that
    shows some text. -/
inductive Shown : Row → Prop
  | bare {ts : List Token} (h : ∃ t ∈ ts, t.text ≠ "") : Shown (.bare ts)
  | instruction {a : Address} {code : List Token} (h : ∃ t ∈ code, s.Heads a t.text) (beside : List Token) :
      Shown (.ofInstruction a code beside)

theorem Shown.visible {r : Row} (h : s.Shown r) : r.Visible := by
  cases h with
  | bare h => exact h
  | instruction h beside =>
    obtain ⟨t, ht, hh⟩ := h
    exact ⟨t, List.mem_append_left _ ht, hh.ne_empty⟩

theorem labelRows_shown (a : Address) (level : Nat) : ∀ r ∈ s.labelRows a level true, s.Shown r := by
  intro r h
  unfold labelRows at h
  split at h
  · rename_i label hl
    split at h
    · obtain ⟨t, ht, hh⟩ := s.headingLabel_heads hl
      rw [List.mem_singleton.mp h]
      exact .bare ⟨t, List.mem_append_right _ ht, hh.ne_empty⟩
    · cases h
  · cases h

/-- The comments beside an instruction. -/
def besideTokens (i : Instruction) : List Token :=
  s.commentBeside .userComment (s.analysis.userBeside i.address) ++
    s.commentBeside .internalComment (s.analysis.internalBeside i.address)

/-- What an echo writes below the comments above it, given the comments beside. -/
def echoRows (beside : Instruction → List Token) (i : Instruction) (level : Nat) (sec : Option Section) : List Row :=
  s.labelRows i.address level true ++
    [.ofInstruction i.address
      (s.lineStart i.address level sec true true ++ (s.rawBytes i true ++ [s.styled .comment i.text])) (beside i)]

theorem echo_eq {l : Listing} (h : l.Fresh) (i : Instruction) (level : Nat) (sec : Option Section) :
    s.echo i level sec l =
      l.addRows ((s.aboveLines l.page.endsBlank i level).map .bare ++ s.echoRows s.besideTokens i level sec) := by
  have hfresh := addRows_fresh h ((s.aboveLines l.page.endsBlank i level).map .bare)
  rw [echo, commentsAbove_eq s h, heading_eq s hfresh, addRows_append, echoRows, addRows_append]
  exact line_of_instruction (addRows_fresh hfresh _) _ _ _ _

end Scene

/-! ## Results -/

theorem map_eq_ok {ε α β : Type} {e : Except ε α} {f : α → β} {b : β} : e.map f = .ok b ↔ ∃ a, e = .ok a ∧ f a = b := by
  cases e <;> simp [Except.map]

theorem bind_eq_ok {ε α β : Type} {e : Except ε α} {f : α → Except ε β} {b : β} :
    e.bind f = .ok b ↔ ∃ a, e = .ok a ∧ f a = .ok b := by
  cases e <;> simp [Except.bind]

/-- Either `o` is `l` with the rows of `e` added, or it failed with the failure of `e`. -/
def Outcome.Writes (o : Outcome Unit) (l : Listing) : Except Failure (List Row) → Prop
  | .ok rs => o = .done (l.addRows rs)
  | .error e => o.result = .error e

theorem Outcome.Writes.andThen {o : Outcome Unit} {l : Listing} {e : Except Failure (List Row)} (h : o.Writes l e)
    {next : Listing → Outcome Unit} {more : List Row → Except Failure (List Row)}
    (hnext : ∀ rs, e = .ok rs → (next (l.addRows rs)).Writes (l.addRows rs) (more rs)) :
    (o.andThen fun _ l => next l).Writes l (e.bind fun rs => (more rs).map (rs ++ ·)) := by
  cases e with
  | error f => rw [Outcome.andThen, h]; exact rfl
  | ok rs =>
    have ho : o = .done (l.addRows rs) := h
    have hn := hnext rs rfl
    rw [ho, Outcome.done_andThen]
    show (next (l.addRows rs)).Writes l ((more rs).map (rs ++ ·))
    cases hm : more rs with
    | error f => rw [hm] at hn; exact hn
    | ok qs =>
      rw [hm] at hn
      have hn : next (l.addRows rs) = .done ((l.addRows rs).addRows qs) := hn
      rw [hn, ← addRows_append]; rfl

theorem Outcome.Writes.above {o : Outcome Unit} {l : Listing} {rs : List Row} {e : Except Failure (List Row)}
    (h : o.Writes (l.addRows rs) e) : o.Writes l (e.map (rs ++ ·)) := by
  cases e with
  | error f => exact h
  | ok qs =>
    have h : o = .done ((l.addRows rs).addRows qs) := h
    rw [h, ← addRows_append]; rfl

namespace Pass

variable (p : Pass)

/-! ## Steps -/

def ownLabelRows (i : Instruction) (level : Nat) : List Row :=
  if p.settings.printLabels then p.labelRows i.address level true else []

def ownStart (i : Instruction) (level : Nat) (sec : Option Section) : List Token :=
  if p.settings.printLabels then p.lineStart i.address level sec true false ++ p.rawBytes i false
  else p.indent level ++ p.address i.address sec true false

/-- What an instruction with a line of its own writes below the comments above it. -/
def ownRows (beside : Instruction → List Token) (i : Instruction) (level : Nat) (sec : Option Section) :
    Except Failure (List Row) :=
  match p.operands.instruction? with
  | some f =>
    .ok (p.ownLabelRows i level ++
      [.ofInstruction i.address (p.ownStart i level sec ++ (f p.toScene i level).1) (beside i)])
  | none => .error (.missing .instruction)

/-- What a step writes apart from the comments above it, given the comments beside. -/
def codeRows (beside : Instruction → List Token) : Step → Except Failure (List Row)
  | .visit i level =>
    if p.context.isFused i.address then .ok [] else p.ownRows beside i level (p.binary.sectionOf i.address)
  | .echo i level => .ok (p.echoRows beside i level none)
  | .openCond jump fused level =>
    match p.operands.condition? with
    | some f => .ok [.bare (p.condStart jump fused level ++ f p.toScene jump fused ++ [.plain " \x7b"])]
    | none => .error (.missing .condition)
  | .closeCond level => .ok [.bare (p.indent level ++ [.plain "\x7d"])]
  | .unwritable => .error (.missing .dump)

/-- The comments above what a step writes. -/
def stepAbove (blank : Bool) (st : Step) : List (List Token) :=
  match st.commented? with
  | some (i, level) => p.aboveLines blank i level
  | none => []

def rows (blank : Bool) (st : Step) : Except Failure (List Row) :=
  (p.codeRows p.besideTokens st).map ((p.stepAbove blank st).map .bare ++ ·)

/-- The rows of steps in order. Only the first that writes anything can find a blank end. -/
def rowsAll (blank : Bool) : List Step → Except Failure (List Row)
  | [] => .ok []
  | st :: rest => (p.rows blank st).bind fun rs => (rowsAll (blank && rs.isEmpty) rest).map (rs ++ ·)

/-- What steps write starts with what the first of them writes. -/
theorem rowsAll_cons {blank : Bool} {st : Step} {ss : List Step} {rs : List Row}
    (h : p.rowsAll blank (st :: ss) = .ok rs) :
    ∃ code rest, p.codeRows p.besideTokens st = .ok code ∧
      p.rowsAll (blank && ((p.stepAbove blank st).map Row.bare ++ code).isEmpty) ss = .ok rest ∧
      rs = (p.stepAbove blank st).map .bare ++ code ++ rest := by
  obtain ⟨first, hfirst, hrest⟩ := bind_eq_ok.mp h
  obtain ⟨rest, hss, rfl⟩ := map_eq_ok.mp hrest
  obtain ⟨code, hcode, rfl⟩ := map_eq_ok.mp hfirst
  exact ⟨code, rest, hcode, hss, rfl⟩

theorem ownHeading_eq {l : Listing} (h : l.Fresh) (i : Instruction) (level : Nat) (sec : Option Section) :
    p.ownHeading i level sec l = (l.addRows (p.ownLabelRows i level)).put (p.ownStart i level sec) := by
  unfold ownHeading ownLabelRows ownStart
  by_cases hp : p.settings.printLabels = true
  · rw [if_pos hp, if_pos hp, if_pos hp, Scene.heading_eq _ h, put_put]
  · rw [if_neg hp, if_neg hp, if_neg hp, addRows_nil]

theorem ownLine_writes {l : Listing} (h : l.Fresh) (i : Instruction) (level : Nat) (sec : Option Section) :
    (p.ownLine i level sec l).Writes l (p.ownRows p.besideTokens i level sec) := by
  rw [ownLine, ownHeading_eq p h, printInstruction, ownRows]
  cases p.operands.instruction? with
  | none => rfl
  | some f =>
    show Outcome.done _ = Outcome.done _
    rw [addRows_append]
    exact congrArg Outcome.done (line_of_instruction (addRows_fresh h _) _ _ _ _)

theorem perform_writes (st : Step) {l : Listing} (h : l.Fresh) :
    (p.perform st l).Writes l (p.rows l.page.endsBlank st) := by
  cases st with
  | visit i level =>
    apply Outcome.Writes.above
    rw [perform, visit, p.commentsAbove_eq h, codeRows]
    split
    · rfl
    · exact p.ownLine_writes (addRows_fresh h _) i level _
  | echo i level =>
    apply Outcome.Writes.above
    rw [perform, p.echo_eq h, addRows_append]; rfl
  | openCond jump fused level =>
    rw [perform, printCondition, rows, codeRows]
    cases p.operands.condition? with
    | none => rfl
    | some f =>
      have hline := putLine_bare h (p.condStart jump fused level ++ f p.toScene jump fused ++ [.plain " \x7b"])
      rw [putLine, ← put_put, ← put_put] at hline
      exact congrArg Outcome.done hline
  | closeCond level => exact congrArg Outcome.done (putLine_bare h _)
  | unwritable => rfl

theorem ownStart_heads (i : Instruction) (level : Nat) (sec : Option Section) :
    ∃ t ∈ p.ownStart i level sec, p.Heads i.address t.text := by
  unfold ownStart
  split
  · obtain ⟨t, ht, hh⟩ := p.lineStart_heads i.address level sec false
    exact ⟨t, List.mem_append_left _ ht, hh⟩
  · obtain ⟨t, ht, hh⟩ := p.address_heads i.address sec false
    exact ⟨t, List.mem_append_right _ ht, hh⟩

/-- Apart from the comments above and what sets them off, a step writes no empty line. -/
theorem codeRows_shown {beside : Instruction → List Token} {st : Step} {rs : List Row}
    (h : p.codeRows beside st = .ok rs) : ∀ r ∈ rs, p.Shown r := by
  cases st with
  | visit i level =>
    simp only [codeRows] at h
    split at h
    · cases h; intro r hr; cases hr
    · unfold ownRows at h
      split at h
      · cases h
        intro r hr
        rcases List.mem_append.mp hr with hr | hr
        · unfold ownLabelRows at hr
          split at hr
          · exact p.labelRows_shown _ _ r hr
          · cases hr
        · obtain ⟨t, ht, hh⟩ := p.ownStart_heads i level (p.binary.sectionOf i.address)
          rw [List.mem_singleton.mp hr]
          exact .instruction ⟨t, List.mem_append_left _ ht, hh⟩ _
      · cases h
  | echo i level =>
    cases h
    intro r hr
    rcases List.mem_append.mp hr with hr | hr
    · exact p.labelRows_shown _ _ r hr
    · obtain ⟨t, ht, hh⟩ := p.lineStart_heads i.address level none true
      rw [List.mem_singleton.mp hr]
      exact .instruction ⟨t, List.mem_append_left _ ht, hh⟩ _
  | openCond jump fused level =>
    simp only [codeRows] at h
    split at h
    · cases h
      intro r hr
      rw [List.mem_singleton.mp hr]
      exact .bare ⟨p.styled .keyword "if ", by simp [condStart], by simp [Scene.styled]⟩
    · cases h
  | closeCond level =>
    cases h
    intro r hr
    rw [List.mem_singleton.mp hr]
    exact .bare ⟨.plain "\x7d", List.mem_append_right _ (List.mem_singleton_self _), by simp [Token.plain]⟩
  | unwritable => cases h

/-- A row of a tree is a line above a step, or part of what a step shows. -/
theorem mem_rowsAll {blank : Bool} {ss : List Step} {rs : List Row} (h : p.rowsAll blank ss = .ok rs) :
    ∀ r ∈ rs, (∃ blank st, ∃ ts ∈ p.stepAbove blank st, r = .bare ts) ∨ p.Shown r := by
  induction ss generalizing blank rs with
  | nil => cases h; intro r hr; cases hr
  | cons st ss ih =>
    obtain ⟨code, rest, hcode, hrest, rfl⟩ := p.rowsAll_cons h
    intro r hr
    rcases List.mem_append.mp hr with hr | hr
    · rcases List.mem_append.mp hr with hr | hr
      · obtain ⟨ts, hts, rfl⟩ := List.mem_map.mp hr
        exact Or.inl ⟨blank, st, ts, hts, rfl⟩
      · exact Or.inr (p.codeRows_shown hcode r hr)
    · exact ih hrest r hr

theorem stepAbove_spaced (blank : Bool) (st : Step) : Row.Spaced ((p.stepAbove blank st).map .bare) := by
  unfold stepAbove
  split
  · exact p.aboveLines_spaced blank _ _
  · exact .nil

theorem rows_spaced {blank : Bool} {st : Step} {rs : List Row} (h : p.rows blank st = .ok rs) : Row.Spaced rs := by
  obtain ⟨code, hc, rfl⟩ := map_eq_ok.mp h
  exact (p.stepAbove_spaced blank st).append (.of_visible fun r hr => (p.codeRows_shown hc r hr).visible)

theorem performAll_writes (ss : List Step) {l : Listing} (h : l.Fresh) :
    (p.performAll ss l).Writes l (p.rowsAll l.page.endsBlank ss) := by
  induction ss generalizing l with
  | nil => rfl
  | cons st ss ih =>
    refine (p.perform_writes st h).andThen fun rs hrs => ?_
    rw [← endsBlank_addRows l (p.rows_spaced hrs)]
    exact ih (addRows_fresh h rs)

/-! ## Functions -/

/-- The lines in front of the tree. -/
def frontLines (entry : Address) : List (List Token) := p.header entry :: p.context.locals.map p.localLine

def closingLine : List Token := [.plain "\x7d"]

/-- The rendering of a function whose tree is written as `rs`. -/
def rendered (entry : Address) (rs : List Row) : Rendering :=
  .ofRows ((p.frontLines entry).map .bare ++ rs ++ [.bare closingLine]) p.settings.color

theorem frontLines_visible (entry : Address) : ∀ r ∈ (p.frontLines entry).map Row.bare, r.Visible := by
  intro r hr
  simp only [frontLines, List.map_cons, List.map_map, List.mem_cons, List.mem_map, Function.comp_apply] at hr
  rcases hr with rfl | ⟨v, _, rfl⟩
  · exact ⟨p.styled .keyword "function ", by simp [Row.bare, Scene.header], by simp [Scene.styled]⟩
  · refine ⟨p.styled .typeName ("int" ++ Numeral.decimal (v.size * 8).toNat ++ "_t "), ?_, ?_⟩
    · simp [Row.bare, Scene.localLine]
    · exact append_ne_empty (append_ne_empty (by decide))

theorem closingLine_visible : (Row.bare closingLine).Visible := ⟨.plain "\x7d", List.mem_singleton_self _, by decide⟩

/-- What is written before the tree. -/
theorem front_eq (entry : Address) :
    p.writeLocals ((Listing.newLine {}).putLine (p.header entry)) =
      (Listing.newLine {}).addRows ((p.frontLines entry).map .bare) := by
  rw [Scene.writeLocals, putLine_bare (newLine_fresh {}), foldl_putLine (addRow_fresh _ _), frontLines, List.map_cons,
    addRows_cons, List.map_map]
  rfl

theorem function_eq (entry : Address) (tree : Tree) :
    p.function entry tree =
      match p.settings.validate with
      | .error fault => .error (.settings fault)
      | .ok () => (p.rowsAll false (tree.steps p.settings.comments 1)).map (p.rendered entry) := by
  unfold function
  cases p.settings.validate with
  | error fault => rfl
  | ok _ =>
    simp only [front_eq, write_eq_performAll]
    have hfresh := addRows_fresh (newLine_fresh {}) ((p.frontLines entry).map .bare)
    have hblank : ((Listing.newLine {}).addRows ((p.frontLines entry).map .bare)).page.endsBlank = false := by
      rw [endsBlank_addRows _ (.of_visible (p.frontLines_visible entry))]; rfl
    have hw := p.performAll_writes (tree.steps p.settings.comments 1) hfresh
    rw [hblank] at hw
    cases hr : p.rowsAll false (tree.steps p.settings.comments 1) with
    | error e =>
      rw [hr] at hw
      have hw : (p.performAll _ _).result = .error e := hw
      rw [hw]; rfl
    | ok rs =>
      rw [hr] at hw
      have hw : p.performAll _ _ = .done _ := hw
      rw [hw, ← addRows_append]
      exact finish_addRows _ _ _

theorem ok_of_function {entry : Address} {tree : Tree} {r : Rendering} (h : p.function entry tree = .ok r) :
    ∃ rs, p.rowsAll false (tree.steps p.settings.comments 1) = .ok rs ∧ r = p.rendered entry rs := by
  rw [function_eq] at h
  split at h
  · cases h
  · obtain ⟨rs, hrs, rfl⟩ := map_eq_ok.mp h
    exact ⟨rs, hrs, rfl⟩

end Pass

/-! ## A merged pair -/

/-- A comparison in a block, and the `if` it was merged into. -/
def mergedTree : Tree :=
  let compare : Instruction := { address := ⟨0x1000⟩, mnemonic := "cmp" }
  .seq
    [.block [compare],
      .cond { address := ⟨0x1002⟩, mnemonic := "jne" } (some compare)
        (.block [{ address := ⟨0x1004⟩, mnemonic := "ret" }])]

/-- A dump in which the comparison has a comment above it, and the return one beside it. -/
def mergedPass : Pass where
  context :=
    { mode := .dump, entry := ⟨0x1000⟩, fused := [⟨0x1000⟩], settings := { labelOwnLine := true } }
  binary := ({} : Image).view
  analysis :=
    ({ defaultKind := .code
       userAbove := ({} : Table Address String).insert ⟨0x1000⟩ "checked"
       internalBeside := ({} : Table Address String).insert ⟨0x1004⟩ "done" } : Findings).view

example :
    (mergedPass.function ⟨0x1000⟩ mergedTree).map (·.lines.map Line.text) =
      .ok ["function loc_1000 \x7b", "", "    ; checked", "", "    ; checked", "    loc_1000:", "    # 0x1000: cmp",
        "    loc_1002:", "    # 0x1002: jne", "    if jne(cmp) \x7b", "        loc_1004:",
        "        0x1004: ret ; done", "    \x7d", "\x7d"] := rfl

end AsmListing
