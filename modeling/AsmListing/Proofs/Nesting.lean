/-
  AsmListing.Proofs.Nesting — how far the lines of a function are indented. A line belongs
  to the node of the tree during whose own writing it was finished: the lines of a block,
  the header and closing brace of an `if` with all that stands above the header. Each is
  labelled with the number of bodies its node lies in (`nested`). Lines are taken from the
  listings that writing leaves, so the labels know nothing of how a line is put together.

  Proved:
  - `indented_of_rowsAll`: steps at one level write lines that start with the blanks of that
    level, or lines without tokens.
  - `nested_of_write`: the labelled lines of a tree are the lines it adds, in order.
  - `indentation_follows_nesting`: a function is its title, its declarations one level
    deep, the labelled lines with one level more than bodies around them, and the brace.
  - `needs_of_rowsAll`: steps have needed the blanks that their lines start with.
  - `rendered_blanks_fit`: so what a machine renders has no blanks that are too long for a
    text.
-/

import AsmListing.Proofs.Frame
import Mathlib.Data.List.TakeWhile

namespace AsmListing

open Listing

/-! ## Indented lines -/

/-- The line holds no token, or starts with one plain token of `n` blanks. -/
def Line.Indented (n : Nat) (l : Line) : Prop := l.tokens = [] ∨ l.tokens.head? = some (.spaces n)

instance (n : Nat) (l : Line) : Decidable (l.Indented n) := inferInstanceAs (Decidable (_ ∨ _))

/-- The level of what the step writes; nothing is written at any by what nobody can write. -/
def Step.At (level : Nat) : Step → Prop
  | .visit _ k => k = level
  | .echo _ k => k = level
  | .openCond _ _ k => k = level
  | .closeCond k => k = level
  | .unwritable => False

namespace Scene

variable {s : Scene} {level : Nat} (hlevel : level ≠ 0)

include hlevel

/-- Below the outermost level a line that starts with its indentation is indented, whatever
    follows and wherever its instruction ends. -/
theorem indented_of_indent {l : Line} {rest : List Token} (h : l.tokens = s.indent level ++ rest) :
    l.Indented (level * s.settings.indentWidth.toNat) := by
  right
  rw [h, indent, if_neg hlevel]
  rfl

theorem groupLines_indented (blank : Bool) (style : Style) (texts : List String) :
    ∀ ts ∈ s.groupLines blank level style texts,
      (Row.bare ts).line.Indented (level * s.settings.indentWidth.toNat) := by
  intro ts hts
  unfold groupLines at hts
  split at hts
  · cases hts
  · rcases List.mem_append.mp hts with hts | hts
    · -- the line that sets the comments off
      split at hts
      · rw [List.mem_singleton.mp hts]
        exact Or.inl rfl
      · cases hts
    · obtain ⟨text, -, rfl⟩ := List.mem_map.mp hts
      exact indented_of_indent hlevel rfl

theorem aboveLines_indented (blank : Bool) (i : Instruction) :
    ∀ ts ∈ s.aboveLines blank i level, (Row.bare ts).line.Indented (level * s.settings.indentWidth.toNat) := by
  intro ts hts
  rcases List.mem_append.mp hts with hts | hts
  · exact groupLines_indented hlevel _ _ _ ts hts
  · exact groupLines_indented hlevel _ _ _ ts hts

theorem labelRows_indented (a : Address) (colon : Bool) :
    ∀ r ∈ s.labelRows a level colon, r.line.Indented (level * s.settings.indentWidth.toNat) := by
  intro r hr
  unfold labelRows at hr
  split at hr
  · split at hr
    · rw [List.mem_singleton.mp hr]
      exact indented_of_indent hlevel rfl
    · cases hr
  · cases hr

omit hlevel

theorem lineStart_append (a : Address) (level : Nat) (sec : Option Section) (colon echoed : Bool) :
    ∃ rest, s.lineStart a level sec colon echoed = s.indent level ++ rest := by
  rw [lineStart, List.append_assoc]
  exact ⟨_, rfl⟩

end Scene

namespace Pass

variable {p : Pass}

theorem ownStart_append (i : Instruction) (level : Nat) (sec : Option Section) :
    ∃ rest, p.ownStart i level sec = p.indent level ++ rest := by
  unfold ownStart
  split
  · obtain ⟨rest, hstart⟩ := p.toScene.lineStart_append i.address level sec true false
    exact ⟨rest ++ p.rawBytes i false, by rw [hstart, List.append_assoc]⟩
  · exact ⟨_, rfl⟩

/-- The addresses that a header shows without comments bring the same blanks with them, so
    the line starts with them even where the keyword is not what comes first. -/
theorem condStart_append (jump : Instruction) (fused : Option Instruction) (level : Nat) :
    ∃ rest, p.condStart jump fused level = p.indent level ++ rest := by
  have hparts : ∀ (is : List Instruction) (ts : List Token),
      ∃ rest, (is.flatMap fun i => p.addressIfColored i level none) ++ (p.indent level ++ ts) =
        p.indent level ++ rest := by
    intro is ts
    induction is with
    | nil => exact ⟨ts, rfl⟩
    | cons i is ih =>
      rw [List.flatMap_cons, Scene.addressIfColored]
      split
      · exact ⟨_, by rw [List.append_assoc, List.append_assoc]⟩
      · exact ih
  unfold condStart
  split
  · exact ⟨_, rfl⟩
  · exact hparts _ _

/-! ## Lines of steps -/

variable {level : Nat} (hlevel : level ≠ 0)

include hlevel

theorem codeRows_indented {beside : Instruction → List Token} {st : Step} (hst : st.At level) {rs : List Row}
    (h : p.codeRows beside st = .ok rs) : ∀ r ∈ rs, r.line.Indented (level * p.settings.indentWidth.toNat) := by
  cases st with
  | visit i k =>
    obtain rfl : k = level := hst
    simp only [codeRows] at h
    split at h
    · cases h; intro r hr; cases hr
    · unfold ownRows at h
      split at h
      · cases h
        intro r hr
        rcases List.mem_append.mp hr with hr | hr
        · unfold ownLabelRows at hr
          split at hr
          · exact Scene.labelRows_indented hlevel _ _ r hr
          · cases hr
        · obtain ⟨rest, hstart⟩ := p.ownStart_append i k (p.binary.sectionOf i.address)
          rw [List.mem_singleton.mp hr, hstart, List.append_assoc]
          exact Scene.indented_of_indent hlevel (List.append_assoc _ _ _)
      · cases h
  | echo i k =>
    obtain rfl : k = level := hst
    cases h
    intro r hr
    rcases List.mem_append.mp hr with hr | hr
    · exact Scene.labelRows_indented hlevel _ _ r hr
    · obtain ⟨rest, hstart⟩ := p.toScene.lineStart_append i.address k none true true
      rw [List.mem_singleton.mp hr, hstart, List.append_assoc]
      exact Scene.indented_of_indent hlevel (List.append_assoc _ _ _)
  | openCond jump fused k =>
    obtain rfl : k = level := hst
    simp only [codeRows] at h
    split at h
    · cases h
      intro r hr
      obtain ⟨rest, hstart⟩ := p.condStart_append jump fused k
      rw [List.mem_singleton.mp hr, hstart, List.append_assoc, List.append_assoc]
      exact Scene.indented_of_indent hlevel rfl
    · cases h
  | closeCond k =>
    obtain rfl : k = level := hst
    cases h
    intro r hr
    rw [List.mem_singleton.mp hr]
    exact Scene.indented_of_indent hlevel rfl
  | unwritable => cases hst

theorem stepAbove_indented (blank : Bool) {st : Step} (hst : st.At level) :
    ∀ ts ∈ p.stepAbove blank st, (Row.bare ts).line.Indented (level * p.settings.indentWidth.toNat) := by
  intro ts hts
  cases st with
  | visit i k =>
    obtain rfl : k = level := hst
    exact Scene.aboveLines_indented hlevel blank i ts hts
  | echo i k =>
    obtain rfl : k = level := hst
    exact Scene.aboveLines_indented hlevel blank i ts hts
  | openCond jump fused k => cases hts
  | closeCond k => cases hts
  | unwritable => cases hst

theorem indented_of_rows {blank : Bool} {st : Step} (hst : st.At level) {rs : List Row}
    (h : p.rows blank st = .ok rs) : ∀ r ∈ rs, r.line.Indented (level * p.settings.indentWidth.toNat) := by
  obtain ⟨code, hcode, rfl⟩ := map_eq_ok.mp h
  intro r hr
  rcases List.mem_append.mp hr with hr | hr
  · obtain ⟨ts, hts, rfl⟩ := List.mem_map.mp hr
    exact stepAbove_indented hlevel blank hst ts hts
  · exact codeRows_indented hlevel hst hcode r hr

theorem indented_of_rowsAll {blank : Bool} {ss : List Step} (hss : ∀ st ∈ ss, st.At level) {rs : List Row}
    (h : p.rowsAll blank ss = .ok rs) : ∀ r ∈ rs, r.line.Indented (level * p.settings.indentWidth.toNat) := by
  induction ss generalizing blank rs with
  | nil => cases h; intro r hr; cases hr
  | cons st ss ih =>
    obtain ⟨first, hfirst, hmore⟩ := bind_eq_ok.mp h
    obtain ⟨rest, hrest, rfl⟩ := map_eq_ok.mp hmore
    obtain ⟨hst, hss⟩ := List.forall_mem_cons.mp hss
    intro r hr
    rcases List.mem_append.mp hr with hr | hr
    · exact indented_of_rows hlevel hst hfirst r hr
    · exact ih hss hrest r hr

end Pass

/-! ## Lines of nodes -/

/-- The lines that were finished since `before`. -/
def Listing.since (l before : Listing) : List Line := (l.page.lines.drop (before.page.lineCount - 1)).dropLast

theorem Listing.since_addRows {l : Listing} (h : l.Fresh) (rs : List Row) :
    (l.addRows rs).since l = rs.map Row.line := by
  have hfinished : l.page.lineCount - 1 = l.page.lines.dropLast.length := by
    rw [List.length_dropLast, Page.lineCount_eq]
  rw [since, lines_addRows h, hfinished, List.append_assoc, List.drop_left, List.dropLast_concat]

theorem Outcome.andThen_eq_done {α : Type} {o : Outcome α} {next : α → Listing → Outcome Unit} {l : Listing}
    (h : o.andThen next = .done l) : ∃ a l', o = ⟨l', .ok a⟩ ∧ next a l' = .done l := by
  obtain ⟨l', e | a⟩ := o
  · cases congrArg Outcome.result h
  · exact ⟨a, l', rfl, h⟩

namespace Pass

variable (p : Pass)

mutual

/-- The lines a tree adds to `l`, each with the number of bodies around its node. What an `if`
    writes itself was finished before its body or after it. -/
def nested (bodies : Nat) : Tree → Listing → List (Nat × Line)
  | .block is, l => ((p.write (bodies + 1) (.block is) l).listing.since l).map (bodies, ·)
  | .seq parts, l => nestedAll bodies parts l
  | .cond jump fused body, l =>
    let opened := (p.openCond jump fused (bodies + 1) l).listing
    let filled := (p.write (bodies + 2) body opened).listing
    let closed := (p.write (bodies + 1) (.cond jump fused body) l).listing
    (opened.since l).map (bodies, ·) ++ nested (bodies + 1) body opened ++ (closed.since filled).map (bodies, ·)
  | .unwritable, _ => []

def nestedAll (bodies : Nat) : List Tree → Listing → List (Nat × Line)
  | [], _ => []
  | t :: rest, l => nested bodies t l ++ nestedAll bodies rest (p.write (bodies + 1) t l).listing

end

/-- From `l` to `l'` these lines were added, each indented by its label. -/
structure Adds (l l' : Listing) (xs : List (Nat × Line)) : Prop where
  fresh : l'.Fresh
  lines : l'.page.lines = l.page.lines.dropLast ++ xs.map (·.2) ++ [({} : Line)]
  indented : ∀ x ∈ xs, x.2.Indented ((1 + x.1) * p.settings.indentWidth.toNat)

variable {p} {l l' l'' : Listing}

theorem Adds.nil (h : l.Fresh) : p.Adds l l [] :=
  ⟨h, lines_addRows h [], fun _ hx => by cases hx⟩

theorem Adds.append {xs ys : List (Nat × Line)} (hx : p.Adds l l' xs) (hy : p.Adds l' l'' ys) :
    p.Adds l l'' (xs ++ ys) := by
  refine ⟨hy.fresh, ?_, ?_⟩
  · rw [hy.lines, hx.lines, List.dropLast_concat, List.map_append, List.append_assoc (l.page.lines.dropLast)]
  · intro x hmem
    rcases List.mem_append.mp hmem with hmem | hmem
    · exact hx.indented x hmem
    · exact hy.indented x hmem

/-- Steps at one level add what was finished since, all with the label of that level. -/
theorem adds_of_performAll {bodies : Nat} {ss : List Step} (hss : ∀ st ∈ ss, st.At (bodies + 1)) (hl : l.Fresh)
    (h : p.performAll ss l = .done l') : p.Adds l l' ((l'.since l).map (bodies, ·)) := by
  have hwrites := p.performAll_writes ss hl
  cases hrs : p.rowsAll l.page.endsBlank ss with
  | error e =>
    rw [hrs, h] at hwrites
    cases hwrites
  | ok rs =>
    rw [hrs, h] at hwrites
    obtain rfl : l' = l.addRows rs := congrArg Outcome.listing hwrites
    refine ⟨addRows_fresh hl rs, ?_, ?_⟩
    · rw [since_addRows hl, List.map_map, lines_addRows hl]
      simp [Function.comp_def]
    · intro x hx
      rw [since_addRows hl, List.map_map] at hx
      obtain ⟨r, hr, rfl⟩ := List.mem_map.mp hx
      rw [Nat.add_comm 1]
      exact indented_of_rowsAll (Nat.succ_ne_zero bodies) hss hrs r hr

mutual

theorem nested_of_write (bodies : Nat) (t : Tree) {l l' : Listing} (hl : l.Fresh)
    (h : p.write (bodies + 1) t l = .done l') : p.Adds l l' (p.nested bodies t l) := by
  match t with
  | .block is =>
    have hperform := h
    rw [write_eq_performAll, Tree.steps] at hperform
    rw [nested, h]
    refine adds_of_performAll (fun st hst => ?_) hl hperform
    obtain ⟨i, -, rfl⟩ := List.mem_map.mp hst
    rfl
  | .seq parts =>
    rw [nested]
    exact nestedAll_of_write bodies parts hl h
  | .cond jump fused body =>
    have hwhole := h
    obtain ⟨⟨⟩, opened, hopen, hrest⟩ := Outcome.andThen_eq_done h
    obtain ⟨⟨⟩, filled, hbody, hclose⟩ := Outcome.andThen_eq_done hrest
    have hopening : p.Adds l opened ((opened.since l).map (bodies, ·)) := by
      rw [openCond_eq_performAll] at hopen
      refine adds_of_performAll (fun st hst => ?_) hl hopen
      rcases List.mem_append.mp hst with hst | hst
      · split at hst
        · obtain ⟨i, -, rfl⟩ := List.mem_map.mp hst
          rfl
        · cases hst
      · rw [List.mem_singleton.mp hst]
        rfl
    have hinner := nested_of_write (bodies + 1) body hopening.fresh hbody
    have hclosing : p.Adds filled l' ((l'.since filled).map (bodies, ·)) := by
      have hstep : ∀ st ∈ [Step.closeCond (bodies + 1)], st.At (bodies + 1) := List.forall_mem_singleton.mpr rfl
      exact adds_of_performAll hstep hinner.fresh hclose
    rw [nested, hwhole, hopen, hbody]
    exact (hopening.append hinner).append hclosing
  | .unwritable => cases congrArg Outcome.result h

theorem nestedAll_of_write (bodies : Nat) (ts : List Tree) {l l' : Listing} (hl : l.Fresh)
    (h : p.writeAll (bodies + 1) ts l = .done l') : p.Adds l l' (p.nestedAll bodies ts l) := by
  match ts with
  | [] =>
    obtain rfl : l = l' := congrArg Outcome.listing h
    exact .nil hl
  | t :: rest =>
    obtain ⟨⟨⟩, filled, ht, hrest⟩ := Outcome.andThen_eq_done h
    have hfirst := nested_of_write bodies t hl ht
    rw [nestedAll, ht]
    exact hfirst.append (nestedAll_of_write bodies rest hfirst.fresh hrest)

end

end Pass

/-- Between its title and its brace, a rendered function has its declarations, then the lines
    of its tree. The former stand one level deep. The latter, where they hold a token, start
    with one plain token of blanks: a level, and one more for each body around their node. -/
theorem indentation_follows_nesting {p : Pass} {entry : Address} {tree : Tree} {r : Rendering}
    (h : p.function entry tree = .ok r) :
    let width := p.settings.indentWidth.toNat
    let declared := p.context.locals.map fun v => ({ tokens := p.declaration v } : Line)
    let nested := p.nested 0 tree (p.front entry)
    r.lines = { tokens := p.title entry } :: declared ++ nested.map (·.2) ++ [{ tokens := [.plain "\x7d"] }] ∧
      (∀ line ∈ declared, line.Indented (1 * width)) ∧ ∀ x ∈ nested, x.2.Indented ((1 + x.1) * width) := by
  obtain ⟨rs, hrs, rfl⟩ := p.ok_of_function h
  have hfresh := p.front_fresh entry
  have hwrite : p.write 1 tree (p.front entry) = .done ((p.front entry).addRows rs) :=
    p.write_of_rows hfresh (by rw [p.front_endsBlank, hrs])
  have hadds := Pass.nested_of_write 0 tree hfresh hwrite
  have hlines : rs.map Row.line = (p.nested 0 tree (p.front entry)).map (·.2) := by
    have hboth := hadds.lines
    rw [lines_addRows hfresh] at hboth
    exact List.append_cancel_left (List.append_cancel_right hboth)
  refine ⟨?_, fun line hline => ?_, hadds.indented⟩
  · rw [← hlines, p.rendered_lines, List.map_cons, List.map_map]
    rfl
  · obtain ⟨v, -, rfl⟩ := List.mem_map.mp hline
    rw [Nat.one_mul]
    exact Or.inr rfl

/-- The lines of the comparison, of what stands above the header, and of the guarded return. -/
theorem merged_pair_indented :
    ∃ r, mergedPass.function ⟨0x1000⟩ mergedTree = .ok r ∧
      let nested := mergedPass.nested 0 mergedTree (mergedPass.front ⟨0x1000⟩)
      nested.map (·.1) = [0, 0, 0, 0, 0, 0, 0, 0, 0, 1, 1, 0] ∧ r.lines.length = nested.length + 2 ∧
        ∀ x ∈ nested, x.2.Indented ((1 + x.1) * 4) := by
  obtain ⟨r, h⟩ : ∃ r, mergedPass.function ⟨0x1000⟩ mergedTree = .ok r := ⟨_, rfl⟩
  obtain ⟨hlines, -, hindented⟩ := indentation_follows_nesting h
  refine ⟨r, h, rfl, ?_, hindented⟩
  rw [hlines]
  rfl

/-! ## Blanks -/

theorem Token.spaces_inj {a b : Nat} (h : Token.spaces a = Token.spaces b) : a = b := by
  have hwidth := congrArg Token.width h
  simpa [Token.spaces, Token.plain, Token.width] using hwidth

mutual

theorem Tree.steps_at (comments : Bool) (level : Nat) (t : Tree) :
    ∀ st ∈ t.steps comments level, st = .unwritable ∨ ∃ k, level ≤ k ∧ st.At k := by
  intro st hst
  match t with
  | .block is =>
    obtain ⟨i, -, rfl⟩ := List.mem_map.mp hst
    exact Or.inr ⟨level, Nat.le_refl _, rfl⟩
  | .seq parts => exact Tree.stepsAll_at comments level parts st hst
  | .cond jump fused body =>
    rcases List.mem_append.mp hst with hst | hst
    · rcases List.mem_append.mp hst with hst | hst
      · rcases List.mem_append.mp hst with hst | hst
        · split at hst
          · obtain ⟨i, -, rfl⟩ := List.mem_map.mp hst
            exact Or.inr ⟨level, Nat.le_refl _, rfl⟩
          · cases hst
        · rw [List.mem_singleton.mp hst]
          exact Or.inr ⟨level, Nat.le_refl _, rfl⟩
      · exact (Tree.steps_at comments (level + 1) body st hst).imp_right fun ⟨k, hk, hat⟩ => ⟨k, Nat.le_of_succ_le hk, hat⟩
    · rw [List.mem_singleton.mp hst]
      exact Or.inr ⟨level, Nat.le_refl _, rfl⟩
  | .unwritable => exact Or.inl (List.mem_singleton.mp hst)

theorem Tree.stepsAll_at (comments : Bool) (level : Nat) (ts : List Tree) :
    ∀ st ∈ Tree.stepsAll comments level ts, st = .unwritable ∨ ∃ k, level ≤ k ∧ st.At k := by
  intro st hst
  match ts with
  | [] => cases hst
  | t :: rest =>
    rcases List.mem_append.mp hst with hst | hst
    · exact Tree.steps_at comments level t st hst
    · exact Tree.stepsAll_at comments level rest st hst

end

namespace Pass

variable {p : Pass}

/-- A step that has written something needed the blanks of its level, and whatever else it
    needed was supplied. -/
theorem needs_of_rows {level : Nat} {st : Step} (hst : st.At level) {blank : Bool} {rs : List Row}
    (h : p.rows blank st = .ok rs) :
    (rs ≠ [] → .blanks level ∈ p.stepNeeds st) ∧ ∀ n ∈ p.stepNeeds st, p.supplied n = true := by
  obtain ⟨code, hcode, rfl⟩ := map_eq_ok.mp h
  cases st with
  | visit i k =>
    obtain rfl : k = level := hst
    rw [codeRows] at hcode
    rw [stepNeeds]
    split at hcode
    · rename_i hfused
      rw [if_pos hfused]
      cases hcode
      by_cases habove : p.hasCommentsAbove i = true
      · rw [if_pos habove]
        exact ⟨fun _ => List.mem_singleton_self _, List.forall_mem_singleton.mpr rfl⟩
      · rw [if_neg habove]
        refine ⟨fun hrs => absurd ?_ hrs, fun n hn => absurd hn List.not_mem_nil⟩
        simp only [Scene.hasCommentsAbove, Bool.not_eq_true, Bool.not_eq_false', List.isEmpty_iff,
          List.append_eq_nil_iff] at habove
        simp [stepAbove, Step.commented?, Scene.aboveLines, Scene.groupLines, habove]
    · rename_i hown
      rw [if_neg hown]
      refine ⟨fun _ => List.mem_cons_self, List.forall_mem_cons.mpr ⟨rfl, List.forall_mem_singleton.mpr ?_⟩⟩
      unfold ownRows at hcode
      split at hcode
      · rename_i f hf
        exact congrArg Option.isSome hf
      · cases hcode
  | echo i k =>
    obtain rfl : k = level := hst
    exact ⟨fun _ => List.mem_singleton_self _, List.forall_mem_singleton.mpr rfl⟩
  | openCond jump fused k =>
    obtain rfl : k = level := hst
    refine ⟨fun _ => List.mem_cons_self, List.forall_mem_cons.mpr ⟨rfl, List.forall_mem_singleton.mpr ?_⟩⟩
    rw [codeRows] at hcode
    split at hcode
    · rename_i f hf
      exact congrArg Option.isSome hf
    · cases hcode
  | closeCond k =>
    obtain rfl : k = level := hst
    exact ⟨fun _ => List.mem_singleton_self _, List.forall_mem_singleton.mpr rfl⟩
  | unwritable => cases hst

/-- What steps below the outermost level have written starts with blanks they needed. -/
theorem needs_of_rowsAll {blank : Bool} {ss : List Step}
    (hss : ∀ st ∈ ss, st = .unwritable ∨ ∃ k, 1 ≤ k ∧ st.At k) {rs : List Row} (h : p.rowsAll blank ss = .ok rs) :
    (∀ r ∈ rs, ∃ k, .blanks k ∈ ss.flatMap p.stepNeeds ∧ r.line.Indented (k * p.settings.indentWidth.toNat)) ∧
      ∀ n ∈ ss.flatMap p.stepNeeds, p.supplied n = true := by
  induction ss generalizing blank rs with
  | nil =>
    cases h
    exact ⟨fun r hr => absurd hr List.not_mem_nil, fun n hn => absurd hn List.not_mem_nil⟩
  | cons st ss ih =>
    obtain ⟨first, hfirst, hmore⟩ := bind_eq_ok.mp h
    obtain ⟨rest, hrest, rfl⟩ := map_eq_ok.mp hmore
    obtain ⟨hst, hss⟩ := List.forall_mem_cons.mp hss
    obtain ⟨hrows, hsupplied⟩ := ih hss hrest
    rw [List.flatMap_cons]
    rcases hst with rfl | ⟨k, hk, hat⟩
    · cases hfirst
    · obtain ⟨hblanks, hneeds⟩ := needs_of_rows hat hfirst
      refine ⟨fun r hr => ?_, List.forall_mem_append.mpr ⟨hneeds, hsupplied⟩⟩
      rcases List.mem_append.mp hr with hr | hr
      · have hindented := indented_of_rows (Nat.ne_of_gt hk) hat hfirst r hr
        exact ⟨k, List.mem_append_left _ (hblanks (List.ne_nil_of_mem hr)), hindented⟩
      · obtain ⟨j, hneed, hindented⟩ := hrows r hr
        exact ⟨j, List.mem_append_right _ hneed, hindented⟩

end Pass

/-- The blanks at the start of a rendered line are no longer than a text, so their number is
    the same on a machine. -/
theorem rendered_blanks_fit {m : Arithmetic} {p : Pass} {entry : Address} {tree : Tree} {r : Rendering}
    (h : p.render m entry tree = .ok (.ok r)) :
    ∀ line ∈ r.lines, ∀ n, line.tokens.head? = some (.spaces n) → n ≤ longestText := by
  intro line hline n hn
  have hfits : ∀ k, .blanks k ∈ p.reached tree → k * p.settings.indentWidth.toNat ≤ longestText := by
    refine fun k hk => Nat.le_of_not_lt fun htoo => Pass.not_overlong_of_render h ?_
    exact ⟨k, List.mem_filterMap.mpr ⟨_, hk, rfl⟩, htoo⟩
  obtain ⟨rs, hrs, rfl⟩ := p.ok_of_function (Pass.function_of_render h)
  obtain ⟨hrows, hsupplied⟩ := Pass.needs_of_rowsAll (Tree.steps_at _ 1 tree) hrs
  -- no hook is missing, so all that is needed is reached
  have hreached := p.reached_eq tree
  rw [List.takeWhile_eq_self_iff.mpr hsupplied] at hreached
  rw [p.rendered_lines] at hline
  rcases List.mem_append.mp hline with hline | hline
  · rcases List.mem_append.mp hline with hline | hline
    · rcases List.mem_cons.mp hline with rfl | hline
      · have hstyle : Style.keyword = .plain := congrArg Token.style (Option.some.inj hn)
        cases hstyle
      · obtain ⟨ts, hts, rfl⟩ := List.mem_map.mp hline
        obtain ⟨v, hv, rfl⟩ := List.mem_map.mp hts
        have hone := hfits 1 (by
          rw [hreached]
          exact List.mem_append_left _ (List.mem_flatMap.mpr ⟨v, hv, List.mem_cons_self⟩))
        rw [← Token.spaces_inj (Option.some.inj hn), ← Nat.one_mul p.settings.indentWidth.toNat]
        exact hone
    · obtain ⟨row, hrow, rfl⟩ := List.mem_map.mp hline
      obtain ⟨k, hneed, hempty | hblanks⟩ := hrows row hrow
      · rw [hempty] at hn
        cases hn
      · rw [hblanks] at hn
        rw [← Token.spaces_inj (Option.some.inj hn)]
        exact hfits k (by rw [hreached]; exact List.mem_append_right _ hneed)
  · rw [List.mem_singleton.mp hline] at hn
    have hwidth := congrArg Token.width (Option.some.inj hn)
    obtain rfl : "\x7d".length = n := by simpa [Token.spaces, Token.plain, Token.width] using hwidth
    decide

end AsmListing
