/-
  AsmListing.Proofs.Presentation — one function listed twice, the second time under other
  looks (`Paint`): the color setting, the override styles and the palette are replaced. Two
  rows have the same content if they agree in the texts of their tokens, in their mark and in
  their address (`Row.SameContent`).

  Looks are asked for in many places, but nearly everywhere only to choose a style or a
  weight. The one place where they choose a text is the header of an `if` in a listing
  without comments, which shows the addresses of a merged pair that have an override style.

  Proved, for a printer of operands that overlooks looks, with comments on:
  - `address_repaint`, `label_repaint`, `immediate_repaint` and their like: a fragment has
    the same texts under other looks.
  - `codeRows_repaint` / `rows_repaint`: a step is written as rows of the same content, or
    fails for the same reason.
  - `paint_leaves_content`: the two renderings agree in everything but the looks.
-/

import AsmListing.Proofs.TwoListings

namespace AsmListing

/-! ## Looks and content -/

/-- What decides how a listing looks. -/
structure Paint where
  color : Bool
  colors : Table Address Style
  palette : Palette

/-- The texts of tokens, without their looks. -/
def Token.texts (ts : List Token) : List String := ts.map Token.text

namespace Token

@[simp] theorem texts_cons (t : Token) (ts : List Token) : texts (t :: ts) = t.text :: texts ts := rfl
@[simp] theorem texts_append (ts us : List Token) : texts (ts ++ us) = texts ts ++ texts us := List.map_append

theorem texts_intercalate (sep : List Token) (tss : List (List Token)) :
    texts (List.intercalate sep tss) = List.intercalate (texts sep) (tss.map texts) := by
  induction tss with
  | nil => rfl
  | cons ts tss ih =>
    cases tss with
    | nil => simp only [List.map_cons, List.map_nil, List.intercalate_singleton]
    | cons us tss =>
      rw [List.map_cons, List.map_cons, List.intercalate_cons_cons, List.intercalate_cons_cons, texts_append,
        texts_append, ih, List.map_cons]

variable {ts us : List Token}

theorem totalWidth_eq_of_texts (h : texts ts = texts us) : totalWidth ts = totalWidth us := by
  have hsum : ∀ ts, totalWidth ts = ((texts ts).map String.length).sum := by
    intro ts
    induction ts with
    | nil => rfl
    | cons t ts ih => rw [totalWidth, ih]; rfl
  rw [hsum, hsum, h]

theorem length_eq_of_texts (h : texts ts = texts us) : ts.length = us.length := by
  simpa [texts] using congrArg List.length h

/-- Either nothing is shown on both sides, or the same texts. -/
theorem shown_cases {x y : Option (List Token)} (h : x.map texts = y.map texts) :
    (x = none ∧ y = none) ∨ ∃ ts us, x = some ts ∧ y = some us ∧ texts ts = texts us := by
  cases x with
  | none => exact Or.inl ⟨rfl, Option.map_eq_none_iff.mp h.symm⟩
  | some ts =>
    obtain ⟨us, hus, htexts⟩ := Option.map_eq_some_iff.mp h.symm
    exact Or.inr ⟨ts, us, rfl, hus, htexts.symm⟩

end Token

namespace Row

/-- The rows differ in the looks of their tokens at most. -/
structure SameContent (r q : Row) : Prop where
  texts : Token.texts r.line.tokens = Token.texts q.line.tokens
  mark : r.line.mark = q.line.mark
  tag : r.tag = q.tag

namespace SameContent

theorem bare {ts us : List Token} (h : Token.texts ts = Token.texts us) : SameContent (.bare ts) (.bare us) :=
  ⟨h, rfl, rfl⟩

theorem ofInstruction (a : Address) {code code' beside beside' : List Token}
    (hcode : Token.texts code = Token.texts code') (hbeside : Token.texts beside = Token.texts beside') :
    SameContent (.ofInstruction a code beside) (.ofInstruction a code' beside') := by
  refine ⟨?_, ?_, rfl⟩
  · show Token.texts (code ++ beside) = Token.texts (code' ++ beside')
    rw [Token.texts_append, Token.texts_append, hcode, hbeside]
  · show some (Boundary.mk (Token.totalWidth code) code.length) = some ⟨Token.totalWidth code', code'.length⟩
    rw [Token.totalWidth_eq_of_texts hcode, Token.length_eq_of_texts hcode]

theorem bares {lines lines' : List (List Token)} (h : lines.map Token.texts = lines'.map Token.texts) :
    List.Forall₂ SameContent (lines.map .bare) (lines'.map .bare) := by
  have hlines : List.Forall₂ (fun ts us => Token.texts ts = Token.texts us) lines lines' := by
    rwa [← List.forall₂_map_right_iff, ← List.forall₂_map_left_iff, List.forall₂_eq_eq_eq]
  rw [List.forall₂_map_right_iff, List.forall₂_map_left_iff]
  exact hlines.imp fun _ _ => bare

variable {r q : Row} (h : SameContent r q)

include h

theorem text_eq : r.line.text = q.line.text := by
  have htext : ∀ l : Line, l.text = String.ofList ((Token.texts l.tokens).flatMap String.toList) := by
    intro l
    rw [Line.text, Token.texts, List.flatMap_map]
  rw [htext, htext, h.texts]

theorem boundary_eq : r.line.boundary = q.line.boundary := by
  simp only [Line.boundary, Line.width, h.mark, Token.totalWidth_eq_of_texts h.texts,
    Token.length_eq_of_texts h.texts]

end SameContent

end Row

/-! ## Fragments under other looks -/

namespace Scene

def repaint (s : Scene) (paint : Paint) : Scene :=
  { s with
    context := { s.context with settings := { s.context.settings with color := paint.color }, colors := paint.colors }
    palette := paint.palette }

variable (s : Scene) (paint : Paint)

theorem indent_repaint (level : Nat) : (s.repaint paint).indent level = s.indent level := rfl

theorem address_repaint (a : Address) (sec : Option Section) (colon ownStyle : Bool) :
    Token.texts ((s.repaint paint).address a sec colon ownStyle) = Token.texts (s.address a sec colon ownStyle) := by
  have htag : Token.texts ((s.repaint paint).sectionTag sec) = Token.texts (s.sectionTag sec) := by
    cases sec with
    | none => rfl
    | some sec => simp only [sectionTag, apply_ite Token.texts]; rfl
  simp only [address, Token.texts_append, htag]
  rfl

theorem valueAddress_repaint (a : Address) :
    Token.texts ((s.repaint paint).valueAddress a) = Token.texts (s.valueAddress a) := rfl

/-! ### Labels -/

theorem labelTokens_repaint (a : Address) (l : Label) (colon noColor : Bool) :
    Token.texts ((s.repaint paint).labelTokens a ((s.repaint paint).restyle a l) colon noColor) =
      Token.texts (s.labelTokens a (s.restyle a l) colon noColor) := by
  simp only [labelTokens, Token.texts_append, apply_ite Token.texts]
  rfl

/-- A label has its text before it has a style. -/
theorem label_repaint (a : Address) (colon noColor : Bool) :
    ((s.repaint paint).label a colon noColor).map Token.texts = (s.label a colon noColor).map Token.texts := by
  have hname : (s.repaint paint).name? a false = s.name? a false := rfl
  simp only [label, label?, hname, Option.map_map]
  cases s.name? a false with
  | none => rfl
  | some l => exact congrArg some (s.labelTokens_repaint paint a l colon noColor)

theorem operandLabel_repaint (a : Address) :
    ((s.repaint paint).operandLabel a).map Token.texts = (s.operandLabel a).map Token.texts := by
  have hname : (s.repaint paint).name? a true = s.name? a true := rfl
  simp only [operandLabel, operandLabel?, hname, Option.map_map]
  cases s.name? a true with
  | none => rfl
  | some l => exact congrArg some (s.labelTokens_repaint paint a l false false)

theorem headingLabel_repaint (a : Address) (colon : Bool) :
    ((s.repaint paint).headingLabel a colon).map Token.texts = (s.headingLabel a colon).map Token.texts := by
  have hnamed : (s.repaint paint).isNamedByHeader a = s.isNamedByHeader a := rfl
  unfold headingLabel
  rw [hnamed]
  split
  · rfl
  · exact s.label_repaint paint a colon false

/-! ### Numbers -/

theorem preview_repaint (a : Address) (sec : Section) (o : ImmediateOptions) :
    Token.texts ((s.repaint paint).preview a sec o) = Token.texts (s.preview a sec o) := by
  simp only [preview, apply_ite Token.texts]
  rfl

theorem literal_text (l : Literal) : (s.literal l).text = l.text := by
  simp only [literal, apply_ite Token.text]
  split <;> rfl

theorem immediate_repaint (v : Int64) (size : UInt64) (sec : Option Section) (o : ImmediateOptions) :
    Token.texts ((s.repaint paint).immediate v size sec o).1 = Token.texts (s.immediate v size sec o).1 := by
  have hwithin : (s.repaint paint).sectionFor ⟨v.toUInt64⟩ sec = s.sectionFor ⟨v.toUInt64⟩ sec := rfl
  have hsettles : (s.repaint paint).labelSettles ⟨v.toUInt64⟩ = s.labelSettles ⟨v.toUInt64⟩ := rfl
  unfold immediate
  simp only [hwithin, hsettles]
  rcases Token.shown_cases (s.operandLabel_repaint paint ⟨v.toUInt64⟩) with ⟨h', h⟩ | ⟨us, ts, h', h, htexts⟩
  · rw [h', h]
    cases s.sectionFor ⟨v.toUInt64⟩ sec with
    | none => simp only [Token.texts_cons, literal_text]; rfl
    | some within =>
      simp only [Token.texts_append, preview_repaint, valueAddress_repaint]
  · rw [h', h]
    cases s.sectionFor ⟨v.toUInt64⟩ sec with
    | none => exact htexts
    | some within =>
      simp only
      split
      · exact htexts
      · simp only [Token.texts_append, preview_repaint, htexts]

/-! ### Headings, comments and headers -/

theorem echoMark_repaint (echoed : Bool) :
    Token.texts ((s.repaint paint).echoMark echoed) = Token.texts (s.echoMark echoed) := by
  simp only [echoMark, apply_ite Token.texts]
  rfl

theorem rawBytes_repaint (i : Instruction) (echoed : Bool) :
    Token.texts ((s.repaint paint).rawBytes i echoed) = Token.texts (s.rawBytes i echoed) := by
  simp only [rawBytes, apply_ite Token.texts]
  simp only [Token.texts, List.map_map]
  rfl

theorem commentLine_repaint (level : Nat) (style : Style) (text : String) :
    Token.texts ((s.repaint paint).commentLine level style text) = Token.texts (s.commentLine level style text) := by
  simp only [commentLine, Token.texts_append]
  rfl

theorem commentBeside_repaint (style : Style) (text? : Option String) :
    Token.texts ((s.repaint paint).commentBeside style text?) = Token.texts (s.commentBeside style text?) := by
  cases text? <;> rfl

theorem besideTokens_repaint (i : Instruction) :
    Token.texts ((s.repaint paint).besideTokens i) = Token.texts (s.besideTokens i) := by
  simp only [besideTokens, Token.texts_append, commentBeside_repaint]
  rfl

theorem aboveLines_repaint (blank : Bool) (i : Instruction) (level : Nat) :
    ((s.repaint paint).aboveLines blank i level).map Token.texts = (s.aboveLines blank i level).map Token.texts := by
  have hgroup : ∀ blank style texts, ((s.repaint paint).groupLines blank level style texts).map Token.texts =
      (s.groupLines blank level style texts).map Token.texts := by
    intro blank style texts
    unfold groupLines
    split
    · rfl
    · simp only [List.map_append, List.map_map, Function.comp_def, commentLine_repaint]
      rfl
  simp only [aboveLines, List.map_append, hgroup]
  rfl

theorem lineStart_repaint (a : Address) (level : Nat) (sec : Option Section) (colon echoed : Bool) :
    Token.texts ((s.repaint paint).lineStart a level sec colon echoed) =
      Token.texts (s.lineStart a level sec colon echoed) := by
  have hown : (s.repaint paint).settings.labelOwnLine = s.settings.labelOwnLine := rfl
  unfold lineStart
  rw [Token.texts_append, Token.texts_append, Token.texts_append, Token.texts_append, indent_repaint, echoMark_repaint]
  refine congrArg _ ?_
  rcases Token.shown_cases (s.headingLabel_repaint paint a colon) with ⟨h', h⟩ | ⟨us, ts, h', h, htexts⟩
  · rw [h', h]
    exact s.address_repaint paint a sec colon false
  · rw [h', h]
    simp only [hown]
    split
    · exact s.address_repaint paint a sec colon true
    · rw [Token.texts_append, Token.texts_append, htexts]

theorem labelRows_repaint (a : Address) (level : Nat) (colon : Bool) :
    List.Forall₂ Row.SameContent (s.labelRows a level colon) ((s.repaint paint).labelRows a level colon) := by
  have hown : (s.repaint paint).settings.labelOwnLine = s.settings.labelOwnLine := rfl
  unfold labelRows
  rcases Token.shown_cases (s.headingLabel_repaint paint a colon) with ⟨h', h⟩ | ⟨us, ts, h', h, htexts⟩
  · rw [h', h]
    exact .nil
  · rw [h', h]
    simp only [hown]
    split
    · refine .cons (.bare ?_) .nil
      rw [Token.texts_append, Token.texts_append, htexts, indent_repaint]
    · exact .nil

theorem header_repaint (entry : Address) :
    Token.texts ((s.repaint paint).header entry) = Token.texts (s.header entry) := by
  have hsection : ∀ sec, Token.texts ((s.repaint paint).headerSection sec) = Token.texts (s.headerSection sec) := by
    intro sec
    cases sec <;> rfl
  have hname : Token.texts ((s.repaint paint).headerName entry) = Token.texts (s.headerName entry) := by
    unfold headerName
    rcases Token.shown_cases (s.label_repaint paint entry false true) with ⟨h', h⟩ | ⟨us, ts, h', h, htexts⟩
    · rw [h', h]
    · rw [h', h]
      exact htexts
  simp only [header, List.cons_append, Token.texts_cons, Token.texts_append, hname, hsection]
  rfl

theorem localLine_repaint (v : Local) : Token.texts ((s.repaint paint).localLine v) = Token.texts (s.localLine v) := by
  simp only [localLine, Token.texts_append]
  rfl

end Scene

/-! ## The printers at hand -/

namespace OperandPrinter

/-- Under other looks the hooks of a line answer the same texts. -/
structure OverlooksPaint (o : OperandPrinter) : Prop where
  instruction : ∀ f, o.instruction? = some f → ∀ s paint i level,
    Token.texts (f (Scene.repaint s paint) i level).1 = Token.texts (f s i level).1
  condition : ∀ f, o.condition? = some f → ∀ s paint jump fused,
    Token.texts (f (Scene.repaint s paint) jump fused) = Token.texts (f s jump fused)

theorem bare_overlooksPaint : bare.OverlooksPaint := by
  refine ⟨?_, ?_⟩ <;> intro f h <;> cases h

variable (s : Scene) (paint : Paint)

theorem genericOperand_repaint (i : Instruction) (n : Nat) (hexa brackets : Bool) :
    Token.texts (genericOperand (s.repaint paint) i n hexa brackets).1 =
        Token.texts (genericOperand s i n hexa brackets).1 ∧
      (genericOperand (s.repaint paint) i n hexa brackets).2 = (genericOperand s i n hexa brackets).2 := by
  have hvariable : ∀ base index disp,
      stackVariable? (s.repaint paint) base index disp = stackVariable? s base index disp := fun _ _ _ => rfl
  unfold genericOperand
  split
  · exact ⟨rfl, rfl⟩
  · exact ⟨rfl, rfl⟩
  · exact ⟨s.immediate_repaint paint _ _ _ _, rfl⟩
  · simp only [hvariable]
    split <;> exact ⟨rfl, rfl⟩

theorem genericInstruction_repaint (i : Instruction) (level : Nat) :
    Token.texts (genericInstruction (s.repaint paint) i level).1 = Token.texts (genericInstruction s i level).1 := by
  have hmnemonic : (mnemonic (s.repaint paint) i).text = (mnemonic s i).text := by
    unfold mnemonic
    split <;> rfl
  have htexts : ((genericOperands (s.repaint paint) i).map (·.1)).map Token.texts =
      ((genericOperands s i).map (·.1)).map Token.texts := by
    simp only [genericOperands, List.map_map]
    exact List.map_congr_left fun n _ => (genericOperand_repaint s paint i n false true).1
  have hmodified : (genericOperands (s.repaint paint) i).any (·.2) = (genericOperands s i).any (·.2) := by
    simp only [genericOperands, List.any_map, Function.comp_def, (genericOperand_repaint s paint i _ false true).2]
  unfold genericInstruction
  split
  · simp only [Token.texts_cons, hmnemonic]
  · simp only [Token.texts_cons, Token.texts_append, List.cons_append, Token.texts_intercalate, hmnemonic, htexts,
      hmodified, apply_ite Token.texts]
    rfl

theorem genericCondition_repaint (jump : Instruction) (fused : Option Instruction) :
    Token.texts (genericCondition (s.repaint paint) jump fused) = Token.texts (genericCondition s jump fused) := by
  cases fused <;> rfl

theorem generic_overlooksPaint : generic.OverlooksPaint := by
  refine ⟨?_, ?_⟩
  · intro f h s paint i level
    cases h
    exact genericInstruction_repaint s paint i level
  · intro f h s paint jump fused
    cases h
    exact genericCondition_repaint s paint jump fused

end OperandPrinter

/-! ## Two listings of a tree -/

namespace Pass

def repaint (p : Pass) (paint : Paint) : Pass := { p with toScene := p.toScene.repaint paint }

variable (p : Pass) (paint : Paint)

theorem stepAbove_repaint (blank : Bool) (st : Step) :
    ((p.repaint paint).stepAbove blank st).map Token.texts = (p.stepAbove blank st).map Token.texts := by
  unfold stepAbove
  cases st.commented? with
  | none => rfl
  | some visited => exact p.toScene.aboveLines_repaint paint blank visited.1 visited.2

theorem ownLabelRows_repaint (i : Instruction) (level : Nat) :
    List.Forall₂ Row.SameContent (p.ownLabelRows i level) ((p.repaint paint).ownLabelRows i level) := by
  have hprint : (p.repaint paint).settings.printLabels = p.settings.printLabels := rfl
  unfold ownLabelRows
  rw [hprint]
  split
  · exact p.toScene.labelRows_repaint paint i.address level true
  · exact .nil

theorem ownStart_repaint (i : Instruction) (level : Nat) (sec : Option Section) :
    Token.texts ((p.repaint paint).ownStart i level sec) = Token.texts (p.ownStart i level sec) := by
  have hprint : (p.repaint paint).settings.printLabels = p.settings.printLabels := rfl
  unfold ownStart
  rw [hprint]
  split
  · rw [Token.texts_append, Token.texts_append]
    exact congrArg₂ _ (p.toScene.lineStart_repaint paint _ _ _ _ _) (p.toScene.rawBytes_repaint paint i false)
  · rw [Token.texts_append, Token.texts_append]
    exact congrArg _ (p.toScene.address_repaint paint _ _ _ _)

variable {p}

/-- With comments on, the header of an `if` starts with the same texts. -/
theorem condStart_repaint (hcomments : p.settings.comments = true) (jump : Instruction) (fused : Option Instruction)
    (level : Nat) :
    Token.texts ((p.repaint paint).condStart jump fused level) = Token.texts (p.condStart jump fused level) := by
  have hcomments' : (p.repaint paint).settings.comments = true := hcomments
  rw [condStart, condStart, if_pos hcomments, if_pos hcomments', List.nil_append, List.nil_append,
    Token.texts_append, Token.texts_append]
  rfl

variable (hcomments : p.settings.comments = true) (ho : p.operands.OverlooksPaint)

include hcomments ho

theorem codeRows_repaint (st : Step) :
    Alike (List.Forall₂ Row.SameContent) (p.codeRows p.besideTokens st)
      ((p.repaint paint).codeRows (p.repaint paint).besideTokens st) := by
  have hbeside := p.toScene.besideTokens_repaint paint
  have hhook : (p.repaint paint).operands = p.operands := rfl
  cases st with
  | visit i level =>
    have hfused : (p.repaint paint).context.isFused i.address = p.context.isFused i.address := rfl
    simp only [codeRows, ownRows, hfused, hhook]
    split
    · exact .ok .nil
    · cases hf : p.operands.instruction? with
      | none => exact .error _
      | some f =>
        have hcode : Token.texts (p.ownStart i level (p.binary.sectionOf i.address) ++ (f p.toScene i level).1) =
            Token.texts ((p.repaint paint).ownStart i level (p.binary.sectionOf i.address) ++
              (f (p.toScene.repaint paint) i level).1) := by
          rw [Token.texts_append, Token.texts_append, ownStart_repaint, ho.instruction f hf]
        exact .ok (List.rel_append (p.ownLabelRows_repaint paint i level)
          (.cons (.ofInstruction i.address hcode (hbeside i).symm) .nil))
  | echo i level =>
    have hcode : Token.texts (p.lineStart i.address level none true true ++
          (p.rawBytes i true ++ [p.styled .comment i.text])) =
        Token.texts ((p.toScene.repaint paint).lineStart i.address level none true true ++
          ((p.toScene.repaint paint).rawBytes i true ++ [(p.toScene.repaint paint).styled .comment i.text])) := by
      simp only [Token.texts_append, Scene.lineStart_repaint, Scene.rawBytes_repaint]
      rfl
    exact .ok (List.rel_append (p.toScene.labelRows_repaint paint i.address level true)
      (.cons (.ofInstruction i.address hcode (hbeside i).symm) .nil))
  | openCond jump fused level =>
    simp only [codeRows, hhook]
    cases hf : p.operands.condition? with
    | none => exact .error _
    | some f =>
      have hline : Token.texts (p.condStart jump fused level ++ f p.toScene jump fused ++ [.plain " \x7b"]) =
          Token.texts ((p.repaint paint).condStart jump fused level ++ f (p.toScene.repaint paint) jump fused ++
            [.plain " \x7b"]) := by
        simp only [Token.texts_append, condStart_repaint paint hcomments, ho.condition f hf]
      exact .ok (.cons (.bare hline) .nil)
  | closeCond level => exact .ok (.cons (.bare rfl) .nil)
  | unwritable => exact .error _

theorem rows_repaint (blank : Bool) (st : Step) :
    Alike (List.Forall₂ Row.SameContent) (p.rows blank st) ((p.repaint paint).rows blank st) :=
  (codeRows_repaint paint hcomments ho st).map fun _ _ hcode =>
    List.rel_append (Row.SameContent.bares (p.stepAbove_repaint paint blank st).symm) hcode

omit hcomments ho in
/-- Around the tree there is the same content. -/
theorem rendered_repaint (entry : Address) {rs qs : List Row} (h : List.Forall₂ Row.SameContent rs qs) :
    List.Forall₂ Row.SameContent ((p.frontLines entry).map .bare ++ rs ++ [.bare closingLine])
      (((p.repaint paint).frontLines entry).map .bare ++ qs ++ [.bare closingLine]) := by
  have hfront : (p.frontLines entry).map Token.texts = ((p.repaint paint).frontLines entry).map Token.texts := by
    simp only [frontLines, List.map_cons, List.map_map, Function.comp_def]
    exact congrArg₂ _ (p.toScene.header_repaint paint entry).symm
      (List.map_congr_left fun v _ => (p.toScene.localLine_repaint paint v).symm)
  exact List.rel_append (List.rel_append (Row.SameContent.bares hfront) h) (.cons (.bare rfl) .nil)

end Pass

/-! ## Two renderings -/

/-- With comments on, nothing but the looks of a listing depends on the color setting, the
    override styles and the palette, with every printer that overlooks them, as those at
    hand do. -/
theorem paint_leaves_content :
    OperandPrinter.generic.OverlooksPaint ∧ OperandPrinter.bare.OverlooksPaint ∧
      ∀ {p : Pass} (paint : Paint) (entry : Address) (tree : Tree), p.operands.OverlooksPaint →
        p.settings.comments = true →
        Alike (fun r q => r.lines.map (fun line => line.tokens.map Token.text) =
              q.lines.map (fun line => line.tokens.map Token.text) ∧
            r.lines.map Line.text = q.lines.map Line.text ∧
            (∀ line, r.addressOf line = q.addressOf line) ∧ (∀ a, r.lineOf a = q.lineOf a) ∧
            ∀ line, r.boundary? line = q.boundary? line)
          (p.function entry tree) ((p.repaint paint).function entry tree) := by
  refine ⟨OperandPrinter.generic_overlooksPaint, OperandPrinter.bare_overlooksPaint, ?_⟩
  intro p paint entry tree ho hcomments
  have hrows := Pass.rowsAll_alike (Pass.rows_repaint paint hcomments ho) false (tree.steps p.settings.comments 1)
  refine Pass.alike_functions rfl rfl hrows fun rs qs hrq => ?_
  have hall := Pass.rendered_repaint (p := p) paint entry hrq
  have hindex := Rendering.index_of_related hall p.settings.color paint.color fun _ _ hr => hr.tag
  refine ⟨?_, ?_, fun line => ?_, fun a => ?_, fun line => ?_⟩
  · exact Rendering.lines_of_related hall _ _ fun _ _ hr => hr.texts
  · exact Rendering.lines_of_related hall _ _ fun _ _ hr => hr.text_eq
  · exact congrArg (·.addressOf line) hindex
  · exact congrArg (·.firstLineOf a) hindex
  · exact Rendering.line_of_related hall _ _ (fun _ _ hr => hr.boundary_eq) line

/-- Bold throughout, without colors, and with two addresses set apart. -/
def loudPaint : Paint where
  color := false
  colors := (({} : Table Address Style).insert ⟨0x1000⟩ .highlight).insert ⟨0x1004⟩ .keyword
  palette := ⟨fun _ => { bold := true }⟩

/-- A merged pair under both looks: other tokens, the same texts. -/
theorem merged_pair_repainted :
    ∃ r q, mergedPass.function ⟨0x1000⟩ mergedTree = .ok r ∧
      (mergedPass.repaint loudPaint).function ⟨0x1000⟩ mergedTree = .ok q ∧
      r.lines.map Line.text = q.lines.map Line.text ∧ (∀ a, r.lineOf a = q.lineOf a) ∧
      r.lines.map Line.tokens ≠ q.lines.map Line.tokens := by
  have h := (paint_leaves_content.2.2 (p := mergedPass) loudPaint ⟨0x1000⟩ mergedTree
    OperandPrinter.generic_overlooksPaint rfl).of_ok
  obtain ⟨-, htext, -, hline, -⟩ := h
  exact ⟨_, _, rfl, rfl, htext, hline, by decide⟩

/-- Without comments the first line of the `if` shows the address that is set apart. -/
example :
    let quiet := { mergedPass with context := { mergedPass.context with settings := { comments := false } } }
    (quiet.function ⟨0x1000⟩ mergedTree).map (·.lines.map Line.text) =
        .ok ["function loc_1000 \x7b", "", "    ; checked", "    if jne(cmp) \x7b", "        loc_1004: ret ; done",
          "    \x7d", "\x7d"] ∧
      ((quiet.repaint loudPaint).function ⟨0x1000⟩ mergedTree).map (·.lines.map Line.text) =
        .ok ["function loc_1000 \x7b", "", "    ; checked", "    0x1000:     if jne(cmp) \x7b",
          "        loc_1004: ret ; done", "    \x7d", "\x7d"] := ⟨rfl, rfl⟩

end AsmListing
