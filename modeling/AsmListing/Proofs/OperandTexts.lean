/-
  AsmListing.Proofs.OperandTexts — an instruction as the generic printer writes it: the
  mnemonic and a blank, then the operands, each by the operand hook, with commas between
  them. An operand on the stack, behind a base register alone, is written as the variable
  declared there (`Operand.stackOffset?`); then the text is no longer the decoder's, and
  where comments are on, the decoder's own text follows as a comment. Without operands the
  decoder's text is all there is.

  The target of a jump or a call never shows the string that is found there: whatever
  strings the file has (`Pass.withStrings`), it is written in the same way.

  Proved, for every instruction:
  - `genericOperand_stack` / `genericOperand_modified_iff`: an operand is written as a
    variable just if it is on the stack, at an offset that has one.
  - `joined_genericInstruction_bare` / `genericInstruction_listed`: what an instruction is
    written as, without operands and with them.
  - `genericOperand_withStrings` / `genericOperand_target`: no string in a jump or a call.
  - `printOperands_eq` / `printInstruction_eq_printOperands`: the hook is asked for one
    operand after the other, and notes on the way whether one was a variable.
  - `instruction_shows_operands`: all this, on the current line and nowhere else.
-/

import AsmListing.Proofs.LocalVariables
import AsmListing.Proofs.NumberParts

namespace AsmListing

open OperandPrinter

/-! ## Texts of tokens -/

/-- One part more, behind a separator where it is not the first. -/
theorem intercalate_snoc {α : Type} (sep : List α) (parts : List (List α)) (us : List α) :
    List.intercalate sep (parts ++ [us]) = List.intercalate sep parts ++ ((if parts = [] then [] else sep) ++ us) := by
  induction parts with
  | nil => simp
  | cons ts parts ih =>
    cases parts with
    | nil => simp
    | cons ts' parts =>
      rw [List.cons_append, List.cons_append, List.intercalate_cons_cons, ← List.cons_append, ih,
        List.intercalate_cons_cons]
      simp

namespace Token

/-- The text of tokens one behind the other. -/
def joined (ts : List Token) : String := String.join (ts.map text)

@[simp] theorem joined_nil : joined [] = "" := rfl

@[simp] theorem joined_cons (t : Token) (ts : List Token) : joined (t :: ts) = t.text ++ joined ts := String.join_cons

theorem joined_append (ts us : List Token) : joined (ts ++ us) = joined ts ++ joined us := by
  rw [joined, List.map_append, String.join_append, joined, joined]

theorem joined_intercalate (sep : Token) (parts : List (List Token)) :
    joined (List.intercalate [sep] parts) = sep.text.intercalate (parts.map joined) := by
  induction parts with
  | nil => rfl
  | cons ts parts ih =>
    cases parts with
    | nil => simp
    | cons us parts =>
      rw [List.intercalate_cons_cons, joined_append, joined_append, ih, List.map_cons, List.map_cons, List.map_cons,
        String.intercalate_cons_cons, joined_cons, joined_nil, String.append_empty]

end Token

/-! ## Operands on the stack -/

/-- The stack offset of an operand: a displacement behind a base register, without an index. -/
def Operand.stackOffset? : Operand → Option Int64
  | .memory (some _) none _ disp => some disp
  | _ => none

section

variable {s : Scene} {i : Instruction} {n : Nat} {op : Operand} {o : Int64}

theorem stackVariable?_eq (base index : Option String) (scale : UInt8) (disp : Int64) :
    stackVariable? s base index disp = (Operand.memory base index scale disp).stackOffset?.bind s.context.variableAt := by
  cases base <;> cases index <;> rfl

theorem genericOperand_stack {name : String} (hop : i.operands[n]? = some op) (ho : op.stackOffset? = some o)
    (hname : s.context.variableAt o = some name) (hexa brackets : Bool) :
    genericOperand s i n hexa brackets = ([s.styled .variableName name], true) := by
  cases op with
  | register r => cases ho
  | immediate v size => cases ho
  | memory base index scale disp =>
    have hvariable : stackVariable? s base index disp = some name := by
      rw [stackVariable?_eq base index scale, ho, Option.bind_some, hname]
    simp only [genericOperand, hop, hvariable]

theorem genericOperand_modified_iff (hop : i.operands[n]? = some op) (hexa brackets : Bool) :
    (genericOperand s i n hexa brackets).2 = true ↔
      ∃ o, op.stackOffset? = some o ∧ (s.context.variableAt o).isSome = true := by
  cases op with
  | register r => simp [genericOperand, hop, Operand.stackOffset?]
  | immediate v size => simp [genericOperand, hop, Operand.stackOffset?]
  | memory base index scale disp =>
    have hvariable := stackVariable?_eq (s := s) base index scale disp
    simp only [genericOperand, hop]
    cases hoffset : (Operand.memory base index scale disp).stackOffset? with
    | none => simp [hvariable, hoffset]
    | some o => cases hname : s.context.variableAt o <;> simp [hvariable, hoffset, hname]

/-- What each operand is written as, found by its place. -/
theorem getElem?_shown (n : Nat) :
    ((genericOperands s i).map (·.1))[n]? = i.operands[n]?.map fun _ => (genericOperand s i n false true).1 := by
  rw [genericOperands, List.map_map, List.getElem?_map]
  by_cases hn : n < i.operands.length
  · rw [List.getElem?_range hn, List.getElem?_eq_getElem hn]
    rfl
  · rw [List.getElem?_eq_none (by simpa using hn), List.getElem?_eq_none (Nat.le_of_not_lt hn)]
    rfl

/-- An instruction is not the decoder's text just if one of its operands is a variable. -/
theorem genericInstruction_modified_iff (level : Nat) :
    (genericInstruction s i level).2 = true ↔
      ∃ op ∈ i.operands, ∃ o, op.stackOffset? = some o ∧ (s.context.variableAt o).isSome = true := by
  have hany : (genericInstruction s i level).2 = (genericOperands s i).any (·.2) := by
    unfold genericInstruction
    split
    case isTrue hnone => simp [genericOperands, List.isEmpty_iff.mp hnone]
    case isFalse => rfl
  rw [hany, genericOperands, List.any_map, List.any_eq_true]
  constructor
  · rintro ⟨n, hn, hmodified⟩
    have hop := List.getElem?_eq_getElem (List.mem_range.mp hn)
    exact ⟨_, List.getElem_mem _, (genericOperand_modified_iff hop false true).mp hmodified⟩
  · rintro ⟨op, hmem, hstack⟩
    obtain ⟨n, hn, rfl⟩ := List.getElem_of_mem hmem
    have hop := List.getElem?_eq_getElem hn
    exact ⟨n, List.mem_range.mpr hn, (genericOperand_modified_iff hop false true).mpr hstack⟩

end

/-! ## Instructions -/

/-- The decoder's own text behind operands that differ from it, where comments are on. -/
def Scene.decoderComment (s : Scene) (i : Instruction) (modified : Bool) : List Token :=
  if modified && s.settings.comments then [s.styled .comment (" # " ++ i.text)] else []

theorem text_mnemonic (s : Scene) (i : Instruction) : (mnemonic s i).text = i.mnemonic := by
  unfold mnemonic
  split <;> rfl

theorem genericInstruction_listed {s : Scene} {i : Instruction} (h : i.operands ≠ []) (level : Nat) :
    genericInstruction s i level =
      (mnemonic s i :: .plain " " :: List.intercalate [.plain ", "] ((genericOperands s i).map (·.1)) ++
        s.decoderComment i ((genericOperands s i).any (·.2)), (genericOperands s i).any (·.2)) := by
  have hsome : ¬i.operands.isEmpty = true := fun hnone => h (List.isEmpty_iff.mp hnone)
  rw [genericInstruction, if_neg hsome]
  rfl

theorem genericInstruction_ne_nil (s : Scene) (i : Instruction) (level : Nat) :
    (genericInstruction s i level).1 ≠ [] := by
  unfold genericInstruction
  split <;> simp

theorem joined_genericInstruction_bare {s : Scene} {i : Instruction} {level : Nat} (h : i.operands = []) :
    Token.joined (genericInstruction s i level).1 = i.text := by
  have hnone : i.operands.isEmpty = true := List.isEmpty_iff.mpr h
  rw [genericInstruction, if_pos hnone, Instruction.text, hnone]
  by_cases htext : i.operandText.isEmpty = true
  · simp [htext, text_mnemonic]
  · simp [htext, text_mnemonic, Token.plain, String.append_assoc]

/-! ## Targets -/

/-- The scene of a file with other strings in it. -/
def Scene.withStrings (s : Scene) (strings : Address → Nat → String) : Scene :=
  { s with binary := { s.binary with stringAt := strings } }

section

variable {s : Scene} {v : Int64} {size : UInt64} {sec : Option Section} {o : ImmediateOptions} {i : Instruction}

theorem preview_of_target (h : o.isTarget = true) (a : Address) (within : Section) : s.preview a within o = [] := by
  rw [Scene.preview, h]
  rfl

theorem immediate_withStrings (h : o.isTarget = true) (strings : Address → Nat → String) :
    (s.withStrings strings).immediate v size sec o = s.immediate v size sec o := by
  have hlabel : (s.withStrings strings).operandLabel ⟨v.toUInt64⟩ = s.operandLabel ⟨v.toUInt64⟩ := rfl
  have hsection : (s.withStrings strings).sectionFor ⟨v.toUInt64⟩ sec = s.sectionFor ⟨v.toUInt64⟩ sec := rfl
  simp only [Scene.immediate, hlabel, hsection, preview_of_target h]
  -- all that is left reads no strings
  rfl

theorem genericOperand_withStrings (h : i.category.isBranch = true) (strings : Address → Nat → String) (n : Nat)
    (hexa brackets : Bool) :
    genericOperand (s.withStrings strings) i n hexa brackets = genericOperand s i n hexa brackets := by
  unfold genericOperand
  cases i.operands[n]? with
  | none => rfl
  | some op =>
    cases op with
    | register name => rfl
    | immediate v size => simp only [immediate_withStrings (o := { hexa, isTarget := i.category.isBranch }) h]
    | memory base index scale disp => rfl

theorem genericOperand_target (h : i.category.isBranch = true) {n : Nat}
    (hop : i.operands[n]? = some (.immediate v size)) (hexa brackets : Bool) :
    ∃ parts : List NumberPart, .preview ∉ parts ∧
      genericOperand s i n hexa brackets = (parts.flatMap (s.partTokens v size), false) := by
  refine ⟨s.shownParts v size none { hexa, isTarget := true }, fun hshown => ?_, ?_⟩
  · have hshows : s.Shows v size none { hexa, isTarget := true } .preview := by
      simpa [Scene.shownParts] using (List.mem_filter.mp hshown).2
    exact Bool.noConfusion hshows.2.2.2.1
  · simp only [genericOperand, hop, h, Scene.immediate_written]

end

/-! ## One operand after the other -/

namespace Pass

def withStrings (p : Pass) (strings : Address → Nat → String) : Pass :=
  { p with toScene := p.toScene.withStrings strings }

/-- The first `count` operands by the operand hook, a comma in front of each but the first;
    whether one of them was written as a variable is noted on the way. -/
def printOperands (p : Pass) (i : Instruction) : Nat → Listing → Outcome Bool
  | 0, l => ⟨l, .ok false⟩
  | n + 1, l =>
    (p.printOperands i n l).andThen fun before l =>
      (p.printOperand i n false true (l.put (if n = 0 then [] else [.plain ", "]))).andThen fun this l =>
        ⟨l, .ok (before || this)⟩

variable {p : Pass} (hp : p.operands = .generic)

include hp

theorem printOperand_generic (i : Instruction) (n : Nat) (hexa brackets : Bool) (l : Listing) :
    p.printOperand i n hexa brackets l =
      ⟨l.put (genericOperand p.toScene i n hexa brackets).1, .ok (genericOperand p.toScene i n hexa brackets).2⟩ := by
  rw [printOperand, hp]
  rfl

theorem printInstruction_generic (i : Instruction) (level : Nat) (l : Listing) :
    p.printInstruction i level l =
      ⟨l.put (genericInstruction p.toScene i level).1, .ok (genericInstruction p.toScene i level).2⟩ := by
  rw [printInstruction, hp]
  rfl

theorem printOperands_eq (i : Instruction) (count : Nat) (l : Listing) :
    p.printOperands i count l =
      ⟨l.put (List.intercalate [.plain ", "] ((List.range count).map fun n => (genericOperand p.toScene i n false true).1)),
        .ok ((List.range count).any fun n => (genericOperand p.toScene i n false true).2)⟩ := by
  induction count with
  | zero => rfl
  | succ n ih =>
    have hfirst : (List.range n).map (fun n => (genericOperand p.toScene i n false true).1) = [] ↔ n = 0 := by simp
    rw [printOperands, ih]
    simp only [Outcome.andThen, printOperand_generic hp, Listing.put_put, List.range_succ, List.map_append,
      List.map_singleton, List.any_append, List.any_cons, List.any_nil, Bool.or_false, intercalate_snoc, hfirst,
      List.append_assoc]

/-- An instruction with operands, step by step: where one of them was written as a variable,
    the decoder's text comes behind them, if comments are on. -/
theorem printInstruction_eq_printOperands {i : Instruction} (h : i.operands ≠ []) (level : Nat) (l : Listing) :
    p.printInstruction i level l =
      (p.printOperands i i.operands.length (l.put [mnemonic p.toScene i, .plain " "])).andThen fun modified m =>
        ⟨m.put (p.decoderComment i modified), .ok modified⟩ := by
  rw [printInstruction_generic hp, printOperands_eq hp, genericInstruction_listed h]
  simp only [Outcome.andThen, Listing.put_put, genericOperands, List.map_map, List.any_map, List.cons_append,
    List.nil_append]
  rfl

end Pass

/-- The generic printer never fails, writes on the current line, or starts a first one, and
    records no line. An instruction without operands is its decoder's text. With operands,
    it is the mnemonic and a blank, then what the operand hook writes for each of them, with
    commas between. Just if one of them is on the stack, at an offset where a variable was
    declared, the answer is true and, where comments are on, the decoder's text follows as a
    comment; the operand itself is the name of the variable declared there last. In a jump or
    a call no string of the file is read, and no number is shown with one. -/
theorem instruction_shows_operands (mode : Mode) (entry : Address) (settings : Settings) (ds : List Declaration)
    (binary : Binary) (analysis : Analysis) (palette : Palette) (i : Instruction) (level : Nat) (l : Listing) :
    let context := (Context.undeclared mode entry settings).declareAll ds
    let p : Pass := { context, binary, analysis, palette, operands := .generic }
    ∃ (ts : List Token) (modified : Bool) (shown : List (List Token)),
      p.printInstruction i level l = ⟨l.put ts, .ok modified⟩ ∧ (l.put ts).index = l.index ∧
      (l.put ts).page.lines = l.page.lines.dropLast ++ [l.page.lastLine.extend ts] ∧
      shown.length = i.operands.length ∧
      (∀ n us, shown[n]? = some us → ∃ b, ∀ m, p.printOperand i n false true m = ⟨m.put us, .ok b⟩) ∧
      (i.operands = [] → Token.joined ts = i.text ∧ modified = false) ∧
      (i.operands ≠ [] → ∃ code, ts = code ++ p.decoderComment i modified ∧
        Token.joined code = i.mnemonic ++ " " ++ ", ".intercalate (shown.map Token.joined)) ∧
      (modified = true ↔ ∃ op ∈ i.operands, ∃ o, op.stackOffset? = some o ∧ ∃ v ∈ context.locals, v.offset = some o) ∧
      (∀ (n : Nat) op o v, i.operands[n]? = some op → op.stackOffset? = some o → context.localAt? o = some v →
        shown[n]? = some [p.styled .variableName v.name]) ∧
      (i.category.isBranch = true → ∀ n hexa brackets m,
        (∀ strings, (p.withStrings strings).printOperand i n hexa brackets m = p.printOperand i n hexa brackets m) ∧
        ∀ v size, i.operands[n]? = some (.immediate v size) → ∃ parts : List NumberPart, .preview ∉ parts ∧
          p.printOperand i n hexa brackets m = ⟨m.put (parts.flatMap (p.partTokens v size)), .ok false⟩) := by
  intro context p
  have hp : p.operands = .generic := rfl
  have hplaced : context.Placed := Context.placed_declareAll mode entry settings ds
  refine ⟨(genericInstruction p.toScene i level).1, (genericInstruction p.toScene i level).2,
    (genericOperands p.toScene i).map (·.1), Pass.printInstruction_generic hp i level l, rfl,
    l.page.lines_append (genericInstruction_ne_nil p.toScene i level), by simp [genericOperands], fun n us hus => ?_,
    fun hnone => ⟨joined_genericInstruction_bare hnone, ?_⟩, fun hlisted => ?_, ?_, fun n op o v hop ho hv => ?_,
    fun hbranch n hexa brackets m => ⟨fun strings => ?_, fun v size hop => ?_⟩⟩
  · obtain ⟨op, -, rfl⟩ := Option.map_eq_some_iff.mp ((getElem?_shown n).symm.trans hus)
    exact ⟨_, fun m => Pass.printOperand_generic hp i n false true m⟩
  · rw [← Bool.not_eq_true, genericInstruction_modified_iff, hnone]
    simp
  · rw [genericInstruction_listed hlisted]
    refine ⟨_, rfl, ?_⟩
    rw [Token.joined_cons, Token.joined_cons, Token.joined_intercalate, text_mnemonic, ← String.append_assoc]
    rfl
  · have hdeclared : ∀ o, (p.context.variableAt o).isSome = true ↔ ∃ v ∈ context.locals, v.offset = some o :=
      fun o => hplaced.isSome_variableAt_iff
    simp only [genericInstruction_modified_iff, hdeclared]
  · have hname : p.context.variableAt o = some v.name := by
      rw [hplaced.variableAt_eq, hv, Option.map_some]
    rw [getElem?_shown, hop, Option.map_some, genericOperand_stack hop ho hname]
  · have hsame : genericOperand (p.withStrings strings).toScene i n hexa brackets =
        genericOperand p.toScene i n hexa brackets := genericOperand_withStrings hbranch strings n hexa brackets
    rw [Pass.printOperand_generic hp, Pass.printOperand_generic (p := p.withStrings strings) hp, hsame]
  · obtain ⟨parts, hparts, hoperand⟩ := genericOperand_target (s := p.toScene) hbranch hop hexa brackets
    refine ⟨parts, hparts, ?_⟩
    rw [Pass.printOperand_generic hp, hoperand]

/-- A call through a variable, with a number that leads to a string, and a return. -/
theorem call_through_variable_shown :
    let p : Pass :=
      { context := (Context.undeclared .decompiled ⟨0x1000⟩ {}).declareAll [.localVar ⟨8, "table", some (-8)⟩]
        binary :=
          ({ sections := [.ofSize ".data" ⟨0x4000⟩ 0x100 true]
             strings := ({} : Table Address String).insert ⟨0x4040⟩ "\"abc\"" } : Image).view
        analysis := ({} : Findings).view }
    let call : Instruction :=
      { address := ⟨0x1008⟩, mnemonic := "call", operandText := "[rbp - 8], 0x4040", category := .call
        operands := [.memory (some "rbp") none 1 (-8), .immediate 0x4040 8] }
    let ret : Instruction := { address := ⟨0x100c⟩, mnemonic := "ret", category := .ret }
    call.operands ≠ [] ∧ call.category.isBranch = true ∧ ret.operands = [] ∧
      (∃ (ts : List Token) (shown : List (List Token)), p.printInstruction call 1 {} = ⟨Listing.put {} ts, .ok true⟩ ∧
        shown[0]? = some [p.styled .variableName "table"] ∧
        (∃ code, ts = code ++ [p.styled .comment " # call [rbp - 8], 0x4040"] ∧
          Token.joined code = "call" ++ " " ++ ", ".intercalate (shown.map Token.joined)) ∧
        (∃ parts : List NumberPart, .preview ∉ parts ∧
          p.printOperand call 1 false true {} = ⟨Listing.put {} (parts.flatMap (p.partTokens 0x4040 8)), .ok false⟩)) ∧
      ∃ ts, p.printInstruction ret 1 {} = ⟨Listing.put {} ts, .ok false⟩ ∧ Token.joined ts = "ret" := by
  intro p call ret
  have hcall := instruction_shows_operands .decompiled ⟨0x1000⟩ {} [.localVar ⟨8, "table", some (-8)⟩] p.binary p.analysis
    p.palette call 1 {}
  have hret := instruction_shows_operands .decompiled ⟨0x1000⟩ {} [.localVar ⟨8, "table", some (-8)⟩] p.binary p.analysis
    p.palette ret 1 {}
  obtain ⟨ts, modified, shown, hprint, -, -, -, -, -, hlisted, hmodified, hvariable, htarget⟩ := hcall
  obtain ⟨us, still, -, hprint', -, -, -, -, hbare, -⟩ := hret
  have hlocal : p.context.localAt? (-8) = some ⟨8, "table", some (-8)⟩ := rfl
  obtain rfl : modified = true :=
    hmodified.mpr ⟨_, List.mem_cons_self, -8, rfl, _, List.mem_singleton_self _, rfl⟩
  obtain ⟨htext, rfl⟩ := hbare rfl
  refine ⟨List.cons_ne_nil _ _, rfl, rfl, ⟨ts, shown, hprint, hvariable 0 _ (-8) _ rfl rfl hlocal,
    hlisted (List.cons_ne_nil _ _), (htarget rfl 1 false true {}).2 0x4040 8 rfl⟩, us, hprint', htext⟩

/-- The same number shows its string where it is only moved. -/
example :
    let s : Scene :=
      { context := { mode := .decompiled, entry := ⟨0x1000⟩ }
        binary :=
          ({ sections := [.ofSize ".data" ⟨0x4000⟩ 0x100 true]
             strings := ({} : Table Address String).insert ⟨0x4040⟩ "\"abc\"" } : Image).view
        analysis := ({} : Findings).view }
    let move (category : Category) : Instruction :=
      { address := ⟨0x1008⟩, mnemonic := "mov", operands := [.register "rax", .immediate 0x4040 8], category }
    Token.joined (genericInstruction s (move .plain) 0).1 = "mov rax, 0x4040 \"abc\"" ∧
      Token.joined (genericInstruction s (move .jump) 0).1 = "mov rax, 0x4040" := by
  decide

end AsmListing
