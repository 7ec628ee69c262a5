/-
  AsmListing.Listing.Operation — the steps a listing can be written by, one constructor
  for each, so that whole runs of them can be spoken about. `Pass.run` carries one out;
  a step that reports on what it wrote answers a flag.
-/

import AsmListing.Listing.Function

namespace AsmListing

inductive Operation where
  | newLine
  | padTo (column : Nat)
  | mark
  | tag (a : Address)
  | indent (level : Nat)
  | rule
  | text (style : Style) (text : String)
  | plain (text : String)
  | address (a : Address) (sec : Option Section) (colon ownStyle : Bool)
  | valueAddress (a : Address)
  | dataByte (b : Option UInt8)
  | bad (a : Address) (level : Nat) (sec : Option Section)
  | label (a : Address) (colon noColor : Bool)
  | operandLabel (a : Address)
  | labelOrAddress (a : Address) (level : Nat) (sec : Option Section) (colon : Bool)
  | heading (a : Address) (level : Nat) (sec : Option Section) (colon echoed : Bool)
  | immediate (v : Int64) (size : UInt64) (sec : Option Section) (o : ImmediateOptions)
  | commentsAbove (i : Instruction) (level : Nat)
  | commentsBeside (i : Instruction)
  | rawBytes (i : Instruction) (echoed : Bool)
  | addressIfColored (i : Instruction) (level : Nat) (sec : Option Section)
  | echoMerged (jump fused : Option Instruction) (level : Nat) (sec : Option Section)
  | instruction (i : Instruction) (level : Nat) (sec : Option Section) (echoed : Bool)
  | block (is : List Instruction) (level : Nat) (sec : Option Section)
  | condition (jump : Instruction) (fused : Option Instruction)
  | operand (i : Instruction) (n : Nat) (hexa brackets : Bool)
  | printInstruction (i : Instruction) (level : Nat)
  | locals
  | tree (t : Tree) (level : Nat)

/-- Appends tokens that may be missing, and answers whether they were there. -/
def Listing.put? (l : Listing) : Option (List Token) → Outcome (Option Bool)
  | some ts => ⟨l.put ts, .ok (some true)⟩
  | none => ⟨l, .ok (some false)⟩

namespace Pass

variable (p : Pass)

/-- Carries out one step; the answer is the flag of a step that reports one. -/
def run (l : Listing) : Operation → Outcome (Option Bool)
  | .newLine => wrote l.newLine
  | .padTo column => wrote (l.padTo column)
  | .mark => wrote l.mark
  | .tag a => wrote (l.tag a)
  | .indent level => wrote (l.put (p.indent level))
  | .rule => wrote (l.putLine p.ruleLine)
  | .text style text => wrote (l.put [p.styled style text])
  | .plain text => wrote (l.put [.plain text])
  | .address a sec colon ownStyle => wrote (l.put (p.address a sec colon ownStyle))
  | .valueAddress a => wrote (l.put (p.valueAddress a))
  | .dataByte b => wrote (l.put (p.dataByte b))
  | .bad a level sec => wrote (l.putLine (p.badLine a level sec))
  | .label a colon noColor => l.put? (p.label a colon noColor)
  | .operandLabel a => l.put? (p.operandLabel a)
  | .labelOrAddress a level sec colon => wrote (l.put (p.labelOrAddress a level sec colon))
  | .heading a level sec colon echoed => wrote (p.heading a level sec colon echoed l)
  | .immediate v size sec o =>
    let written := p.immediate v size sec o
    ⟨l.put written.1, .ok (some written.2)⟩
  | .commentsAbove i level => wrote (p.commentsAbove i level l)
  | .commentsBeside i => wrote (p.commentsBeside i l)
  | .rawBytes i echoed => wrote (l.put (p.rawBytes i echoed))
  | .addressIfColored i level sec => wrote (l.put (p.addressIfColored i level sec))
  | .echoMerged jump fused level sec => wrote (p.echoMerged jump fused level sec l)
  | .instruction i level sec echoed =>
    if echoed then wrote (p.echo i level sec l) else silently (p.visit i level sec l)
  | .block is level sec => silently (p.visitAll level sec is l)
  | .condition jump fused => silently (p.printCondition jump fused l)
  | .operand i n hexa brackets => reporting (p.printOperand i n hexa brackets l)
  | .printInstruction i level => reporting (p.printInstruction i level l)
  | .locals => wrote (p.writeLocals l)
  | .tree t level => silently (p.write level t l)
where
  wrote (l : Listing) : Outcome (Option Bool) := ⟨l, .ok none⟩
  silently (o : Outcome Unit) : Outcome (Option Bool) := ⟨o.listing, o.result.map fun _ => none⟩
  reporting (o : Outcome Bool) : Outcome (Option Bool) := ⟨o.listing, o.result.map some⟩

/-- Carries out steps one after another, each on what the one before it left, failed or not. -/
def runAll (l : Listing) (ops : List Operation) : Listing := ops.foldl (fun l op => (p.run l op).listing) l

end Pass

end AsmListing
