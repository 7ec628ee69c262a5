/-
  AsmListing.Proofs.Growth — what an operation can do to a listing, wherever it stands: it
  appends tokens to the current line, starts lines, marks the current line, and tags it
  (`Listing.Grows`). Each operation does these and nothing else, whether it succeeds or
  fails, so what they preserve every run of operations preserves.

  Proved, for every set of characters that holds printable ASCII:
  - `write_grows`: writing a tree grows the listing by tokens made of these characters,
    provided that the texts supplied are.
  - `run_grows`: so does any operation, provided that a byte of data it shows is too.
  - `Grows.holds`: a listing that grew holds the tokens it held, and of the new ones
    only such as were allowed.
-/

import AsmListing.Proofs.Characters
import AsmListing.Listing.Operation

namespace AsmListing

open Text

/-! ## Growing -/

namespace Listing

/-- `l` with lines, marks, tags and tokens added, all tokens as `P` allows. -/
inductive Grows (P : Token → Prop) (l : Listing) : Listing → Prop
  | refl : Grows P l l
  | put {m : Listing} (h : Grows P l m) {ts : List Token} (hts : ∀ t ∈ ts, P t) : Grows P l (m.put ts)
  | newLine {m : Listing} (h : Grows P l m) : Grows P l m.newLine
  | mark {m : Listing} (h : Grows P l m) : Grows P l m.mark
  | tag {m : Listing} (h : Grows P l m) (a : Address) : Grows P l (m.tag a)

namespace Grows

variable {P : Token → Prop} {l m : Listing}

theorem putLine (h : Grows P l m) {ts : List Token} (hts : ∀ t ∈ ts, P t) : Grows P l (m.putLine ts) :=
  (h.put hts).newLine

theorem padTo (h : Grows P l m) (hspaces : ∀ n, P (.spaces n)) (column : Nat) : Grows P l (m.padTo column) := by
  by_cases hshort : m.page.cursor < column
  · have hput : m.padTo column = m.put [.spaces (column - m.page.cursor)] := by
      simp only [Listing.padTo, Page.padTo, if_pos hshort]; rfl
    rw [hput]
    exact h.put (List.forall_mem_singleton.mpr (hspaces _))
  · have hsame : m.padTo column = m := by
      simp only [Listing.padTo, Page.padTo, if_neg hshort]
    rw [hsame]
    exact h

/-- What grows at each step grows over all of them. -/
theorem foldl {α : Type} {f : Listing → α → Listing} {xs : List α}
    (hf : ∀ x ∈ xs, ∀ m, Grows P l m → Grows P l (f m x)) (h : Grows P l m) : Grows P l (xs.foldl f m) := by
  induction xs generalizing m with
  | nil => exact h
  | cons x xs ih =>
    have hx := hf x List.mem_cons_self m h
    exact ih (fun y hy => hf y (List.mem_cons_of_mem _ hy)) hx

theorem andThen {α β : Type} {o : Outcome α} {next : α → Listing → Outcome β} (h : Grows P l o.listing)
    (hnext : ∀ a m, Grows P l m → Grows P l (next a m).listing) : Grows P l (o.andThen next).listing := by
  unfold Outcome.andThen
  split
  · exact hnext _ _ h
  · exact h

end Grows

/-! ### Tokens held -/

/-- Some line of the listing has the token. -/
def Holds (l : Listing) (t : Token) : Prop := ∃ line ∈ l.page.newest, t ∈ line.tokens

theorem put_holds (l : Listing) (ts : List Token) (t : Token) : (l.put ts).Holds t ↔ l.Holds t ∨ t ∈ ts := by
  obtain ⟨⟨newest⟩, ix⟩ := l
  cases newest with
  | cons line above =>
    simp only [Listing.put, Page.append_current, Holds, Line.extend, List.mem_cons, exists_eq_or_imp, List.mem_append]
    exact or_right_comm
  | nil =>
    cases ts with
    | nil => simp [Holds]
    | cons u us =>
      -- the first token starts a line, and the rest goes behind it
      have hput : (Listing.mk ⟨[]⟩ ix).put (u :: us) = ⟨⟨[Line.extend {} (u :: us)]⟩, ix⟩ := by
        have hfirst : (Listing.mk ⟨[]⟩ ix).put (u :: us) = (Listing.mk ⟨[Line.extend {} [u]]⟩ ix).put us := rfl
        rw [hfirst]
        simp only [Listing.put, Page.append_current, Line.extend_extend, List.singleton_append]
      rw [hput]
      simp [Holds, Line.extend]

theorem newLine_holds (l : Listing) (t : Token) : l.newLine.Holds t ↔ l.Holds t := by
  simp [Holds, Listing.newLine, Page.newLine]

theorem mark_holds (l : Listing) (t : Token) : l.mark.Holds t ↔ l.Holds t := by
  obtain ⟨⟨newest⟩, ix⟩ := l
  cases newest with
  | nil => rfl
  | cons line above => simp [Holds, Listing.mark, Page.mark, Line.markHere]

theorem tag_holds (l : Listing) (a : Address) (t : Token) : (l.tag a).Holds t ↔ l.Holds t := by
  by_cases hempty : l.page.lineCount = 0
  · have htag : (l.tag a).page = l.page.newLine := by simp only [Listing.tag, if_pos hempty]
    rw [Holds, htag]
    exact newLine_holds l t
  · have htag : (l.tag a).page = l.page := by simp only [Listing.tag, if_neg hempty]
    rw [Holds, htag]
    rfl

/-- Nothing is taken back, and what is added is as allowed. -/
theorem Grows.holds {P : Token → Prop} {l m : Listing} (h : Grows P l m) (t : Token) :
    (l.Holds t → m.Holds t) ∧ (m.Holds t → l.Holds t ∨ P t) := by
  induction h with
  | refl => exact ⟨id, Or.inl⟩
  | put _ hts ih =>
    rw [put_holds]
    refine ⟨fun hl => Or.inl (ih.1 hl), fun hm => ?_⟩
    rcases hm with hm | hm
    · exact ih.2 hm
    · exact Or.inr (hts t hm)
  | newLine _ ih => rw [newLine_holds]; exact ih
  | mark _ ih => rw [mark_holds]; exact ih
  | tag _ a ih => rw [tag_holds]; exact ih

end Listing

open Listing

/-! ## Instructions -/

namespace Scene

variable {T : Char → Prop} (hT : ∀ c, Printed c → T c) {s : Scene} {l m : Listing}

include hT

theorem commentGroup_grows (h : Grows (Token.Within T) l m) (level : Nat) (style : Style) {texts : List String}
    (htexts : ∀ text ∈ texts, Text.Within T text) : Grows (Token.Within T) l (s.commentGroup level style texts m) := by
  unfold commentGroup
  split
  · exact h
  · refine Grows.foldl (fun text htext m hm => hm.putLine (commentLine_within hT level style (htexts text htext))) ?_
    split
    · exact h.newLine
    · exact h

variable (hs : s.Within T)

include hs

theorem commentsAbove_grows (h : Grows (Token.Within T) l m) (i : Instruction) (level : Nat) :
    Grows (Token.Within T) l (s.commentsAbove i level m) :=
  commentGroup_grows hT (commentGroup_grows hT h level .internalComment (hs.internalAbove i.address)) level
    .userComment (hs.userAbove i.address)

theorem commentsBeside_grows (h : Grows (Token.Within T) l m) (i : Instruction) :
    Grows (Token.Within T) l (s.commentsBeside i m) :=
  h.mark.put (List.forall_mem_append.mpr
    ⟨commentBeside_within hT .userComment (hs.userBeside i.address),
      commentBeside_within hT .internalComment (hs.internalBeside i.address)⟩)

theorem writeLocals_grows (h : Grows (Token.Within T) l m) : Grows (Token.Within T) l (s.writeLocals m) :=
  Grows.foldl (fun v hv _ hm => hm.putLine (localLine_within hT (hs.locals v hv))) h

omit hT hs in
theorem none_within : ∀ x ∈ (none : Option Section), Text.Within T x.name := nofun

variable {sec : Option Section} (hsec : ∀ x ∈ sec, Text.Within T x.name)

include hsec

theorem heading_grows (h : Grows (Token.Within T) l m) (a : Address) (level : Nat) (colon echoed : Bool) :
    Grows (Token.Within T) l (s.heading a level sec colon echoed m) := by
  have hstart : ∀ t ∈ s.indent level ++ s.echoMark echoed, t.Within T :=
    List.forall_mem_append.mpr ⟨indent_within hT level, echoMark_within hT echoed⟩
  unfold heading
  simp only
  split
  · exact h.put (List.forall_mem_append.mpr ⟨hstart, address_within hT a hsec colon false⟩)
  · rename_i label hlabel
    have hlabel := headingLabel_within hT hs hlabel
    split
    · refine (h.putLine (List.forall_mem_append.mpr ⟨indent_within hT level, hlabel⟩)).put ?_
      exact List.forall_mem_append.mpr ⟨hstart, address_within hT a hsec colon true⟩
    · refine h.put (List.forall_mem_append.mpr ⟨List.forall_mem_append.mpr ⟨hstart, hlabel⟩, ?_⟩)
      split
      · have hblank : Text.Within T " " := .of_printed hT (by decide)
        exact List.forall_mem_singleton.mpr hblank
      · nofun

theorem echo_grows (h : Grows (Token.Within T) l m) {i : Instruction} (hi : i.Within T) (level : Nat) :
    Grows (Token.Within T) l (s.echo i level sec m) := by
  have hheaded := heading_grows hT hs hsec (commentsAbove_grows hT hs h i level) i.address level true true
  have htext : (s.styled .comment i.text).Within T := instructionText_within hT hi
  have hcode : ∀ t ∈ s.rawBytes i true ++ [s.styled .comment i.text], t.Within T :=
    List.forall_mem_append.mpr ⟨rawBytes_within hT i true, List.forall_mem_singleton.mpr htext⟩
  exact (commentsBeside_grows hT hs ((hheaded.tag i.address).put hcode) i).newLine

theorem echoMerged_grows (h : Grows (Token.Within T) l m) {jump fused : Option Instruction}
    (hjump : ∀ i ∈ jump, i.Within T) (hfused : ∀ i ∈ fused, i.Within T) (level : Nat) :
    Grows (Token.Within T) l (s.echoMerged jump fused level sec m) := by
  have hparts : ∀ i ∈ fused.toList ++ jump.toList, i.Within T := by
    intro i hi
    rcases List.mem_append.mp hi with hi | hi
    · exact hfused i (Option.mem_toList.mp hi)
    · exact hjump i (Option.mem_toList.mp hi)
  unfold echoMerged
  simp only
  split
  · exact Grows.foldl (fun i hi m hm => echo_grows hT hs hsec hm (hparts i hi) level) h
  · refine h.put fun t ht => ?_
    obtain ⟨i, _, ht⟩ := List.mem_flatMap.mp ht
    exact addressIfColored_within hT i level hsec t ht

end Scene

namespace Pass

variable {T : Char → Prop} (hT : ∀ c, Printed c → T c) {p : Pass} (hs : p.toScene.Within T) (ho : p.operands.Within T)
  {l m : Listing}

include hs ho

theorem printInstruction_grows (h : Grows (Token.Within T) l m) {i : Instruction} (hi : i.Within T) (level : Nat) :
    Grows (Token.Within T) l (p.printInstruction i level m).listing := by
  unfold printInstruction call
  split
  · rename_i f hf
    exact h.put (ho.instruction f hf p.toScene i level hs hi)
  · exact h

theorem printOperand_grows (h : Grows (Token.Within T) l m) {i : Instruction} (hi : i.Within T) (n : Nat)
    (hexa brackets : Bool) : Grows (Token.Within T) l (p.printOperand i n hexa brackets m).listing := by
  unfold printOperand call
  split
  · rename_i f hf
    exact h.put (ho.operand f hf p.toScene i n hexa brackets hs hi)
  · exact h

theorem printCondition_grows (h : Grows (Token.Within T) l m) {jump : Instruction} (hjump : jump.Within T)
    {fused : Option Instruction} (hfused : ∀ i ∈ fused, i.Within T) :
    Grows (Token.Within T) l (p.printCondition jump fused m).listing := by
  unfold printCondition call
  split
  · rename_i f hf
    exact h.put (ho.condition f hf p.toScene jump fused hs hjump hfused)
  · exact h

include hT

theorem ownLine_grows (h : Grows (Token.Within T) l m) {i : Instruction} (hi : i.Within T) (level : Nat)
    {sec : Option Section} (hsec : ∀ x ∈ sec, Text.Within T x.name) :
    Grows (Token.Within T) l (p.ownLine i level sec m).listing := by
  have hheading : Grows (Token.Within T) l (p.ownHeading i level sec m) := by
    unfold ownHeading
    split
    · exact (Scene.heading_grows hT hs hsec h i.address level true false).put (Scene.rawBytes_within hT i false)
    · exact h.put (List.forall_mem_append.mpr
        ⟨Scene.indent_within hT level, Scene.address_within hT i.address hsec true false⟩)
  refine Grows.andThen (printInstruction_grows hs ho (hheading.tag i.address) hi level) fun _ m hm => ?_
  exact (Scene.commentsBeside_grows hT hs hm i).newLine

theorem visit_grows (h : Grows (Token.Within T) l m) {i : Instruction} (hi : i.Within T) (level : Nat)
    {sec : Option Section} (hsec : ∀ x ∈ sec, Text.Within T x.name) :
    Grows (Token.Within T) l (p.visit i level sec m).listing := by
  have habove := Scene.commentsAbove_grows hT hs h i level
  unfold visit
  simp only
  split
  · exact habove
  · exact ownLine_grows hT hs ho habove hi level hsec

theorem visitAll_grows (h : Grows (Token.Within T) l m) (level : Nat) {sec : Option Section}
    (hsec : ∀ x ∈ sec, Text.Within T x.name) {is : List Instruction} (his : ∀ i ∈ is, i.Within T) :
    Grows (Token.Within T) l (p.visitAll level sec is m).listing := by
  induction is generalizing m with
  | nil => exact h
  | cons i is ih =>
    have hown : ∀ x ∈ sec <|> p.binary.sectionOf i.address, Text.Within T x.name := by
      cases sec with
      | none => exact hs.sections i.address
      | some _ => exact hsec
    refine Grows.andThen (visit_grows hT hs ho h (his i List.mem_cons_self) level hown) fun _ m hm => ?_
    exact ih hm fun j hj => his j (List.mem_cons_of_mem _ hj)

end Pass

/-! ## Trees -/

namespace Tree

mutual

/-- All texts of the tree's instructions are within `T`. -/
def Within (T : Char → Prop) : Tree → Prop
  | .block instructions => ∀ i ∈ instructions, i.Within T
  | .seq parts => AllWithin T parts
  | .cond jump fused body => jump.Within T ∧ (∀ i ∈ fused, i.Within T) ∧ Within T body
  | .unwritable => True

def AllWithin (T : Char → Prop) : List Tree → Prop
  | [] => True
  | t :: rest => Within T t ∧ AllWithin T rest

end

end Tree

namespace Pass

variable {T : Char → Prop} (hT : ∀ c, Printed c → T c) {p : Pass} (hs : p.toScene.Within T) (ho : p.operands.Within T)

include hT hs ho

theorem openCond_grows {l m : Listing} (h : Grows (Token.Within T) l m) {jump : Instruction} (hjump : jump.Within T)
    {fused : Option Instruction} (hfused : ∀ i ∈ fused, i.Within T) (level : Nat) :
    Grows (Token.Within T) l (p.openCond jump fused level m).listing := by
  have hif : (p.styled .keyword "if ").Within T := Text.Within.of_printed (a := "if ") hT (by decide)
  have hopen : (Token.plain " \x7b").Within T := Text.Within.of_printed (a := " \x7b") hT (by decide)
  have hsome : ∀ i ∈ some jump, i.Within T := by
    intro i hi
    cases hi
    exact hjump
  have hmerged : Grows (Token.Within T) l (p.echoMerged (some jump) fused level none m) :=
    Scene.echoMerged_grows hT hs Scene.none_within h hsome hfused level
  have hstart : ∀ t ∈ p.indent level ++ [p.styled .keyword "if "], t.Within T :=
    List.forall_mem_append.mpr ⟨Scene.indent_within hT level, List.forall_mem_singleton.mpr hif⟩
  refine Grows.andThen (printCondition_grows hs ho (hmerged.put hstart) hjump hfused) fun _ m hm => ?_
  exact hm.putLine (List.forall_mem_singleton.mpr hopen)

end Pass

namespace Pass

variable {T : Char → Prop} {p : Pass}

mutual

theorem write_grows (hT : ∀ c, Printed c → T c) (hs : p.toScene.Within T) (ho : p.operands.Within T) {l m : Listing}
    (h : Grows (Token.Within T) l m) (level : Nat) (t : Tree) (ht : t.Within T) :
    Grows (Token.Within T) l (p.write level t m).listing := by
  match t with
  | .block instructions =>
    rw [Tree.Within] at ht
    rw [write]
    exact visitAll_grows hT hs ho h level Scene.none_within ht
  | .seq parts =>
    rw [Tree.Within] at ht
    rw [write]
    exact writeAll_grows hT hs ho h level parts ht
  | .cond jump fused body =>
    rw [Tree.Within] at ht
    obtain ⟨hjump, hfused, hbody⟩ := ht
    have hclose : (Token.plain "\x7d").Within T := Text.Within.of_printed (a := "\x7d") hT (by decide)
    rw [write]
    refine Grows.andThen (openCond_grows hT hs ho h hjump hfused level) fun _ m hm => ?_
    refine Grows.andThen (write_grows hT hs ho hm (level + 1) body hbody) fun _ m hm => ?_
    exact hm.putLine (List.forall_mem_append.mpr
      ⟨Scene.indent_within hT level, List.forall_mem_singleton.mpr hclose⟩)
  | .unwritable => rw [write]; exact h

theorem writeAll_grows (hT : ∀ c, Printed c → T c) (hs : p.toScene.Within T) (ho : p.operands.Within T)
    {l m : Listing} (h : Grows (Token.Within T) l m) (level : Nat) (ts : List Tree) (hts : Tree.AllWithin T ts) :
    Grows (Token.Within T) l (p.writeAll level ts m).listing := by
  match ts with
  | [] => rw [writeAll]; exact h
  | t :: rest =>
    rw [Tree.AllWithin] at hts
    rw [writeAll]
    refine Grows.andThen (write_grows hT hs ho h level t hts.1) fun _ m hm => ?_
    exact writeAll_grows hT hs ho hm level rest hts.2

end

end Pass

/-! ## Operations -/

/-- All texts that the operation is given are within `T`. A byte of data is not a text. -/
def Operation.Within (T : Char → Prop) : Operation → Prop
  | .newLine | .padTo _ | .mark | .tag _ | .indent _ | .rule | .valueAddress _ | .dataByte _ | .label _ _ _
  | .operandLabel _ | .locals => True
  | .text _ shown => Text.Within T shown
  | .plain shown => Text.Within T shown
  | .address _ sec _ _ | .bad _ _ sec | .labelOrAddress _ _ sec _ | .heading _ _ sec _ _ | .immediate _ _ sec _
  | .addressIfColored _ _ sec => ∀ x ∈ sec, Text.Within T x.name
  | .commentsAbove i _ | .commentsBeside i | .rawBytes i _ | .operand i _ _ _ | .printInstruction i _ => i.Within T
  | .echoMerged jump fused _ sec =>
    (∀ i ∈ jump, i.Within T) ∧ (∀ i ∈ fused, i.Within T) ∧ ∀ x ∈ sec, Text.Within T x.name
  | .instruction i _ sec _ => i.Within T ∧ ∀ x ∈ sec, Text.Within T x.name
  | .block is _ sec => (∀ i ∈ is, i.Within T) ∧ ∀ x ∈ sec, Text.Within T x.name
  | .condition jump fused => jump.Within T ∧ ∀ i ∈ fused, i.Within T
  | .tree t _ => t.Within T

namespace Pass

variable {T : Char → Prop} (hT : ∀ c, Printed c → T c) {p : Pass} (hs : p.toScene.Within T) (ho : p.operands.Within T)

include hT hs ho

/-- An operation grows the listing by tokens within `T`. The byte of data it may show has
    to be within `T` itself. -/
theorem run_grows {l m : Listing} (h : Grows (Token.Within T) l m) {op : Operation} (hop : op.Within T)
    (hbyte : ∀ b, op = .dataByte (some b) → isPrintable b = true → T (Char.ofUInt8 b)) :
    Grows (Token.Within T) l (p.run m op).listing := by
  cases op with
  | newLine => exact h.newLine
  | padTo column => exact h.padTo (Scene.spaces_within hT) column
  | mark => exact h.mark
  | tag a => exact h.tag a
  | indent level => exact h.put (Scene.indent_within hT level)
  | rule => exact h.putLine (Scene.ruleLine_within hT)
  | text style shown =>
    have hshown : (p.styled style shown).Within T := hop
    exact h.put (List.forall_mem_singleton.mpr hshown)
  | plain shown =>
    have hshown : (Token.plain shown).Within T := hop
    exact h.put (List.forall_mem_singleton.mpr hshown)
  | address a sec colon ownStyle => exact h.put (Scene.address_within hT a hop colon ownStyle)
  | valueAddress a => exact h.put (Scene.valueAddress_within hT a)
  | dataByte b =>
    refine h.put (Scene.dataByte_within hT fun x hx hprintable => ?_)
    cases hx
    exact hbyte x rfl hprintable
  | bad a level sec => exact h.putLine (Scene.badLine_within hT a level hop)
  | label a colon noColor =>
    simp only [run]
    cases hl : p.label a colon noColor with
    | none => exact h
    | some ts => exact h.put (Scene.label_within hT hs hl)
  | operandLabel a =>
    simp only [run]
    cases hl : p.operandLabel a with
    | none => exact h
    | some ts => exact h.put (Scene.operandLabel_within hT hs hl)
  | labelOrAddress a level sec colon => exact h.put (Scene.labelOrAddress_within hT hs a level hop colon)
  | heading a level sec colon echoed => exact Scene.heading_grows hT hs hop h a level colon echoed
  | immediate v size sec o => exact h.put (Scene.immediate_within hT hs v size sec o)
  | commentsAbove i level => exact Scene.commentsAbove_grows hT hs h i level
  | commentsBeside i => exact Scene.commentsBeside_grows hT hs h i
  | rawBytes i echoed => exact h.put (Scene.rawBytes_within hT i echoed)
  | addressIfColored i level sec => exact h.put (Scene.addressIfColored_within hT i level hop)
  | echoMerged jump fused level sec => exact Scene.echoMerged_grows hT hs hop.2.2 h hop.1 hop.2.1 level
  | instruction i level sec echoed =>
    cases echoed with
    | true => exact Scene.echo_grows hT hs hop.2 h hop.1 level
    | false => exact visit_grows hT hs ho h hop.1 level hop.2
  | block is level sec => exact visitAll_grows hT hs ho h level hop.2 hop.1
  | condition jump fused => exact printCondition_grows hs ho h hop.1 hop.2
  | operand i n hexa brackets => exact printOperand_grows hs ho h hop n hexa brackets
  | printInstruction i level => exact printInstruction_grows hs ho h hop level
  | locals => exact Scene.writeLocals_grows hT hs h
  | tree t level => exact write_grows hT hs ho h level t hop

end Pass

end AsmListing
