/-
  AsmListing.Proofs.Characters — the characters a line is made of. Texts that a scene, an
  instruction or a caller supplies are taken over; what is added to them, such as digits,
  marks and made-up names, is printable ASCII (`Text.Printed`). So where all texts supplied
  keep within some set of characters that holds printable ASCII, every fragment of a line
  does (`Token.Within`).

  The one exception is a byte of data, which is shown as its character even where that is
  white space (`dataByte_within`). Bytes inside literals are escaped (`Literal.choose_printed`).

  Proved, for every set of characters that holds printable ASCII:
  - `label_within`, `address_within`, `immediate_within` and their like: one for each fragment.
  - `generic_within` / `bare_within`: the printers at hand keep within it too.
-/

import AsmListing.Listing.Function

namespace AsmListing

/-! ## Printable ASCII -/

namespace Text

/-- A blank or a visible character of ASCII. -/
def Printed (c : Char) : Prop := 0x20 ≤ c.toNat ∧ c.toNat ≤ 0x7e

instance (c : Char) : Decidable (Printed c) := inferInstanceAs (Decidable (_ ∧ _))

/-- All characters of the text are of `T`. -/
def Within (T : Char → Prop) (text : String) : Prop := ∀ c ∈ text.toList, T c

instance (T : Char → Prop) [DecidablePred T] (text : String) : Decidable (Within T text) :=
  List.decidableBAll T text.toList

namespace Within

variable {T : Char → Prop} {a b : String}

theorem append (ha : Within T a) (hb : Within T b) : Within T (a ++ b) := by
  intro c hc
  rw [String.toList_append, List.mem_append] at hc
  rcases hc with hc | hc
  · exact ha c hc
  · exact hb c hc

theorem ofList {cs : List Char} (h : ∀ c ∈ cs, T c) : Within T (String.ofList cs) := by
  intro c hc
  rw [String.toList_ofList] at hc
  exact h c hc

theorem of_printed (hT : ∀ c, Printed c → T c) (h : Within Printed a) : Within T a :=
  fun c hc => hT c (h c hc)

end Within

theorem mem_intercalate {α : Type} {sep : List α} {ls : List (List α)} {x : α} (h : x ∈ List.intercalate sep ls) :
    x ∈ sep ∨ ∃ l ∈ ls, x ∈ l := by
  induction ls with
  | nil => cases h
  | cons l ls ih =>
    cases ls with
    | nil =>
      rw [List.intercalate_singleton] at h
      exact Or.inr ⟨l, List.mem_cons_self, h⟩
    | cons m ls =>
      rw [List.intercalate_cons_cons, List.mem_append, List.mem_append] at h
      rcases h with (h | h) | h
      · exact Or.inr ⟨l, List.mem_cons_self, h⟩
      · exact Or.inl h
      · rcases ih h with h | ⟨k, hk, hx⟩
        · exact Or.inl h
        · exact Or.inr ⟨k, List.mem_cons_of_mem _ hk, hx⟩

/-! ### Numbers -/

theorem mem_toDigits {b n : Nat} (hb : 1 < b) {c : Char} (h : c ∈ Nat.toDigits b n) :
    ∃ d < b, c = d.digitChar := by
  induction n using Nat.strongRecOn with
  | ind n ih =>
    rw [Nat.toDigits_eq_if hb] at h
    by_cases hn : n < b
    · rw [if_pos hn, List.mem_singleton] at h
      exact ⟨n, hn, h⟩
    · rw [if_neg hn, List.mem_append, List.mem_singleton] at h
      rcases h with h | h
      · have hsmaller : n / b < n := Nat.div_lt_self (by omega) hb
        exact ih (n / b) hsmaller h
      · exact ⟨n % b, Nat.mod_lt n (by omega), h⟩

theorem digitChar_printed : ∀ d < 16, Printed d.digitChar := by decide

theorem hexDigits_printed (n : Nat) : ∀ c ∈ Numeral.hexDigits n, Printed c := by
  intro c hc
  obtain ⟨d, hd, rfl⟩ := mem_toDigits (by omega) hc
  exact digitChar_printed d hd

theorem decimalDigits_printed (n : Nat) : ∀ c ∈ Numeral.decimalDigits n, Printed c := by
  intro c hc
  obtain ⟨d, hd, rfl⟩ := mem_toDigits (by omega) hc
  exact digitChar_printed d (by omega)

theorem padZero_printed {digits : List Char} (h : ∀ c ∈ digits, Printed c) (width : Nat) :
    ∀ c ∈ Numeral.padZero width digits, Printed c := by
  intro c hc
  rcases List.mem_append.mp hc with hc | hc
  · rw [List.eq_of_mem_replicate hc]
    decide
  · exact h c hc

theorem marked_printed (n : Nat) : ∀ c ∈ Numeral.marked n, Printed c := by
  intro c hc
  rcases List.mem_cons.mp hc with rfl | hc
  · decide
  · rcases List.mem_cons.mp hc with rfl | hc
    · decide
    · exact hexDigits_printed n c hc

theorem signed_printed {digits : Nat → List Char} (h : ∀ n, ∀ c ∈ digits n, Printed c) (v : Int) :
    ∀ c ∈ Numeral.signed digits v, Printed c := by
  intro c hc
  rw [Numeral.signed] at hc
  split at hc
  · rcases List.mem_cons.mp hc with rfl | hc
    · decide
    · exact h _ c hc
  · exact h _ c hc

theorem hex_printed (n : Nat) : Within Printed (Numeral.hex n) := .ofList (hexDigits_printed n)

theorem hexByte_printed (b : UInt8) : Within Printed (Numeral.hexByte b) :=
  .ofList (padZero_printed (hexDigits_printed _) 2)

theorem decimal_printed (v : Int) : Within Printed (Numeral.decimal v) :=
  .ofList (signed_printed decimalDigits_printed v)

theorem signedHex_printed (v : Int) : Within Printed (Numeral.signedHex v) :=
  .ofList (signed_printed marked_printed v)

/-! ### Bytes -/

theorem toNat_ofUInt8 (b : UInt8) : (Char.ofUInt8 b).toNat = b.toNat := rfl

theorem hexEscape_printed (code : Nat) : ∀ c ∈ hexEscape code, Printed c := by
  intro c hc
  rcases List.mem_cons.mp hc with rfl | hc
  · decide
  · rcases List.mem_cons.mp hc with rfl | hc
    · decide
    · exact padZero_printed (hexDigits_printed _) 2 c hc

theorem backslashed_printed {c : Char} (h : Printed c) : ∀ d ∈ ['\\', c], Printed d :=
  List.forall_mem_cons.mpr ⟨by decide, List.forall_mem_singleton.mpr h⟩

/-- Escaping leaves printable ASCII of what is such, or of controls. -/
theorem escapeChar_printed {c : Char} (h : Printed c ∨ isControl c = true) : ∀ d ∈ escapeChar c, Printed d := by
  unfold escapeChar
  split
  · exact backslashed_printed (by decide)
  · exact backslashed_printed (by decide)
  · exact backslashed_printed (by decide)
  · exact backslashed_printed (by decide)
  · exact backslashed_printed (by decide)
  · split
    · exact hexEscape_printed _
    · rename_i hcontrol
      intro d hd
      rw [List.mem_singleton.mp hd]
      exact h.resolve_right hcontrol

theorem quotedByte_printed (b : UInt8) : Within Printed (quotedByte b) := by
  refine .ofList ?_
  split
  · exact backslashed_printed (by decide)
  · exact backslashed_printed (by decide)
  · exact backslashed_printed (by decide)
  · exact backslashed_printed (by decide)
  · exact backslashed_printed (by decide)
  · split
    · rename_i hb
      intro c hc
      rw [List.mem_singleton.mp hc]
      simpa [Printed, toNat_ofUInt8, UInt8.le_iff_toNat_le] using hb
    · exact hexEscape_printed _

/-- A printable byte is printable ASCII or one of the controls that are white space. -/
theorem ofUInt8_printed {b : UInt8} (h : isPrintable b = true) :
    Printed (Char.ofUInt8 b) ∨ isControl (Char.ofUInt8 b) = true := by
  simp only [isPrintable, Bool.or_eq_true, Bool.and_eq_true, decide_eq_true_eq, UInt8.le_iff_toNat_le] at h
  rcases h with h | h
  · left
    simpa [Printed, toNat_ofUInt8] using h
  · right
    have hsmall : b.toNat < 0x20 := by
      have := h.2
      simp at this
      omega
    simp [isControl, toNat_ofUInt8, hsmall]

theorem escape_packed_printed {v : Int64} {size : UInt64} {text : String} (h : packed? v size = some text) :
    Within Printed (escape text) := by
  unfold packed? at h
  split at h
  · simp only at h
    split at h
    · rename_i hall
      cases h
      refine .ofList fun d hd => ?_
      obtain ⟨c, hc, hd⟩ := List.mem_flatMap.mp hd
      rw [ofBytes, String.toList_ofList] at hc
      obtain ⟨b, hb, rfl⟩ := List.mem_map.mp hc
      exact escapeChar_printed (ofUInt8_printed (List.all_eq_true.mp hall b hb)) d hd
    · cases h
  · cases h

end Text

open Text

/-- However a number is written, it is written in printable ASCII. -/
theorem Literal.choose_printed (v : Int64) (size : UInt64) (hexa : Bool) :
    Within Printed (Literal.choose v size hexa).text := by
  have hquote : Within Printed "'" := by decide
  have hdouble : Within Printed "\"" := by decide
  unfold Literal.choose
  split
  · exact (hquote.append (quotedByte_printed _)).append hquote
  · split
    · exact signedHex_printed _
    · split
      · split
        · rename_i text htext
          exact (hdouble.append (escape_packed_printed htext)).append hdouble
        · exact decimal_printed _
      · exact decimal_printed _

/-! ## Texts supplied -/

/-- All characters of the token are of `T`. -/
def Token.Within (T : Char → Prop) (t : Token) : Prop := Text.Within T t.text

instance (T : Char → Prop) [DecidablePred T] (t : Token) : Decidable (t.Within T) :=
  inferInstanceAs (Decidable (Text.Within T t.text))

def Operand.Within (T : Char → Prop) : Operand → Prop
  | .register name => Text.Within T name
  | .immediate _ _ => True
  | .memory base index _ _ => (∀ r ∈ base, Text.Within T r) ∧ ∀ r ∈ index, Text.Within T r

structure Instruction.Within (T : Char → Prop) (i : Instruction) : Prop where
  mnemonic : Text.Within T i.mnemonic
  operandText : Text.Within T i.operandText
  operands : ∀ o ∈ i.operands, o.Within T

/-- All texts that the binary, the analysis and the context supply are within `T`. -/
structure Scene.Within (T : Char → Prop) (s : Scene) : Prop where
  symbols : ∀ a, ∀ name ∈ s.binary.symbolAt a, Text.Within T name
  sections : ∀ a, ∀ sec ∈ s.binary.sectionOf a, Text.Within T sec.name
  strings : ∀ a limit, Text.Within T (s.binary.stringAt a limit)
  internalAbove : ∀ a, ∀ text ∈ s.analysis.internalAbove a, Text.Within T text
  userAbove : ∀ a, ∀ text ∈ s.analysis.userAbove a, Text.Within T text
  internalBeside : ∀ a, ∀ text ∈ s.analysis.internalBeside a, Text.Within T text
  userBeside : ∀ a, ∀ text ∈ s.analysis.userBeside a, Text.Within T text
  locals : ∀ v ∈ s.context.locals, Text.Within T v.name

/-- Whatever the hooks answer for texts within `T` is within `T`. -/
structure OperandPrinter.Within (T : Char → Prop) (o : OperandPrinter) : Prop where
  instruction : ∀ f, o.instruction? = some f → ∀ s i level, s.Within T → i.Within T → ∀ t ∈ (f s i level).1, t.Within T
  operand : ∀ f, o.operand? = some f → ∀ s i n hexa brackets, s.Within T → i.Within T →
    ∀ t ∈ (f s i n hexa brackets).1, t.Within T
  condition : ∀ f, o.condition? = some f → ∀ s jump fused, s.Within T → jump.Within T → (∀ i ∈ fused, i.Within T) →
    ∀ t ∈ f s jump fused, t.Within T

/-! ## Fragments -/

namespace Scene

variable {T : Char → Prop} (hT : ∀ c, Printed c → T c) {s : Scene}

include hT

theorem text_within (a : Address) : Text.Within T a.text := .of_printed hT (.ofList (marked_printed _))

theorem hex_within (a : Address) : Text.Within T a.hex := .of_printed hT (hex_printed _)

theorem spaces_within (n : Nat) : (Token.spaces n).Within T := by
  refine .of_printed hT (.ofList fun c hc => ?_)
  rw [List.eq_of_mem_replicate hc]
  decide

theorem indent_within (level : Nat) : ∀ t ∈ s.indent level, t.Within T := by
  unfold indent
  split
  · nofun
  · exact List.forall_mem_singleton.mpr (spaces_within hT _)

theorem sectionTag_within {sec : Option Section} (hsec : ∀ x ∈ sec, Text.Within T x.name) :
    ∀ t ∈ s.sectionTag sec, t.Within T := by
  unfold sectionTag
  split
  · rename_i sec
    split
    · have hblank : Text.Within T " " := .of_printed hT (by decide)
      exact List.forall_mem_cons.mpr ⟨hsec sec rfl, List.forall_mem_singleton.mpr hblank⟩
    · nofun
  · nofun

theorem address_within (a : Address) {sec : Option Section} (hsec : ∀ x ∈ sec, Text.Within T x.name)
    (colon ownStyle : Bool) : ∀ t ∈ s.address a sec colon ownStyle, t.Within T := by
  have htext : Text.Within T (if colon then a.text ++ ": " else a.text) := by
    split
    · exact (text_within hT a).append (.of_printed hT (by decide))
    · exact text_within hT a
  exact List.forall_mem_append.mpr ⟨sectionTag_within hT hsec, List.forall_mem_singleton.mpr htext⟩

theorem valueAddress_within (a : Address) : ∀ t ∈ s.valueAddress a, t.Within T :=
  List.forall_mem_singleton.mpr (text_within hT a)

/-- A printable byte brings in its own character, and nothing else does that. -/
theorem dataByte_within {b : Option UInt8} (hb : ∀ x ∈ b, isPrintable x = true → T (Char.ofUInt8 x)) :
    ∀ t ∈ s.dataByte b, t.Within T := by
  have hstart : Text.Within T ".db" := .of_printed hT (by decide)
  refine List.forall_mem_cons.mpr ⟨hstart, ?_⟩
  split
  · have hunknown : Text.Within T " ?" := .of_printed hT (by decide)
    exact List.forall_mem_singleton.mpr hunknown
  · rename_i b
    have hdigits : Text.Within T (" " ++ Numeral.hexByte b) :=
      .of_printed hT (.append (by decide) (hexByte_printed b))
    refine List.forall_mem_cons.mpr ⟨hdigits, ?_⟩
    split
    · rename_i hprintable
      have hcharacter : Text.Within T (ofBytes [b]) := .ofList (List.forall_mem_singleton.mpr (hb b rfl hprintable))
      have hquoted : Text.Within T ("  '" ++ ofBytes [b] ++ "'") :=
        (Text.Within.append (.of_printed hT (by decide)) hcharacter).append (.of_printed hT (by decide))
      exact List.forall_mem_singleton.mpr hquoted
    · nofun

theorem badLine_within (a : Address) (level : Nat) {sec : Option Section} (hsec : ∀ x ∈ sec, Text.Within T x.name) :
    ∀ t ∈ s.badLine a level sec, t.Within T := by
  have hbad : Text.Within T "(bad)" := .of_printed hT (by decide)
  exact List.forall_mem_append.mpr
    ⟨List.forall_mem_append.mpr ⟨indent_within hT level, address_within hT a hsec true false⟩,
      List.forall_mem_singleton.mpr hbad⟩

theorem ruleLine_within : ∀ t ∈ s.ruleLine, t.Within T := by
  refine List.forall_mem_singleton.mpr ?_
  refine Text.Within.append (.of_printed hT (by decide)) (.of_printed hT (.ofList fun c hc => ?_))
  rw [List.eq_of_mem_replicate hc]
  decide

/-! ### Comments and raw bytes -/

theorem commentLine_within (level : Nat) (style : Style) {text : String} (h : Text.Within T text) :
    ∀ t ∈ s.commentLine level style text, t.Within T := by
  have hcomment : Text.Within T ("; " ++ text) := Text.Within.append (.of_printed hT (by decide)) h
  exact List.forall_mem_append.mpr ⟨indent_within hT level, List.forall_mem_singleton.mpr hcomment⟩

theorem commentBeside_within (style : Style) {text? : Option String} (h : ∀ text ∈ text?, Text.Within T text) :
    ∀ t ∈ s.commentBeside style text?, t.Within T := by
  unfold commentBeside
  split
  · rename_i text
    have hblank : Text.Within T " " := .of_printed hT (by decide)
    have hcomment : Text.Within T ("; " ++ text) := Text.Within.append (.of_printed hT (by decide)) (h text rfl)
    exact List.forall_mem_cons.mpr ⟨hblank, List.forall_mem_singleton.mpr hcomment⟩
  · nofun

theorem echoMark_within (echoed : Bool) : ∀ t ∈ s.echoMark echoed, t.Within T := by
  unfold echoMark
  split
  · have hmark : Text.Within T "# " := .of_printed hT (by decide)
    exact List.forall_mem_singleton.mpr hmark
  · nofun

theorem rawBytes_within (i : Instruction) (echoed : Bool) : ∀ t ∈ s.rawBytes i echoed, t.Within T := by
  have hbytes : ∀ {digits : UInt8 → String}, (∀ b, Text.Within Printed (digits b)) →
      ∀ t ∈ i.bytes.map fun b => s.styled .comment (digits b ++ " "), t.Within T := by
    intro digits hdigits t ht
    obtain ⟨b, _, rfl⟩ := List.mem_map.mp ht
    exact .of_printed hT ((hdigits b).append (by decide))
  unfold rawBytes
  split
  · nofun
  · split
    · split
      · exact hbytes fun b => hex_printed b.toNat
      · nofun
    · exact hbytes hexByte_printed

theorem addressIfColored_within (i : Instruction) (level : Nat) {sec : Option Section}
    (hsec : ∀ x ∈ sec, Text.Within T x.name) : ∀ t ∈ s.addressIfColored i level sec, t.Within T := by
  unfold addressIfColored
  split
  · exact List.forall_mem_append.mpr ⟨indent_within hT level, address_within hT _ hsec true false⟩
  · nofun

theorem instructionText_within {i : Instruction} (hi : i.Within T) : Text.Within T i.text := by
  unfold Instruction.text
  split
  · exact hi.mnemonic
  · exact (hi.mnemonic.append (.of_printed hT (by decide))).append hi.operandText

theorem localLine_within {v : Local} (hv : Text.Within T v.name) : ∀ t ∈ s.localLine v, t.Within T := by
  have htype : Text.Within Printed ("int" ++ Numeral.decimal (v.size * 8).toNat ++ "_t ") :=
    (Text.Within.append (by decide) (decimal_printed _)).append (by decide)
  exact List.forall_mem_append.mpr ⟨indent_within hT 1,
    List.forall_mem_cons.mpr ⟨.of_printed hT htype, List.forall_mem_singleton.mpr hv⟩⟩

theorem literal_within (v : Int64) (size : UInt64) (hexa : Bool) :
    (s.literal (Literal.choose v size hexa)).Within T := by
  have htext := Text.Within.of_printed hT (Literal.choose_printed v size hexa)
  unfold literal
  split
  · exact htext
  · exact htext

/-! ### Labels -/

theorem synthesize_within {kind : MemoryKind} {isDump : Bool} {a : Address} {l : Label}
    (h : Label.synthesize? kind isDump a = some l) : Text.Within T l.text := by
  have hname : ∀ {start : String}, Text.Within Printed start → Text.Within T (start ++ a.hex) :=
    fun hstart => (Text.Within.of_printed hT hstart).append (hex_within hT a)
  unfold Label.synthesize? at h
  split at h
  · cases h; exact hname (by decide)
  · split at h
    · cases h; exact hname (by decide)
    · cases h
  · cases h; exact hname (by decide)
  · cases h
  · cases h

variable (hs : s.Within T)

include hs

theorem name_within {a : Address} {referencedOnly : Bool} {l : Label} (h : s.name? a referencedOnly = some l) :
    Text.Within T l.text := by
  unfold name? at h
  simp only at h
  split at h
  · rename_i name hname
    cases h
    exact hs.symbols a name hname
  · split at h
    · cases h
    · exact synthesize_within hT h

/-- A label is taken over from its name; its style is not a text. -/
theorem labelTokens_within (a : Address) {referencedOnly : Bool} {l : Label} (h : s.name? a referencedOnly = some l)
    (colon noColor : Bool) : ∀ t ∈ s.labelTokens a (s.restyle a l) colon noColor, t.Within T := by
  have htext : Text.Within T (if colon then l.text ++ ":" else l.text) := by
    split
    · exact (name_within hT hs h).append (.of_printed hT (by decide))
    · exact name_within hT hs h
  refine List.forall_mem_append.mpr ⟨?_, List.forall_mem_singleton.mpr htext⟩
  split
  · have hmark : Text.Within T "__noreturn__ " := .of_printed hT (by decide)
    exact List.forall_mem_singleton.mpr hmark
  · nofun

theorem label_within {a : Address} {colon noColor : Bool} {ts : List Token} (h : s.label a colon noColor = some ts) :
    ∀ t ∈ ts, t.Within T := by
  simp only [label, label?, Option.map_map, Option.map_eq_some_iff, Function.comp_apply] at h
  obtain ⟨l, hl, rfl⟩ := h
  exact labelTokens_within hT hs a hl colon noColor

theorem operandLabel_within {a : Address} {ts : List Token} (h : s.operandLabel a = some ts) :
    ∀ t ∈ ts, t.Within T := by
  simp only [operandLabel, operandLabel?, Option.map_map, Option.map_eq_some_iff, Function.comp_apply] at h
  obtain ⟨l, hl, rfl⟩ := h
  exact labelTokens_within hT hs a hl false false

theorem labelOrAddress_within (a : Address) (level : Nat) {sec : Option Section}
    (hsec : ∀ x ∈ sec, Text.Within T x.name) (colon : Bool) : ∀ t ∈ s.labelOrAddress a level sec colon, t.Within T := by
  refine List.forall_mem_append.mpr ⟨indent_within hT level, ?_⟩
  cases hl : s.label a colon false with
  | none => exact address_within hT a hsec colon false
  | some ts => exact label_within hT hs hl

/-! ### Numbers -/

theorem preview_within (a : Address) (sec : Section) (o : ImmediateOptions) : ∀ t ∈ s.preview a sec o, t.Within T := by
  unfold preview
  split
  · simp only
    split
    · nofun
    · have hblank : Text.Within T " " := .of_printed hT (by decide)
      exact List.forall_mem_cons.mpr ⟨hblank, List.forall_mem_singleton.mpr (hs.strings a _)⟩
  · nofun

theorem immediate_within (v : Int64) (size : UInt64) (sec : Option Section) (o : ImmediateOptions) :
    ∀ t ∈ (s.immediate v size sec o).1, t.Within T := by
  unfold immediate
  simp only
  split
  · rename_i label within hlabel _
    split
    · exact operandLabel_within hT hs hlabel
    · exact List.forall_mem_append.mpr ⟨operandLabel_within hT hs hlabel, preview_within hT hs _ _ _⟩
  · rename_i label hlabel _
    exact operandLabel_within hT hs hlabel
  · exact List.forall_mem_append.mpr ⟨valueAddress_within hT _, preview_within hT hs _ _ _⟩
  · exact List.forall_mem_singleton.mpr (literal_within hT v size _)

/-! ### Headings and headers -/

theorem headingLabel_within {a : Address} {colon : Bool} {ts : List Token} (h : s.headingLabel a colon = some ts) :
    ∀ t ∈ ts, t.Within T := by
  unfold headingLabel at h
  split at h
  · cases h
  · exact label_within hT hs h

theorem header_within (entry : Address) : ∀ t ∈ s.header entry, t.Within T := by
  have hkeyword : Text.Within T "function " := .of_printed hT (by decide)
  have hname : ∀ t ∈ s.headerName entry, t.Within T := by
    unfold headerName
    cases hl : s.label entry false true with
    | none => exact List.forall_mem_singleton.mpr (text_within hT entry)
    | some ts => exact label_within hT hs hl
  have hsection : ∀ t ∈ s.headerSection (s.binary.sectionOf entry), t.Within T := by
    unfold headerSection
    split
    · rename_i sec hsec
      have hopen : Text.Within T " (" := .of_printed hT (by decide)
      have hclose : Text.Within T ") \x7b" := .of_printed hT (by decide)
      exact List.forall_mem_cons.mpr ⟨hopen, List.forall_mem_cons.mpr
        ⟨hs.sections entry sec hsec, List.forall_mem_singleton.mpr hclose⟩⟩
    · have hopen : Text.Within T " \x7b" := .of_printed hT (by decide)
      exact List.forall_mem_singleton.mpr hopen
  exact List.forall_mem_append.mpr ⟨List.forall_mem_cons.mpr ⟨hkeyword, hname⟩, hsection⟩

end Scene

/-! ## The printers at hand -/

namespace OperandPrinter

variable {T : Char → Prop}

theorem bare_within : bare.Within T := by
  refine ⟨?_, ?_, ?_⟩ <;> intro f h <;> cases h

variable (hT : ∀ c, Printed c → T c) {s : Scene} (hs : s.Within T) {i : Instruction} (hi : i.Within T)

include hT

theorem memoryText_within {base index : Option String} (hbase : ∀ r ∈ base, Text.Within T r)
    (hindex : ∀ r ∈ index, Text.Within T r) (scale : UInt8) (disp : Int64) :
    Text.Within T (memoryText base index scale disp) := by
  have hnumber : ∀ n, Text.Within T (String.ofList (Numeral.marked n)) :=
    fun n => .of_printed hT (.ofList (marked_printed n))
  have hscaled : ∀ r ∈ (index.map fun i => if 1 < scale then i ++ "*" ++ Numeral.decimal scale.toNat else i),
      Text.Within T r := by
    intro r hr
    obtain ⟨i, hi, rfl⟩ := Option.map_eq_some_iff.mp hr
    split
    · exact ((hindex i hi).append (.of_printed hT (by decide))).append (.of_printed hT (decimal_printed _))
    · exact hindex i hi
  unfold memoryText
  simp only
  generalize hregisters : " + ".intercalate _ = registers
  have hwithin : Text.Within T registers := by
    intro c hc
    rw [← hregisters, String.toList_intercalate] at hc
    rcases mem_intercalate hc with hc | ⟨cs, hcs, hc⟩
    · exact Text.Within.of_printed (a := " + ") hT (by decide) c hc
    · obtain ⟨r, hr, rfl⟩ := List.mem_map.mp hcs
      rcases List.mem_append.mp hr with hr | hr
      · exact hbase r (Option.mem_toList.mp hr) c hc
      · exact hscaled r (Option.mem_toList.mp hr) c hc
  split
  · exact hnumber _
  · split
    · exact hwithin
    · split
      · exact (hwithin.append (.of_printed hT (by decide))).append (hnumber _)
      · exact (hwithin.append (.of_printed hT (by decide))).append (hnumber _)

include hs hi

theorem genericOperand_within (n : Nat) (hexa brackets : Bool) :
    ∀ t ∈ (genericOperand s i n hexa brackets).1, t.Within T := by
  unfold genericOperand
  split
  · nofun
  · rename_i name hname
    have hregister : Text.Within T name := hi.operands _ (List.mem_of_getElem? hname)
    exact List.forall_mem_singleton.mpr hregister
  · exact Scene.immediate_within hT hs _ _ _ _
  · rename_i base index scale disp hmemory
    have hregisters : (∀ r ∈ base, Text.Within T r) ∧ ∀ r ∈ index, Text.Within T r :=
      hi.operands _ (List.mem_of_getElem? hmemory)
    split
    · rename_i name hname
      have hlocal : Text.Within T name := by
        unfold stackVariable? at hname
        split at hname
        · obtain ⟨slot, _, hslot⟩ := Option.bind_eq_some_iff.mp hname
          obtain ⟨v, hv, rfl⟩ := Option.map_eq_some_iff.mp hslot
          exact hs.locals v (List.mem_of_getElem? hv)
        · cases hname
      exact List.forall_mem_singleton.mpr hlocal
    · have htext := memoryText_within hT hregisters.1 hregisters.2 scale disp
      have hshown : Text.Within T (if brackets then "[" ++ memoryText base index scale disp ++ "]"
          else memoryText base index scale disp) := by
        split
        · exact (Text.Within.append (.of_printed hT (by decide)) htext).append (.of_printed hT (by decide))
        · exact htext
      exact List.forall_mem_singleton.mpr hshown

omit hT hs in
theorem mnemonic_within : (mnemonic s i).Within T := by
  unfold mnemonic
  split
  · exact hi.mnemonic
  · exact hi.mnemonic

theorem genericInstruction_within (level : Nat) : ∀ t ∈ (genericInstruction s i level).1, t.Within T := by
  have hblank : Text.Within T " " := .of_printed hT (by decide)
  unfold genericInstruction
  split
  · refine List.forall_mem_cons.mpr ⟨mnemonic_within hi, ?_⟩
    split
    · nofun
    · exact List.forall_mem_cons.mpr ⟨hblank, List.forall_mem_singleton.mpr hi.operandText⟩
  · have hoperands : ∀ t ∈ List.intercalate [Token.plain ", "] ((genericOperands s i).map (·.1)), t.Within T := by
      intro t ht
      rcases mem_intercalate ht with ht | ⟨ts, hts, ht⟩
      · rw [List.mem_singleton.mp ht]
        exact .of_printed hT (by decide)
      · rw [genericOperands, List.map_map] at hts
        obtain ⟨n, _, rfl⟩ := List.mem_map.mp hts
        exact genericOperand_within hT hs hi n false true t ht
    refine List.forall_mem_cons.mpr ⟨mnemonic_within hi, List.forall_mem_cons.mpr ⟨hblank, ?_⟩⟩
    refine List.forall_mem_append.mpr ⟨hoperands, ?_⟩
    split
    · have hecho : Text.Within T (" # " ++ i.text) :=
        Text.Within.append (.of_printed hT (by decide)) (Scene.instructionText_within hT hi)
      exact List.forall_mem_singleton.mpr hecho
    · nofun

omit hs in
theorem genericCondition_within {fused : Option Instruction} (hfused : ∀ i ∈ fused, i.Within T) :
    ∀ t ∈ genericCondition s i fused, t.Within T := by
  have hopen : Text.Within T "(" := .of_printed hT (by decide)
  have hclose : Text.Within T ")" := .of_printed hT (by decide)
  refine List.forall_mem_append.mpr ⟨List.forall_mem_append.mpr ⟨?_, ?_⟩, List.forall_mem_singleton.mpr hclose⟩
  · exact List.forall_mem_cons.mpr ⟨hi.mnemonic, List.forall_mem_singleton.mpr hopen⟩
  · intro t ht
    obtain ⟨f, hf, rfl⟩ := Option.map_eq_some_iff.mp (Option.mem_toList.mp ht)
    exact Scene.instructionText_within hT (hfused f hf)

omit hs hi in
theorem generic_within : generic.Within T := by
  refine ⟨?_, ?_, ?_⟩
  · intro f h s i level hs hi
    cases h
    exact genericInstruction_within hT hs hi level
  · intro f h s i n hexa brackets hs hi
    cases h
    exact genericOperand_within hT hs hi n hexa brackets
  · intro f h s jump fused hs hjump hfused
    cases h
    exact genericCondition_within hT hjump hfused

end OperandPrinter

end AsmListing
