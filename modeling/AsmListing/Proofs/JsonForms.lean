/-
  AsmListing.Proofs.JsonForms — the data of a listing survives being written to JSON and
  read again: no two values of a type share a form, and no form is refused by the reader of
  its type. What is shown of a value is that it is `Kept`, of a record from its fields and
  of a list from its items; the text in between is left to `parse?_text`.

  Proved:
  - `named?_name`: an enumeration, whatever the names, as long as they differ.
  - `fields?_record`: the fields of a record, read by keys that differ.
  - `kept_option`: a field that may be missing, unless its form could be taken for that.
  - `data_read_back_from_text`: all types, at every value; for columns and counts, below
    2 ^ 64.
-/

import AsmListing.Json.Model
import AsmListing.Json.Settings
import AsmListing.Proofs.WrittenJson
import Mathlib.Data.List.Nodup

namespace AsmListing

namespace Json

/-- What is read back from the text of a value. -/
def reread {α : Type} [JsonCodec α] (a : α) : Option α := (parse? (text (encode a))).bind decode?

/-- The form of the value can be written, and stands for the value. -/
structure Kept {α : Type} [JsonCodec α] (a : α) : Prop where
  integersOnly : (encode a).IntegersOnly
  decode : decode? (encode a) = some a

theorem Kept.reread {α : Type} [JsonCodec α] {a : α} (h : Kept a) : reread a = some a := by
  rw [Json.reread, parse?_text h.integersOnly, Option.bind_some, h.decode]

/-! ## Numbers, texts and lists -/

@[simp] theorem kept_bool (b : Bool) : Kept b := ⟨.bool b, rfl⟩

@[simp] theorem kept_string (s : String) : Kept s := ⟨.string _, rfl⟩

theorem decodeInteger?_of_range {α : Type} {low high n : Int} (hlow : low ≤ n) (hhigh : n < high) {f : Int → α}
    {a : α} (ha : f n = a) : decodeInteger? low high f (.integer n) = some a := by
  rw [decodeInteger?, if_pos ⟨hlow, hhigh⟩, ha]

@[simp] theorem kept_uint8 (n : UInt8) : Kept n where
  integersOnly := .integer _
  decode := decodeInteger?_of_range (Int.natCast_nonneg _) (Int.ofNat_lt.mpr n.toNat_lt_size) (by simp)

@[simp] theorem kept_uint64 (n : UInt64) : Kept n where
  integersOnly := .integer _
  decode := decodeInteger?_of_range (Int.natCast_nonneg _) (Int.ofNat_lt.mpr n.toNat_lt_size) (by simp)

@[simp] theorem kept_count {n : Nat} (h : n < UInt64.size) : Kept n where
  integersOnly := .integer _
  decode := decodeInteger?_of_range (Int.natCast_nonneg _) (Int.ofNat_lt.mpr h) (Int.toNat_natCast n)

@[simp] theorem kept_int64 (n : Int64) : Kept n where
  integersOnly := .integer _
  decode := decodeInteger?_of_range n.minValue_le_toInt (Int.lt_add_one_iff.mpr n.toInt_le) n.ofInt_toInt

theorem mapM_eq_some_map {α β : Type} {f : α → Option β} {g : α → β} {as : List α}
    (h : ∀ a ∈ as, f a = some (g a)) : as.mapM f = some (as.map g) := by
  induction as with
  | nil => rfl
  | cons a as ih =>
    simp only [List.mapM_cons, h a List.mem_cons_self, ih fun b hb => h b (List.mem_cons_of_mem _ hb)]
    rfl

section

variable {α : Type} [JsonCodec α]

theorem decode?_of_ne_null {j : Json} (h : j ≠ .null) : decode? (α := Option α) j = (decode? j).map some := by
  cases j with
  | null => exact absurd rfl h
  | _ => rfl

/-- A value whose form is that of a missing one would not be kept. -/
theorem kept_option {o : Option α} (h : ∀ a ∈ o, Kept a ∧ encode a ≠ .null) : Kept o := by
  cases o with
  | none => exact ⟨.null, rfl⟩
  | some a =>
    obtain ⟨hkept, hnull⟩ := h a rfl
    exact ⟨hkept.integersOnly, (decode?_of_ne_null hnull).trans (by rw [hkept.decode, Option.map_some])⟩

theorem kept_list {as : List α} (h : ∀ a ∈ as, Kept a) : Kept as where
  integersOnly := by
    refine .array fun j hj => ?_
    obtain ⟨a, ha, rfl⟩ := List.mem_map.mp hj
    exact (h a ha).integersOnly
  decode := by
    have hitems : as.mapM (fun a => decode? (α := α) (encode a)) = some (as.map id) :=
      mapM_eq_some_map fun a ha => (h a ha).decode
    rw [List.map_id] at hitems
    exact List.mapM_map.trans hitems

end

/-! ## Variants and records -/

/-- Each of `values` is found again by its name. -/
theorem named?_name {α : Type} {values : List α} {name : α → String} (hnames : (values.map name).Nodup) {a : α}
    (ha : a ∈ values) : named? values name (.string (some (name a))) = some a := by
  obtain ⟨b, hb⟩ : ∃ b, values.find? (name · = name a) = some b := by
    rw [← Option.isSome_iff_exists, List.find?_isSome]
    exact ⟨a, ha, by simp⟩
  have hname : name b = name a := by simpa using List.find?_some hb
  rw [List.inj_on_of_nodup_map hnames (List.mem_of_find?_eq_some hb) ha hname] at hb
  exact hb

/-- Keys that differ select one field each. -/
theorem filter_key {α : Type} {fields : List (String × α)} (hkeys : (fields.map Prod.fst).Nodup) {f : String × α}
    (hf : f ∈ fields) : fields.filter (·.1 = f.1) = [f] := by
  induction fields with
  | nil => cases hf
  | cons g fields ih =>
    rw [List.map_cons, List.nodup_cons] at hkeys
    obtain ⟨hfresh, hkeys⟩ := hkeys
    rcases List.mem_cons.mp hf with rfl | hf
    · have hnone : fields.filter (·.1 = f.1) = [] := by
        rw [List.filter_eq_nil_iff]
        intro g hg e
        have hkey : g.1 = f.1 := by simpa using e
        exact hfresh (hkey ▸ List.mem_map_of_mem hg)
      rw [List.filter_cons_of_pos (by simp), hnone]
    · have hkey : g.1 ≠ f.1 := fun e => hfresh (e ▸ List.mem_map_of_mem hf)
      rw [List.filter_cons_of_neg (by simpa using hkey), ih hkeys hf]

/-- The members of a record by key, where each key is a text. -/
theorem filter_record (fields : List (String × Json)) (key : String) :
    (fields.map fun g => (some g.1, g.2)).filter (·.1 = some key)
      = (fields.filter (·.1 = key)).map fun g => (some g.1, g.2) := by
  rw [List.filter_map]
  simp [Function.comp_def]

theorem member?_of_mem {fields : List (String × Json)} (hkeys : (fields.map Prod.fst).Nodup) {f : String × Json}
    (hf : f ∈ fields) : member? (fields.map fun g => (some g.1, g.2)) f.1 = some (some f.2) := by
  rw [member?, filter_record, filter_key hkeys hf]
  rfl

theorem fields?_of_members (keys : List String) (openEnded : Bool) (members : List (String × Json)) :
    fields? keys openEnded (record members) = keys.mapM (member? (members.map fun g => (some g.1, g.2))) := by
  have hnames : (members.map fun g => (some g.1, g.2)).all (·.1.isSome) = true := by simp
  rw [Json.record, fields?]
  simp only [hnames, if_true]

theorem fields?_record {fields : List (String × Json)} {keys : List String} (hfields : fields.map Prod.fst = keys)
    (hkeys : keys.Nodup) (openEnded : Bool) :
    fields? keys openEnded (record fields) = some (fields.map fun f => some f.2) := by
  subst hfields
  have hmembers : fields.mapM (fun f => member? (fields.map fun g => (some g.1, g.2)) f.1)
      = some (fields.map fun f => some f.2) := mapM_eq_some_map fun f hf => member?_of_mem hkeys hf
  rw [fields?_of_members]
  exact List.mapM_map.trans hmembers

theorem record_integersOnly {fields : List (String × Json)} (h : ∀ f ∈ fields, f.2.IntegersOnly) :
    (Json.record fields).IntegersOnly := by
  refine .object fun m hm => ?_
  obtain ⟨f, hf, rfl⟩ := List.mem_map.mp hm
  exact h f hf

theorem variant_integersOnly (name : String) {content : Json} (h : content.IntegersOnly) :
    (variant name content).IntegersOnly :=
  .object (List.forall_mem_singleton.mpr h)

section

variable {α : Type} [JsonCodec α] {a : α}

theorem required?_encode (h : Kept a) : required? (some (encode a)) = some a := h.decode

theorem defaulted?_encode (h : Kept a) (d : α) : defaulted? d (some (encode a)) = some a := h.decode

theorem optional?_encode {o : Option α} (h : Kept o) : optional? (some (encode o)) = some o := h.decode

end

/-! ## Enumerations -/

@[simp] theorem kept_memoryKind (k : MemoryKind) : Kept k :=
  ⟨.string _, named?_name (by decide) (by cases k <;> decide)⟩

@[simp] theorem kept_binaryKind (k : BinaryKind) : Kept k :=
  ⟨.string _, named?_name (by decide) (by cases k <;> decide)⟩

@[simp] theorem kept_category (c : Category) : Kept c :=
  ⟨.string _, named?_name (by decide) (by cases c <;> decide)⟩

@[simp] theorem kept_style (s : Style) : Kept s :=
  ⟨.string _, named?_name (by decide) (by cases s <;> decide)⟩

/-! ## Records -/

@[simp] theorem kept_address (a : Address) : Kept a where
  integersOnly := record_integersOnly (by simp [Kept.integersOnly])
  decode := by
    have hfields : fields? ["value"] false (encode a) = some [some (encode a.value)] :=
      fields?_record rfl (by simp) false
    simp only [decode?, hfields, required?_encode, kept_uint64]
    rfl

@[simp] theorem kept_section (s : Section) : Kept s where
  integersOnly := record_integersOnly (by simp [Kept.integersOnly])
  decode := by
    have hfields : fields? ["name", "start", "end", "is_data"] false (encode s)
        = some [some (encode s.name), some (encode s.start), some (encode s.stop), some (encode s.isData)] :=
      fields?_record rfl (by simp) false
    simp only [decode?, hfields, required?_encode, kept_string, kept_address, kept_bool]
    rfl

@[simp] theorem kept_token (t : Token) : Kept t where
  integersOnly := record_integersOnly (by simp [Kept.integersOnly])
  decode := by
    have hfields : fields? ["text", "style", "bold"] false (encode t)
        = some [some (encode t.text), some (encode t.style), some (encode t.bold)] :=
      fields?_record rfl (by simp) false
    simp only [decode?, hfields, required?_encode, kept_string, kept_style, kept_bool]
    rfl

theorem kept_boundary {b : Boundary} (hcolumn : b.column < UInt64.size) (htokens : b.tokens < UInt64.size) :
    Kept b where
  integersOnly := record_integersOnly (by simp [Kept.integersOnly, hcolumn, htokens])
  decode := by
    have hfields : fields? ["char_offset", "token_index"] false (encode b)
        = some [some (encode b.column), some (encode b.tokens)] :=
      fields?_record rfl (by simp) false
    simp only [decode?, hfields, required?_encode, kept_count, hcolumn, htokens]
    rfl

/-- A name that may be missing: no text has the form of a missing one. -/
@[simp] theorem kept_name (o : Option String) : Kept o := kept_option fun s _ => ⟨kept_string s, nofun⟩

@[simp] theorem kept_reference (o : Option Address) : Kept o := kept_option fun a _ => ⟨kept_address a, nofun⟩

theorem decodeAs?_immediate (value : Int64) (size : UInt64) :
    Operand.decodeAs? "Immediate" (record [("value", encode value), ("size", encode size)])
      = some (.immediate value size) := by
  have hfields : fields? ["value", "size"] false (record [("value", encode value), ("size", encode size)])
      = some [some (encode value), some (encode size)] := fields?_record rfl (by simp) false
  simp only [Operand.decodeAs?, hfields, required?_encode, kept_int64, kept_uint64]
  rfl

theorem decodeAs?_memory (base index : Option String) (scale : UInt8) (disp : Int64) :
    Operand.decodeAs? "Memory"
        (record [("base", encode base), ("index", encode index), ("scale", encode scale), ("disp", encode disp)])
      = some (.memory base index scale disp) := by
  have hfields : fields? ["base", "index", "scale", "disp"] false
      (record [("base", encode base), ("index", encode index), ("scale", encode scale), ("disp", encode disp)])
      = some [some (encode base), some (encode index), some (encode scale), some (encode disp)] :=
    fields?_record rfl (by simp) false
  simp only [Operand.decodeAs?, hfields, required?_encode, optional?_encode, kept_name, kept_uint8, kept_int64]
  rfl

@[simp] theorem kept_operand (o : Operand) : Kept o := by
  cases o with
  | register name => exact ⟨variant_integersOnly _ (kept_string name).integersOnly, rfl⟩
  | immediate value size =>
    have hcontent : (record [("value", encode value), ("size", encode size)]).IntegersOnly :=
      record_integersOnly (by simp [Kept.integersOnly])
    exact ⟨variant_integersOnly _ hcontent, decodeAs?_immediate value size⟩
  | memory base index scale disp =>
    have hcontent : (record [("base", encode base), ("index", encode index), ("scale", encode scale),
        ("disp", encode disp)]).IntegersOnly := record_integersOnly (by simp [Kept.integersOnly])
    exact ⟨variant_integersOnly _ hcontent, decodeAs?_memory base index scale disp⟩

@[simp] theorem kept_instruction (i : Instruction) : Kept i where
  integersOnly := record_integersOnly (by simp [Kept.integersOnly, kept_list])
  decode := by
    have hfields : fields? ["address", "mnemonic", "op_str", "operands", "bytes", "category", "fused"] false (encode i)
        = some [some (encode i.address), some (encode i.mnemonic), some (encode i.operandText),
          some (encode i.operands), some (encode i.bytes), some (encode i.category), some (encode i.fused)] :=
      fields?_record rfl (by simp) false
    have hoperands : Kept i.operands := kept_list fun o _ => kept_operand o
    have hbytes : Kept i.bytes := kept_list fun b _ => kept_uint8 b
    simp only [decode?, hfields, required?_encode, optional?_encode, kept_address, kept_string, kept_category,
      kept_reference, hoperands, hbytes]
    rfl

theorem ofFields?_encode (s : Settings) :
    Settings.ofFields? [some (encode s.showBytes), some (encode s.comments), some (encode s.color),
      some (encode s.maxDataSize), some (encode s.hexImmediates), some (encode s.sectionTag),
      some (encode s.printLabels), some (encode s.labelOwnLine), some (encode s.indentWidth)] = some s := by
  simp only [Settings.ofFields?, defaulted?_encode, kept_bool, kept_uint64]
  rfl

theorem kept_settings (s : Settings) : Kept s where
  integersOnly := record_integersOnly (by simp [Settings.keys, Kept.integersOnly])
  decode := by
    -- Stated, not unfolded: that would take the readers of the nine fields apart as well.
    have hdecode : decode? (encode s) = (fields? Settings.keys true (encode s)).bind Settings.ofFields? := rfl
    have hfields : fields? Settings.keys true (encode s)
        = some [some (encode s.showBytes), some (encode s.comments), some (encode s.color),
          some (encode s.maxDataSize), some (encode s.hexImmediates), some (encode s.sectionTag),
          some (encode s.printLabels), some (encode s.labelOwnLine), some (encode s.indentWidth)] :=
      fields?_record rfl (by simp [Settings.keys]) true
    rw [hdecode, hfields, Option.bind_some, ofFields?_encode]

end Json

open Json

/-- Whatever a listing is made from or made of comes back from its text: the settings, the
    sections, the decoded instructions with their operands, the tokens and boundaries of
    its lines, and the kinds of these. A boundary is kept where its numbers fit into 64 bits;
    the other types have no other values. -/
theorem data_read_back_from_text :
    (∀ a : Address, reread a = some a) ∧ (∀ s : Section, reread s = some s) ∧ (∀ o : Operand, reread o = some o) ∧
      (∀ i : Instruction, reread i = some i) ∧ (∀ t : Token, reread t = some t) ∧
      (∀ b : Boundary, b.column < UInt64.size → b.tokens < UInt64.size → reread b = some b) ∧
      (∀ s : Settings, reread s = some s) ∧ (∀ c : Category, reread c = some c) ∧ (∀ s : Style, reread s = some s) ∧
      (∀ k : MemoryKind, reread k = some k) ∧ (∀ k : BinaryKind, reread k = some k) :=
  ⟨fun a => (kept_address a).reread, fun s => (kept_section s).reread, fun o => (kept_operand o).reread,
    fun i => (kept_instruction i).reread, fun t => (kept_token t).reread,
    fun _ hcolumn htokens => (kept_boundary hcolumn htokens).reread, fun s => (kept_settings s).reread,
    fun c => (kept_category c).reread, fun s => (kept_style s).reread, fun k => (kept_memoryKind k).reread,
    fun k => (kept_binaryKind k).reread⟩

/-- The last column there is, and a name full of what has to be escaped. -/
theorem last_column_and_escapes_read_back :
    text (encode (Boundary.mk 0xffffffffffffffff 0))
        = "\x7b\"char_offset\":18446744073709551615,\"token_index\":0\x7d" ∧
      reread (Boundary.mk 0xffffffffffffffff 0) = some ⟨0xffffffffffffffff, 0⟩ ∧
      text (encode (Operand.register "\"\\\n\x01é")) = "\x7b\"Register\":\"\\\"\\\\\\n\\u0001é\"\x7d" ∧
      reread (Operand.register "\"\\\n\x01é") = some (.register "\"\\\n\x01é") := by
  obtain ⟨-, -, hoperand, -, -, hboundary, -⟩ := data_read_back_from_text
  exact ⟨by decide, hboundary _ (by decide) (by decide), by decide, hoperand _⟩

end AsmListing
