/-
  AsmListing.Proofs.PartialSettings — settings from a text that names some of them. The
  fields it names come in any order, among members that are none; the text may be spelled
  in any way an object of scalars can be (see `SpelledJson`). What is not named keeps its
  default, and only when all fields are there is it asked whether the settings can be used.
  So no such text is malformed, unless it names a field twice.

  What the reader of a record sees of the members is what there is of them for each key.

  Proved, for the fields of any record:
  - `fields?_of_perm`: the order of the fields makes no difference, nor do other members.
  - `fields?_of_repeated`: a field that comes twice is refused, whatever comes with it.
  and with the nine fields of the settings, `partial_settings_read`.
-/

import AsmListing.Proofs.JsonForms
import AsmListing.Proofs.SpelledJson

namespace AsmListing

namespace Json

/-! ## Members by key -/

/-- The members for the fields that have a value. -/
def given (fields : List (String × Option Json)) : List (String × Json) := fields.filterMap fun f => f.2.map (f.1, ·)

theorem given_cons (f : String × Option Json) (fields : List (String × Option Json)) :
    given (f :: fields) = (f.2.map (f.1, ·)).toList ++ given fields := by
  obtain ⟨key, _ | j⟩ := f <;> rfl

theorem filter_given (fields : List (String × Option Json)) (key : String) :
    (given fields).filter (·.1 = key) = given (fields.filter (·.1 = key)) := by
  induction fields with
  | nil => rfl
  | cons f fields ih =>
    obtain ⟨name, o⟩ := f
    rw [given_cons, List.filter_append, ih]
    by_cases hname : name = key
    · rw [List.filter_cons_of_pos (by simpa using hname), given_cons]
      cases o <;> simp [hname]
    · rw [List.filter_cons_of_neg (by simpa using hname)]
      cases o <;> simp [hname]

section

variable {members : List (String × Json)}

theorem member?_of_filter {key : String} {o : Option Json} (h : members.filter (·.1 = key) = (o.map (key, ·)).toList) :
    member? (members.map fun m => (some m.1, m.2)) key = some o := by
  rw [member?, filter_record, h]
  cases o <;> rfl

theorem member?_of_repeated {key : String} (h : 2 ≤ (members.filter (·.1 = key)).length) :
    member? (members.map fun m => (some m.1, m.2)) key = none := by
  rw [member?, filter_record]
  generalize members.filter (·.1 = key) = found at h
  rcases found with _ | ⟨m, _ | ⟨n, rest⟩⟩
  · exact absurd h (by decide)
  · exact absurd h (Nat.not_succ_le_self 1)
  · rfl

/-- A key sees the members that came for it, wherever they stand. -/
theorem filter_of_perm {fields : List (String × Option Json)} (hkeys : (fields.map Prod.fst).Nodup)
    (h : (members.filter (·.1 ∈ fields.map Prod.fst)).Perm (given fields)) {f : String × Option Json}
    (hf : f ∈ fields) : members.filter (·.1 = f.1) = (f.2.map (f.1, ·)).toList := by
  have hknown : (members.filter (·.1 ∈ fields.map Prod.fst)).filter (·.1 = f.1) = members.filter (·.1 = f.1) := by
    rw [List.filter_filter]
    refine List.filter_congr fun m _ => ?_
    by_cases hm : m.1 = f.1
    · have hmem : m.1 ∈ fields.map Prod.fst := hm ▸ List.mem_map_of_mem hf
      simp only [hm, decide_true, Bool.true_and, decide_eq_true_eq]
      exact hm ▸ hmem
    · simp only [hm, decide_false, Bool.false_and]
  have hperm := h.filter fun m => decide (m.1 = f.1)
  have hone : given [f] = (f.2.map (f.1, ·)).toList := (given_cons f []).trans (List.append_nil _)
  rw [hknown, filter_given, filter_key hkeys hf, hone] at hperm
  obtain ⟨key, _ | j⟩ := f
  · exact hperm.eq_nil
  · exact List.perm_singleton.mp hperm

theorem fields?_of_perm {fields : List (String × Option Json)} {keys : List String}
    (hfields : fields.map Prod.fst = keys) (hkeys : keys.Nodup) (h : (members.filter (·.1 ∈ keys)).Perm (given fields))
    (openEnded : Bool) : fields? keys openEnded (record members) = some (fields.map Prod.snd) := by
  subst hfields
  have hmembers : fields.mapM (fun f => member? (members.map fun m => (some m.1, m.2)) f.1)
      = some (fields.map Prod.snd) :=
    mapM_eq_some_map fun f hf => member?_of_filter (filter_of_perm hkeys h hf)
  rw [fields?_of_members]
  exact List.mapM_map.trans hmembers

theorem mapM_eq_none {α β : Type} {f : α → Option β} {as : List α} {a : α} (ha : a ∈ as) (h : f a = none) :
    as.mapM f = none := by
  induction as with
  | nil => cases ha
  | cons b as ih =>
    rw [List.mapM_cons]
    rcases List.mem_cons.mp ha with rfl | ha
    · rw [h]; rfl
    · rw [ih ha]
      cases f b <;> rfl

theorem fields?_of_repeated {keys : List String} {key : String} (hkey : key ∈ keys)
    (h : 2 ≤ (members.filter (·.1 = key)).length) (openEnded : Bool) :
    fields? keys openEnded (record members) = none := by
  rw [fields?_of_members]
  exact mapM_eq_none hkey (member?_of_repeated h)

theorem defaulted?_map_encode {α : Type} [JsonCodec α] (hkept : ∀ a : α, Kept a) (d : α) (o : Option α) :
    defaulted? d (o.map encode) = some (o.getD d) := by
  cases o with
  | none => rfl
  | some a => exact defaulted?_encode (hkept a) d

end

end Json

open Json

namespace Settings

/-! ## Some of the fields -/

/-- Values for some of the fields of settings. -/
structure Choice where
  showBytes : Option Bool := none
  comments : Option Bool := none
  color : Option Bool := none
  maxDataSize : Option UInt64 := none
  hexImmediates : Option Bool := none
  sectionTag : Option Bool := none
  printLabels : Option Bool := none
  labelOwnLine : Option Bool := none
  indentWidth : Option UInt64 := none

namespace Choice

variable (c : Choice)

/-- The default settings with the chosen fields in place of theirs. -/
def settings : Settings :=
  let d : Settings := {}
  { showBytes := c.showBytes.getD d.showBytes
    comments := c.comments.getD d.comments
    color := c.color.getD d.color
    maxDataSize := c.maxDataSize.getD d.maxDataSize
    hexImmediates := c.hexImmediates.getD d.hexImmediates
    sectionTag := c.sectionTag.getD d.sectionTag
    printLabels := c.printLabels.getD d.printLabels
    labelOwnLine := c.labelOwnLine.getD d.labelOwnLine
    indentWidth := c.indentWidth.getD d.indentWidth }

/-- The fields in their JSON order, each with its form if it was chosen. -/
def fields : List (String × Option Json) :=
  keys.zip [c.showBytes.map encode, c.comments.map encode, c.color.map encode, c.maxDataSize.map encode,
    c.hexImmediates.map encode, c.sectionTag.map encode, c.printLabels.map encode, c.labelOwnLine.map encode,
    c.indentWidth.map encode]

/-- The members for the chosen fields. -/
def members : List (String × Json) := given c.fields

theorem ofFields?_fields : ofFields? (c.fields.map Prod.snd) = some c.settings := by
  have hfields : c.fields.map Prod.snd = [c.showBytes.map encode, c.comments.map encode, c.color.map encode,
    c.maxDataSize.map encode, c.hexImmediates.map encode, c.sectionTag.map encode, c.printLabels.map encode,
    c.labelOwnLine.map encode, c.indentWidth.map encode] := rfl
  rw [hfields]
  simp only [ofFields?, defaulted?_map_encode kept_bool, defaulted?_map_encode kept_uint64]
  rfl

end Choice

/-! ## From a text -/

theorem decode?_eq (j : Json) : decode? (α := Settings) j = (fields? keys true j).bind ofFields? := rfl

theorem ofText_of_usable {text : String} {s : Settings} (h : (parse? text).bind decode? = some s)
    (hs : s.validate = .ok ()) : ofText text = .ok s := by
  simp only [ofText, h, hs]

theorem ofText_of_fault {text : String} {s : Settings} {fault : Fault} (h : (parse? text).bind decode? = some s)
    (hs : s.validate = .error fault) : ofText text = .error (.invalid fault) := by
  simp only [ofText, h, hs]

section

variable {text : String} {members : List (String × Json)} (h : SpelledObject text members)

include h

theorem parsed_of_spelled : (parse? text).bind (decode? (α := Settings))
    = (fields? keys true (record members)).bind ofFields? := by
  rw [parse?_spelled h, Option.bind_some, decode?_eq, record]

theorem parsed_of_chosen {c : Choice} (hchosen : (members.filter (·.1 ∈ keys)).Perm c.members) :
    (parse? text).bind decode? = some c.settings := by
  have hkeys : c.fields.map Prod.fst = keys := rfl
  rw [parsed_of_spelled h, fields?_of_perm hkeys (by decide) hchosen, Option.bind_some, c.ofFields?_fields]

theorem ofText_repeated {key : String} (hkey : key ∈ keys) (htwice : 2 ≤ (members.filter (·.1 = key)).length) :
    ofText text = .error .malformed := by
  simp only [ofText, parsed_of_spelled h, fields?_of_repeated hkey htwice, Option.bind_none]

end

/-- A text that names some fields, in any order and among any others, gives the default
    settings with these fields replaced. If they cannot be used, that is what is reported;
    that the text is malformed is only where a field is named twice. -/
theorem partial_settings_read {text : String} {members : List (String × Json)} (h : SpelledObject text members) :
    (∀ c : Choice, (members.filter (·.1 ∈ keys)).Perm c.members →
      (c.settings.maxDataSize ≠ 0 → c.settings.indentWidth ≠ 0 → ofText text = .ok c.settings) ∧
      (c.settings.maxDataSize = 0 ∨ c.settings.indentWidth = 0 → ∃ fault, ofText text = .error (.invalid fault))) ∧
    ∀ key ∈ keys, 2 ≤ (members.filter (·.1 = key)).length → ofText text = .error .malformed := by
  refine ⟨fun c hchosen => ⟨fun hsize hwidth => ?_, fun hunusable => ?_⟩, fun key hkey => ofText_repeated h hkey⟩
  · have hvalid : c.settings.validate = .ok () := by rw [validate, if_neg hsize, if_neg hwidth]
    exact ofText_of_usable (parsed_of_chosen h hchosen) hvalid
  · obtain ⟨fault, hfault⟩ : ∃ fault, c.settings.validate = .error fault := by
      by_cases hsize : c.settings.maxDataSize = 0
      · exact ⟨_, if_pos hsize⟩
      · rw [validate, if_neg hsize, if_pos (hunusable.resolve_left hsize)]
        exact ⟨_, rfl⟩
    exact ⟨fault, ofText_of_fault (parsed_of_chosen h hchosen) hfault⟩

/-- Blanks and escapes, a note that is no field, and two fields; then a width that cannot be
    used, and a field that comes twice. -/
theorem noted_settings_read :
    ofText "\x7b\"indent_width\":2,\n\"note\" : \"\\ud83d\\ude00\", \"\\u0063olor\": false \x7d"
        = .ok { indentWidth := 2, color := false } ∧
      (∃ fault, ofText (Json.text (record [("note", .null), ("indent_width", .integer 0)])) = .error (.invalid fault)) ∧
      ofText (Json.text (record [("color", .bool false), ("note", .integer (-1)), ("color", .bool true)]))
        = .error .malformed := by
  have hspace : Blank [' '] := List.forall_mem_singleton.mpr rfl
  have hfeed : Blank ['\n'] := List.forall_mem_singleton.mpr rfl
  have hname : SpelledString "\"\\u0063olor\"".toList (some "color") :=
    ⟨_, _, rfl, .unit rfl (spelledCodes_escaped "olor".toList), rfl⟩
  have hface : SpelledString "\"\\ud83d\\ude00\"".toList (some "😀") := ⟨_, _, rfl, .unit rfl (.unit rfl .nil), rfl⟩
  have hcolor : SpelledMember " \"\\u0063olor\": false ".toList ("color", .bool false) :=
    ⟨" \"\\u0063olor\"".toList, " false ".toList, rfl, ⟨[' '], _, [], rfl, hspace, blank_nil, hname⟩,
      ⟨[' '], _, [' '], rfl, hspace, hspace, .false⟩⟩
  have hnote : SpelledMember "\n\"note\" : \"\\ud83d\\ude00\"".toList ("note", .string (some "😀")) :=
    ⟨"\n\"note\" ".toList, " \"\\ud83d\\ude00\"".toList, rfl,
      ⟨['\n'], _, [' '], rfl, hfeed, hspace, spelledString_quote "note"⟩,
      ⟨[' '], _, [], rfl, hspace, blank_nil, .string hface⟩⟩
  have hwidth : SpelledMember "\"indent_width\":2".toList ("indent_width", .integer 2) :=
    ⟨_, _, rfl, .bare (spelledString_quote "indent_width"), .bare (.integer 2)⟩
  have hspelled : SpelledObject
      "\x7b\"indent_width\":2,\n\"note\" : \"\\ud83d\\ude00\", \"\\u0063olor\": false \x7d"
      [("indent_width", .integer 2), ("note", .string (some "😀")), ("color", .bool false)] :=
    .bare ⟨_, rfl, Or.inr (.more hwidth (.more hnote (.last hcolor)))⟩
  have hzero : ∀ m ∈ [("note", Json.null), ("indent_width", .integer 0)], SpelledScalar m.2.write m.2 :=
    List.forall_mem_cons.mpr ⟨.null, List.forall_mem_singleton.mpr (.integer 0)⟩
  have htwice : ∀ m ∈ [("color", Json.bool false), ("note", .integer (-1)), ("color", .bool true)],
      SpelledScalar m.2.write m.2 :=
    List.forall_mem_cons.mpr ⟨.false, List.forall_mem_cons.mpr ⟨.integer (-1), List.forall_mem_singleton.mpr .true⟩⟩
  obtain ⟨hchosen, -⟩ := partial_settings_read hspelled
  obtain ⟨hunusable, -⟩ := partial_settings_read (spelledObject_text hzero)
  obtain ⟨-, hrepeated⟩ := partial_settings_read (spelledObject_text htwice)
  refine ⟨?_, ?_, hrepeated "color" (by decide) (by decide)⟩
  · exact (hchosen { color := some false, indentWidth := some 2 } (.swap _ _ _)).1 (by decide) (by decide)
  · exact (hunusable { indentWidth := some 0 } (.refl _)).2 (Or.inr rfl)

end Settings

end AsmListing
