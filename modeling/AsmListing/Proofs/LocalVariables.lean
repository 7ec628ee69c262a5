/-
  AsmListing.Proofs.LocalVariables — local variables against their declarations. A context
  keeps them in the order in which they were declared, and beside that, for each stack
  offset, the place of a variable in this order. Variables only come behind those that are
  there, so a place once kept stays right; declared again, an offset gets the place of the
  newer variable (`Context.Placed`).

  Proved:
  - `locals_declareAll`: the variables are those of the declarations, in order.
  - `Placed.addLocal` / `placed_declareAll`: what one variable more keeps, and so every run
    of declarations, with styles and merged instructions between them.
  - `isSome_variableAt_iff`: an offset has a variable just if one was declared there.
  - `locals_follow_declarations`: the variables, their places, and which of them an offset
    shows.
-/

import AsmListing.Scene.Context

namespace AsmListing

/-- The variables of a declaration. Of sizes and names it takes pairs as far as both reach;
    these have no stack offset. -/
def Declaration.locals : Declaration → List Local
  | .color _ _ | .fused _ => []
  | .localVar v => [v]
  | .localVars sizes names =>
    let count := min sizes.length names.length
    List.zipWith (fun size name => ⟨size, name, none⟩) (sizes.take count) (names.take count)

namespace Context

/-- Before any declaration. -/
def undeclared (mode : Mode) (entry : Address) (settings : Settings) : Context := { mode, entry, settings }

/-- The variable declared last at a stack offset. -/
def localAt? (c : Context) (o : Int64) : Option Local := c.locals.findRev? (·.offset = some o)

/-- A place that is kept for an offset is that of a variable there, and of the last one. -/
structure Placed (c : Context) : Prop where
  within : ∀ o i, c.slots.find? o = some i → ∃ v, c.locals[i]? = some v ∧ v.offset = some o
  last : ∀ o, ((c.slots.find? o).bind fun i => c.locals[i]?) = c.localAt? o

/-! ## One variable more -/

variable {c : Context}

theorem locals_addLocal (c : Context) (v : Local) : (c.addLocal v).locals = c.locals ++ [v] := rfl

theorem find?_slots_addLocal (c : Context) (v : Local) (o : Int64) :
    (c.addLocal v).slots.find? o = if v.offset = some o then some c.locals.length else c.slots.find? o := by
  unfold addLocal
  cases v.offset with
  | none => rfl
  | some own => simp only [Table.find?_insert, Option.some.injEq, eq_comm]

theorem localAt?_addLocal (c : Context) (v : Local) (o : Int64) :
    (c.addLocal v).localAt? o = if v.offset = some o then some v else c.localAt? o := by
  simp only [localAt?, locals_addLocal, List.findRev?_eq_find?_reverse, List.reverse_append, List.reverse_singleton,
    List.singleton_append, List.find?_cons]
  by_cases hoffset : v.offset = some o <;> simp [hoffset]

theorem Placed.addLocal (h : c.Placed) (v : Local) : (c.addLocal v).Placed := by
  -- no variable moves
  have hkept : ∀ {i : Nat} {w : Local}, c.locals[i]? = some w → (c.addLocal v).locals[i]? = some w := by
    intro i w hw
    rw [locals_addLocal, List.getElem?_append_left (List.getElem?_eq_some_iff.mp hw).1, hw]
  have hnew : (c.addLocal v).locals[c.locals.length]? = some v := by simp [locals_addLocal]
  constructor
  case within =>
    intro o i hi
    rw [find?_slots_addLocal] at hi
    split at hi
    case isTrue hoffset =>
      cases hi
      exact ⟨v, hnew, hoffset⟩
    case isFalse =>
      obtain ⟨w, hw, hat⟩ := h.within o i hi
      exact ⟨w, hkept hw, hat⟩
  case last =>
    intro o
    rw [find?_slots_addLocal, localAt?_addLocal]
    split
    case isTrue => exact hnew
    case isFalse =>
      rw [← h.last o]
      cases hplace : c.slots.find? o with
      | none => rfl
      | some i =>
        obtain ⟨w, hw, -⟩ := h.within o i hplace
        rw [Option.bind_some, Option.bind_some, hw, hkept hw]

/-! ## Declarations -/

theorem locals_addLocals (c : Context) (vs : List Local) : (vs.foldl addLocal c).locals = c.locals ++ vs := by
  induction vs generalizing c with
  | nil => simp
  | cons v vs ih => rw [List.foldl_cons, ih, locals_addLocal, List.append_assoc, List.singleton_append]

theorem Placed.addLocals (h : c.Placed) (vs : List Local) : (vs.foldl Context.addLocal c).Placed := by
  induction vs generalizing c with
  | nil => exact h
  | cons v vs ih => exact ih (h.addLocal v)

/-- What is left over on either side is ignored. -/
theorem declare_localVars (c : Context) (sizes : List UInt64) (names : List String) :
    c.declare (.localVars sizes names) = (Declaration.localVars sizes names).locals.foldl addLocal c := by
  have hpairs : (Declaration.localVars sizes names).locals =
      (sizes.zip names).map fun p => ⟨p.1, p.2, none⟩ := by
    rw [Declaration.locals, ← List.zipWith_eq_zipWith_take_min, ← List.map_uncurry_zip_eq_zipWith]
    rfl
  rw [hpairs, List.foldl_map, declare]

theorem locals_declare (c : Context) (d : Declaration) : (c.declare d).locals = c.locals ++ d.locals := by
  cases d with
  | color a style => exact (List.append_nil _).symm
  | fused a => exact (List.append_nil _).symm
  | localVar v => rfl
  | localVars sizes names => rw [declare_localVars, locals_addLocals]

theorem Placed.declare (h : c.Placed) (d : Declaration) : (c.declare d).Placed := by
  cases d with
  | color a style => exact ⟨h.within, h.last⟩
  | fused a => exact ⟨h.within, h.last⟩
  | localVar v => exact h.addLocal v
  | localVars sizes names =>
    rw [declare_localVars]
    exact h.addLocals _

theorem locals_declareAll (c : Context) (ds : List Declaration) :
    (c.declareAll ds).locals = c.locals ++ ds.flatMap Declaration.locals := by
  induction ds generalizing c with
  | nil => simp [declareAll]
  | cons d ds ih =>
    rw [List.flatMap_cons, ← List.append_assoc, ← locals_declare]
    exact ih (c.declare d)

theorem Placed.declareAll (h : c.Placed) (ds : List Declaration) : (c.declareAll ds).Placed := by
  induction ds generalizing c with
  | nil => exact h
  | cons d ds ih => exact ih (h.declare d)

theorem undeclared_placed (mode : Mode) (entry : Address) (settings : Settings) :
    (undeclared mode entry settings).Placed :=
  ⟨nofun, fun _ => rfl⟩

theorem placed_declareAll (mode : Mode) (entry : Address) (settings : Settings) (ds : List Declaration) :
    ((undeclared mode entry settings).declareAll ds).Placed :=
  (undeclared_placed mode entry settings).declareAll ds

/-! ## Names at stack offsets -/

theorem Placed.variableAt_eq (h : c.Placed) (o : Int64) : c.variableAt o = (c.localAt? o).map Local.name := by
  rw [variableAt, ← h.last o]
  cases c.slots.find? o <;> rfl

theorem isSome_localAt?_iff {o : Int64} : (c.localAt? o).isSome = true ↔ ∃ v ∈ c.locals, v.offset = some o := by
  simp [localAt?, List.findRev?_eq_find?_reverse]

theorem Placed.isSome_variableAt_iff (h : c.Placed) {o : Int64} :
    (c.variableAt o).isSome = true ↔ ∃ v ∈ c.locals, v.offset = some o := by
  rw [h.variableAt_eq, Option.isSome_map, isSome_localAt?_iff]

end Context

/-- The variables of a context are those that were declared, one declaration after the
    other. Whatever place it keeps for a stack offset is among them, and is that of a
    variable declared there. And an offset shows the name of the last variable declared
    there, or none if there is none. -/
theorem locals_follow_declarations (mode : Mode) (entry : Address) (settings : Settings) (ds : List Declaration) :
    let c := (Context.undeclared mode entry settings).declareAll ds
    c.locals = ds.flatMap Declaration.locals ∧
      (∀ o i, c.slots.find? o = some i → ∃ hi : i < c.locals.length, c.locals[i].offset = some o) ∧
      ∀ o, c.variableAt o = (c.locals.findRev? (·.offset = some o)).map Local.name := by
  intro c
  have hplaced : c.Placed := Context.placed_declareAll mode entry settings ds
  refine ⟨Context.locals_declareAll _ ds, fun o i hi => ?_, hplaced.variableAt_eq⟩
  obtain ⟨v, hv, hoffset⟩ := hplaced.within o i hi
  obtain ⟨hlt, rfl⟩ := List.getElem?_eq_some_iff.mp hv
  exact ⟨hlt, hoffset⟩

/-- An offset declared twice, with variables on no offset and other declarations between. -/
theorem twice_declared_shown_once :
    let c := (Context.undeclared .decompiled ⟨0x1000⟩ {}).declareAll
      [.localVar ⟨4, "count", some (-8)⟩, .fused ⟨0x1004⟩, .localVars [4, 8, 2] ["a", "b"], .color ⟨0x1008⟩ .highlight,
        .localVar ⟨8, "total", some (-8)⟩]
    c.locals = [⟨4, "count", some (-8)⟩, ⟨4, "a", none⟩, ⟨8, "b", none⟩, ⟨8, "total", some (-8)⟩] ∧
      c.slots.find? (-8) = some 3 ∧ (∃ hi : 3 < c.locals.length, c.locals[3].offset = some (-8)) ∧
      c.variableAt (-8) = some "total" ∧ c.variableAt (-4) = none := by
  intro c
  obtain ⟨hlocals, hplaces, hshown⟩ := locals_follow_declarations .decompiled ⟨0x1000⟩ {}
    [.localVar ⟨4, "count", some (-8)⟩, .fused ⟨0x1004⟩, .localVars [4, 8, 2] ["a", "b"], .color ⟨0x1008⟩ .highlight,
      .localVar ⟨8, "total", some (-8)⟩]
  have hplace : c.slots.find? (-8) = some 3 := by decide
  exact ⟨hlocals, hplace, hplaces (-8) 3 hplace, hshown (-8), hshown (-4)⟩

end AsmListing
