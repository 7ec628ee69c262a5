/-
  AsmListing.Scene.Context — what one listing is told beforehand: its mode, its entry
  point, the settings, and declarations made one after another: override styles of
  addresses, instructions merged into others, and local variables with or without a
  stack offset.
-/

import AsmListing.Program.Address
import AsmListing.Scene.Settings
import AsmListing.Style.Basic
import AsmListing.Table

namespace AsmListing

inductive Mode where
  /-- For navigation: every address that can have a label shows one. -/
  | dump
  /-- For reading: code is only named by symbols. -/
  | decompiled
  deriving DecidableEq, Repr

structure Local where
  /-- In bytes. -/
  size : UInt64
  name : String
  offset : Option Int64
  deriving DecidableEq, Repr

structure Context where
  mode : Mode
  entry : Address
  settings : Settings := {}
  colors : Table Address Style := {}
  fused : List Address := []
  /-- In order of declaration. -/
  locals : List Local := []
  /-- The position in `locals` of the variable at a stack offset. -/
  slots : Table Int64 Nat := {}

inductive Declaration where
  | color (a : Address) (style : Style)
  | fused (a : Address)
  | localVar (v : Local)
  /-- Sizes and names paired in order; what is left over on either side is ignored. -/
  | localVars (sizes : List UInt64) (names : List String)
  deriving DecidableEq, Repr

namespace Context

def isDump (c : Context) : Bool := c.mode == .dump

/-- The style that replaces any other for this address. -/
def colorOf (c : Context) (a : Address) : Option Style := c.colors.find? a

def isFused (c : Context) (a : Address) : Bool := c.fused.contains a

def variableAt (c : Context) (offset : Int64) : Option String :=
  (c.slots.find? offset).bind fun i => c.locals[i]?.map Local.name

def addLocal (c : Context) (v : Local) : Context :=
  { c with
    locals := c.locals ++ [v]
    slots := match v.offset with
      | some o => c.slots.insert o c.locals.length
      | none => c.slots }

def declare (c : Context) : Declaration → Context
  | .color a style => { c with colors := c.colors.insert a style }
  | .fused a => { c with fused := a :: c.fused }
  | .localVar v => c.addLocal v
  | .localVars sizes names =>
    (sizes.zip names).foldl (fun c p => c.addLocal ⟨p.1, p.2, none⟩) c

def declareAll (c : Context) (ds : List Declaration) : Context := ds.foldl declare c

end Context

end AsmListing
