/-
  AsmListing.Listing.Failure — what can keep a listing from being written.
-/

import AsmListing.Page.Buffer
import AsmListing.Scene.Settings

namespace AsmListing

/-- A part of the work that is left to someone else to supply. -/
inductive Hook where
  | instruction
  | operand
  | condition
  | dump
  deriving DecidableEq, Repr

def Hook.name : Hook → String
  | .instruction => "instruction"
  | .operand => "operand"
  | .condition => "condition"
  | .dump => "dump"

inductive Failure where
  /-- Nobody supplied the hook. -/
  | missing (hook : Hook)
  | buffer (fault : Buffer.Fault)
  | settings (fault : Settings.Fault)
  deriving DecidableEq, Repr

def Failure.message : Failure → String
  | .missing hook => "No implementation for the " ++ hook.name ++ " hook"
  | .buffer fault => fault.message
  | .settings fault => "Configuration error: " ++ fault.message

end AsmListing
