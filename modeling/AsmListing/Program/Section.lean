/-
  AsmListing.Program.Section — a named range of the loaded file. Its end is excluded,
  and is the top of the address space when start and size reach beyond that.
-/

import AsmListing.Program.Address

namespace AsmListing

structure Section where
  name : String
  start : Address
  stop : Address
  isData : Bool
  deriving DecidableEq, Repr

namespace Section

def ofSize (name : String) (start : Address) (size : UInt64) (isData : Bool) : Section :=
  ⟨name, start, start.advance size, isData⟩

def contains (sec : Section) (a : Address) : Bool := a.inRange sec.start sec.stop

end Section

end AsmListing
