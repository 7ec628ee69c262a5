/-
  AsmListing.Listing.Function — the listing of a whole function: a header that names it,
  its local variables, its tree one level deep, and the closing brace.
-/

import AsmListing.Listing.Rendering
import AsmListing.Listing.Tree

namespace AsmListing

namespace Scene

variable (s : Scene)

/-- The name in a header: the entry's label without color, or its address. -/
def headerName (entry : Address) : List Token := (s.label entry false true).getD [.plain entry.text]

def headerSection : Option Section → List Token
  | some sec => [.plain " (", s.styled .sectionName sec.name, .plain ") \x7b"]
  | none => [.plain " \x7b"]

def header (entry : Address) : List Token :=
  s.styled .keyword "function " :: s.headerName entry ++ s.headerSection (s.binary.sectionOf entry)

/-- A variable with its size in bits, as the word that the product is. -/
def localLine (v : Local) : List Token :=
  s.indent 1 ++
    [s.styled .typeName ("int" ++ Numeral.decimal (v.size * 8).toNat ++ "_t "), s.styled .variableName v.name]

/-- One line for each local variable. -/
def writeLocals (l : Listing) : Listing :=
  s.context.locals.foldl (fun l v => l.putLine (s.localLine v)) l

end Scene

namespace Pass

variable (p : Pass)

/-- The function at `entry`, where every text can be made. Settings that cannot be used are
    refused before anything is written; a failure in the tree discards what was. -/
def function (entry : Address) (tree : Tree) : Except Failure Rendering :=
  match p.settings.validate with
  | .error fault => .error (.settings fault)
  | .ok () =>
    let start := Listing.newLine {}
    let body := p.write 1 tree (p.writeLocals (start.putLine (p.header entry)))
    match body.result with
    | .error e => .error e
    | .ok () => (body.listing.put [.plain "\x7d"]).finish p.settings.color

end Pass

end AsmListing
