/-
  AsmListing.Table — a finite map as a list of entries, the newest first. A lookup takes
  the newest entry of its key, so a later insertion hides an earlier one.
-/

namespace AsmListing

structure Table (κ α : Type) where
  entries : List (κ × α) := []
  deriving Repr

namespace Table

variable {κ α : Type} [DecidableEq κ]

def insert (t : Table κ α) (k : κ) (v : α) : Table κ α := ⟨(k, v) :: t.entries⟩

def find? (t : Table κ α) (k : κ) : Option α := t.entries.lookup k

def contains (t : Table κ α) (k : κ) : Bool := (t.find? k).isSome

theorem find?_insert (t : Table κ α) (k k' : κ) (v : α) :
    (t.insert k v).find? k' = if k' = k then some v else t.find? k' := by
  unfold insert find?
  by_cases h : k' = k
  · simp [h]
  · rw [List.lookup_cons, beq_false_of_ne h, if_neg h]

/-- Inserts the pairs in order: on a repeated key the last one counts. -/
def ofList (pairs : List (κ × α)) : Table κ α := pairs.foldl (fun t p => t.insert p.1 p.2) {}

/-- Every value given to `k`, oldest first. -/
def all (t : Table κ α) (k : κ) : List α := (t.entries.reverse.filter (·.1 = k)).map (·.2)

end Table

end AsmListing
