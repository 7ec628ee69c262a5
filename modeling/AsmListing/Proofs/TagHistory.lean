/-
  AsmListing.Proofs.TagHistory — the index of a listing against the calls that filled it.
  Calls come in any order, for lines above those already tagged too, and repeat lines and
  addresses. The two directions keep opposite things of them: an address its least line, a
  line its latest address. So a line may be tagged away from an address that still has it
  as its first line.

  Proved, for every list of calls:
  - `firstLineOf_ofCalls` / `addressOf_ofCalls`: each direction as a function of the calls.
  - `enclosing_eq_some` / `enclosing_eq_none`: in a sorted index, the closest tag above a line.
  - `index_tells_history`: all answers, by the calls alone.
-/

import AsmListing.Proofs.LineIndex
import Mathlib.Data.List.Dedup

namespace AsmListing.LineIndex

/-- The index that calls leave, the oldest of them first. -/
def ofCalls (calls : List (Address × Nat)) : LineIndex := calls.foldl (fun ix c => ix.record c.1 c.2) {}

/-- The lines that `a` was recorded for. -/
def linesWith (calls : List (Address × Nat)) (a : Address) : List Nat := (calls.filter (·.1 = a)).map (·.2)

/-- The addresses that were recorded for a line, oldest first. -/
def addressesAt (calls : List (Address × Nat)) (line : Nat) : List Address := (calls.filter (·.2 = line)).map (·.1)

theorem mem_linesWith (calls : List (Address × Nat)) (a : Address) (line : Nat) :
    line ∈ linesWith calls a ↔ (a, line) ∈ calls := by
  simp [linesWith]

theorem mem_addressesAt (calls : List (Address × Nat)) (line : Nat) (a : Address) :
    a ∈ addressesAt calls line ↔ (a, line) ∈ calls := by
  simp [addressesAt]

theorem linesWith_snoc (calls : List (Address × Nat)) (b : Address) (line : Nat) (a : Address) :
    linesWith (calls ++ [(b, line)]) a = linesWith calls a ++ if a = b then [line] else [] := by
  rw [linesWith, List.filter_append, List.map_append]
  by_cases h : a = b
  · simp [linesWith, h]
  · simp [linesWith, h, Ne.symm h]

theorem addressesAt_snoc (calls : List (Address × Nat)) (a : Address) (line m : Nat) :
    addressesAt (calls ++ [(a, line)]) m = addressesAt calls m ++ if m = line then [a] else [] := by
  rw [addressesAt, List.filter_append, List.map_append]
  by_cases h : m = line
  · simp [addressesAt, h]
  · simp [addressesAt, h, Ne.symm h]

/-! ## Calls one by one -/

theorem ofCalls_snoc (calls : List (Address × Nat)) (a : Address) (line : Nat) :
    ofCalls (calls ++ [(a, line)]) = (ofCalls calls).record a line := List.foldl_concat ..

theorem ofCalls_sorted (calls : List (Address × Nat)) : (ofCalls calls).Sorted := by
  induction calls using List.reverseRecOn with
  | nil => exact List.Pairwise.nil
  | append_singleton calls c ih =>
    rw [ofCalls_snoc]
    exact record_sorted ih c.1 c.2

theorem min?_snoc (lines : List Nat) (line : Nat) :
    (lines ++ [line]).min? = some ((lines.min?.map (min line)).getD line) := by
  rw [List.min?_eq_some_iff]
  cases h : lines.min? with
  | none =>
    rw [List.min?_eq_none_iff] at h
    subst h
    simp
  | some k =>
    obtain ⟨hk, hleast⟩ := List.min?_eq_some_iff.mp h
    rw [Option.map_some, Option.getD_some]
    constructor
    · rcases Nat.le_total line k with hle | hle
      · rw [Nat.min_eq_left hle]; exact List.mem_append_right _ (List.mem_singleton_self line)
      · rw [Nat.min_eq_right hle]; exact List.mem_append_left _ hk
    · intro m hm
      rcases List.mem_append.mp hm with hm | hm
      · exact Nat.le_trans (Nat.min_le_right line k) (hleast m hm)
      · rw [List.mem_singleton.mp hm]; exact Nat.min_le_left line k

theorem firstLineOf_ofCalls (calls : List (Address × Nat)) (a : Address) :
    (ofCalls calls).firstLineOf a = (linesWith calls a).min? := by
  induction calls using List.reverseRecOn with
  | nil => rfl
  | append_singleton calls c ih =>
    obtain ⟨b, line⟩ := c
    rw [ofCalls_snoc, firstLineOf_record, linesWith_snoc]
    by_cases h : a = b
    · subst h
      rw [if_pos rfl, if_pos rfl, min?_snoc, ih]
    · rw [if_neg h, if_neg h, List.append_nil, ih]

theorem addressOf_ofCalls (calls : List (Address × Nat)) (line : Nat) :
    (ofCalls calls).addressOf line = (addressesAt calls line).getLast? := by
  induction calls using List.reverseRecOn with
  | nil => rfl
  | append_singleton calls c ih =>
    obtain ⟨a, m⟩ := c
    rw [ofCalls_snoc, addressOf_record (ofCalls_sorted calls), addressesAt_snoc]
    by_cases h : line = m
    · rw [if_pos h, if_pos h, List.getLast?_concat]
    · rw [if_neg h, if_neg h, List.append_nil, ih]

/-! ## Tagged lines -/

theorem mem_lines_ofCalls (calls : List (Address × Nat)) (line : Nat) (a : Address) :
    (line, a) ∈ (ofCalls calls).lines ↔ (ofCalls calls).addressOf line = some a := by
  rw [addressOf_eq_some (ofCalls_sorted calls)]
  exact List.mem_reverse

/-- The tagged lines are those that calls came for. -/
theorem mem_tagged (calls : List (Address × Nat)) (line : Nat) :
    line ∈ (ofCalls calls).lines.map (·.1) ↔ line ∈ calls.map (·.2) := by
  have htagged : line ∈ (ofCalls calls).lines.map (·.1) ↔ ((ofCalls calls).addressOf line).isSome := by
    simp [List.mem_map, mem_lines_ofCalls, Option.isSome_iff_exists]
  rw [htagged, addressOf_ofCalls, List.getLast?_isSome]
  constructor
  · intro hne
    obtain ⟨a, ha⟩ := List.exists_mem_of_ne_nil _ hne
    exact List.mem_map_of_mem (f := (·.2)) ((mem_addressesAt calls line a).mp ha)
  · intro hmem
    obtain ⟨⟨a, _⟩, hc, rfl⟩ := List.mem_map.mp hmem
    exact List.ne_nil_of_mem ((mem_addressesAt calls _ a).mpr hc)

theorem increasing_ofCalls (calls : List (Address × Nat)) :
    ((ofCalls calls).lines.map (·.1)).Pairwise (· < ·) :=
  List.pairwise_map.mpr (List.pairwise_reverse.mpr (ofCalls_sorted calls))

theorem tagged_perm (calls : List (Address × Nat)) :
    ((ofCalls calls).lines.map (·.1)).Perm (calls.map (·.2)).dedup := by
  have hnodup : ((ofCalls calls).lines.map (·.1)).Nodup := (increasing_ofCalls calls).imp Nat.ne_of_lt
  rw [List.perm_ext_iff_of_nodup hnodup (List.nodup_dedup _)]
  intro line
  rw [mem_tagged, List.mem_dedup]

/-- In a sorted index the first tag that is not below the line is the closest one. -/
theorem enclosing_eq_some {ix : LineIndex} (h : ix.Sorted) {line : Nat} {x : Nat × Address}
    (hx : ix.enclosing line = some x) :
    x ∈ ix.tags ∧ x.1 ≤ line ∧ ∀ y ∈ ix.tags, y.1 ≤ line → y.1 ≤ x.1 := by
  obtain ⟨hle, above, below, htags, habove⟩ := List.find?_eq_some_iff_append.mp hx
  unfold Sorted at h
  rw [htags] at h ⊢
  refine ⟨List.mem_append_right _ List.mem_cons_self, of_decide_eq_true hle, fun y hy hyle => ?_⟩
  rcases List.mem_append.mp hy with hy | hy
  · have hover := habove y hy
    simp [hyle] at hover
  · rcases List.mem_cons.mp hy with rfl | hy
    · exact Nat.le_refl _
    · exact Nat.le_of_lt (List.rel_of_pairwise_cons (List.pairwise_append.mp h).2.1 hy)

theorem enclosing_eq_none {ix : LineIndex} {line : Nat} :
    ix.enclosing line = none ↔ ∀ y ∈ ix.tags, ¬y.1 ≤ line := by
  rw [enclosing, List.find?_eq_none]
  simp

theorem enclosing_ofCalls (calls : List (Address × Nat)) (line : Nat) :
    ((ofCalls calls).enclosing line).map (·.1) = ((calls.map (·.2)).filter (· ≤ line)).max? := by
  have hmem : ∀ m, m ∈ (ofCalls calls).tags.map (·.1) ↔ m ∈ calls.map (·.2) := by
    intro m
    rw [← mem_tagged, lines, List.map_reverse, List.mem_reverse]
  cases hx : (ofCalls calls).enclosing line with
  | none =>
    have hnone := enclosing_eq_none.mp hx
    symm
    rw [Option.map_none, List.max?_eq_none_iff, List.filter_eq_nil_iff]
    intro m hm
    obtain ⟨y, hy, rfl⟩ := List.mem_map.mp ((hmem m).mpr hm)
    simpa using hnone y hy
  | some x =>
    obtain ⟨hxtag, hle, hgreatest⟩ := enclosing_eq_some (ofCalls_sorted calls) hx
    symm
    rw [Option.map_some, List.max?_eq_some_iff]
    refine ⟨?_, fun m hm => ?_⟩
    · exact List.mem_filter.mpr ⟨(hmem x.1).mp (List.mem_map_of_mem hxtag), decide_eq_true hle⟩
    · obtain ⟨hm, hmle⟩ := List.mem_filter.mp hm
      obtain ⟨y, hy, rfl⟩ := List.mem_map.mp ((hmem m).mpr hm)
      exact hgreatest y hy (of_decide_eq_true hmle)

/-! ## All answers -/

theorem perm_linesWith {calls calls' : List (Address × Nat)} (h : calls.Perm calls') (a : Address) :
    (linesWith calls a).Perm (linesWith calls' a) := (h.filter _).map _

theorem min?_perm {lines lines' : List Nat} (h : lines.Perm lines') : lines.min? = lines'.min? := by
  apply Option.ext
  intro m
  simp only [List.min?_eq_some_iff, h.mem_iff]

/-- Whatever the calls were, the index answers by them: the least line of an address, the
    latest address of a line, the closest line above, and each line once in order. The first
    line of an address is never below a line that shows it, and hangs on no order of the calls. -/
theorem index_tells_history (calls : List (Address × Nat)) :
    (∀ a, (ofCalls calls).firstLineOf a = (linesWith calls a).min?) ∧
      (∀ line, (ofCalls calls).addressOf line = (addressesAt calls line).getLast?) ∧
      (∀ line, ((ofCalls calls).enclosing line).map (·.1) = ((calls.map (·.2)).filter (· ≤ line)).max? ∧
        ∀ x ∈ (ofCalls calls).enclosing line, (ofCalls calls).addressOf x.1 = some x.2) ∧
      (∀ a, (ofCalls calls).contains a = true ↔ ∃ line, (a, line) ∈ calls) ∧
      (ofCalls calls).size = (calls.map (·.2)).dedup.length ∧
      ((ofCalls calls).lines.map (·.1)).Pairwise (· < ·) ∧
      ((ofCalls calls).lines.map (·.1)).Perm (calls.map (·.2)).dedup ∧
      (∀ x ∈ (ofCalls calls).lines, (ofCalls calls).addressOf x.1 = some x.2) ∧
      (∀ line a, (ofCalls calls).addressOf line = some a →
        ∃ first, (ofCalls calls).firstLineOf a = some first ∧ first ≤ line) ∧
      ∀ calls', calls.Perm calls' → ∀ a, (ofCalls calls').firstLineOf a = (ofCalls calls).firstLineOf a := by
  refine ⟨firstLineOf_ofCalls calls, addressOf_ofCalls calls, fun line => ⟨enclosing_ofCalls calls line, ?_⟩, ?_, ?_,
    increasing_ofCalls calls, tagged_perm calls, fun x hx => (mem_lines_ofCalls calls x.1 x.2).mp hx, ?_, ?_⟩
  · intro x hx
    exact (addressOf_eq_some (ofCalls_sorted calls) x.1 x.2).mpr (enclosing_eq_some (ofCalls_sorted calls) hx).1
  · intro a
    have hcontains : (ofCalls calls).contains a = ((ofCalls calls).firstLineOf a).isSome := rfl
    simp only [hcontains, firstLineOf_ofCalls, ← mem_linesWith]
    constructor
    · intro hsome
      obtain ⟨line, hline⟩ := Option.isSome_iff_exists.mp hsome
      exact ⟨line, (List.min?_eq_some_iff.mp hline).1⟩
    · rintro ⟨line, hline⟩
      exact List.isSome_min?_of_mem hline
  · have hlength := (tagged_perm calls).length_eq
    rwa [List.length_map, lines, List.length_reverse] at hlength
  · intro line a hline
    rw [addressOf_ofCalls] at hline
    have hcall : line ∈ linesWith calls a :=
      (mem_linesWith calls a line).mpr ((mem_addressesAt calls line a).mp (List.mem_of_getLast? hline))
    obtain ⟨first, hfirst⟩ := Option.isSome_iff_exists.mp (List.isSome_min?_of_mem hcall)
    exact ⟨first, (firstLineOf_ofCalls calls a).trans hfirst, (List.min?_eq_some_iff.mp hfirst).2 line hcall⟩
  · intro calls' h a
    rw [firstLineOf_ofCalls, firstLineOf_ofCalls, min?_perm (perm_linesWith h a)]

/-- Calls go back to lines above, and come twice for one line. -/
theorem calls_out_of_order_told :
    let calls : List (Address × Nat) := [(⟨0x20⟩, 5), (⟨0x10⟩, 2), (⟨0x20⟩, 1), (⟨0x30⟩, 5)]
    (ofCalls calls).firstLineOf ⟨0x20⟩ = some 1 ∧ (ofCalls calls).addressOf 5 = some ⟨0x30⟩ ∧
      (ofCalls calls.reverse).firstLineOf ⟨0x20⟩ = some 1 := by
  intro calls
  obtain ⟨hfirst, hlatest, -, -, -, -, -, -, -, horder⟩ := index_tells_history calls
  refine ⟨hfirst ⟨0x20⟩, hlatest 5, ?_⟩
  have hsame := horder calls.reverse (List.reverse_perm calls).symm ⟨0x20⟩
  exact hsame.trans (hfirst ⟨0x20⟩)

end AsmListing.LineIndex
