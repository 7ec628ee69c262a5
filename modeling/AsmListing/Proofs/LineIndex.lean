/-
  AsmListing.Proofs.LineIndex — what the index of a listing answers after records. The
  tags stand sorted from the greatest line down (`Sorted`), so a line has one tag, the
  last recorded for it, and an address has the least of its lines.

  Proved:
  - `record_sorted`: records keep the tags sorted, whatever lines they come for.
  - `addressOf_record` / `firstLineOf_record`: a record changes the answers for its own
    line and its own address, and no others.
  - `lines_ofTags`, `addressOf_ofTags`, `firstLineOf_ofTags`: where consecutive lines are
    recorded once each, with or without an address, the index is the list of their
    addresses read in either direction (`firstLineOf_least`).
-/

import Mathlib.Data.List.Induction
import AsmListing.Page.LineIndex

namespace AsmListing.LineIndex

/-- From the greatest line down, each line once. -/
def Sorted (ix : LineIndex) : Prop := ix.tags.Pairwise fun x y => y.1 < x.1

/-! ## One record -/

theorem mem_place {tags : List (Nat × Address)} (hs : tags.Pairwise fun x y => y.1 < x.1) (line : Nat) (a : Address)
    (x : Nat × Address) : x ∈ place line a tags ↔ x = (line, a) ∨ x ∈ tags ∧ x.1 ≠ line := by
  induction tags with
  | nil => simp [place]
  | cons t below ih =>
    obtain ⟨hbelow, hrest⟩ := List.pairwise_cons.mp hs
    have ih := ih hrest
    simp only [place]
    by_cases hlt : t.1 < line
    · -- every tag is below `line`
      have hne : ∀ y ∈ t :: below, y.1 ≠ line := by
        intro y hy
        rcases List.mem_cons.mp hy with rfl | hy
        · omega
        · have := hbelow y hy; omega
      rw [if_pos hlt, List.mem_cons]
      exact or_congr_right ⟨fun h => ⟨h, hne x h⟩, fun h => h.1⟩
    · by_cases heq : t.1 = line
      · rw [if_neg hlt, if_pos heq, List.mem_cons, List.mem_cons]
        refine or_congr_right ⟨fun h => ⟨Or.inr h, ?_⟩, fun ⟨h, hne⟩ => ?_⟩
        · have := hbelow x h; omega
        · rcases h with rfl | h
          · exact absurd heq hne
          · exact h
      · rw [if_neg hlt, if_neg heq, List.mem_cons, List.mem_cons, ih]
        constructor
        · rintro (rfl | rfl | ⟨h, hne⟩)
          · exact Or.inr ⟨Or.inl rfl, heq⟩
          · exact Or.inl rfl
          · exact Or.inr ⟨Or.inr h, hne⟩
        · rintro (rfl | ⟨rfl | h, hne⟩)
          · exact Or.inr (Or.inl rfl)
          · exact Or.inl rfl
          · exact Or.inr (Or.inr ⟨h, hne⟩)

theorem place_sorted {tags : List (Nat × Address)} (hs : tags.Pairwise fun x y => y.1 < x.1) (line : Nat)
    (a : Address) :
    (place line a tags).Pairwise fun x y => y.1 < x.1 := by
  induction tags with
  | nil => simp [place]
  | cons t below ih =>
    obtain ⟨hbelow, hrest⟩ := List.pairwise_cons.mp hs
    simp only [place]
    split
    · rename_i hlt
      refine List.pairwise_cons.mpr ⟨fun y hy => ?_, hs⟩
      rcases List.mem_cons.mp hy with rfl | hy
      · exact hlt
      · have := hbelow y hy; show y.1 < line; omega
    · split
      · rename_i heq
        exact List.pairwise_cons.mpr ⟨fun y hy => heq ▸ hbelow y hy, hrest⟩
      · refine List.pairwise_cons.mpr ⟨fun y hy => ?_, ih hrest⟩
        rcases (mem_place hrest line a y).mp hy with rfl | ⟨hy, _⟩
        · show line < t.1; omega
        · exact hbelow y hy

theorem record_sorted {ix : LineIndex} (h : ix.Sorted) (a : Address) (line : Nat) : (ix.record a line).Sorted :=
  place_sorted h line a

/-- The greatest line so far goes in front. -/
theorem place_greatest {tags : List (Nat × Address)} {line : Nat} (h : ∀ x ∈ tags, x.1 < line) (a : Address) :
    place line a tags = (line, a) :: tags := by
  cases tags with
  | nil => rfl
  | cons t below => simp only [place]; rw [if_pos (h t List.mem_cons_self)]

theorem addressOf_eq_some {ix : LineIndex} (h : ix.Sorted) (line : Nat) (a : Address) :
    ix.addressOf line = some a ↔ (line, a) ∈ ix.tags := by
  unfold addressOf
  unfold Sorted at h
  generalize ix.tags = tags at h
  induction tags with
  | nil => simp
  | cons t below ih =>
    obtain ⟨hbelow, hrest⟩ := List.pairwise_cons.mp h
    have ih := ih hrest
    obtain ⟨m, b⟩ := t
    rw [List.lookup_cons, List.mem_cons]
    by_cases e : line = m
    · have : (line, a) ∉ below := fun hm => by have := hbelow _ hm; simp only at this; omega
      simp [e, eq_comm]
      intro hm; exact absurd (e ▸ hm) this
    · have : (line == m) = false := by simpa using e
      simp [this, ih, e]

theorem addressOf_record {ix : LineIndex} (h : ix.Sorted) (a : Address) (line m : Nat) :
    (ix.record a line).addressOf m = if m = line then some a else ix.addressOf m := by
  apply Option.ext
  intro b
  rw [addressOf_eq_some (record_sorted h a line), record, mem_place h]
  split
  · rename_i e; simp [e, eq_comm]
  · rename_i e; simp [e, addressOf_eq_some h]

theorem firstLineOf_record (ix : LineIndex) (a b : Address) (line : Nat) :
    (ix.record a line).firstLineOf b =
      if b = a then some (((ix.firstLineOf a).map (min line)).getD line) else ix.firstLineOf b :=
  Table.find?_insert _ _ _ _

/-! ## Consecutive lines -/

/-- A line comes with an address or without one. -/
def recordTag (ix : LineIndex) (line : Nat) : Option Address → LineIndex
  | some a => ix.record a line
  | none => ix

/-- Records the tags of consecutive lines, the first of them `line`. -/
def recordTags (ix : LineIndex) (line : Nat) : List (Option Address) → LineIndex
  | [] => ix
  | t :: rest => (ix.recordTag line t).recordTags (line + 1) rest

def ofTags (tags : List (Option Address)) : LineIndex := recordTags {} 0 tags

/-- The tagged lines with their addresses, counted from 0. -/
def numbered (tags : List (Option Address)) : List (Nat × Address) :=
  tags.zipIdx.filterMap fun x => x.1.map (x.2, ·)

theorem recordTags_append (ts us : List (Option Address)) (ix : LineIndex) (line : Nat) :
    ix.recordTags line (ts ++ us) = (ix.recordTags line ts).recordTags (line + ts.length) us := by
  induction ts generalizing ix line with
  | nil => rfl
  | cons t ts ih =>
    rw [List.cons_append, recordTags, ih, recordTags, List.length_cons]
    congr 1; omega

theorem ofTags_snoc (ts : List (Option Address)) (t : Option Address) :
    ofTags (ts ++ [t]) = (ofTags ts).recordTag ts.length t := by
  rw [ofTags, recordTags_append, Nat.zero_add]; rfl

theorem ofTags_sorted (ts : List (Option Address)) : (ofTags ts).Sorted := by
  induction ts using List.reverseRecOn with
  | nil => exact List.Pairwise.nil
  | append_singleton ts t ih =>
    rw [ofTags_snoc]
    cases t with
    | none => exact ih
    | some a => exact record_sorted ih a _

theorem mem_numbered (ts : List (Option Address)) (line : Nat) (a : Address) :
    (line, a) ∈ numbered ts ↔ ts[line]? = some (some a) := by
  simp only [numbered, List.mem_filterMap, Option.map_eq_some_iff, Prod.mk.injEq]
  constructor
  · rintro ⟨⟨t, n⟩, hmem, b, ht, rfl, rfl⟩
    exact ht ▸ List.mk_mem_zipIdx_iff_getElem?.mp hmem
  · intro h
    exact ⟨(some a, line), List.mk_mem_zipIdx_iff_getElem?.mpr h, a, rfl, rfl, rfl⟩

theorem numbered_snoc (ts : List (Option Address)) (t : Option Address) :
    numbered (ts ++ [t]) = numbered ts ++ (t.map (ts.length, ·)).toList := by
  simp only [numbered, List.zipIdx_append, List.filterMap_append, Nat.zero_add]
  cases t <;> rfl

/-- Lines behind all that are tagged: their tags come last. -/
theorem lines_recordTags {ix : LineIndex} {line : Nat} (h : ∀ x ∈ ix.tags, x.1 < line) (ts : List (Option Address)) :
    (ix.recordTags line ts).lines = ix.lines ++ (numbered ts).map fun x => (line + x.1, x.2) := by
  induction ts using List.reverseRecOn with
  | nil => exact (List.append_nil _).symm
  | append_singleton ts t ih =>
    rw [recordTags_append, numbered_snoc, List.map_append, ← List.append_assoc, ← ih]
    cases t with
    | none => exact (List.append_nil _).symm
    | some a =>
      have hbelow : ∀ x ∈ (ix.recordTags line ts).tags, x.1 < line + ts.length := by
        intro x hx
        have hx : x ∈ (ix.recordTags line ts).lines := List.mem_reverse.mpr hx
        rw [ih] at hx
        rcases List.mem_append.mp hx with hx | hx
        · have := h x (List.mem_reverse.mp hx); omega
        · obtain ⟨y, hy, rfl⟩ := List.mem_map.mp hx
          have hlt := (List.getElem?_eq_some_iff.mp ((mem_numbered ts y.1 y.2).mp hy)).1
          exact Nat.add_lt_add_left hlt line
      show (place (line + ts.length) a (ix.recordTags line ts).tags).reverse = _
      rw [place_greatest hbelow, List.reverse_cons]; rfl

theorem lines_ofTags (ts : List (Option Address)) : (ofTags ts).lines = numbered ts := by
  have hlines := @lines_recordTags {} 0 (fun _ hx => absurd hx List.not_mem_nil) ts
  simpa [ofTags, lines] using hlines

theorem lines_sorted (ts : List (Option Address)) : (ofTags ts).lines.Pairwise fun x y => x.1 < y.1 :=
  List.pairwise_reverse.mpr (ofTags_sorted ts)

theorem addresses_ofTags (ts : List (Option Address)) : (ofTags ts).lines.map (·.2) = ts.filterMap id := by
  rw [lines_ofTags]
  induction ts using List.reverseRecOn with
  | nil => rfl
  | append_singleton ts t ih => rw [numbered_snoc, List.map_append, ih, List.filterMap_append]; cases t <;> rfl

theorem mem_lines_ofTags (ts : List (Option Address)) (line : Nat) (a : Address) :
    (line, a) ∈ (ofTags ts).lines ↔ (ofTags ts).addressOf line = some a := by
  rw [addressOf_eq_some (ofTags_sorted ts)]
  exact List.mem_reverse

theorem addressOf_ofTags (ts : List (Option Address)) (line : Nat) (a : Address) :
    (ofTags ts).addressOf line = some a ↔ ts[line]? = some (some a) := by
  rw [← mem_lines_ofTags, lines_ofTags, mem_numbered]

theorem firstLineOf_ofTags (ts : List (Option Address)) (a : Address) :
    (ofTags ts).firstLineOf a = ts.findIdx? (· == some a) := by
  induction ts using List.reverseRecOn with
  | nil => rfl
  | append_singleton ts t ih =>
    rw [ofTags_snoc, List.findIdx?_append, ← ih, List.findIdx?_singleton]
    cases t with
    | none => simp [recordTag]
    | some b =>
      rw [recordTag, firstLineOf_record]
      by_cases e : a = b
      · subst e
        cases h : (ofTags ts).firstLineOf a with
        | none => simp
        | some k =>
          -- an earlier line stays the first one
          have hk : k < ts.length := (List.findIdx?_eq_some_iff_getElem.mp (ih ▸ h)).1
          simp; omega
      · have : (some b == some a) = false := by simpa using fun h => e h.symm
        rw [if_neg e, this]; simp

/-- The two directions agree: the line of an address is the least one with that address. -/
theorem firstLineOf_least (ts : List (Option Address)) (a : Address) (line : Nat) :
    (ofTags ts).firstLineOf a = some line ↔
      (ofTags ts).addressOf line = some a ∧ ∀ m, (ofTags ts).addressOf m = some a → line ≤ m := by
  simp only [firstLineOf_ofTags, addressOf_ofTags, List.findIdx?_eq_some_iff_getElem]
  constructor
  · rintro ⟨hlt, hline, hbefore⟩
    refine ⟨List.getElem?_eq_some_iff.mpr ⟨hlt, by simpa using hline⟩, fun m hm => ?_⟩
    by_contra hlt'
    obtain ⟨hm', he⟩ := List.getElem?_eq_some_iff.mp hm
    have := hbefore m (by omega)
    simp [he] at this
  · rintro ⟨hline, hleast⟩
    obtain ⟨hlt, he⟩ := List.getElem?_eq_some_iff.mp hline
    refine ⟨hlt, by simp [he], fun m hm hb => ?_⟩
    have := hleast m (List.getElem?_eq_some_iff.mpr ⟨by omega, by simpa using hb⟩)
    omega

end AsmListing.LineIndex
