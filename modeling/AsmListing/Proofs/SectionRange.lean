/-
  AsmListing.Proofs.SectionRange — the addresses a section holds. A section is kept as its
  start and an end that is excluded, and where start and size lead beyond the address space
  the end is its last address. So that address is behind the end of every section; any other
  is held or not as the distance from the start says.

  Proved:
  - `Address.toNat_advance`: moving up adds, as far as the last address.
  - `Section.contains_ofSize`: a section holds what lies within its size, but for the last
    address.
  - `section_holds_below_top`: so it is for every section, those that reach beyond the
    address space among them; `last_address_outside` is one of these.
  - `minus_one_literal`: the last address is the number -1, so that is no address in a file,
    unless something names it.
-/

import AsmListing.Proofs.NumberParts

namespace AsmListing

namespace Address

/-- How far `a` lies above `b`, counted without a bound; negative when it lies below. -/
def above (a b : Address) : Int := a.value.toNat - b.value.toNat

theorem toNat_top : top.value.toNat = UInt64.size - 1 := rfl

theorem eq_top_iff {a : Address} : a = top ↔ a.value.toNat = UInt64.size - 1 := by
  rw [← toNat_top, UInt64.toNat_inj]
  exact ⟨congrArg value, fun h => by cases a; exact congrArg mk h⟩

theorem toNat_advance (a : Address) (n : UInt64) :
    (a.advance n).value.toNat = min (a.value.toNat + n.toNat) (UInt64.size - 1) := by
  unfold advance
  split
  case isTrue hfits =>
    rw [UInt64.toNat_add, Nat.mod_eq_of_lt hfits]
    exact (Nat.min_eq_left (Nat.le_sub_one_of_lt hfits)).symm
  case isFalse hbeyond =>
    rw [toNat_top]
    exact (Nat.min_eq_right (by omega)).symm

theorem inRange_iff {a start stop : Address} :
    a.inRange start stop = true ↔ start.value ≤ a.value ∧ a.value.toNat < stop.value.toNat := by
  simp only [inRange, Bool.and_eq_true, decide_eq_true_eq, UInt64.lt_iff_toNat_lt]

end Address

namespace Section

theorem contains_ofSize (name : String) (start : Address) (size : UInt64) (isData : Bool) (a : Address) :
    (ofSize name start size isData).contains a = true ↔
      start.value ≤ a.value ∧ a.above start < size.toNat ∧ a ≠ .top := by
  have hlast : a.value.toNat ≤ UInt64.size - 1 := Nat.le_sub_one_of_lt a.value.toNat_lt
  rw [contains, ofSize, Address.inRange_iff, Address.toNat_advance, Ne, Address.eq_top_iff, Address.above]
  refine and_congr_right fun _ => ?_
  omega

/-- The end is excluded, and there is none above the last address. -/
theorem not_contains_top (sec : Section) : sec.contains .top = false := by
  rw [contains, ← Bool.not_eq_true, Address.inRange_iff, Address.toNat_top]
  have hstop : sec.stop.value.toNat < UInt64.size := sec.stop.value.toNat_lt
  omega

end Section

/-- A section holds the addresses from its start on that lie less than its size above it,
    counted without a bound, but for the last address of all. So one that reaches the end of
    the address space, or beyond it, holds every address from its start on but that one. -/
theorem section_holds_below_top (name : String) (start : Address) (size : UInt64) (isData : Bool) :
    (∀ a, (Section.ofSize name start size isData).contains a = true ↔
      start.value ≤ a.value ∧ a.above start < size.toNat ∧ a ≠ .top) ∧
    (UInt64.size ≤ start.value.toNat + size.toNat →
      ∀ a, (Section.ofSize name start size isData).contains a = true ↔ start.value ≤ a.value ∧ a ≠ .top) := by
  refine ⟨Section.contains_ofSize name start size isData, fun hreaches a => ?_⟩
  have hlast : a.value.toNat < UInt64.size := a.value.toNat_lt
  have hnear : a.above start < size.toNat := by
    rw [Address.above]
    omega
  rw [Section.contains_ofSize]
  simp only [hnear, true_and]

/-- The last 16 addresses are asked for, and 240 behind them: 15 are held. -/
theorem reaching_section_holds_last_but_one :
    UInt64.size ≤ (0xfffffffffffffff0 : UInt64).toNat + (0x100 : UInt64).toNat ∧
      (Section.ofSize "top" ⟨0xfffffffffffffff0⟩ 0x100 true).contains ⟨0xfffffffffffffffe⟩ = true := by
  have hreaches : UInt64.size ≤ (0xfffffffffffffff0 : UInt64).toNat + (0x100 : UInt64).toNat := by decide
  have hholds := (section_holds_below_top "top" ⟨0xfffffffffffffff0⟩ 0x100 true).2 hreaches
  exact ⟨hreaches, (hholds ⟨0xfffffffffffffffe⟩).mpr (by decide)⟩

/-- The last address is not held by a section that begins below it and whose size leads
    beyond it. -/
theorem last_address_outside :
    let sec := Section.ofSize "top" ⟨0xfffffffffffffff0⟩ 0x100 true
    UInt64.size ≤ (0xfffffffffffffff0 : UInt64).toNat + (0x100 : UInt64).toNat ∧
      (0xfffffffffffffff0 : UInt64) ≤ Address.top.value ∧
      Address.top.above ⟨0xfffffffffffffff0⟩ < ((0x100 : UInt64).toNat : Int) ∧ sec.contains .top = false := by
  decide

/-! ## The number -1 -/

theorem Image.sectionOf_top (i : Image) : i.view.sectionOf .top = none := by
  rw [view, List.find?_eq_none]
  intro sec _
  simp [sec.not_contains_top]

/-- In no file does -1 count as an address by where it lies. -/
theorem minus_one_literal {s : Scene} {i : Image} (hfile : s.binary = i.view) (hunnamed : ¬s.HasLabel .top) :
    s.IsLiteral (-1) none := by
  rw [Scene.isLiteral_iff]
  refine ⟨hunnamed, fun hin => ?_⟩
  have hsection : (s.binary.sectionOf .top).isSome = true := hin.1
  rw [hfile, i.sectionOf_top] at hsection
  cases hsection

end AsmListing
