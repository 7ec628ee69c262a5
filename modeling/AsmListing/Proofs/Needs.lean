/-
  AsmListing.Proofs.Needs — what a function needs, and what a machine makes of it. Levels
  are entered one by one: the blanks of a level are only needed after those of the level
  around it (`Gradual`). So the first blanks that cannot be made are too long for a text,
  but no more than twice that, and their number is still a word: what stops the pass is
  the length of a text, never the product behind it.

  Proved, for every scene, printer and tree:
  - `needs_gradual`: a function needs its blanks level by level.
  - `meet_blanks`: behind levels whose blanks are texts, those of the next are refused just
    if they are too long.
  - `meetAll_of_gradual`: all needs are met, or blanks that are too long are among them.
  - `render_of_usable`: so blanks that are too long are all that stops a pass, where the
    sizes of its variables are words.
  - `function_of_render` / `met_of_render`: what is rendered is the function, with all that
    it needs.
-/

import AsmListing.Listing.Machine
import AsmListing.Proofs.Layout

namespace AsmListing

/-! ## Settings -/

theorem Settings.validate_error_iff (s : Settings) :
    (∃ fault, s.validate = .error fault) ↔ s.maxDataSize = 0 ∨ s.indentWidth = 0 := by
  unfold validate
  split
  · rename_i hsize
    exact iff_of_true ⟨_, rfl⟩ (Or.inl hsize)
  · rename_i hsize
    split
    · rename_i hwidth
      exact iff_of_true ⟨_, rfl⟩ (Or.inr hwidth)
    · rename_i hwidth
      exact iff_of_false (fun ⟨_, h⟩ => by cases h) (not_or.mpr ⟨hsize, hwidth⟩)

theorem Settings.indentWidth_ne_zero {s : Settings} (h : s.validate = .ok ()) : s.indentWidth ≠ 0 := by
  intro hzero
  obtain ⟨fault, hfault⟩ := s.validate_error_iff.mpr (Or.inr hzero)
  rw [h] at hfault
  cases hfault

/-! ## Products -/

theorem Arithmetic.product_of_lt (m : Arithmetic) {a b : UInt64} (h : a.toNat * b.toNat < UInt64.size) :
    m.product a b = .ok (a * b) ∧ (a * b).toNat = a.toNat * b.toNat :=
  ⟨if_neg fun hover => absurd h (Nat.not_lt.mpr hover.2), by rw [UInt64.toNat_mul, Nat.mod_eq_of_lt h]⟩

theorem Arithmetic.checked_product_eq_ok {a b c : UInt64} (h : Arithmetic.checked.product a b = .ok c) :
    a.toNat * b.toNat < UInt64.size := by
  refine Nat.lt_of_not_le fun hover => ?_
  rw [product, if_pos ⟨rfl, hover⟩] at h
  cases h

/-! ## Levels -/

def Need.level? : Need → Option Nat
  | .blanks level => some level
  | .bits _ | .hook _ => none

/-- Blanks are needed level by level, when those up to the level `deepest` are at hand. -/
inductive Gradual : Nat → List Need → Prop
  | nil {deepest : Nat} : Gradual deepest []
  | blanks {deepest level : Nat} {rest : List Need} (hlevel : level ≤ deepest + 1)
      (hrest : Gradual (max deepest level) rest) : Gradual deepest (.blanks level :: rest)
  | bits {deepest : Nat} (size : UInt64) {rest : List Need} (hrest : Gradual deepest rest) :
      Gradual deepest (.bits size :: rest)
  | hook {deepest : Nat} (hook : Hook) {rest : List Need} (hrest : Gradual deepest rest) :
      Gradual deepest (.hook hook :: rest)

namespace Gradual

variable {deepest level : Nat} {ns rest : List Need}

theorem mono (h : Gradual deepest ns) : ∀ {deeper : Nat}, deepest ≤ deeper → Gradual deeper ns := by
  induction h with
  | nil => exact fun _ => .nil
  | blanks hlevel _ ih => exact fun hle => .blanks (by omega) (ih (by omega))
  | bits size _ ih => exact fun hle => .bits size (ih hle)
  | hook hook _ ih => exact fun hle => .hook hook (ih hle)

theorem append (h : Gradual deepest ns) : Gradual deepest rest → Gradual deepest (ns ++ rest) := by
  induction h with
  | nil => exact id
  | blanks hlevel _ ih => exact fun hrest => .blanks hlevel (ih (hrest.mono (Nat.le_max_left _ _)))
  | bits size _ ih => exact fun hrest => .bits size (ih hrest)
  | hook hook _ ih => exact fun hrest => .hook hook (ih hrest)

theorem flatMap {α : Type} {f : α → List Need} {as : List α} (h : ∀ a ∈ as, Gradual deepest (f a)) :
    Gradual deepest (as.flatMap f) := by
  induction as with
  | nil => exact .nil
  | cons a as ih =>
    obtain ⟨ha, has⟩ := List.forall_mem_cons.mp h
    exact ha.append (ih has)

theorem of_append : ∀ {ns : List Need} {deepest : Nat}, Gradual deepest (ns ++ rest) → Gradual deepest ns
  | [], _, _ => .nil
  | _ :: _, _, .blanks hlevel hrest => .blanks hlevel hrest.of_append
  | _ :: _, _, .bits size hrest => .bits size hrest.of_append
  | _ :: _, _, .hook h hrest => .hook h hrest.of_append

theorem single (h : level ≤ deepest + 1) : Gradual deepest [.blanks level] := .blanks h .nil

end Gradual

namespace Pass

variable (p : Pass)

mutual

theorem steps_gradual (comments : Bool) {level deepest : Nat} (h : level ≤ deepest + 1) (t : Tree) :
    Gradual deepest ((t.steps comments level).flatMap p.stepNeeds) := by
  match t with
  | .block instructions =>
    refine .flatMap fun st hst => ?_
    obtain ⟨i, -, rfl⟩ := List.mem_map.mp hst
    rw [stepNeeds]
    split
    · split
      · exact .single h
      · exact .nil
    · exact .blanks h (.hook _ .nil)
  | .seq parts => exact stepsAll_gradual comments h parts
  | .cond jump fused body =>
    have hechoes : Gradual deepest
        ((if comments then (fused.toList ++ [jump]).map (Step.echo · level) else []).flatMap p.stepNeeds) := by
      refine .flatMap fun st hst => ?_
      split at hst
      · obtain ⟨i, -, rfl⟩ := List.mem_map.mp hst
        exact .single h
      · cases hst
    -- the header's own blanks are those that the body builds on
    have hbody : Gradual (max deepest level) ((body.steps comments (level + 1)).flatMap p.stepNeeds) :=
      steps_gradual comments (Nat.add_le_add_right (Nat.le_max_right _ _) 1) body
    have hclose : Gradual (max deepest level) [.blanks level] := .single (by omega)
    rw [Tree.steps, List.flatMap_append, List.flatMap_append, List.flatMap_append, List.append_assoc, List.append_assoc]
    exact hechoes.append (.blanks h (.hook _ (hbody.append hclose)))
  | .unwritable => exact .hook _ .nil

theorem stepsAll_gradual (comments : Bool) {level deepest : Nat} (h : level ≤ deepest + 1) (ts : List Tree) :
    Gradual deepest ((Tree.stepsAll comments level ts).flatMap p.stepNeeds) := by
  match ts with
  | [] => exact .nil
  | t :: rest =>
    rw [Tree.stepsAll, List.flatMap_append]
    exact (steps_gradual comments h t).append (stepsAll_gradual comments h rest)

end

theorem needs_gradual (tree : Tree) : Gradual 0 (p.needs tree) :=
  (Gradual.flatMap fun v _ => .blanks (Nat.le_refl 1) (.bits v.size .nil)).append
    (p.steps_gradual p.settings.comments (Nat.le_refl 1) tree)

theorem reached_gradual (tree : Tree) : Gradual 0 (p.reached tree) := by
  have hneeds := p.needs_gradual tree
  rw [← List.takeWhile_append_dropWhile (p := p.supplied) (l := p.needs tree)] at hneeds
  exact hneeds.of_append

/-- The variables come before any hook. -/
theorem reached_eq (tree : Tree) :
    p.reached tree = (p.context.locals.flatMap fun v => [.blanks 1, .bits v.size]) ++
      ((tree.steps p.settings.comments 1).flatMap p.stepNeeds).takeWhile p.supplied := by
  refine List.takeWhile_append_of_pos fun n hn => ?_
  obtain ⟨v, -, hn⟩ := List.mem_flatMap.mp hn
  rcases List.mem_cons.mp hn with rfl | hn
  · rfl
  · rw [List.mem_singleton.mp hn]
    rfl

theorem bits_mem_reached (tree : Tree) {v : Local} (hv : v ∈ p.context.locals) : .bits v.size ∈ p.reached tree := by
  rw [reached_eq]
  exact List.mem_append_left _ (List.mem_flatMap.mpr ⟨v, hv, List.mem_cons_of_mem _ List.mem_cons_self⟩)

/-- Only the variables need their sizes. -/
theorem local_of_bits (tree : Tree) {size : UInt64} (h : .bits size ∈ p.reached tree) :
    ∃ v ∈ p.context.locals, v.size = size := by
  rcases List.mem_append.mp ((List.takeWhile_sublist _).subset h) with h | h
  · obtain ⟨v, hv, h⟩ := List.mem_flatMap.mp h
    refine ⟨v, hv, ?_⟩
    simpa [eq_comm] using h
  · obtain ⟨st, -, h⟩ := List.mem_flatMap.mp h
    cases st with
    | visit i level =>
      rw [stepNeeds] at h
      split at h
      · split at h <;> simp at h
      · simp at h
    | echo i level => simp [stepNeeds] at h
    | openCond jump fused level => simp [stepNeeds] at h
    | closeCond level => simp [stepNeeds] at h
    | unwritable => simp [stepNeeds] at h

/-! ## Meeting them -/

variable {p} {m : Arithmetic} {ns : List Need}

theorem meetAll_eq_ok : p.meetAll m ns = .ok () ↔ ∀ n ∈ ns, p.meet m n = .ok () := by
  induction ns with
  | nil => exact iff_of_true rfl fun _ hn => absurd hn List.not_mem_nil
  | cons n ns ih =>
    rw [List.forall_mem_cons, ← ih, meetAll]
    cases p.meet m n with
    | error panic => exact iff_of_false nofun (fun h => nomatch h.1)
    | ok _ => exact (and_iff_right rfl).symm

/-- In a build that checks products, no variable has more bits than a word can say. -/
def SizesFit (p : Pass) (m : Arithmetic) : Prop :=
  m = .checked → ∀ v ∈ p.context.locals, 8 * v.size.toNat < UInt64.size

theorem sizesFit_of_meetAll {tree : Tree} (h : p.meetAll m (p.reached tree) = .ok ()) : p.SizesFit m := by
  rintro rfl v hv
  have hmet := meetAll_eq_ok.mp h _ (p.bits_mem_reached tree hv)
  cases hproduct : Arithmetic.checked.product v.size 8 with
  | error panic =>
    rw [meet, hproduct] at hmet
    cases hmet
  | ok bits =>
    rw [Nat.mul_comm]
    exact Arithmetic.checked_product_eq_ok hproduct

theorem meet_bits (h : p.SizesFit m) {v : Local} (hv : v ∈ p.context.locals) : p.meet m (.bits v.size) = .ok () := by
  have hproduct : m.product v.size 8 = .ok (v.size * 8) := by
    cases m with
    | checked =>
      refine (Arithmetic.checked.product_of_lt ?_).1
      have hfits := h rfl v hv
      rwa [Nat.mul_comm] at hfits
    | wrapping => exact if_neg fun h => nomatch h.1
  rw [meet, hproduct]
  rfl

/-! ## Blanks -/

/-- The blanks of `level` are too long for a text. -/
def TooDeep (p : Pass) (level : Nat) : Prop := longestText < level * p.settings.indentWidth.toNat

instance (p : Pass) (level : Nat) : Decidable (p.TooDeep level) := inferInstanceAs (Decidable (_ < _))

theorem not_tooDeep_zero (p : Pass) : ¬ p.TooDeep 0 := by
  rw [TooDeep, Nat.zero_mul]
  exact Nat.not_lt_zero _

/-- One level more is at most twice as long, unless it is the first. -/
theorem next_level_lt {deepest level : Nat} (hdeepest : ¬ p.TooDeep deepest) (hlevel : level ≤ deepest + 1) :
    level * p.settings.indentWidth.toNat < UInt64.size := by
  have hword : p.settings.indentWidth.toNat < UInt64.size := p.settings.indentWidth.toNat_lt
  have hnext : level * p.settings.indentWidth.toNat ≤
      deepest * p.settings.indentWidth.toNat + p.settings.indentWidth.toNat := by
    rw [← Nat.succ_mul]
    exact Nat.mul_le_mul_right _ hlevel
  rcases Nat.eq_zero_or_pos deepest with rfl | hone
  · omega
  · have hself : p.settings.indentWidth.toNat ≤ deepest * p.settings.indentWidth.toNat :=
      Nat.le_mul_of_pos_left _ hone
    simp only [TooDeep, longestText, UInt64.size] at *
    omega

theorem meet_blanks (m : Arithmetic) (hwidth : p.settings.indentWidth ≠ 0) {deepest level : Nat}
    (hdeepest : ¬ p.TooDeep deepest) (hlevel : level ≤ deepest + 1) :
    p.meet m (.blanks level) = if p.TooDeep level then .error .capacity else .ok () := by
  have hpos : 0 < p.settings.indentWidth.toNat := Nat.pos_of_ne_zero fun h => hwidth (UInt64.toNat_inj.mp h)
  have hproduct := next_level_lt hdeepest hlevel
  have hlevelWord : level.toUInt64.toNat = level :=
    UInt64.toNat_ofNat_of_lt' (Nat.lt_of_le_of_lt (Nat.le_mul_of_pos_right _ hpos) hproduct)
  obtain ⟨hmade, hcount⟩ := m.product_of_lt (a := level.toUInt64) (b := p.settings.indentWidth) (by rwa [hlevelWord])
  rw [hlevelWord] at hcount
  rw [meet, hmade]
  rcases Nat.eq_zero_or_pos level with rfl | hlevel
  · rw [if_pos rfl, if_neg p.not_tooDeep_zero]
  · rw [if_neg (Nat.ne_of_gt hlevel)]
    show makeBlanks _ = _
    rw [makeBlanks, hcount]
    rfl

theorem meetAll_of_gradual (hwidth : p.settings.indentWidth ≠ 0) {deepest : Nat} (hns : Gradual deepest ns)
    (hdeepest : ¬ p.TooDeep deepest) (hbits : ∀ size, .bits size ∈ ns → p.meet m (.bits size) = .ok ()) :
    p.meetAll m ns = if ∃ level ∈ ns.filterMap Need.level?, p.TooDeep level then .error .capacity else .ok () := by
  induction hns with
  | nil => exact (if_neg fun ⟨_, h, _⟩ => (List.not_mem_nil h).elim).symm
  | @blanks deepest level rest hlevel _ ih =>
    rw [meetAll, meet_blanks m hwidth hdeepest hlevel, List.filterMap_cons_some (f := Need.level?) (b := level) rfl]
    simp only [List.mem_cons, exists_eq_or_imp]
    by_cases htoo : p.TooDeep level
    · rw [if_pos htoo, if_pos (Or.inl htoo)]
      rfl
    · have hmax : ¬ p.TooDeep (max deepest level) := by
        rcases Nat.le_total deepest level with hle | hle
        · rwa [Nat.max_eq_right hle]
        · rwa [Nat.max_eq_left hle]
      simp only [htoo, false_or]
      exact ih hmax fun size hsize => hbits size (List.mem_cons_of_mem _ hsize)
  | @bits deepest size rest _ ih =>
    rw [meetAll, hbits size List.mem_cons_self, List.filterMap_cons_none (f := Need.level?) rfl]
    exact ih hdeepest fun size hsize => hbits size (List.mem_cons_of_mem _ hsize)
  | @hook deepest hook rest _ ih =>
    rw [meetAll, List.filterMap_cons_none (f := Need.level?) rfl]
    exact ih hdeepest fun size hsize => hbits size (List.mem_cons_of_mem _ hsize)

/-- Blanks are reached that are too long for a text. -/
def Overlong (p : Pass) (tree : Tree) : Prop :=
  ∃ level ∈ (p.reached tree).filterMap Need.level?, p.TooDeep level

instance (p : Pass) (tree : Tree) : Decidable (p.Overlong tree) := inferInstanceAs (Decidable (∃ _ ∈ _, _))

/-! ## Rendering -/

/-- Under usable settings, and with sizes that fit, only blanks that are too long stop a pass. -/
theorem render_of_usable (hvalid : p.settings.validate = .ok ()) (hsizes : p.SizesFit m) (entry : Address)
    (tree : Tree) :
    p.render m entry tree = if p.Overlong tree then .error .capacity else .ok (p.function entry tree) := by
  have hbits : ∀ size, .bits size ∈ p.reached tree → p.meet m (.bits size) = .ok () := by
    intro size hsize
    obtain ⟨v, hv, rfl⟩ := p.local_of_bits tree hsize
    exact meet_bits hsizes hv
  have hmet : p.meetAll m (p.reached tree) = if p.Overlong tree then .error .capacity else .ok () :=
    meetAll_of_gradual (Settings.indentWidth_ne_zero hvalid) (p.reached_gradual tree) p.not_tooDeep_zero hbits
  rw [render, hvalid]
  show (p.meetAll m (p.reached tree)).map _ = _
  rw [hmet]
  by_cases h : p.Overlong tree
  · rw [if_pos h, if_pos h]
    rfl
  · rw [if_neg h, if_neg h]
    rfl

/-- A pass that is not stopped is refused for its settings, or has met all needs. -/
theorem render_cases {entry : Address} {tree : Tree} {result : Except Failure Rendering}
    (h : p.render m entry tree = .ok result) :
    (∃ fault, p.settings.validate = .error fault ∧ .error (.settings fault) = result) ∨
      p.settings.validate = .ok () ∧ p.meetAll m (p.reached tree) = .ok () ∧ p.function entry tree = result := by
  unfold render at h
  split at h
  · rename_i fault hfault
    exact Or.inl ⟨fault, hfault, Except.ok.inj h⟩
  · rename_i hvalid
    obtain ⟨⟨⟩, hmet, hresult⟩ := map_eq_ok.mp h
    exact Or.inr ⟨hvalid, hmet, hresult⟩

theorem function_of_render {entry : Address} {tree : Tree} {result : Except Failure Rendering}
    (h : p.render m entry tree = .ok result) : p.function entry tree = result := by
  rcases render_cases h with ⟨fault, hfault, rfl⟩ | ⟨-, -, hresult⟩
  · rw [function, hfault]
  · exact hresult

theorem met_of_render {entry : Address} {tree : Tree} {r : Rendering} (h : p.render m entry tree = .ok (.ok r)) :
    p.settings.validate = .ok () ∧ p.meetAll m (p.reached tree) = .ok () := by
  rcases render_cases h with ⟨fault, -, hresult⟩ | ⟨hvalid, hmet, -⟩
  · cases hresult
  · exact ⟨hvalid, hmet⟩

theorem not_overlong_of_render {entry : Address} {tree : Tree} {r : Rendering}
    (h : p.render m entry tree = .ok (.ok r)) : ¬ p.Overlong tree := by
  intro htoo
  obtain ⟨hvalid, hmet⟩ := met_of_render h
  rw [render_of_usable hvalid (sizesFit_of_meetAll hmet), if_pos htoo] at h
  cases h

end Pass

end AsmListing
