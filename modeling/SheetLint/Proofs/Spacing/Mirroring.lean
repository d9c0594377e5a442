import SheetLint.Proofs.Spacing.Indexes

/-
  Checks before an index against checks after it. In a text read backwards, after is what before
  was: without a carriage return in the text the two checks have the same outcome, but for the side
  (`SpacingCheck.before_eq_after_mirror`). And a check that asks for more passes only where the one
  that asks for less does, unless no character precedes the index (`checks_mirror_each_other`).
-/

namespace SheetLint

/-! ## Texts read backwards -/

/-- The boundary at the same character in the text read backwards. -/
def Boundary.mirror (b : Boundary) : Boundary where
  source := b.source.reverse
  index := b.source.length - 1 - b.index
  lineCheck := b.lineCheck.map List.reverse

namespace Boundary

variable (b : Boundary)

theorem found_mirror : b.mirror.found = b.found := by
  have hlen : b.mirror.source.length = b.source.length := List.length_reverse
  have hindex : b.mirror.index = b.source.length - 1 - b.index := rfl
  unfold found
  by_cases h : 0 ≤ b.index ∧ b.index < b.source.length
  · rw [if_pos (by omega), if_pos h.1]
    refine (List.getElem?_reverse (by omega)).trans ?_
    congr 1
    omega
  · have hout : (if 0 ≤ b.index then b.source[b.index.toNat]? else none) = none := by
      split
      · exact List.getElem?_eq_none (by omega)
      · rfl
    rw [hout]
    split
    · exact List.getElem?_eq_none (by omega)
    · rfl

theorem ahead_mirror : b.mirror.ahead = b.behind := by
  have hindex : b.mirror.index = b.source.length - 1 - b.index := rfl
  by_cases hi : 0 ≤ b.index
  · by_cases hlen : b.index ≤ b.source.length
    · rw [behind_of_inside ⟨hi, hlen⟩, ahead_of_le (by omega), List.reverse_take]
      show b.source.reverse.drop _ = _
      congr 1
      omega
    · rw [behind_of_outside (by omega), ahead_of_lt (by omega)]
  · rw [behind_of_outside (by omega), ahead_of_le (by omega), List.drop_eq_nil_iff]
    show b.source.reverse.length ≤ _
    rw [List.length_reverse]
    omega

theorem isSingleLine_mirror : isSingleLine b.mirror.lines = isSingleLine b.lines := by
  unfold isSingleLine lines mirror
  cases b.lineCheck <;> simp

end Boundary

/-- Without carriage returns a gap is the same from both ends. -/
theorem Gap.skip?_eq_skipBack? {s : Text} (h : '\r' ∉ s) (g : Gap) : g.skip? s = g.skipBack? s := by
  cases s with
  | nil => rw [skip?_nil, skipBack?_nil]
  | cons c s =>
    cases g with
    | space => rw [skip?_space, skipBack?_space]
    | newline =>
      have hc : ¬ (c = '\r' ∧ s.head? = some '\n') := fun hc => h (hc.1 ▸ List.mem_cons_self)
      have hs : s.head? ≠ some '\r' := fun hs => h (List.mem_cons_of_mem _ (List.mem_of_head? hs))
      rw [skip?_newline, skipBack?_newline, if_neg hc, if_neg hs]

/-! ## Checks -/

/-- The same failure on a given side. -/
def Misspacing.onSide (side : Side) (v : Misspacing) : Misspacing := { v with side }

namespace SpacingCheck

variable {k : SpacingCheck} {b : Boundary}

theorem judge_onSide {side side' : Side} {required forbidden : Bool} :
    (k.judge b side required forbidden).map (·.onSide side')
      = k.judge b side' required forbidden := by
  rw [judge, judge, apply_ite (Option.map _), apply_ite (Option.map _)]
  rfl

theorem before_eq_after_mirror (h : '\r' ∉ b.source) :
    k.before b = (k.after b.mirror).map (·.onSide .before) := by
  rw [before, after, judge_onSide, b.ahead_mirror, Gap.skip?_eq_skipBack? (Boundary.not_mem_behind h)]
  exact (judge_congr b.isSingleLine_mirror b.found_mirror).symm

theorem afterOneOnly_of_after (h : k.after b = none) : k.afterOneOnly b = none := by
  refine judge_eq_none_of_imp (fun hr => ?_) h
  rw [Bool.or_eq_true] at hr ⊢
  exact hr.imp_right fun hany => Option.isSome_of_any hany

theorem beforeAllowingIndentation_of_before (hb : b.behind ≠ []) (h : k.before b = none) :
    k.beforeAllowingIndentation b = none := by
  unfold beforeAllowingIndentation
  cases hk : k.target with
  | space => exact h
  | newline =>
    refine judge_eq_none_of_imp (fun hr => ?_) h
    rw [hk, List.isEmpty_eq_false_iff.2 hb, Bool.false_or] at hr
    obtain ⟨c, s, hcs⟩ := List.exists_cons_of_ne_nil hb
    rw [hcs, Gap.skipBack?_newline] at hr
    by_cases hc : c = '\n'
    · rw [hcs, hc]
      rfl
    · rw [if_neg hc] at hr
      cases hr

end SpacingCheck

/-- Before an index and after it the same is asked for, each time in its own direction. -/
structure SpacingCheck.Mirrored (k : SpacingCheck) : Prop where
  /-- Read backwards, a text passes one check where it passed the other, and else the same
      character is found. -/
  mirror : ∀ b : Boundary, '\r' ∉ b.source →
    k.before b = (k.after b.mirror).map (·.onSide .before)
  /-- A check that passes also passes when nothing is asked of what follows the gap. -/
  after : ∀ b, k.after b = none → k.afterOneOnly b = none
  /-- A check that passes also passes when indentation is allowed, if a character precedes the
      index. -/
  before : ∀ b, (b.at? (b.index - 1)).isSome → k.before b = none →
    k.beforeAllowingIndentation b = none

theorem checks_mirror_each_other (k : SpacingCheck) : k.Mirrored where
  mirror _ := SpacingCheck.before_eq_after_mirror
  after _ := SpacingCheck.afterOneOnly_of_after
  before b hb := by
    refine SpacingCheck.beforeAllowingIndentation_of_before fun hnil => ?_
    rw [b.at?_previous, hnil] at hb
    cases hb

/-- A line that is indented by a space, at its first character. -/
def spacedLine : Boundary := { source := "a\n b;".toList, index := 3 }

theorem checks_mirror_each_other_spacedLine :
    '\r' ∉ spacedLine.source ∧ (spacedLine.at? (spacedLine.index - 1)).isSome ∧
      (∀ k : SpacingCheck, k.before spacedLine
        = (k.after spacedLine.mirror).map (·.onSide .before)) ∧
      SpacingCheck.before ⟨.newline, .always⟩ spacedLine
        = some ⟨.before, ⟨.newline, .always⟩, some 'b'⟩ ∧
      SpacingCheck.beforeAllowingIndentation ⟨.newline, .never⟩ spacedLine ≠ none ∧
      SpacingCheck.beforeAllowingIndentation ⟨.space, .alwaysSingleLine⟩ spacedLine = none :=
  have hcr : '\r' ∉ spacedLine.source := by decide
  have hprevious : (spacedLine.at? (spacedLine.index - 1)).isSome := by decide
  ⟨hcr, hprevious, fun k => (checks_mirror_each_other k).mirror _ hcr, by decide, by decide,
    (checks_mirror_each_other _).before _ hprevious (by decide)⟩

end SheetLint
