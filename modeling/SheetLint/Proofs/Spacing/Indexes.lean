import SheetLint.Proofs.Loop
import SheetLint.Spacing

/-
  Spacing checks by index. A check can be made by looking up the characters one, two and three
  places to the side of the index, and by walking back from there over indentation, where an index
  outside the text has no character. This gives the outcome that the two texts beside the index
  give, for every index, and the walk always comes to an end (`Indexwise.outcome?_eq`).
-/

namespace SheetLint

/-! ## Ways to check -/

/-- The ways to check the spacing at a boundary. -/
inductive Probe
  | after
  | afterOneOnly
  | before
  | beforeAllowingIndentation
deriving DecidableEq, Repr

/-- The outcome of a check made in one of the ways. -/
def SpacingCheck.outcome (k : SpacingCheck) : Probe → Boundary → Option Misspacing
  | .after => k.after
  | .afterOneOnly => k.afterOneOnly
  | .before => k.before
  | .beforeAllowingIndentation => k.beforeAllowingIndentation

/-! ## Judging -/

namespace SpacingCheck

variable {k : SpacingCheck} {b b' : Boundary} {side : Side} {required required' forbidden : Bool}

/-- A boundary is judged by the lines of its text, and blamed on the character at its index. -/
theorem judge_congr (hlines : isSingleLine b.lines = isSingleLine b'.lines)
    (hfound : b.found = b'.found) :
    k.judge b side required forbidden = k.judge b' side required forbidden := by
  have happlies : k.expectation.appliesTo b.lines = k.expectation.appliesTo b'.lines := by
    cases k.expectation <;> simp [Expectation.appliesTo, hlines]
  rw [judge, judge, happlies, hfound]

theorem judge_eq_none_of_imp (hrequired : required = true → required' = true)
    (h : k.judge b side required forbidden = none) :
    k.judge b side required' forbidden = none := by
  unfold judge at *
  cases required <;> cases required' <;> simp_all

end SpacingCheck

/-! ## What gaps start and end with -/

theorem startsBlank_eq (s : Text) : startsBlank s = s.head?.any isBlank := by
  cases s <;> rfl

/-- Spaces and tabs indent a line. -/
def indents (c : Char) : Bool := c == ' ' || c == '\t'

namespace Gap

variable (c : Char) (s : Text)

theorem skip?_nil (g : Gap) : g.skip? [] = none := by cases g <;> rfl

theorem skipBack?_nil (g : Gap) : g.skipBack? [] = none := by cases g <;> rfl

theorem skip?_space : Gap.space.skip? (c :: s) = if c = ' ' then some s else none := by
  unfold skip?
  split <;> simp_all

theorem skipBack?_space : Gap.space.skipBack? (c :: s) = if c = ' ' then some s else none := by
  unfold skipBack?
  split <;> simp_all

theorem skip?_newline :
    Gap.newline.skip? (c :: s)
      = if c = '\r' ∧ s.head? = some '\n' then some s.tail
        else if c = '\n' then some s else none := by
  by_cases hcr : c = '\r' ∧ s.head? = some '\n'
  · obtain ⟨rfl, hs⟩ := hcr
    obtain ⟨t, rfl⟩ := List.head?_eq_some_iff.1 hs
    rfl
  · rw [if_neg hcr]
    by_cases hlf : c = '\n'
    · rw [hlf, if_pos rfl]
      rfl
    · rw [if_neg hlf]
      unfold skip?
      split <;> simp_all

theorem skipBack?_newline :
    Gap.newline.skipBack? (c :: s)
      = if c = '\n' then some (if s.head? = some '\r' then s.tail else s) else none := by
  by_cases hlf : c = '\n'
  · rw [hlf, if_pos rfl]
    by_cases hcr : s.head? = some '\r'
    · obtain ⟨t, rfl⟩ := List.head?_eq_some_iff.1 hcr
      rfl
    · rw [if_neg hcr]
      unfold skipBack?
      split <;> simp_all
  · rw [if_neg hlf]
    unfold skipBack?
    split <;> simp_all

end Gap

/-! ## Characters by index -/

namespace Boundary

variable {b : Boundary}

/-- The character of the source at an index. -/
def at? (b : Boundary) (i : Int) : Option Char := if 0 ≤ i then b.source[i.toNat]? else none

theorem ahead_of_le (h : -1 ≤ b.index) : b.ahead = b.source.drop (b.index + 1).toNat := if_pos h

theorem ahead_of_lt (h : b.index < -1) : b.ahead = [] := if_neg (Int.not_le.2 h)

theorem behind_of_inside (h : 0 ≤ b.index ∧ b.index ≤ b.source.length) :
    b.behind = (b.source.take b.index.toNat).reverse := if_pos h

theorem behind_of_outside (h : ¬ (0 ≤ b.index ∧ b.index ≤ b.source.length)) : b.behind = [] :=
  if_neg h

theorem not_mem_ahead {c : Char} (h : c ∉ b.source) : c ∉ b.ahead := by
  by_cases hi : -1 ≤ b.index
  · rw [ahead_of_le hi]
    exact fun hc => h (List.mem_of_mem_drop hc)
  · rw [ahead_of_lt (by omega)]
    exact List.not_mem_nil

theorem not_mem_behind {c : Char} (h : c ∉ b.source) : c ∉ b.behind := by
  by_cases hi : 0 ≤ b.index ∧ b.index ≤ b.source.length
  · rw [behind_of_inside hi, List.mem_reverse]
    exact fun hc => h (List.mem_of_mem_take hc)
  · rw [behind_of_outside hi]
    exact List.not_mem_nil

/-- The characters ahead, counted from the first. -/
theorem at?_ahead (h : -1 ≤ b.index) (k : Nat) : b.at? (b.index + 1 + k) = b.ahead[k]? := by
  rw [at?, if_pos (by omega), ahead_of_le h, List.getElem?_drop]
  congr 1
  omega

/-- The characters behind, counted from the nearest. -/
theorem at?_behind (h : b.index ≤ b.source.length) (k : Nat) :
    b.at? (b.index - 1 - k) = b.behind[k]? := by
  by_cases hi : 0 ≤ b.index
  · rw [at?, behind_of_inside ⟨hi, h⟩]
    by_cases hk : k < b.index.toNat
    · have hlen : (b.source.take b.index.toNat).length = b.index.toNat := by
        rw [List.length_take]
        omega
      rw [if_pos (by omega), List.getElem?_reverse (by omega), hlen,
        List.getElem?_take_of_lt (by omega)]
      congr 1
      omega
    · rw [if_neg (by omega), List.getElem?_eq_none]
      rw [List.length_reverse, List.length_take]
      omega
  · rw [at?, if_neg (by omega), behind_of_outside fun h => hi h.1]
    rfl

/-- Right after an index below `-1` no character stands. -/
theorem at?_next (b : Boundary) : b.at? (b.index + 1) = b.ahead.head? := by
  by_cases h : -1 ≤ b.index
  · have := at?_ahead h 0
    rwa [← List.head?_eq_getElem?, Int.natCast_zero, Int.add_zero] at this
  · rw [at?, if_neg (by omega), ahead_of_lt (by omega)]
    rfl

/-- Right before an index past the end no character stands. -/
theorem at?_previous (b : Boundary) : b.at? (b.index - 1) = b.behind.head? := by
  by_cases h : b.index ≤ b.source.length
  · have := at?_behind h 0
    rwa [← List.head?_eq_getElem?, Int.natCast_zero, Int.sub_zero] at this
  · rw [behind_of_outside fun hi => h hi.2, at?, if_pos (by omega), List.getElem?_eq_none (by omega)]
    rfl

theorem le_index_of_ahead {c : Char} {s : Text} (h : b.ahead = c :: s) : -1 ≤ b.index := by
  by_cases hi : -1 ≤ b.index
  · exact hi
  · rw [ahead_of_lt (by omega)] at h
    cases h

theorem index_le_of_behind {c : Char} {s : Text} (h : b.behind = c :: s) :
    b.index ≤ b.source.length := by
  by_cases hi : 0 ≤ b.index ∧ b.index ≤ b.source.length
  · exact hi.2
  · rw [behind_of_outside hi] at h
    cases h

end Boundary

/-! ## Checks by index -/

namespace Indexwise

/-- What a check does not insist on. -/
structure Options where
  /-- What stands beyond the gap does not matter. -/
  onlyGap : Bool := false
  /-- Spaces and tabs may stand between a newline and the index. -/
  allowIndentation : Bool := false

/-- Whether the gap stands after the index, or nothing at all. -/
def gapAfter (k : SpacingCheck) (b : Boundary) (o : Options) : Bool :=
  match b.at? (b.index + 1) with
  | none => true
  | some first =>
    match k.target with
    | .newline =>
      if first = '\r' ∧ b.at? (b.index + 2) = some '\n' then
        o.onlyGap || !(b.at? (b.index + 3)).any isBlank
      else first = '\n' && (o.onlyGap || !(b.at? (b.index + 2)).any isBlank)
    | .space => first = ' ' && (o.onlyGap || !(b.at? (b.index + 2)).any isBlank)

/-- One step of the walk back over indentation: it goes on, or tells whether it met a newline. -/
def indentStep (b : Boundary) (offset : Int) : Option (Int ⊕ Bool) :=
  match b.at? (b.index - offset) with
  | none => some (.inr false)
  | some c => if indents c then some (.inl (offset + 1)) else some (.inr (c = '\n'))

/-- Whether the gap stands before the index, or nothing at all; there is no answer if the walk back
    has no end. -/
noncomputable def gapBefore? (k : SpacingCheck) (b : Boundary) (o : Options) : Option Bool :=
  if o.allowIndentation ∧ k.target = .newline then loop (indentStep b) 1
  else
    match b.at? (b.index - 1) with
    | none => some true
    | some first =>
      let expected := match k.target with | .newline => '\n' | .space => ' '
      let previous := b.at? (b.index - 2)
      let previous :=
        if k.target = .newline ∧ previous = some '\r' then b.at? (b.index - 3) else previous
      some (first = expected && (o.onlyGap || !previous.any isBlank))

/-- A check after the index. -/
def checkAfter (k : SpacingCheck) (b : Boundary) (o : Options) : Option Misspacing :=
  k.judge b .after (gapAfter k b o) ((b.at? (b.index + 1)).any isBlank)

/-- A check before the index. -/
noncomputable def checkBefore? (k : SpacingCheck) (b : Boundary) (o : Options) :
    Option (Option Misspacing) := do
  return k.judge b .before (← gapBefore? k b o) ((b.at? (b.index - 1)).any isBlank)

/-- The outcome of a check made by index in one of the ways. -/
noncomputable def outcome? (k : SpacingCheck) (b : Boundary) : Probe → Option (Option Misspacing)
  | .after => some (checkAfter k b {})
  | .afterOneOnly => some (checkAfter k b { onlyGap := true })
  | .before => checkBefore? k b {}
  | .beforeAllowingIndentation => checkBefore? k b { allowIndentation := true }

section

variable (k : SpacingCheck) (b : Boundary)

theorem gapAfter_eq (o : Options) :
    gapAfter k b o
      = (b.ahead.isEmpty || (k.target.skip? b.ahead).any (o.onlyGap || !startsBlank ·)) := by
  rw [gapAfter, Boundary.at?_next]
  cases ha : b.ahead with
  | nil => rfl
  | cons c s =>
    have hindex := Boundary.le_index_of_ahead ha
    have h2 : b.at? (b.index + 2) = s.head? := by
      have := Boundary.at?_ahead hindex 1
      rw [ha, List.getElem?_cons_succ, ← List.head?_eq_getElem?] at this
      rw [← this, Int.natCast_one, Int.add_assoc]
      rfl
    have h3 : b.at? (b.index + 3) = s.tail.head? := by
      have := Boundary.at?_ahead hindex 2
      rw [ha, List.getElem?_cons_succ] at this
      rw [List.head?_tail, ← this, Int.add_assoc]
      rfl
    simp only [List.head?_cons, h2, h3, ← startsBlank_eq, List.isEmpty_cons, Bool.false_or]
    cases k.target with
    | space =>
      rw [Gap.skip?_space]
      by_cases hc : c = ' ' <;> simp [hc]
    | newline =>
      rw [Gap.skip?_newline]
      dsimp only
      split
      · rfl
      · by_cases hc : c = '\n' <;> simp [hc]

theorem at?_back (h : b.index ≤ b.source.length) (i : Nat) :
    b.at? (b.index - (i + 1)) = (b.behind.drop i).head? := by
  rw [List.head?_drop, ← Boundary.at?_behind h i]
  congr 1
  omega

/-- The walk back meets the first character that is no indentation, or the start of the text. -/
theorem loop_indentStep (h : b.index ≤ b.source.length) (i : Nat) :
    loop (indentStep b) (i + 1)
      = some (((b.behind.drop i).dropWhile indents).head? == some '\n') := by
  induction hl : b.behind.drop i generalizing i with
  | nil =>
    apply loop_of_inr
    rw [indentStep, at?_back b h, hl]
    rfl
  | cons c s ih =>
    have hstep : indentStep b (i + 1)
        = if indents c then some (.inl (i + 1 + 1)) else some (.inr (c = '\n')) := by
      rw [indentStep, at?_back b h, hl]
      rfl
    have hs : b.behind.drop (i + 1) = s := by
      rw [← List.tail_drop, hl]
      rfl
    by_cases hc : indents c
    · rw [if_pos hc] at hstep
      rw [loop_of_inl hstep, List.dropWhile_cons_of_pos hc]
      exact ih (i + 1) hs
    · rw [if_neg hc] at hstep
      rw [loop_of_inr hstep, List.dropWhile_cons_of_neg hc]
      rfl

theorem loop_indentStep_start :
    loop (indentStep b) 1 = some ((b.behind.dropWhile indents).head? == some '\n') := by
  by_cases h : b.index ≤ b.source.length
  · exact loop_indentStep b h 0
  · -- Nothing stands before an index past the end, so the walk stops at once.
    have hbehind : b.behind = [] := Boundary.behind_of_outside fun hi => h hi.2
    have hstop : indentStep b 1 = some (.inr false) := by
      rw [indentStep, Boundary.at?_previous, hbehind]
      rfl
    rw [loop_of_inr hstop, hbehind]
    rfl

theorem gapBefore?_of_walk {o : Options} (ho : o.allowIndentation) (hk : k.target = .newline) :
    gapBefore? k b o = some ((b.behind.dropWhile indents).head? == some '\n') := by
  rw [gapBefore?, if_pos ⟨ho, hk⟩, loop_indentStep_start]

theorem gapBefore?_of_not_walk {o : Options} (h : ¬ (o.allowIndentation ∧ k.target = .newline)) :
    gapBefore? k b o
      = some (b.behind.isEmpty
          || (k.target.skipBack? b.behind).any (o.onlyGap || !startsBlank ·)) := by
  rw [gapBefore?, if_neg h, Boundary.at?_previous]
  cases hb : b.behind with
  | nil => rfl
  | cons c s =>
    have hindex := Boundary.index_le_of_behind hb
    have h2 : b.at? (b.index - 2) = s.head? := by
      have := at?_back b hindex 1
      rwa [hb] at this
    have h3 : b.at? (b.index - 3) = s.tail.head? := by
      have := at?_back b hindex 2
      rwa [hb, List.drop_succ_cons, List.drop_one] at this
    simp only [List.head?_cons, h2, h3, List.isEmpty_cons, Bool.false_or]
    cases k.target with
    | space =>
      rw [Gap.skipBack?_space]
      by_cases hc : c = ' ' <;> simp [hc, startsBlank_eq]
    | newline =>
      rw [Gap.skipBack?_newline]
      by_cases hc : c = '\n'
      · by_cases hs : s.head? = some '\r' <;> simp [hc, hs, startsBlank_eq]
      · simp [hc]

end

/-- A check made by index has the outcome of the check on the texts beside the index. -/
theorem outcome?_eq (k : SpacingCheck) (b : Boundary) (p : Probe) :
    outcome? k b p = some (k.outcome p b) := by
  cases p with
  | after =>
    rw [outcome?, checkAfter, gapAfter_eq, Boundary.at?_next, ← startsBlank_eq]
    rfl
  | afterOneOnly =>
    rw [outcome?, checkAfter, gapAfter_eq, Boundary.at?_next, ← startsBlank_eq]
    simp [SpacingCheck.outcome, SpacingCheck.afterOneOnly, Option.any_true]
  | before =>
    rw [outcome?, checkBefore?, gapBefore?_of_not_walk k b (by simp), Boundary.at?_previous,
      ← startsBlank_eq]
    rfl
  | beforeAllowingIndentation =>
    rw [outcome?, checkBefore?, Boundary.at?_previous, ← startsBlank_eq, SpacingCheck.outcome,
      SpacingCheck.beforeAllowingIndentation]
    cases hk : k.target with
    | space =>
      rw [gapBefore?_of_not_walk k b (by simp [hk])]
      rfl
    | newline =>
      rw [gapBefore?_of_walk k b rfl hk]
      rfl

end Indexwise

end SheetLint
