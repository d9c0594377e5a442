import Mathlib.Data.List.TakeWhile
import SheetLint.Proofs.Spacing.Indexes

/-
  What the spacing checks mean. A required gap is a token that the text on one side of the index
  starts or ends with, and nothing blank may be beyond it unless the check says otherwise; a
  forbidden one is any blank next to the index. From an index of `-1` on, each check passes exactly
  when its expectation is met in this sense, and else it tells the character at the index
  (`checks_have_their_meaning`).
-/

namespace SheetLint

/-! ## The texts beside an index -/

/-- The characters of a text whose indexes are in a class. -/
def charsWhere (s : Text) (p : Int → Bool) : Text := (s.zipIdx.filter fun x => p x.2).map (·.1)

namespace Boundary

variable (b : Boundary)

/-- The characters at the indexes after the index. -/
def right : Text := charsWhere b.source (b.index < ·)

/-- The characters at the indexes before the index, if it is that of a character or of the end. -/
def left : Text :=
  if 0 ≤ b.index ∧ b.index ≤ b.source.length then charsWhere b.source (· < b.index) else []

end Boundary

theorem filter_zipIdx_after (s : Text) (i : Int) (n : Nat) :
    ((s.zipIdx n).filter fun x => i < x.2).map (·.1) = s.drop (i + 1 - n).toNat := by
  induction s generalizing n with
  | nil => simp
  | cons c s ih =>
    rw [List.zipIdx_cons, List.filter_cons]
    by_cases hi : i < n
    · have h0 : (i + 1 - n).toNat = 0 := by omega
      have h1 : (i + 1 - (n + 1 : Nat)).toNat = 0 := by omega
      rw [if_pos (decide_eq_true hi), List.map_cons, ih, h0, h1]
      rfl
    · have h1 : (i + 1 - n).toNat = (i + 1 - (n + 1 : Nat)).toNat + 1 := by omega
      rw [if_neg (by simpa using hi), ih, h1, List.drop_succ_cons]

theorem filter_zipIdx_before (s : Text) (i : Int) (n : Nat) :
    ((s.zipIdx n).filter fun x => x.2 < i).map (·.1) = s.take (i - n).toNat := by
  induction s generalizing n with
  | nil => simp
  | cons c s ih =>
    rw [List.zipIdx_cons, List.filter_cons]
    by_cases hi : (n : Int) < i
    · have h1 : (i - n).toNat = (i - (n + 1 : Nat)).toNat + 1 := by omega
      rw [if_pos (decide_eq_true hi), List.map_cons, ih, h1, List.take_succ_cons]
    · have h0 : (i - n).toNat = 0 := by omega
      have h1 : (i - (n + 1 : Nat)).toNat = 0 := by omega
      rw [if_neg (by simpa using hi), ih, h0, h1]
      rfl

theorem Boundary.right_eq {b : Boundary} (hi : -1 ≤ b.index) : b.right = b.ahead := by
  have h := filter_zipIdx_after b.source b.index 0
  rw [Int.natCast_zero, Int.sub_zero] at h
  rw [right, charsWhere, ahead_of_le hi, h]

theorem Boundary.left_eq (b : Boundary) : b.left = b.behind.reverse := by
  by_cases hi : 0 ≤ b.index ∧ b.index ≤ b.source.length
  · have h := filter_zipIdx_before b.source b.index 0
    rw [Int.natCast_zero, Int.sub_zero] at h
    rw [left, if_pos hi, charsWhere, behind_of_inside hi, h, List.reverse_reverse]
  · rw [left, if_neg hi, behind_of_outside hi]
    rfl

/-! ## Gaps in a text -/

/-- No blank is at the start of a text. -/
def StartsBare (s : Text) : Prop := ∀ c, s.head? = some c → isBlank c = false

/-- No blank is at the end of a text. -/
def EndsBare (s : Text) : Prop := ∀ c, s.getLast? = some c → isBlank c = false

namespace Gap

/-- The ways to write a gap. -/
def tokens : Gap → List Text
  | .space => [[' ']]
  | .newline => [['\n'], ['\r', '\n']]

/-- A text is nothing, or starts with the gap and goes on in a given way. -/
def Starts (g : Gap) (beyond : Text → Prop) (s : Text) : Prop :=
  s = [] ∨ ∃ t ∈ g.tokens, ∃ rest, s = t ++ rest ∧ beyond rest

/-- A text is nothing, or ends with the gap and no blank is before it. -/
def Ends (g : Gap) (s : Text) : Prop :=
  s = [] ∨ ∃ t ∈ g.tokens, ∃ front, s = front ++ t ∧ EndsBare front

/-- A text ends with an indentation after a line feed; a space has no indentation after it. -/
def EndsIndented : Gap → Text → Prop
  | .space, s => space.Ends s
  | .newline, s => ∃ front indentation, s = front ++ '\n' :: indentation ∧
      ∀ c ∈ indentation, c = ' ' ∨ c = '\t'

end Gap

theorem startsBlank_eq_false_iff {s : Text} : startsBlank s = false ↔ StartsBare s := by
  cases s <;> simp [startsBlank, StartsBare]

theorem endsBare_reverse_iff {s : Text} : EndsBare s.reverse ↔ StartsBare s := by
  rw [EndsBare, StartsBare, List.getLast?_reverse]

namespace Gap

theorem skip?_eq_some_iff {g : Gap} {s rest : Text} :
    g.skip? s = some rest ↔ ∃ t ∈ g.tokens, s = t ++ rest := by
  cases s with
  | nil => cases g <;> simp [skip?_nil, tokens]
  | cons c s =>
    cases g with
    | space => simp [skip?_space, tokens]
    | newline =>
      rw [skip?_newline]
      constructor
      · intro h
        split at h
        · rename_i hcr
          obtain ⟨u, rfl⟩ := List.head?_eq_some_iff.1 hcr.2
          cases h
          exact ⟨_, List.mem_cons_of_mem _ List.mem_cons_self, by rw [hcr.1]; rfl⟩
        · split at h
          · rename_i hlf
            cases h
            exact ⟨_, List.mem_cons_self, by rw [hlf]; rfl⟩
          · cases h
      · rintro ⟨t, ht, he⟩
        rcases List.mem_cons.1 ht with rfl | ht
        · cases he
          rfl
        · obtain rfl := List.mem_singleton.1 ht
          cases he
          rfl

theorem starts_iff {g : Gap} {s : Text} {p : Text → Bool} {beyond : Text → Prop}
    (hp : ∀ u, p u = true ↔ beyond u) :
    (s.isEmpty || (g.skip? s).any p) = true ↔ g.Starts beyond s := by
  rw [Bool.or_eq_true, List.isEmpty_iff, Option.any_eq_true, Starts]
  refine or_congr_right ?_
  constructor
  · rintro ⟨rest, hs, hrest⟩
    obtain ⟨t, ht, rfl⟩ := skip?_eq_some_iff.1 hs
    exact ⟨t, ht, rest, rfl, (hp rest).1 hrest⟩
  · rintro ⟨t, ht, rest, hs, hrest⟩
    exact ⟨rest, skip?_eq_some_iff.2 ⟨t, ht, hs⟩, (hp rest).2 hrest⟩

/-- A carriage return before a line feed is blank, so it is part of the gap or no gap is found. -/
theorem any_skipBack?_iff {g : Gap} {s : Text} :
    (g.skipBack? s).any (!startsBlank ·) = true
      ↔ ∃ t ∈ g.tokens, ∃ rest, s = t.reverse ++ rest ∧ startsBlank rest = false := by
  cases s with
  | nil => cases g <;> simp [skipBack?_nil, tokens]
  | cons c s =>
    cases g with
    | space => by_cases hc : c = ' ' <;> simp [skipBack?_space, tokens, hc]
    | newline =>
      rw [skipBack?_newline]
      constructor
      · intro h
        by_cases hlf : c = '\n'
        · rw [if_pos hlf] at h
          by_cases hcr : s.head? = some '\r'
          · obtain ⟨u, rfl⟩ := List.head?_eq_some_iff.1 hcr
            refine ⟨_, List.mem_cons_of_mem _ List.mem_cons_self, u, by rw [hlf]; rfl, ?_⟩
            simpa using h
          · rw [if_neg hcr] at h
            exact ⟨_, List.mem_cons_self, s, by rw [hlf]; rfl, by simpa using h⟩
        · rw [if_neg hlf] at h
          cases h
      · rintro ⟨t, ht, rest, hs, hrest⟩
        rcases List.mem_cons.1 ht with rfl | ht
        · cases hs
          have hcr : rest.head? ≠ some '\r' := by
            intro hcr
            obtain ⟨u, rfl⟩ := List.head?_eq_some_iff.1 hcr
            cases hrest
          simp [hcr, hrest]
        · obtain rfl := List.mem_singleton.1 ht
          cases hs
          simp [hrest]

theorem ends_iff {g : Gap} {s : Text} :
    (s.isEmpty || (g.skipBack? s).any (!startsBlank ·)) = true ↔ g.Ends s.reverse := by
  rw [Bool.or_eq_true, List.isEmpty_iff, any_skipBack?_iff, Ends, List.reverse_eq_nil_iff]
  refine or_congr_right (exists_congr fun t => and_congr_right fun _ => ?_)
  constructor
  · rintro ⟨rest, hs, hrest⟩
    refine ⟨rest.reverse, by rw [hs]; simp, ?_⟩
    rwa [endsBare_reverse_iff, ← startsBlank_eq_false_iff]
  · rintro ⟨front, hs, hfront⟩
    refine ⟨front.reverse, ?_, ?_⟩
    · rw [← List.reverse_reverse s, hs, List.reverse_append]
    · rwa [startsBlank_eq_false_iff, ← endsBare_reverse_iff, List.reverse_reverse]

theorem endsIndented_iff {s : Text} :
    (s.dropWhile indents).head? = some '\n' ↔ Gap.newline.EndsIndented s.reverse := by
  have hindents {c : Char} : indents c = true ↔ c = ' ' ∨ c = '\t' := by simp [indents]
  constructor
  · intro h
    obtain ⟨front, hfront⟩ := List.head?_eq_some_iff.1 h
    refine ⟨front.reverse, (s.takeWhile indents).reverse, ?_, fun c hc => ?_⟩
    · have hs : s = s.takeWhile indents ++ '\n' :: front := by
        rw [← hfront, List.takeWhile_append_dropWhile]
      calc s.reverse = (s.takeWhile indents ++ '\n' :: front).reverse := congrArg _ hs
        _ = front.reverse ++ '\n' :: (s.takeWhile indents).reverse := by simp
    · exact hindents.1 (List.mem_takeWhile_imp (List.mem_reverse.1 hc))
  · rintro ⟨front, indentation, hs, hall⟩
    have hs : s = indentation.reverse ++ '\n' :: front.reverse := by
      rw [← List.reverse_reverse s, hs]
      simp
    rw [hs, List.dropWhile_append_of_pos fun c hc => hindents.2 (hall c (List.mem_reverse.1 hc))]
    rfl

end Gap

/-! ## Expectations -/

/-- A line feed or a carriage return is in a text. -/
def HasLineBreak (s : Text) : Prop := '\n' ∈ s ∨ '\r' ∈ s

/-- What an expectation comes to next to a text, when it is said what it means that the gap is
    present and that blanks are absent. -/
def Expectation.Met (present absent : Prop) (s : Text) : Expectation → Prop
  | .always => present
  | .never => absent
  | .alwaysSingleLine => HasLineBreak s ∨ present
  | .neverSingleLine => HasLineBreak s ∨ absent
  | .alwaysMultiLine => ¬ HasLineBreak s ∨ present
  | .neverMultiLine => ¬ HasLineBreak s ∨ absent

/-- That the gap is present, for a check made in one of the ways. -/
def Probe.Present (b : Boundary) (g : Gap) : Probe → Prop
  | .after => g.Starts StartsBare b.right
  | .afterOneOnly => g.Starts (fun _ => True) b.right
  | .before => g.Ends b.left
  | .beforeAllowingIndentation => g.EndsIndented b.left

/-- The side of the index that is looked at. -/
def Probe.side : Probe → Side
  | .after | .afterOneOnly => .after
  | .before | .beforeAllowingIndentation => .before

/-- That no blank is next to the index on a side of it. -/
def Side.Absent (b : Boundary) : Side → Prop
  | .after => StartsBare b.right
  | .before => EndsBare b.left

theorem isSingleLine_iff {s : Text} : isSingleLine s = true ↔ ¬ HasLineBreak s := by
  rw [isSingleLine, List.all_eq_true, HasLineBreak, not_or]
  constructor
  · intro h
    exact ⟨fun hlf => by simpa using h _ hlf, fun hcr => by simpa using h _ hcr⟩
  · rintro ⟨hlf, hcr⟩ c hc
    rw [Bool.and_eq_true, decide_eq_true_eq, decide_eq_true_eq]
    exact ⟨fun h => hlf (h ▸ hc), fun h => hcr (h ▸ hc)⟩

namespace SpacingCheck

variable {k : SpacingCheck} {b : Boundary} {side : Side} {required forbidden : Bool}

theorem judge_eq_none_iff :
    k.judge b side required forbidden = none
      ↔ k.expectation.Met (required = true) (forbidden = false) b.lines := by
  have hlines := @isSingleLine_iff b.lines
  unfold judge
  cases k.expectation <;> by_cases hs : HasLineBreak b.lines <;>
    simp_all [Expectation.Met, Expectation.appliesTo, Expectation.requires]

theorem judge_eq_some {v : Misspacing} (h : k.judge b side required forbidden = some v) :
    v = ⟨side, k, b.found⟩ := by
  rw [judge, Option.ite_none_left_eq_some, Option.ite_none_left_eq_some] at h
  exact (Option.some.inj h.2.2).symm

/-- A check is judged by whether the gap is present and whether a blank is next to the index. -/
theorem outcome_eq_judge (hi : -1 ≤ b.index) (p : Probe) :
    ∃ required forbidden, k.outcome p b = k.judge b p.side required forbidden ∧
      (required = true ↔ p.Present b k.target) ∧ (forbidden = false ↔ p.side.Absent b) := by
  have hahead := Boundary.right_eq hi
  have hbehind := b.left_eq
  have hafter : startsBlank b.ahead = false ↔ Side.after.Absent b := by
    rw [startsBlank_eq_false_iff, Side.Absent, hahead]
  have hbefore : startsBlank b.behind = false ↔ Side.before.Absent b := by
    rw [startsBlank_eq_false_iff, Side.Absent, hbehind, endsBare_reverse_iff]
  have hends : (b.behind.isEmpty || (k.target.skipBack? b.behind).any (!startsBlank ·)) = true
      ↔ k.target.Ends b.left := by
    rw [hbehind, Gap.ends_iff]
  cases p with
  | after =>
    refine ⟨_, _, rfl, ?_, hafter⟩
    rw [Probe.Present, hahead]
    exact Gap.starts_iff fun u => by rw [Bool.not_eq_true', startsBlank_eq_false_iff]
  | afterOneOnly =>
    refine ⟨_, _, rfl, ?_, hafter⟩
    rw [Probe.Present, hahead, ← Option.any_true]
    exact Gap.starts_iff fun _ => iff_of_true rfl trivial
  | before => exact ⟨_, _, rfl, hends, hbefore⟩
  | beforeAllowingIndentation =>
    rw [outcome, beforeAllowingIndentation]
    cases hk : k.target with
    | space =>
      rw [hk] at hends
      refine ⟨_, _, ?_, hends, hbefore⟩
      show k.before b = _
      rw [before, hk]
      rfl
    | newline =>
      refine ⟨_, _, rfl, ?_, hbefore⟩
      rw [beq_iff_eq, Probe.Present, hbehind]
      exact Gap.endsIndented_iff

/-- What a check of one kind, made in one way, says about a boundary. -/
structure Means (k : SpacingCheck) (p : Probe) (b : Boundary) : Prop where
  /-- Looking the characters up by their indexes has the same outcome, and always has one. -/
  byIndex : Indexwise.outcome? k b p = some (k.outcome p b)
  /-- The check passes when the expectation is met. -/
  passes_iff : k.outcome p b = none
    ↔ k.expectation.Met (p.Present b k.target) (p.side.Absent b) (b.lineCheck.getD b.source)
  /-- Otherwise it says what failed, and which character is at the index. -/
  fails : ∀ v, k.outcome p b = some v → v = ⟨p.side, k, b.at? b.index⟩

end SpacingCheck

/-- From an index of `-1` on, every check says of a boundary what it is meant to say. -/
theorem checks_have_their_meaning {b : Boundary} (hi : -1 ≤ b.index) (k : SpacingCheck)
    (p : Probe) : k.Means p b := by
  obtain ⟨required, forbidden, hjudge, hpresent, habsent⟩ :=
    SpacingCheck.outcome_eq_judge (k := k) hi p
  refine ⟨Indexwise.outcome?_eq k b p, ?_, fun v hv => ?_⟩
  · rw [hjudge, SpacingCheck.judge_eq_none_iff, propext hpresent, propext habsent]
    rfl
  · exact SpacingCheck.judge_eq_some (hjudge ▸ hv)

/-- The first character after an indentation, with a text of one line to judge it by. -/
def tabbedLine : Boundary :=
  { source := "a\r\n\tb ;".toList, index := 4, lineCheck := some "b".toList }

theorem checks_have_their_meaning_tabbedLine :
    -1 ≤ tabbedLine.index ∧
      (∀ p, (⟨.newline, .alwaysSingleLine⟩ : SpacingCheck).Means p tabbedLine) ∧
      SpacingCheck.before ⟨.newline, .alwaysSingleLine⟩ tabbedLine
        = some ⟨.before, ⟨.newline, .alwaysSingleLine⟩, some 'b'⟩ ∧
      SpacingCheck.beforeAllowingIndentation ⟨.newline, .alwaysSingleLine⟩ tabbedLine = none :=
  ⟨by decide, checks_have_their_meaning (by decide) _, by decide, by decide⟩

end SheetLint
