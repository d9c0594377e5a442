import SheetLint.Proofs.Sheet.LineEndings
import SheetLint.Proofs.Spacing.Indexes

/-
  Spacing checks do not depend on the line endings of a text. With a carriage return put before
  each line feed, the texts beside a character are the same but for their line endings, the one
  behind with the two characters of a line ending the other way round, and a gap is found in them
  where it was (`line_endings_look_alike`).
-/

namespace SheetLint

/-! ## Texts -/

theorem startsBlank_withCrLf (s : Text) : startsBlank (Text.withCrLf s) = startsBlank s := by
  cases s with
  | nil => rfl
  | cons c s =>
    by_cases hc : c = '\n'
    · rw [hc]
      rfl
    · rw [Text.withCrLf_cons hc]
      rfl

namespace Text

/-- A text that is held last character first, with a carriage return put to each line feed. -/
def withLfCr (s : Text) : Text := s.flatMap (List.reverse ∘ spelled)

theorem reverse_withCrLf (s : Text) : (withCrLf s).reverse = withLfCr s.reverse :=
  List.reverse_flatMap

theorem withLfCr_cons {c : Char} (h : c ≠ '\n') (s : Text) :
    withLfCr (c :: s) = c :: withLfCr s := by
  rw [withLfCr, List.flatMap_cons, Function.comp_apply, spelled, if_neg h]
  rfl

theorem dropWhile_withLfCr {p : Char → Bool} (hp : p '\r' = p '\n') (s : Text) :
    (withLfCr s).dropWhile p = withLfCr (s.dropWhile p) := by
  refine (while_flatMap (fun c => ?_) (fun c d hd => ?_) s).2
  · simp [spelled_ne_nil]
  · exact class_of_mem_spelled hp c d (List.mem_reverse.1 hd)

theorem head?_withLfCr (s : Text) : (withLfCr s).head? = s.head? := by
  cases s with
  | nil => rfl
  | cons c s =>
    by_cases hc : c = '\n'
    · rw [hc]
      rfl
    · rw [withLfCr_cons hc]
      rfl

theorem isEmpty_withLfCr (s : Text) : (withLfCr s).isEmpty = s.isEmpty := by
  rw [Bool.eq_iff_iff, List.isEmpty_iff, List.isEmpty_iff, ← List.head?_eq_none_iff,
    head?_withLfCr, List.head?_eq_none_iff]

theorem startsBlank_withLfCr (s : Text) : startsBlank (withLfCr s) = startsBlank s := by
  rw [startsBlank_eq, startsBlank_eq, head?_withLfCr]

theorem isSingleLine_withCrLf (s : Text) : isSingleLine (withCrLf s) = isSingleLine s := by
  unfold isSingleLine withCrLf
  induction s with
  | nil => rfl
  | cons c s ih =>
    rw [List.flatMap_cons, List.all_append, ih, List.all_cons]
    by_cases hc : c = '\n'
    · rw [hc]
      rfl
    · rw [spelled, if_neg hc, List.all_cons, List.all_nil, Bool.and_true]

end Text

namespace Gap

variable {s : Text} (h : '\r' ∉ s) (g : Gap)
include h

theorem skip?_withCrLf : g.skip? (Text.withCrLf s) = (g.skip? s).map Text.withCrLf := by
  cases s with
  | nil => cases g <;> rfl
  | cons c s =>
    by_cases hc : c = '\n'
    · rw [hc, Text.withCrLf_lineFeed]
      cases g <;> rfl
    · have hcr (t : Text) : ¬ (c = '\r' ∧ t.head? = some '\n') :=
        fun hn => h (hn.1 ▸ List.mem_cons_self)
      rw [Text.withCrLf_cons hc]
      cases g with
      | space =>
        rw [skip?_space, skip?_space]
        split <;> rfl
      | newline =>
        rw [skip?_newline, skip?_newline, if_neg (hcr _), if_neg hc, if_neg (hcr _), if_neg hc]
        rfl

theorem skipBack?_withLfCr : g.skipBack? (Text.withLfCr s) = (g.skipBack? s).map Text.withLfCr := by
  cases s with
  | nil => cases g <;> rfl
  | cons c s =>
    by_cases hc : c = '\n'
    · have hcr : s.head? ≠ some '\r' :=
        fun hs => h (List.mem_cons_of_mem _ (List.mem_of_head? hs))
      cases g with
      | space =>
        rw [hc]
        rfl
      | newline =>
        rw [hc, skipBack?_newline, if_pos rfl, if_neg hcr]
        rfl
    · rw [Text.withLfCr_cons hc]
      cases g with
      | space =>
        rw [skipBack?_space, skipBack?_space]
        split <;> rfl
      | newline =>
        rw [skipBack?_newline, skipBack?_newline, if_neg hc, if_neg hc]
        rfl

end Gap

/-! ## Boundaries -/

/-- The boundary at the same character, or at the same end, of the text with a carriage return put
    before each line feed. -/
def Boundary.withCrLf (b : Boundary) : Boundary where
  source := Text.withCrLf b.source
  index := if 0 ≤ b.index then (Text.withCrLf (b.source.take b.index.toNat)).length else b.index
  lineCheck := b.lineCheck.map Text.withCrLf

namespace Boundary

section Cut

variable {b : Boundary} {u v : Text} (hs : b.source = u ++ v) (hi : b.index = u.length)
include hs hi

theorem ahead_of_cut : b.ahead = v.tail := by
  have hn : (b.index + 1).toNat = u.length + 1 := by omega
  rw [ahead_of_le (by omega), hs, hn, List.drop_length_add_append, List.drop_one]

theorem behind_of_cut : b.behind = u.reverse := by
  have hlen : b.source.length = u.length + v.length := by rw [hs, List.length_append]
  have hn : b.index.toNat = u.length := by omega
  rw [behind_of_inside (by omega), hs, hn, List.take_left]

theorem found_of_cut : b.found = v.head? := by
  have hn : b.index.toNat = u.length := by omega
  rw [found, if_pos (by omega), hs, hn, List.getElem?_append_right (Nat.le_refl _), Nat.sub_self,
    List.head?_eq_getElem?]

end Cut

/-- An index before the text, of its end, or of a character that is no line feed. -/
def OffLineFeeds (b : Boundary) : Prop :=
  b.index = -1 ∨ b.index = b.source.length ∨ ∃ c, b.found = some c ∧ c ≠ '\n'

theorem OffLineFeeds.exists_cut {b : Boundary} (h : b.OffLineFeeds) (hi : b.index ≠ -1) :
    ∃ u v, b.source = u ++ v ∧ b.index = u.length ∧ v.head? ≠ some '\n' := by
  rcases h with h | h | ⟨c, hfound, hc⟩
  · exact absurd h hi
  · exact ⟨b.source, [], (List.append_nil _).symm, h, nofun⟩
  · rw [found] at hfound
    split at hfound
    · obtain ⟨hlt, hget⟩ := List.getElem?_eq_some_iff.1 hfound
      refine ⟨b.source.take b.index.toNat, b.source.drop b.index.toNat,
        (List.take_append_drop _ _).symm, ?_, ?_⟩
      · rw [List.length_take]
        omega
      · rw [List.head?_drop, hfound]
        exact fun he => hc (Option.some.inj he)
    · cases hfound

/-- The same is found there, and the texts beside the index are the same but for line endings. -/
theorem OffLineFeeds.sides {b : Boundary} (h : b.OffLineFeeds) :
    b.withCrLf.found = b.found ∧ b.withCrLf.ahead = Text.withCrLf b.ahead ∧
      b.withCrLf.behind = Text.withLfCr b.behind := by
  by_cases hi : b.index = -1
  · have hi' : b.withCrLf.index = -1 := by
      show (if 0 ≤ b.index then _ else b.index) = -1
      rw [if_neg (by omega), hi]
    refine ⟨?_, ?_, ?_⟩
    · rw [found, found, hi, hi']
      rfl
    · rw [ahead_of_le (by omega), ahead_of_le (by omega), hi, hi']
      rfl
    · rw [behind_of_outside (by omega), behind_of_outside (by omega)]
      rfl
  · obtain ⟨u, v, hs, hu, hv⟩ := h.exists_cut hi
    have hs' : b.withCrLf.source = Text.withCrLf u ++ Text.withCrLf v := by
      rw [← Text.withCrLf_append, ← hs]
      rfl
    have hu' : b.withCrLf.index = (Text.withCrLf u).length := by
      have hn : b.index.toNat = u.length := by omega
      show (if 0 ≤ b.index then _ else b.index) = _
      rw [if_pos (by omega), hs, hn, List.take_left]
    have hv' : (Text.withCrLf v).head? = v.head? ∧
        (Text.withCrLf v).tail = Text.withCrLf v.tail := by
      cases v with
      | nil => exact ⟨rfl, rfl⟩
      | cons c v =>
        rw [Text.withCrLf_cons fun hc => hv (congrArg some hc)]
        exact ⟨rfl, rfl⟩
    refine ⟨?_, ?_, ?_⟩
    · rw [found_of_cut hs hu, found_of_cut hs' hu', hv'.1]
    · rw [ahead_of_cut hs hu, ahead_of_cut hs' hu', hv'.2]
    · rw [behind_of_cut hs hu, behind_of_cut hs' hu', Text.reverse_withCrLf]

theorem isSingleLine_lines_withCrLf (b : Boundary) :
    isSingleLine b.withCrLf.lines = isSingleLine b.lines := by
  unfold lines withCrLf
  cases b.lineCheck <;> exact Text.isSingleLine_withCrLf _

end Boundary

/-! ## Checks -/

/-- A check has the same outcome in a text whose lines end with a line feed and in the same text
    with the other line ending. -/
theorem line_endings_look_alike {b : Boundary} (hr : '\r' ∉ b.source) (hi : b.OffLineFeeds) :
    b.withCrLf.found = b.found ∧
      ∀ (k : SpacingCheck) (p : Probe), k.outcome p b.withCrLf = k.outcome p b := by
  obtain ⟨hfound, hahead, hbehind⟩ := hi.sides
  refine ⟨hfound, fun k p => ?_⟩
  have hjudge {side : Side} {required forbidden : Bool} :
      k.judge b.withCrLf side required forbidden = k.judge b side required forbidden :=
    SpacingCheck.judge_congr b.isSingleLine_lines_withCrLf hfound
  have hskip := Gap.skip?_withCrLf (Boundary.not_mem_ahead hr) k.target
  have hback := Gap.skipBack?_withLfCr (Boundary.not_mem_behind hr) k.target
  have hbefore : k.before b.withCrLf = k.before b := by
    simp only [SpacingCheck.before, hjudge, hbehind, hback, Text.isEmpty_withLfCr, Option.any_map,
      Text.startsBlank_withLfCr]
  cases p with
  | after =>
    simp only [SpacingCheck.outcome, SpacingCheck.after, hjudge, hahead, hskip,
      Text.isEmpty_withCrLf, Option.any_map, startsBlank_withCrLf]
  | afterOneOnly =>
    simp only [SpacingCheck.outcome, SpacingCheck.afterOneOnly, hjudge, hahead, hskip,
      Text.isEmpty_withCrLf, Option.isSome_map, startsBlank_withCrLf]
  | before => exact hbefore
  | beforeAllowingIndentation =>
    simp only [SpacingCheck.outcome, SpacingCheck.beforeAllowingIndentation]
    cases k.target with
    | space => exact hbefore
    | newline =>
      simp only [hjudge, hbehind, Text.startsBlank_withLfCr]
      rw [Text.dropWhile_withLfCr rfl, Text.head?_withLfCr]

/-- A line that is indented by a tab, at its first character; the end of a line comes next. -/
def brokenLine : Boundary :=
  { source := "a\n\tb\n\nc".toList, index := 3, lineCheck := some "\n".toList }

theorem line_endings_look_alike_brokenLine :
    '\r' ∉ brokenLine.source ∧ brokenLine.OffLineFeeds ∧
      brokenLine.withCrLf = { source := "a\r\n\tb\r\n\r\nc".toList, index := 4
                              lineCheck := some "\r\n".toList } ∧
      (∀ (k : SpacingCheck) (p : Probe),
        k.outcome p brokenLine.withCrLf = k.outcome p brokenLine) ∧
      SpacingCheck.outcome ⟨.newline, .alwaysMultiLine⟩ .after brokenLine
        = some ⟨.after, ⟨.newline, .alwaysMultiLine⟩, some 'b'⟩ ∧
      SpacingCheck.outcome ⟨.newline, .alwaysMultiLine⟩ .afterOneOnly brokenLine = none := by
  have hr : '\r' ∉ brokenLine.source := by decide
  have hi : brokenLine.OffLineFeeds := Or.inr (Or.inr ⟨'b', by decide, by decide⟩)
  exact ⟨hr, hi, rfl, (line_endings_look_alike hr hi).2, by decide, by decide⟩

end SheetLint
