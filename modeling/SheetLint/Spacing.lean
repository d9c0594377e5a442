import SheetLint.Text.Blank

/-
  Spacing around a place in a text. A boundary is a text and the index of one of its characters; a
  check says which blank, a space or a newline, has to stand right after or right before that
  character, or must not. What a check looks at are two texts: `ahead`, the characters after the
  index, and `behind`, those before it, nearest first.
-/

namespace SheetLint

/-- The blank that a check is about. -/
inductive Gap
  | space
  | newline
deriving DecidableEq, Repr

/-- What a check asks for. A single-line expectation is met by every text with a line break, a
    multi-line one by every text without. -/
inductive Expectation
  | always
  | never
  | alwaysSingleLine
  | neverSingleLine
  | alwaysMultiLine
  | neverMultiLine
deriving DecidableEq, Repr

/-- The side of the index that a check is about. -/
inductive Side
  | before
  | after
deriving DecidableEq, Repr

/-- A text has one line when no line feed and no carriage return is in it. -/
def isSingleLine (s : Text) : Bool := s.all fun c => c ≠ '\n' && c ≠ '\r'

namespace Expectation

/-- Whether the blank has to be there; otherwise it must not. -/
def requires : Expectation → Bool
  | always | alwaysSingleLine | alwaysMultiLine => true
  | never | neverSingleLine | neverMultiLine => false

/-- Whether the expectation has to be met next to a given text. -/
def appliesTo (s : Text) : Expectation → Bool
  | always | never => true
  | alwaysSingleLine | neverSingleLine => isSingleLine s
  | alwaysMultiLine | neverMultiLine => !isSingleLine s

end Expectation

/-- A text and an index in it. The index may be `-1`, just before the first character, and may
    also lie further outside. -/
structure Boundary where
  source : Text
  index : Int
  /-- The text whose lines decide about single-line and multi-line expectations, if it is not the
      source. -/
  lineCheck : Option Text := none

namespace Boundary

/-- The character at the index. -/
def found (b : Boundary) : Option Char := if 0 ≤ b.index then b.source[b.index.toNat]? else none

/-- The characters after the index. Nothing is after an index below `-1`. -/
def ahead (b : Boundary) : Text := if -1 ≤ b.index then b.source.drop (b.index + 1).toNat else []

/-- The characters before the index, nearest first. Nothing is before an index that lies further
    than one past the last character. -/
def behind (b : Boundary) : Text :=
  if 0 ≤ b.index ∧ b.index ≤ b.source.length then (b.source.take b.index.toNat).reverse else []

/-- The text whose lines count. -/
def lines (b : Boundary) : Text := b.lineCheck.getD b.source

end Boundary

/-- Whether a text starts with a blank. -/
def startsBlank : Text → Bool
  | [] => false
  | c :: _ => isBlank c

/-- What follows the gap that a text starts with. -/
def Gap.skip? : Gap → Text → Option Text
  | newline, '\r' :: '\n' :: s => some s
  | newline, '\n' :: s => some s
  | space, ' ' :: s => some s
  | _, _ => none

/-- What precedes the gap that a text ends with; the text is held last character first. -/
def Gap.skipBack? : Gap → Text → Option Text
  | newline, '\n' :: '\r' :: s => some s
  | newline, '\n' :: s => some s
  | space, ' ' :: s => some s
  | _, _ => none

/-- A check of the spacing around a boundary. -/
structure SpacingCheck where
  target : Gap
  expectation : Expectation
deriving DecidableEq, Repr

/-- A boundary that does not meet an expectation, with the character at its index. -/
structure Misspacing where
  side : Side
  check : SpacingCheck
  found : Option Char
deriving DecidableEq, Repr

namespace SpacingCheck

/-- The outcome of a check: nothing when the expectation does not apply or is met. -/
def judge (k : SpacingCheck) (b : Boundary) (side : Side) (required forbidden : Bool) :
    Option Misspacing :=
  if !k.expectation.appliesTo b.lines then none
  else if if k.expectation.requires then required else !forbidden then none
  else some ⟨side, k, b.found⟩

/-- The gap stands after the index and no other blank follows it, or nothing stands there. -/
def after (k : SpacingCheck) (b : Boundary) : Option Misspacing :=
  k.judge b .after (b.ahead.isEmpty || (k.target.skip? b.ahead).any (!startsBlank ·))
    (startsBlank b.ahead)

/-- The gap stands after the index, whatever follows it, or nothing stands there. -/
def afterOneOnly (k : SpacingCheck) (b : Boundary) : Option Misspacing :=
  k.judge b .after (b.ahead.isEmpty || (k.target.skip? b.ahead).isSome) (startsBlank b.ahead)

/-- The gap stands before the index and no other blank precedes it, or nothing stands there. -/
def before (k : SpacingCheck) (b : Boundary) : Option Misspacing :=
  k.judge b .before (b.behind.isEmpty || (k.target.skipBack? b.behind).any (!startsBlank ·))
    (startsBlank b.behind)

/-- As `before`, but a newline only has to end the line before: spaces and tabs may stand between
    it and the index, and so may other blanks before it. -/
def beforeAllowingIndentation (k : SpacingCheck) (b : Boundary) : Option Misspacing :=
  match k.target with
  | .space => k.before b
  | .newline =>
    let rest := b.behind.dropWhile fun c => c == ' ' || c == '\t'
    k.judge b .before (rest.head? == some '\n') (startsBlank b.behind)

end SpacingCheck

end SheetLint
