import SheetLint.Text.Blank

/-
  Lines for a terminal. A line is a list of spans, some of which have a style. With styles shown, a
  span is written between the code of its style and the code that ends all styles; otherwise it is
  written as it is.
-/

namespace SheetLint

/-- How a span looks. -/
inductive Style
  | red
  | green
  | yellow
  | dim
deriving DecidableEq, Repr

/-- The code that starts a style. -/
def Style.code : Style → Text
  | red => "\x1b[31m".toList
  | green => "\x1b[32m".toList
  | yellow => "\x1b[33m".toList
  | dim => "\x1b[2m".toList

/-- The code that ends all styles. -/
def plainCode : Text := "\x1b[0m".toList

/-- A part of a line. -/
structure Span where
  style : Option Style := none
  text : Text
deriving DecidableEq, Repr

namespace Span

/-- A span without a style. -/
def plain (s : Text) : Span := { text := s }

/-- A span with a style. -/
def styled (style : Style) (s : Text) : Span := { style := some style, text := s }

/-- The written form of a span, with its style or without. -/
def render (colored : Bool) (s : Span) : Text :=
  match s.style with
  | some style => if colored then style.code ++ s.text ++ plainCode else s.text
  | none => s.text

@[simp] theorem render_plain (s : Span) : s.render false = s.text := by
  unfold render
  split <;> rfl

end Span

/-- A line, without its line feed. -/
abbrev Line := List Span

/-- The written form of lines, each with a line feed. -/
def renderLines (colored : Bool) (ls : List Line) : Text :=
  ls.flatMap fun l => l.flatMap (·.render colored) ++ ['\n']

end SheetLint
