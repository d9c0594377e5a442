import SheetLint.Text.Blank

/-
  The parts of a text between separators. A text with `n` separators has `n + 1` parts, some of
  which may be empty.
-/

namespace SheetLint.Text

/-- The parts of a text between separators. -/
def split (separator : Char) : Text → List Text
  | [] => [[]]
  | c :: s =>
    if c = separator then [] :: split separator s
    else
      match split separator s with
      | t :: ts => (c :: t) :: ts
      | [] => [[c]]

/-- Parts with a separator between them. -/
def join (separator : Char) : List Text → Text
  | [] => []
  | [t] => t
  | t :: ts => t ++ separator :: join separator ts

theorem split_ne_nil (separator : Char) (s : Text) : split separator s ≠ [] := by
  cases s with
  | nil => simp [split]
  | cons c s =>
    unfold split
    split
    · simp
    · split <;> simp

end SheetLint.Text
