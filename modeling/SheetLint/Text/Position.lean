import SheetLint.Text.Blank

/-
  Places in a text. An offset counts bytes, a position counts lines and columns from one, where a
  column is one character and only a line feed ends a line. The position of an offset is the place
  that reading the text before the offset leads to.
-/

namespace SheetLint

/-- A line and a column, both counted from one. -/
structure Position where
  line : Nat
  column : Nat
deriving DecidableEq, Repr

namespace Position

/-- The place where every text starts. -/
def start : Position := ⟨1, 1⟩

/-- The place that one more character leads to. -/
def step (p : Position) (c : Char) : Position :=
  if c = '\n' then ⟨p.line + 1, 1⟩ else ⟨p.line, p.column + 1⟩

/-- The place right after a text. -/
def after (s : Text) : Position := s.foldl step start

/-- The written form `line:column`. -/
def text (p : Position) : String := toString p.line ++ ":" ++ toString p.column

theorem after_concat (s : Text) (c : Char) : after (s ++ [c]) = (after s).step c := by
  simp [after]

end Position

namespace Text

/-- The part of a text before a byte offset, the whole text when the offset lies past its end,
    and nothing when the offset lies inside a character. -/
def upTo? : Text → Nat → Option Text
  | _, 0 => some []
  | [], _ + 1 => some []
  | c :: s, n + 1 =>
    if c.utf8Size ≤ n + 1 then (upTo? s (n + 1 - c.utf8Size)).map (c :: ·) else none

theorem upTo?_bytes (s t : Text) : upTo? (s ++ t) (bytes s) = some s := by
  induction s with
  | nil => cases t <;> rfl
  | cons c s ih =>
    have := c.utf8Size_pos
    obtain ⟨n, hn⟩ : ∃ n, bytes (c :: s) = n + 1 := ⟨bytes (c :: s) - 1, by simp; omega⟩
    have hs : n + 1 - c.utf8Size = bytes s := by rw [← hn]; simp
    rw [hn, List.cons_append, upTo?, if_pos (by rw [← hn]; simp), hs, ih]
    rfl

end Text

/-- The position of a byte offset: past the end, or inside a character, it is the end's. -/
def Position.ofOffset (s : Text) (offset : Nat) : Position :=
  Position.after ((Text.upTo? s offset).getD s)

theorem Position.ofOffset_bytes (s t : Text) :
    Position.ofOffset (s ++ t) (Text.bytes s) = Position.after s := by
  simp [ofOffset, Text.upTo?_bytes]

/-- Whether a text holds a carriage return directly before a line feed. -/
def Text.hasCrLf : Text → Bool
  | '\r' :: '\n' :: _ => true
  | _ :: s => hasCrLf s
  | [] => false

end SheetLint
