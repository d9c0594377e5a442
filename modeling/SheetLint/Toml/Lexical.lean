import SheetLint.Toml.Value

/-
  The words of a TOML document: blanks, comments and line ends, strings in their four notations,
  and keys. A reader takes its word off the front of a text and gives it with the rest, or fails.
-/

namespace SheetLint.Toml

/-- A reader takes a word off the front of a text. -/
abbrev Reader (α : Type) := Text → Option (α × Text)

/-- Spaces and tabs may stand between the words of a line. -/
def isSpace (c : Char) : Bool := c == ' ' || c == '\t'

/-- A text without its leading spaces and tabs. -/
def skipSpaces (s : Text) : Text := s.dropWhile isSpace

/-- Control characters other than the tab have no place in comments and strings. -/
def isControl (c : Char) : Bool := (c.toNat < 0x20 && c != '\t') || c.toNat == 0x7f

/-- Takes a line feed, with or without a carriage return before it. -/
def newline? : Text → Option Text
  | '\n' :: s => some s
  | '\r' :: '\n' :: s => some s
  | _ => none

/-- A text without the comment that it starts with, if it starts with one. -/
def skipComment : Text → Text
  | '#' :: s => s.dropWhile (!isControl ·)
  | s => s

/-- Takes the spaces, the comment and the line end after an expression. -/
def endOfLine? (s : Text) : Option Text :=
  match skipComment (skipSpaces s) with
  | [] => some []
  | s => newline? s

/-- A text without its leading spaces, comments and line ends. -/
def skipLines (s : Text) : Text :=
  let r := skipSpaces s
  match newline? (skipComment r) with
  | none => skipComment r
  | some t => if t.length < s.length then skipLines t else t
termination_by s.length

/-! ## Strings -/

/-- The value of a hexadecimal digit. -/
def hexValue? (c : Char) : Option Nat :=
  if '0' ≤ c ∧ c ≤ '9' then some (c.toNat - '0'.toNat)
  else if 'a' ≤ c ∧ c ≤ 'f' then some (c.toNat - 'a'.toNat + 10)
  else if 'A' ≤ c ∧ c ≤ 'F' then some (c.toNat - 'A'.toNat + 10)
  else none

/-- The number that a text of digits stands for. -/
def ofDigits? (base : Nat) (s : Text) : Option Nat :=
  s.foldlM (fun n c => do
    let d ← hexValue? c
    if d < base then some (base * n + d) else none) 0

/-- The character with a code, if there is one. -/
def ofCode? (n : Nat) : Option Char :=
  if n < 0xD800 ∨ (0xDFFF < n ∧ n < 0x110000) then some (Char.ofNat n) else none

/-- Reads the character whose code is written in `n` hexadecimal digits. -/
def readCode (n : Nat) : Reader Char := fun s =>
  if (s.take n).length = n then
    ((ofDigits? 16 (s.take n)).bind ofCode?).map fun c => (c, s.drop n)
  else none

/-- Reads the character that a backslash and the text after it stand for. -/
def readEscape : Reader Char
  | 'b' :: s => some ('\x08', s)
  | 't' :: s => some ('\t', s)
  | 'n' :: s => some ('\n', s)
  | 'f' :: s => some ('\x0c', s)
  | 'r' :: s => some ('\r', s)
  | '"' :: s => some ('"', s)
  | '\\' :: s => some ('\\', s)
  | 'u' :: s => readCode 4 s
  | 'U' :: s => readCode 8 s
  | _ => none

theorem length_le_of_readCode {n : Nat} {s r : Text} {c : Char}
    (h : readCode n s = some (c, r)) : r.length ≤ s.length := by
  unfold readCode at h
  split at h
  · obtain ⟨_, _, he⟩ := Option.map_eq_some_iff.1 h
    simp only [Prod.mk.injEq] at he
    simp [← he.2]
  · simp at h

theorem length_lt_of_readEscape {s r : Text} {c : Char} (h : readEscape s = some (c, r)) :
    r.length < s.length := by
  unfold readEscape at h
  split at h
  case h_8 | h_9 =>
    have := length_le_of_readCode h
    simp only [List.length_cons]
    omega
  all_goals simp_all

/-- Puts a character in front of what was read. -/
def consChar (c : Char) (p : Option (Text × Text)) : Option (Text × Text) :=
  p.map fun (a, b) => (c :: a, b)

/-- Reads what follows the quote of a one-line string with escapes. -/
def readBasic : Reader Text
  | [] => none
  | '"' :: s => some ([], s)
  | '\\' :: s =>
    match _h : readEscape s with
    | some (c, r) => consChar c (readBasic r)
    | none => none
  | c :: s => if isControl c then none else consChar c (readBasic s)
termination_by s => s.length
decreasing_by
  all_goals simp only [List.length_cons]
  all_goals try omega
  · have := length_lt_of_readEscape _h
    omega

/-- Reads what follows the quote of a one-line string without escapes. -/
def readLiteral : Reader Text
  | [] => none
  | '\'' :: s => some ([], s)
  | c :: s => if isControl c then none else consChar c (readLiteral s)

/-- A text without the line end that it starts with, if it starts with one. -/
def skipNewline (s : Text) : Text := (newline? s).getD s

/-- The closing quotes of a string of several lines: three, after up to two that belong to the
    string. -/
def closeQuotes? (q : Char) (s : Text) : Option (Text × Text) :=
  let quotes := (s.takeWhile (· == q)).length
  if quotes < 3 then none
  else
    let own := min (quotes - 3) 2
    some (List.replicate own q, s.drop (own + 3))

/-- A text without the spaces and line ends that it starts with. -/
def skipBlankLines : Text → Text
  | '\r' :: '\n' :: s => skipBlankLines s
  | c :: s => if isSpace c || c == '\n' then skipBlankLines s else c :: s
  | [] => []

/-- The text after a backslash at the end of a line, without the spaces and line ends that the
    backslash takes with it. -/
def skipFold? (s : Text) : Option Text := (newline? (skipSpaces s)).map skipBlankLines

/-- Reads what follows the quotes of a string of several lines with escapes. -/
def readBasicLines (s : Text) : Option (Text × Text) :=
  match s with
  | [] => none
  | c :: s =>
    match closeQuotes? '"' (c :: s) with
    | some p => some p
    | none =>
      if c = '\\' then
        match skipFold? s with
        | some r => if r.length ≤ s.length then readBasicLines r else none
        | none =>
          match _h : readEscape s with
          | some (d, r) => consChar d (readBasicLines r)
          | none => none
      else if c = '\r' then
        if s.head? = some '\n' then consChar c (readBasicLines s) else none
      else if isControl c ∧ c ≠ '\n' then none
      else consChar c (readBasicLines s)
termination_by s.length
decreasing_by
  all_goals simp only [List.length_cons]
  all_goals try omega
  · have := length_lt_of_readEscape _h
    omega

/-- Reads what follows the quotes of a string of several lines without escapes. -/
def readLiteralLines (s : Text) : Option (Text × Text) :=
  match s with
  | [] => none
  | c :: s =>
    match closeQuotes? '\'' (c :: s) with
    | some p => some p
    | none =>
      if c = '\r' then
        if s.head? = some '\n' then consChar c (readLiteralLines s) else none
      else if isControl c ∧ c ≠ '\n' then none
      else consChar c (readLiteralLines s)

/-- Reads a string in any notation. -/
def readString : Reader Text
  | '"' :: '"' :: '"' :: s => readBasicLines (skipNewline s)
  | '\'' :: '\'' :: '\'' :: s => readLiteralLines (skipNewline s)
  | '"' :: s => readBasic s
  | '\'' :: s => readLiteral s
  | _ => none

/-! ## Keys -/

/-- The characters of a key without quotes. -/
def isKeyChar (c : Char) : Bool :=
  c.isAlphanum || c == '_' || c == '-'

/-- Reads one part of a key. -/
def readKeyPart : Reader String
  | '"' :: s => (readBasic s).map fun (a, r) => (String.ofList a, r)
  | '\'' :: s => (readLiteral s).map fun (a, r) => (String.ofList a, r)
  | s =>
    let a := s.takeWhile isKeyChar
    if a.isEmpty then none else some (String.ofList a, s.dropWhile isKeyChar)

/-- Reads a key: parts with dots between them, and spaces around these. -/
def readKey (s : Text) : Option (List String × Text) :=
  match readKeyPart s with
  | none => none
  | some (k, r) =>
    match skipSpaces r with
    | '.' :: t =>
      if (skipSpaces t).length < s.length then
        (readKey (skipSpaces t)).map fun (ks, r) => (k :: ks, r)
      else none
    | r => some ([k], r)
termination_by s.length

end SheetLint.Toml
