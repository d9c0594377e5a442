import SheetLint.Text.Blank

/-
  Path patterns. A pattern is a list of tokens and is matched against the bytes of a whole path. A
  token leads from a place in the path to the places up to which it can match; a pattern matches
  when its tokens lead from the start to the end.
-/

namespace SheetLint.Glob

/-- A part of a pattern. -/
inductive Token
  | literal (c : Char)
  /-- One byte. -/
  | any
  /-- Any number of bytes. -/
  | star
  /-- Nothing, or directories with a separator after them, at the start of a path. -/
  | anyDirsFirst
  /-- A separator and what follows it, at the end of a path. -/
  | anyDirsLast
  /-- A separator, or two with directories between them. -/
  | anyDirs
  /-- One byte that is in one of the ranges, or in none of them. -/
  | oneOf (negated : Bool) (ranges : List (Char × Char))
  | alternates (branches : List (List Token))

/-- The bytes of a path. -/
abbrev Bytes := List UInt8

/-- The bytes of a text in UTF-8. -/
def bytesOf (s : Text) : Bytes := s.flatMap String.utf8EncodeChar

/-- The byte of the path separator. -/
def slash : UInt8 := 47

/-- All ends of a text, the longest first. -/
def ends : Bytes → List Bytes
  | [] => [[]]
  | b :: s => (b :: s) :: ends s

/-- The text that follows a given start. -/
def after? : Bytes → Bytes → Option Bytes
  | [], s => some s
  | _ :: _, [] => none
  | a :: t, b :: s => if a = b then after? t s else none

/-- The bytes between two characters, as the written form of a range gives them: of a character
    with several bytes each byte counts, and the range itself runs from the last byte of the one
    to the first byte of the other. -/
def inRange (r : Char × Char) (b : UInt8) : Bool :=
  let low := String.utf8EncodeChar r.1
  let high := String.utf8EncodeChar r.2
  low.contains b || (r.1 ≠ r.2 && (high.contains b ||
    match low.getLast?, high.head? with
    | some l, some h => l ≤ b && b ≤ h
    | _, _ => false))

/-- The ends of a text that follow a separator in it. -/
def afterSlashes (s : Bytes) : List Bytes :=
  (ends s).filterMap fun
    | b :: t => if b = slash then some t else none
    | [] => none

mutual

/-- Whether a token has no text of its own: alternatives that are all empty. -/
def Token.isVoid : Token → Bool
  | .alternates branches => allVoid branches
  | _ => false

/-- Whether all tokens of a list are void. -/
def isVoidList : List Token → Bool
  | [] => true
  | t :: ts => t.isVoid && isVoidList ts

/-- Whether all alternatives are void. -/
def allVoid : List (List Token) → Bool
  | [] => true
  | b :: bs => isVoidList b && allVoid bs

end

/-- The ends of a text up to its next separator, if separators count. -/
def starEnds (separate : Bool) : Bytes → List Bytes
  | [] => [[]]
  | b :: s => (b :: s) :: if separate && b = slash then [] else starEnds separate s

mutual

/-- What is left of a text after a token; `separate` says that only a separator itself matches a
    separator. -/
def Token.rests (separate : Bool) : Token → Bytes → List Bytes
  | .literal c, s => (after? (String.utf8EncodeChar c) s).toList
  | .any, s =>
    match s with
    | b :: r => if separate && b = slash then [] else [r]
    | [] => []
  | .star, s => starEnds separate s
  | .anyDirsFirst, s => s :: afterSlashes s
  | .anyDirsLast, s =>
    match s with
    | b :: r => if b = slash then ends r else []
    | [] => []
  | .anyDirs, s =>
    match s with
    | b :: r => if b = slash then r :: afterSlashes r else []
    | [] => []
  | .oneOf negated ranges, s =>
    match s with
    | b :: r =>
      if (separate && b = slash) || (ranges.any (inRange · b) == negated) then [] else [r]
    | [] => []
  | .alternates branches, s =>
    if allVoid branches then [s] else branchRests separate branches s

/-- What is left of texts after the tokens of a list. -/
def listRests (separate : Bool) : List Token → List Bytes → List Bytes
  | [], ss => ss
  | t :: ts, ss => listRests separate ts (ss.flatMap (t.rests separate)).eraseDups

/-- What is left of a text after one of several alternatives. Those that are void do not count. -/
def branchRests (separate : Bool) : List (List Token) → Bytes → List Bytes
  | [], _ => []
  | b :: bs, s =>
    (if isVoidList b then [] else listRests separate b [s]) ++ branchRests separate bs s

end

/-- Whether a list of tokens matches a whole text. A pattern of any directories alone matches
    every text. -/
def matchesAll (separate : Bool) (ts : List Token) (s : Bytes) : Bool :=
  match ts with
  | [.anyDirsFirst] => true
  | ts => (listRests separate ts [s]).contains []

end SheetLint.Glob
