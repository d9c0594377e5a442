import SheetLint.Glob.Parse
import SheetLint.Path

/-
  Which paths to lint: those with one of the given extensions that match no exclude pattern. A path
  that ends in `..` has no file name, so a pattern that says how the file name is to end does not
  exclude it.
-/

namespace SheetLint

namespace Glob

/-- The character that a token stands for. -/
def Token.literal? : Token → Option Char
  | .literal c => some c
  | _ => none

/-- Whether a token stands for a character. -/
def Token.isLiteral (t : Token) : Bool := t.literal?.isSome

/-- Whether a pattern is a text, or a star or any directories before a text. Such a pattern asks
    for the end of the path, except that a name below any directories asks for the file name. -/
def isPlainEnd : List Token → Bool
  | .anyDirsFirst :: .star :: ts => ts.all Token.isLiteral
  | .anyDirsFirst :: ts => ts.all Token.isLiteral && ts.any (·.literal? == some '/')
  | .star :: ts => ts.all Token.isLiteral
  | ts => ts.all Token.isLiteral

/-- Whether a pattern is a star and a dot, which asks for the extension of the file name. -/
def isBareDot : List Token → Bool
  | [.star, .literal '.'] => true
  | [.anyDirsFirst, .star, .literal '.'] => true
  | _ => false

/-- Whether a pattern matches only paths with a file name that ends in a dot. -/
def needsFileName (ts : List Token) : Bool :=
  (ts.getLast?.bind Token.literal? == some '.') && (!isPlainEnd ts || isBareDot ts)

end Glob

/-- Which paths to lint. -/
structure Filter where
  /-- The extensions of the paths, or none if every path will do. -/
  extensions : List String
  exclude : List (List Glob.Token)

namespace Filter

/-- The patterns of some texts, or the first text that is not a pattern. -/
def readPatterns : List String → Except String (List (List Glob.Token))
  | [] => .ok []
  | p :: ps =>
    match Glob.parse? p.toList with
    | some ts => (readPatterns ps).map (ts :: ·)
    | none => .error p

/-- The filter with given extensions and exclude patterns, or the first text that is not a
    pattern. -/
def ofPatterns (extensions exclude : List String) : Except String Filter :=
  (readPatterns exclude).map fun exclude => { extensions, exclude }

/-- Whether a pattern matches a path. -/
def isMatch (ts : List Glob.Token) (p : Path) : Bool :=
  Glob.matchesAll false ts (Glob.bytesOf p)
    && !(p.segments.getLast? == some ['.', '.'] && Glob.needsFileName ts)

/-- Whether a path is excluded. -/
def isExcluded (f : Filter) (p : Path) : Bool := f.exclude.any (isMatch · p)

/-- Whether two texts are the same apart from the case of ASCII letters. -/
def sameIgnoringCase (s t : Text) : Bool := s.map Char.toLower == t.map Char.toLower

/-- Whether a path has one of the extensions, whatever their case. -/
def hasExtension (f : Filter) (p : Path) : Bool :=
  f.extensions.isEmpty ||
    p.extension?.any fun e => f.extensions.any fun x => sameIgnoringCase x.toList e

/-- Whether a path that was come upon is to be linted. -/
def includes (f : Filter) (p : Path) : Bool := f.hasExtension p && !f.isExcluded p

end Filter

end SheetLint
