import SheetLint.Files.Tree
import SheetLint.Glob.Parse
import SheetLint.Text.WhiteSpace

/-
  Ignore files. Each line of one is a rule: a pattern of paths that are ignored, or that are kept
  in spite of an earlier rule. Of the rules in a file the last that matches counts, of the files of
  one kind the one in the nearest directory, and of the kinds `.ignore` before `.gitignore` before
  the exclude file of a repository.

  A user can have one more ignore file, for all repositories, whose rules come after all of these.
  It is left out here: it lies outside of the tree, in a place that the user's own settings give, so
  what is selected is what is selected for a user who has none.
-/

namespace SheetLint

open Sorted (lookup)

/-- A line of an ignore file. -/
structure IgnoreRule where
  pattern : List Glob.Token
  /-- Whether what matches is kept. -/
  keeps : Bool
  /-- Whether only directories match. -/
  dirsOnly : Bool

namespace IgnoreRule

/-- A pattern for the whole path: one without a separator may match in any directory, and one for
    what is in a directory does not match the directory. -/
def wholePath (absolute : Bool) (s : Text) : Text :=
  let s := if absolute || s.contains '/' || s = ['*', '*'] then s else ['*', '*', '/'] ++ s
  if ['/', '*', '*'].isSuffixOf s then s ++ ['/', '*'] else s

/-- A pattern without the separator at its end, and whether there was one. A backslash that escapes
    the separator goes with it. -/
def cutLastSlash (s : Text) : Text × Bool :=
  match s.reverse with
  | '/' :: '\\' :: r => (r.reverse, true)
  | '/' :: r => (r.reverse, true)
  | _ => (s, false)

/-- The rule of a line without white space at its end, after marks at its start were read. -/
def ofPattern? (keeps absolute : Bool) (s : Text) : Option IgnoreRule :=
  let (s, dirsOnly) := cutLastSlash s
  (Glob.parseFrom true none [] [] (wholePath absolute s)).map fun pattern =>
    { pattern, keeps, dirsOnly }

/-- The rule of a line that is not empty. -/
def ofTrimmed? : Text → Option IgnoreRule
  | '\\' :: '!' :: s => ofPattern? false false ('!' :: s)
  | '\\' :: '#' :: s => ofPattern? false false ('#' :: s)
  | '!' :: '/' :: s => ofPattern? true true s
  | '!' :: s => ofPattern? true false s
  | '/' :: s => ofPattern? false true s
  | s => ofPattern? false false s

/-- The rule of a line, if it is one. A space at its end counts only if it is escaped. -/
def ofLine? (s : Text) : Option IgnoreRule :=
  if s.head? = some '#' then none
  else
    let s := if ['\\', ' '].isSuffixOf s then s else s.trimEnd
    if s = [] then none else ofTrimmed? s

/-- The lines of a text, without their line feeds and the carriage returns before these. -/
def lines : Text → List Text
  | [] => [[]]
  | '\n' :: s => [] :: lines s
  | '\r' :: '\n' :: s => [] :: lines s
  | c :: s =>
    match lines s with
    | l :: ls => (c :: l) :: ls
    | [] => [[c]]

/-- The rules of a text. Marks of the byte order may stand at its start. -/
def ofText (s : Text) : List IgnoreRule :=
  (lines (s.dropWhile (· = '\ufeff'))).filterMap ofLine?

/-- Whether a rule matches a path. -/
def isMatch (r : IgnoreRule) (p : Path) (isDir : Bool) : Bool :=
  (!r.dirsOnly || isDir) && Glob.matchesAll true r.pattern (Glob.bytesOf p)

/-- What the last rule that matches says of a path: whether it is ignored. -/
def verdict? (rules : List IgnoreRule) (p : Path) (isDir : Bool) : Option Bool :=
  (rules.reverse.find? (·.isMatch p isDir)).map fun r => !r.keeps

end IgnoreRule

/-- The rules that hold in a directory and below it. -/
structure IgnoreLevel where
  /-- The path of the directory. -/
  dir : Path
  ignore : List IgnoreRule
  gitignore : List IgnoreRule
  exclude : List IgnoreRule

namespace IgnoreLevel

/-- The rules in a file of a directory, if it is there. -/
def rulesIn (t : FileTree) (names : List Text) : List IgnoreRule :=
  match (t.at? names).bind (·.content?) with
  | some c => IgnoreRule.ofText c.readable
  | none => []

/-- The rules of a directory. -/
def ofDir (dir : Path) (t : FileTree) : IgnoreLevel where
  dir
  ignore := rulesIn t [".ignore".toList]
  gitignore := rulesIn t [".gitignore".toList]
  exclude := rulesIn t [".git".toList, "info".toList, "exclude".toList]

/-- A path without a first step into the directory where it starts. -/
def dropCurrent : Path → Path
  | '.' :: '/' :: p => p
  | p => p

/-- The path that the rules of a directory are asked about: what is left of a path without the
    directory and one separator. -/
def relative (dir p : Path) : Path :=
  let p := dropCurrent (dropCurrent p)
  let dir := dropCurrent dir
  if dir = ['.'] ∨ !p.contains '/' then p
  else if dir.isPrefixOf p then
    match p.drop dir.length with
    | '/' :: r => r
    | r => r
  else p

/-- What the nearest rules of one kind say of a path. -/
def verdict? (rules : IgnoreLevel → List IgnoreRule) (levels : List IgnoreLevel) (p : Path)
    (isDir : Bool) : Option Bool :=
  levels.findSome? fun l => IgnoreRule.verdict? (rules l) (relative l.dir p) isDir

/-- Whether a path is ignored, given the levels of the directories that lead to it, the nearest
    first. -/
def isIgnored (levels : List IgnoreLevel) (p : Path) (isDir : Bool) : Bool :=
  let say (rules : IgnoreLevel → List IgnoreRule) := verdict? rules levels p isDir
  (((say (·.ignore)).or (say (·.gitignore))).or (say (·.exclude))).getD false

end IgnoreLevel

end SheetLint
