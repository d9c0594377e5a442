import SheetLint.Config.Basic
import SheetLint.Failure
import SheetLint.Files.Disk
import SheetLint.Files.Filter
import SheetLint.Files.Ignore

/-
  Which files to lint. A path of a file selects the file, whatever its extension, unless it is
  excluded. A path of a directory selects the files below it that the filter includes, less those
  that are ignored; nothing in an ignored directory is selected. The selections of several paths are
  put into the order of paths, and of paths with the same components one is kept.
-/

namespace SheetLint

mutual

/-- The paths of the files of a tree that a path names. -/
def FileTree.pathsUnder (p : Path) : FileTree → List Path
  | .file _ => [p]
  | .dir es => pathsIn p es

/-- The paths of the files that the entries of a directory lead to. -/
def pathsIn (dir : Path) : List (Text × FileTree) → List Path
  | [] => []
  | (n, t) :: es => t.pathsUnder (dir.join n) ++ pathsIn dir es

end

mutual

/-- The paths of the files of a tree that are not ignored, given the levels around it. Only files in
    the tree are asked what is ignored; the one that a user has for all repositories is left out. -/
def FileTree.visibleUnder (levels : List IgnoreLevel) (p : Path) : FileTree → List Path
  | .file _ => [p]
  | .dir es => visibleIn (IgnoreLevel.ofDir p (.dir es) :: levels) p es

/-- The paths of the files that the entries of a directory lead to and that are not ignored. -/
def visibleIn (levels : List IgnoreLevel) (dir : Path) : List (Text × FileTree) → List Path
  | [] => []
  | (n, t) :: es =>
    (if IgnoreLevel.isIgnored levels (dir.join n) t.isDir then []
      else t.visibleUnder levels (dir.join n))
      ++ visibleIn levels dir es

end

/-- How files are selected. -/
structure Selection where
  filter : Filter
  /-- Whether ignored files are left out. -/
  gitignore : Bool

namespace Selection

/-- The selection with a given scope. -/
def ofScope (s : Scope) : Except Failure Selection :=
  match Filter.ofPatterns s.extensions s.exclude with
  | .ok filter => .ok { filter, gitignore := s.gitignore }
  | .error p => .error (.invalidPattern p)

/-- The files that one path selects, in the order of paths. -/
def scan (s : Selection) (d : Disk) (root : Path) : Except Failure (List Path) :=
  match d.look? root with
  | none => .error (.fileRead root)
  | some (.file _) => .ok (if s.filter.isExcluded root then [] else [root])
  | some (.dir es) =>
    let found :=
      if s.gitignore then (FileTree.dir es).visibleUnder [] root
      else (FileTree.dir es).pathsUnder root
    .ok ((found.filter s.filter.includes).mergeSort Path.le)

/-- The files that several paths select, in the order of paths, each once. -/
def collect (s : Selection) (d : Disk) (roots : List Path) : Except Failure (List Path) := do
  let found ← roots.mapM (s.scan d)
  return (found.flatten.mergeSort Path.le).eraseRepsBy Path.same

end Selection

end SheetLint
