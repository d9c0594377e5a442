import SheetLint.Files.Tree

/-
  Files as a program sees them: a tree and a working directory in it. A path is followed part by
  part, from the root of the tree or from the working directory, and every part needs a directory
  to go on from.
-/

namespace SheetLint

/-- A tree of files, and the names that lead to the working directory. -/
structure Disk where
  tree : FileTree
  cwd : List Text := []

namespace Disk

/-- Whether names lead to a directory. -/
def isDirAt (t : FileTree) (names : List Text) : Bool := (t.at? names).any (·.isDir)

/-- Follows the parts of a path from a directory. -/
def follow (t : FileTree) (here : List Text) : List Text → Option (List Text)
  | [] => some here
  | s :: ss =>
    if !isDirAt t here then none
    else if s = [] ∨ s = ['.'] then follow t here ss
    else if s = ['.', '.'] then follow t here.dropLast ss
    else if (t.at? (here ++ [s])).isSome then follow t (here ++ [s]) ss
    else none

/-- Where a path starts. -/
def start (d : Disk) (p : Path) : List Text := if p.head? = some '/' then [] else d.cwd

/-- The names that lead to what a path names. -/
def locate? (d : Disk) (p : Path) : Option (List Text) :=
  if p = [] then none else follow d.tree (d.start p) p.segments

/-- What a path names. -/
def look? (d : Disk) (p : Path) : Option FileTree := (d.locate? p).bind d.tree.at?

/-- The text in a file. -/
def read? (d : Disk) (p : Path) : Option Text := ((d.look? p).bind (·.content?)).bind (·.text?)

/-- Writes a text into a file, which is made if it is not there. Its directory must be there. -/
def write? (d : Disk) (p : Path) (s : Text) : Option Disk := do
  let name ← p.segments.getLast?
  if name = [] ∨ name = ['.'] ∨ name = ['.', '.'] then none
  let dir ← follow d.tree (d.start p) p.segments.dropLast
  let tree ← d.tree.write? (.text s) (dir ++ [name])
  return { d with tree }

/-- The path of the working directory. -/
def cwdPath (d : Disk) : Path := d.cwd.foldl Path.join ['/']

end Disk

end SheetLint
