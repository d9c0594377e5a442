import SheetLint.Command.Run

/-
  The program: it reads the files that a command is about, runs the command on them, and writes
  back what the command changed.
-/

open SheetLint

namespace SheetLint.Program

/-- The names in an absolute path. -/
def namesOf (p : Path) : List Text :=
  p.segments.foldl (fun ns s =>
    if s = [] ∨ s = ['.'] then ns else if s = ['.', '.'] then ns.dropLast else ns ++ [s]) []

/-- The path of a file that names lead to. -/
def pathOf (names : List Text) : String := "/" ++ String.ofList (Text.join '/' names)

/-- Reads a file, or a directory with all that is in it. -/
partial def readTree (e : IO.FS.DirEntry) : IO FileTree := do
  if ← e.path.isDir then
    let mut entries : List (Text × FileTree) := []
    for inner in ← e.path.readDir do
      entries := Sorted.insert inner.fileName.toList (← readTree inner) entries
    return .dir entries
  else return .file (.ofBytes (← IO.FS.readBinFile e.path).toList)

/-- The paths that a command looks at. -/
def pathsOf : Command → List Path
  | .check _ o => o.paths ++ o.config.toList
  | .init _ => []
  | .version => []

/-- The paths of which a command asks only whether they are there. -/
def targetsOf : Command → List Path
  | .check _ o => o.output.toList
  | .init o => [o.output]
  | .version => []

/-- Takes what a path names, and the directories that lead there, into a tree. Of a path that is
    only asked for, nothing is taken that is in it. -/
def take (cwd : Path) (whole : Bool) (t : FileTree) (p : Path) : IO FileTree := do
  let root ← IO.currentDir
  let steps := (if p.head? = some '/' then p else cwd.join p).segments
  let mut t := t
  for n in List.range (steps.length + 1) do
    let names := namesOf (Text.join '/' (steps.take n))
    let entry : IO.FS.DirEntry := { root, fileName := pathOf names }
    if ← entry.path.isDir then
      if whole && n == steps.length then
        let inner ← readTree entry
        t := FileTree.plant (fun _ => inner) names (some t)
      else t := t.withDir names
    else if (← entry.path.pathExists) && n == steps.length then
      t := t.withFile names (.ofBytes (← IO.FS.readBinFile entry.path).toList)
  return t

/-- The disk that a command is about. -/
def diskFor (c : Command) : IO Disk := do
  let cwd : Path := (← IO.currentDir).toString.toList
  let mut t ← take cwd false .empty ['.']
  for dir in cwd.ancestors do
    t ← take cwd false t (dir.join Config.fileName)
  for p in targetsOf c do
    t ← take cwd false t p
  for p in pathsOf c do
    t ← take cwd true t p
  return { tree := t, cwd := namesOf cwd }

end SheetLint.Program

open SheetLint.Program in
/-- Runs the command that the arguments say on the files that are there. -/
def main (args : List String) : IO UInt32 := do
  match Words.command? (args.map String.toList) with
  | none =>
    IO.eprintln "error: the arguments are not those of a command"
    return 2
  | some c =>
    let before ← diskFor c
    let done := c.run before
    for f in done.failures do
      IO.eprintln ("Error: " ++ f.message)
    for (names, content) in before.tree.changesSince done.disk.tree do
      IO.FS.writeFile (pathOf names) (String.ofList content.readable)
    IO.print (String.ofList done.out)
    return done.status.code.toUInt32
