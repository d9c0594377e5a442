import SheetLint.Path
import SheetLint.Sorted

/-
  Trees of files. A directory holds its entries sorted by name, each name once. What is in a tree is
  found by the names that lead to it from the top.
-/

namespace SheetLint

open Sorted (insert lookup)

/-- What a file holds. -/
inductive Content
  | text (s : Text)
  /-- Bytes that are no text. The lines before the first one that is not text can be read. -/
  | binary (readable : Text)
deriving DecidableEq, Repr

namespace Content

/-- The content of a file that is a text. -/
def text? : Content → Option Text
  | text s => some s
  | binary _ => none

/-- The lines that can be read. -/
def readable : Content → Text
  | text s => s
  | binary s => s

/-- The lines of some bytes up to the first that is not text. -/
def readableLines (bytes : List UInt8) : Text :=
  let line := bytes.takeWhile (· ≠ 10)
  match String.fromUTF8? ⟨line.toArray⟩ with
  | none => []
  | some s =>
    match _h : bytes.dropWhile (· ≠ 10) with
    | [] => s.toList
    | _ :: rest => s.toList ++ '\n' :: readableLines rest
termination_by bytes.length
decreasing_by
  have h := (List.dropWhile_sublist (l := bytes) (· ≠ 10)).length_le
  rw [_h] at h
  exact h

/-- The content of a file with the given bytes. -/
def ofBytes (bytes : List UInt8) : Content :=
  match String.fromUTF8? ⟨bytes.toArray⟩ with
  | some s => text s.toList
  | none => binary (readableLines bytes)

end Content

/-- A file, or a directory with its entries. -/
inductive FileTree
  | file (c : Content)
  | dir (entries : List (Text × FileTree))

namespace FileTree

/-- A directory with nothing in it. -/
def empty : FileTree := dir []

/-- Whether a tree is a directory. -/
def isDir : FileTree → Bool
  | file _ => false
  | dir _ => true

/-- The entries of a directory. A file has none. -/
def entries : FileTree → List (Text × FileTree)
  | file _ => []
  | dir es => es

/-- The content of a file. -/
def content? : FileTree → Option Content
  | file c => some c
  | dir _ => none

/-- What the names lead to. -/
def at? (t : FileTree) : List Text → Option FileTree
  | [] => some t
  | n :: ns => (lookup n t.entries).bind (·.at? ns)

/-- The tree with a file that holds something else, or with a new file in a directory that is there
    already. -/
def write? (c : Content) : List Text → FileTree → Option FileTree
  | [], file _ => some (file c)
  | n :: ns, dir es =>
    match lookup n es with
    | some t => (write? c ns t).map fun t => dir (insert n t es)
    | none => if ns = [] then some (dir (insert n (file c) es)) else none
  | _, _ => none

/-- The tree with another one in a place, and the directories that lead there. -/
def plant (change : Option FileTree → FileTree) : List Text → Option FileTree → FileTree
  | [], t => change t
  | n :: ns, t =>
    let es := (t.map entries).getD []
    dir (insert n (plant change ns (lookup n es)) es)

/-- The tree with a file and the directories that lead to it. -/
def withFile (t : FileTree) (names : List Text) (c : Content) : FileTree :=
  plant (fun _ => file c) names (some t)

/-- The tree with a directory and those that lead to it. -/
def withDir (t : FileTree) (names : List Text) : FileTree := plant (·.getD empty) names (some t)

mutual

/-- The files of a tree, each with the names that lead to it. -/
def files : FileTree → List (List Text × Content)
  | file c => [([], c)]
  | dir es => filesOf es

/-- The files of the entries of a directory. -/
def filesOf : List (Text × FileTree) → List (List Text × Content)
  | [] => []
  | (n, t) :: es => t.files.map (fun (ns, c) => (n :: ns, c)) ++ filesOf es

end

/-- The files that hold something else than they did in another tree, or are not there. -/
def changesSince (old new : FileTree) : List (List Text × Content) :=
  new.files.filter fun (ns, c) => (old.at? ns).bind content? ≠ some c

end FileTree

end SheetLint
