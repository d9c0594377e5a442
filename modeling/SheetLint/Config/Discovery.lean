import SheetLint.Config.Shape
import SheetLint.Config.Validity
import SheetLint.Toml.Document

/-
  Where configurations come from. Without a path the nearest configuration file counts: that of the
  working directory or else of the first directory around it that has one. It counts also when it
  cannot be used; only where there is none at all the default configuration is taken.
-/

namespace SheetLint

/-- What is known of files: which paths exist and which have a text. -/
structure FileView where
  has : Path → Bool
  read? : Path → Option Text

/-- The view of files that are listed with their paths. Paths with the same components are the same
    file, and the last entry of it counts. -/
def FileView.ofList (files : List (Path × Text)) : FileView where
  has p := files.any fun f => f.1.same p
  read? p := (files.reverse.find? fun f => f.1.same p).map (·.2)

namespace Config

/-- The configuration that a text says. -/
def ofText (s : Text) : Except Failure Config :=
  match (Toml.read s).bind ofTable? with
  | some c => c.validate
  | none => .error .toml

/-- The configuration in a file. -/
def load (files : FileView) (p : Path) : Except Failure Config :=
  match files.read? p with
  | some s => ofText s
  | none => .error (.fileRead p)

/-- The nearest configuration file. -/
def nearest? (files : FileView) (cwd : Path) : Option Path :=
  (cwd.ancestors.map (·.join fileName)).find? files.has

/-- The configuration for a working directory, which may be unknown. -/
def discover (files : FileView) (cwd : Option Path) : Except Failure Config :=
  match cwd.bind (nearest? files) with
  | some p => load files p
  | none => .ok {}

/-- The text of a configuration file. -/
def write (c : Config) : Text := Toml.write c.entries

end Config

end SheetLint
