import SheetLint.Text.Split

/-
  Paths. A path is a text; what it names and where it sorts is decided by its components, between
  which one separator counts as much as several. A `.` is a component only at the start.
-/

namespace SheetLint

/-- A path as it was written. -/
abbrev Path := Text

namespace Path

/-- A part of a path. -/
inductive Component
  | root
  | current
  | parent
  | normal (name : Text)
deriving DecidableEq, Repr

/-- The parts between separators, empty ones too. -/
def segments (p : Path) : List Text := Text.split '/' p

/-- The component that a segment stands for, if it stands for one wherever it is. -/
def Component.ofSegment? (s : Text) : Option Component :=
  if s = [] ∨ s = ['.'] then none
  else if s = ['.', '.'] then some parent
  else some (normal s)

/-- The components of a path. -/
def components (p : Path) : List Component :=
  let rest := p.segments.filterMap Component.ofSegment?
  if p.head? = some '/' then .root :: rest
  else if p.segments.head? = some ['.'] then .current :: rest
  else rest

/-- Whether two paths have the same components. -/
def same (p q : Path) : Bool := p.components == q.components

/-- The place of a component among others, apart from its name. -/
def Component.rank : Component → Nat
  | root => 0
  | current => 1
  | parent => 2
  | normal _ => 3

/-- Whether a component comes before another. -/
def Component.before : Component → Component → Bool
  | normal s, normal t => s < t
  | c, d => c.rank < d.rank

/-- Whether a list of components comes before another or is the same. -/
def upTo : List Component → List Component → Bool
  | [], _ => true
  | _ :: _, [] => false
  | c :: cs, d :: ds => c.before d || (c == d && upTo cs ds)

/-- The order of paths: component by component. -/
def le (p q : Path) : Bool := upTo p.components q.components

/-- The last component, if it is a name. -/
def fileName? (p : Path) : Option Text :=
  match p.components.getLast? with
  | some (.normal s) => some s
  | _ => none

/-- What follows the last dot of the file name. A dot at its start does not count. -/
def extension? (p : Path) : Option Text := do
  let name ← p.fileName?
  let tail := name.reverse.takeWhile (· ≠ '.')
  match name.reverse.drop tail.length with
  | _ :: _ :: _ => some tail.reverse
  | _ => none

/-- A path in a directory. -/
def join (dir : Path) (name : Text) : Path :=
  if dir = [] ∨ dir.getLast? = some '/' then dir ++ name else dir ++ '/' :: name

/-- The path of a list of components. -/
def ofComponents (cs : List Component) : Path :=
  cs.foldl (fun p c =>
    match c with
    | .root => ['/']
    | .current => ['.']
    | .parent => p.join ['.', '.']
    | .normal s => p.join s) []

/-- The directories that lead to a directory, from itself to the outermost. Those of a path that
    does not start at the root end with the empty path. -/
def ancestors (p : Path) : List Path :=
  go p.components.reverse
where
  /-- The directories of a list of components, last component first. -/
  go : List Component → List Path
    | [] => [[]]
    | [.root] => [['/']]
    | c :: cs => ofComponents (c :: cs).reverse :: go cs

end Path

end SheetLint
