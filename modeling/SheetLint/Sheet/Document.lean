import SheetLint.Text.Position
import SheetLint.Sheet.Render

/-
  Documents: a tree of nodes, the source that it was read from, and the number of its nodes. Nodes
  are named by numbers that are given out in the order in which the nodes are added; the root is 0.
  A document is changed by adding a node below an existing one and by changing a node in place.
-/

namespace SheetLint

/-- A line ending of a document. -/
def lineFeed : Text := ['\n']

/-- The other line ending of a document. -/
def crLf : Text := ['\r', '\n']

/-- A tree of nodes, with the source that it was read from. -/
structure Document where
  source : Text := []
  root : Node := { id := 0, kind := .root, offset := some 0 }
  /-- The number of nodes, which is also the number of the next node. -/
  size : Nat := 1

namespace Document

/-- A document has no nodes below its root. -/
def isEmpty (d : Document) : Bool := d.size == 1

/-- The line ending of a document: that of a source with a carriage return before a line feed is
    the two of them, otherwise it is the line feed. -/
def newline (d : Document) : Text := if Text.hasCrLf d.source then crLf else lineFeed

/-- The nodes of a document, each before its descendants. -/
def nodes (d : Document) : List Node := d.root :: d.root.descendants

/-- The node with a given number. -/
def node? (d : Document) (id : Nat) : Option Node := d.nodes.find? (·.id == id)

/-- The at-rules below the root, in document order. -/
def atRules (d : Document) : List Node := d.root.descendants.filter (·.kind.isAtRule)

/-- The text of the whole document. -/
def render (d : Document) : Text := d.root.render

/-- The siblings after a node. -/
def following (d : Document) (id : Nat) : List Node := (d.root.following? id).getD []

/-- The sibling right after a node. -/
def next? (d : Document) (id : Nat) : Option Node := (d.following id).head?

/-- The number of the parent of a node. -/
def parent? (d : Document) (id : Nat) : Option Nat := d.root.parent? id

/-- Changes every node whose number is selected. -/
def updateWhere (d : Document) (selected : Nat → Bool) (change : Node → Node) : Document :=
  { d with root := d.root.updateWhere selected change }

/-- Changes the node with a given number. -/
def update (d : Document) (id : Nat) (change : Node → Node) : Document :=
  d.updateWhere (· == id) change

/-- Adds a node as the last child of another; its number is the old size of the document. -/
def append (d : Document) (parent : Nat) (kind : Kind) (trivia : Trivia) : Document :=
  let child : Node := { id := d.size, kind := kind, trivia := trivia }
  { d.update parent (fun n => { n with children := n.children ++ [child] }) with
    size := d.size + 1 }

/-- The position in the source that lies a number of characters after the start of a node, cut off
    at the end of the source. A node that was added later has none. -/
def position? (d : Document) (n : Node) (index : Nat) : Option Position := do
  let front ← Text.upTo? d.source (← n.offset)
  return Position.after (d.source.take (front.length + index))

end Document

end SheetLint
