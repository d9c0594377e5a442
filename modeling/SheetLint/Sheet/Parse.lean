import SheetLint.Sheet.Document
import SheetLint.Sheet.Piece

/-
  From pieces to documents. A sheet is cut into pieces up to its end or to the first fault in one
  of them; the pieces are then nested, a head that opens a block taking up the nodes that follow
  it until the brace that closes it. Nodes are numbered in the order of their pieces.
-/

namespace SheetLint

/-- The pieces of a sheet, up to its end or to a fault that lies a number of bytes further. -/
inductive Pieces
  | finished (after : Text)
  | stopped (fault : Fault) (distance : Nat)
  | cons (p : Piece) (rest : Pieces)
deriving DecidableEq, Repr

/-- Cuts a sheet into its pieces. -/
def pieces (s : Text) : Pieces :=
  match _h : readPiece s with
  | .error e => .stopped e.fault (Text.bytes s - Text.bytes e.rest)
  | .ok (.finished after) => .finished after
  | .ok (.piece p r) => .cons p (pieces r)
termination_by s.length
decreasing_by exact length_lt_of_readPiece _h

/-- A fault in a sheet and the byte offset at which it lies. -/
structure Misfit where
  fault : Fault
  offset : Nat
deriving DecidableEq, Repr

/-- A block that is still open. Its children so far are held latest first. -/
structure Frame where
  id : Nat
  kind : Kind
  trivia : Trivia
  offset : Nat
  /-- The byte offset of the brace that opened the block. -/
  brace : Nat
  children : List Node := []

namespace Frame

/-- The frame with one more child. -/
def push (f : Frame) (n : Node) : Frame := { f with children := n :: f.children }

/-- The frame after its latest statement, which ends with a semicolon or does not. -/
def mark (f : Frame) (closed : Bool) : Frame :=
  { f with trivia := { f.trivia with semicolon := closed } }

/-- The node of a block that is closed. -/
def close (f : Frame) (after : Text) : Node :=
  { id := f.id, kind := f.kind, trivia := { f.trivia with after }, offset := some f.offset,
    children := f.children.reverse }

end Frame

/-- Nests pieces that start at a byte offset into the innermost open block `top` and the blocks
    around it; `size` nodes are there already. Gives the root and the number of nodes. -/
def nest (offset size : Nat) (top : Frame) (around : List Frame) :
    Pieces → Except Misfit (Node × Nat)
  | .finished after =>
    if around.isEmpty then .ok (top.close after, size) else .error ⟨.unclosedBlock, top.brace⟩
  | .stopped fault distance => .error ⟨fault, offset + distance⟩
  | .cons (.closing before) rest =>
    match around with
    | [] => .error ⟨.unexpectedCloseBrace, offset + Text.bytes before⟩
    | f :: around =>
      nest (offset + Text.bytes before + 1) size (f.push (top.close before)) around rest
  | .cons (.node kind trivia ending) rest =>
    let start := offset + Text.bytes trivia.before
    let stop := start + Text.bytes (kind.head trivia)
    if ending = .openBrace then
      nest (stop + 1) (size + 1) { id := size, kind, trivia, offset := start, brace := stop }
        (top :: around) rest
    else
      let top := top.push { id := size, kind, trivia, offset := some start }
      nest (stop + Text.bytes ending.text) (size + 1)
        (if kind.isStatement then top.mark (ending == .semicolon) else top) around rest

/-- A fault in a sheet and the position at which it lies. -/
structure ParseError where
  fault : Fault
  position : Position
deriving DecidableEq, Repr

/-- What a fault is called in messages. -/
def Fault.text : Fault → String
  | unclosedBlock => "Unclosed block"
  | unclosedComment => "Unclosed comment"
  | unclosedString => "Unclosed string"
  | unclosedBracket => "Unclosed bracket"
  | unexpectedCloseBrace => "Unexpected \x7d"
  | unknownWord => "Unknown word"

/-- The fault and its place, as in `Unclosed block at 1:3`. -/
def ParseError.message (e : ParseError) : String := e.fault.text ++ " at " ++ e.position.text

/-- The frame of a whole sheet. -/
def rootFrame : Frame := { id := 0, kind := .root, trivia := {}, offset := 0, brace := 0 }

/-- Reads a stylesheet. -/
def parse (source : Text) : Except ParseError Document :=
  match nest 0 1 rootFrame [] (pieces source) with
  | .ok (root, size) => .ok { source, root, size }
  | .error e => .error ⟨e.fault, Position.ofOffset source e.offset⟩

end SheetLint
