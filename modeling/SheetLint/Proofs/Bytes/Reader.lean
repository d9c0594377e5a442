import SheetLint.Proofs.Arena.Table
import SheetLint.Proofs.Bytes.Text
import SheetLint.Proofs.Loop
import SheetLint.Sheet.Parse

/-
  Reading a stylesheet byte by byte. The reader goes over the bytes of the source by offsets, cuts
  its texts out of the source as slices, and adds the nodes it finds to a table. Nothing is given
  where it would index or slice what is not there, or where it would never return; an error is a
  result like any other. A block is read by a call of its own; the calls that wait for it to return
  are held innermost first.
-/

namespace SheetLint

namespace Bytewise

open Text (byte? slice? bytes)

/-! ## Parts of texts -/

/-- A text without its trailing blanks, and these. -/
def splitTrailing? (t : Text) : Option (Text × Text) := do
  let content := Text.dropTrail t
  return (content, ← slice? t (bytes content) (bytes t))

/-- The leading blanks of a text, and the text without them. -/
def splitLeading? (t : Text) : Option (Text × Text) := do
  let rest := Text.dropLead t
  return (← slice? t 0 (bytes t - bytes rest), rest)

/-- A text before and after an offset. -/
def splitAt? (t : Text) (i : Nat) : Option (Text × Text) := do
  return (← slice? t 0 i, ← slice? t i (bytes t))

/-! ## Scans -/

/-- Passes over one byte, if it is in a class. -/
def skipStep (s : Text) (p : Char → Bool) (i : Nat) : Option (Nat ⊕ Nat) :=
  if (byte? s i).any p then some (.inl (i + 1)) else some (.inr i)

/-- Passes over bytes of a class, and gives what they are and where they end. -/
noncomputable def take? (s : Text) (p : Char → Bool) (i : Nat) : Option (Text × Nat) := do
  let stop ← loop (skipStep s p) i
  return (← slice? s i stop, stop)

/-- Whether a comment starts at an offset. -/
def startsComment (s : Text) (i : Nat) : Bool :=
  byte? s i == some '/' && byte? s (i + 1) == some '*'

/-- Where the end mark of a comment stands. -/
def commentEnd? (s : Text) (start : Nat) : Option (Except Misfit Nat) := do
  match Text.find? ['*', '/'] (← slice? s (start + 2) (bytes s)) with
  | some i => return .ok (start + 2 + i)
  | none => return .error ⟨.unclosedComment, start⟩

/-- Passes over one byte of a string, or over two from a backslash on. -/
def stringStep (s : Text) (quote : Char) (start i : Nat) : Option (Nat ⊕ Except Misfit Nat) :=
  if i < bytes s then do
    let b ← byte? s i
    if b = '\\' then return .inl (i + 2)
    else if b = quote then return .inr (.ok (i + 1))
    else return .inl (i + 1)
  else some (.inr (.error ⟨.unclosedString, start⟩))

/-- Where a string ends. -/
noncomputable def skipString? (s : Text) (start : Nat) : Option (Except Misfit Nat) := do
  let quote ← byte? s start
  loop (stringStep s quote start) (start + 1)

/-- What ends the head of a statement. -/
inductive Terminator
  | semicolon
  | openBrace
  | closeBrace
  | endOfText
deriving DecidableEq, Repr

/-- A scan for the end of a head, in `depth` brackets of which the outermost is at `opened`. -/
structure Scan where
  pos : Nat
  depth : Nat := 0
  opened : Nat

/-- Goes on after a string or a comment, if it was closed. -/
def Scan.jump (σ : Scan) : Except Misfit Nat → Scan ⊕ Except Misfit (Nat × Terminator)
  | .ok i => .inl { σ with pos := i }
  | .error e => .inr (.error e)

/-- One step of a scan for the end of a head, at a byte. -/
noncomputable def scanByte (s : Text) (σ : Scan) (b : Char) :
    Option (Scan ⊕ Except Misfit (Nat × Terminator)) := do
  if b = '"' ∨ b = '\'' then return σ.jump (← skipString? s σ.pos)
  else if b = '/' ∧ startsComment s σ.pos then
    return σ.jump ((← commentEnd? s σ.pos).map (· + 2))
  else if b = '\\' then return .inl { σ with pos := min (σ.pos + 2) (bytes s) }
  else if b = '(' ∨ b = '[' then
    return .inl {
      pos := σ.pos + 1, depth := σ.depth + 1
      opened := if σ.depth = 0 then σ.pos else σ.opened }
  else if b = ')' ∨ b = ']' then
    return .inl { σ with pos := σ.pos + 1, depth := σ.depth - 1 }
  else if b = ';' ∧ σ.depth = 0 then return .inr (.ok (σ.pos, .semicolon))
  else if b = '{' ∧ σ.depth = 0 then return .inr (.ok (σ.pos, .openBrace))
  else if b = '}' ∧ σ.depth = 0 then return .inr (.ok (σ.pos, .closeBrace))
  else return .inl { σ with pos := σ.pos + 1 }

/-- One step of a scan for the end of a head. -/
noncomputable def scanStep (s : Text) (σ : Scan) :
    Option (Scan ⊕ Except Misfit (Nat × Terminator)) :=
  if σ.pos < bytes s then do scanByte s σ (← byte? s σ.pos)
  else if 0 < σ.depth then some (.inr (.error ⟨.unclosedBracket, σ.opened⟩))
  else some (.inr (.ok (bytes s, .endOfText)))

/-- Where the head of a statement ends, and what ends it. -/
noncomputable def scanEnd? (s : Text) (start : Nat) : Option (Except Misfit (Nat × Terminator)) :=
  loop (scanStep s) { pos := start, opened := start }

/-! ## Nodes -/

/-- A node up to its block: where it starts and ends, and what ends it unless it is a comment. -/
structure Found where
  kind : Kind
  trivia : Trivia
  start : Nat
  stop : Nat
  terminator : Option Terminator

/-- Reads a comment. -/
def readComment? (s : Text) (start : Nat) (before : Text) : Option (Except Misfit Found) := do
  match ← commentEnd? s start with
  | .error e => return .error e
  | .ok stop =>
    let (left, rest) ← splitLeading? (← slice? s (start + 2) stop)
    let (text, right) ← splitTrailing? rest
    return .ok {
      kind := .comment text, trivia := { before, left, right }
      start, stop := stop + 2, terminator := none }

/-- Reads an at-rule up to its block. -/
noncomputable def readAtRule? (s : Text) (start : Nat) (before : Text) :
    Option (Except Misfit Found) := do
  let (name, i) ← take? s (!endsName ·) (start + 1)
  let isVariable := !name.isEmpty && byte? s i == some ':'
  let (afterName, i) ← take? s isBlank (if isVariable then i + 1 else i)
  match ← scanEnd? s i with
  | .error e => return .error e
  | .ok (stop, terminator) =>
    let (params, between) ← splitTrailing? (← slice? s i stop)
    let rule : AtRule :=
      { name, params, hasBlock := decide (terminator = .openBrace), isVariable }
    return .ok {
      kind := .atRule rule, trivia := { before, between, afterName, sigil := ['@'] }
      start, stop, terminator := some terminator }

/-- A mixin call from the text of its head. -/
def mixinCall? (before text : Text) : Option (Kind × Trivia) := do
  let (sigil, body) ← splitAt? text 1
  let (name, rest) ← splitAt? body ((Text.findChar? endsMixinName body).getD (bytes body))
  let (afterName, rest) ← splitLeading? rest
  let (params, between) ← splitTrailing? rest
  return (.atRule { name, params, isMixin := true }, { before, between, afterName, sigil })

/-- A declaration from the text of its head and the offset of the colon. -/
def declaration? (before text : Text) (colon : Nat) : Option (Kind × Trivia) := do
  let (property, _) ← splitTrailing? (← slice? text 0 colon)
  let (gap, rest) ← splitLeading? (← slice? text (colon + 1) (bytes text))
  let (value, after) ← splitTrailing? rest
  let between := (← slice? text (bytes property) colon) ++ ':' :: gap
  return (.declaration property value, { before, between, after })

/-- What the head of a statement says that starts with no `@`; nothing is said by a head without a
    colon that is no selector and no call. -/
def statement? (before text : Text) (terminator : Terminator) :
    Option (Option (Kind × Trivia)) := do
  if terminator = .openBrace then
    let (selector, between) ← splitTrailing? text
    return some (.styleRule selector, { before, between })
  else if text.head? = some '.' ∨ text.head? = some '#' then
    return some (← mixinCall? before text)
  else
    match Text.findChar? (· == ':') text with
    | some colon => return some (← declaration? before text colon)
    | none => return none

/-- Reads a statement that starts with no `@`, up to its block. -/
noncomputable def readOther? (s : Text) (start : Nat) (before : Text) :
    Option (Except Misfit Found) := do
  match ← scanEnd? s start with
  | .error e => return .error e
  | .ok (stop, terminator) =>
    match ← statement? before (← slice? s start stop) terminator with
    | some (kind, trivia) =>
      return .ok { kind, trivia, start, stop, terminator := some terminator }
    | none => return .error ⟨.unknownWord, start⟩

/-- Reads what starts with the byte `b` at an offset. -/
noncomputable def readNode? (s : Text) (start : Nat) (b : Char) (before : Text) :
    Option (Except Misfit Found) :=
  if b = '/' ∧ startsComment s start then readComment? s start before
  else if b = '@' then readAtRule? s start before
  else readOther? s start before

/-! ## Children -/

/-- A call that reads the children of a node, whose block was opened at `brace` if it has one. -/
structure Call where
  node : Nat
  brace : Option Nat

/-- How one turn of a call ends: the call returns, goes on, or waits for the call that reads the
    block of a new node. -/
inductive Turn
  | returns (pos : Nat) (doc : Table)
  | continues (pos : Nat) (doc : Table)
  | opens (pos : Nat) (doc : Table) (call : Call)

/-- Notes whether the latest statement of a block was ended by a semicolon. -/
def mark? (doc : Table) (node : Nat) (closed : Bool) : Option Table :=
  doc.change? node fun c => { c with trivia := { c.trivia with semicolon := closed } }

/-- Notes what stands after the last child of a block. -/
def close? (doc : Table) (node : Nat) (after : Text) : Option Table :=
  doc.change? node fun c => { c with trivia := { c.trivia with after } }

/-- Adds a node that was found. -/
def finish? (doc : Table) (parent : Nat) (f : Found) : Option Turn := do
  let next ← doc.append? parent f.kind f.trivia (some f.start)
  match f.terminator with
  | none => return .continues f.stop next
  | some .openBrace => return .opens (f.stop + 1) next { node := doc.length, brace := some f.stop }
  | some .semicolon => return .continues (f.stop + 1) (← mark? next parent true)
  | some _ => return .continues f.stop (← mark? next parent false)

/-- One turn of a call. -/
noncomputable def turn? (s : Text) (call : Call) (pos : Nat) (doc : Table) :
    Option (Except Misfit Turn) := do
  let (before, i) ← take? s isFiller pos
  match byte? s i with
  | none =>
    match call.brace with
    | some brace => return .error ⟨.unclosedBlock, brace⟩
    | none => return .ok (.returns i (← close? doc call.node before))
  | some b =>
    if b = '}' then
      match call.brace with
      | some _ => return .ok (.returns (i + 1) (← close? doc call.node before))
      | none => return .error ⟨.unexpectedCloseBrace, i⟩
    else
      match ← readNode? s i b before with
      | .error e => return .error e
      | .ok f => return .ok (← finish? doc call.node f)

/-- The calls under way: the innermost one and those that wait. -/
structure Reading where
  pos : Nat
  doc : Table
  call : Call
  callers : List Call

/-- One turn of the innermost call. -/
noncomputable def readStep (s : Text) (σ : Reading) :
    Option (Reading ⊕ Except Misfit Table) := do
  match ← turn? s σ.call σ.pos σ.doc with
  | .error e => return .inr (.error e)
  | .ok (.continues pos doc) => return .inl { σ with pos, doc }
  | .ok (.opens pos doc call) => return .inl { pos, doc, call, callers := σ.call :: σ.callers }
  | .ok (.returns pos doc) =>
    match σ.callers with
    | [] => return .inr (.ok doc)
    | call :: callers => return .inl { pos, doc, call, callers }

/-! ## Sheets -/

/-- The position of an offset. -/
def positionOf? (s : Text) (offset : Nat) : Option Position := do
  let front := (slice? s 0 (min offset (bytes s))).getD s
  let lineStart := ((Text.findLast? (· == '\n') front).map (· + 1)).getD 0
  let line ← slice? front lineStart (bytes front)
  return { line := front.count '\n' + 1, column := line.length + 1 }

/-- Reads a whole sheet into a table. -/
noncomputable def readSheet? (s : Text) : Option (Except ParseError Table) := do
  let root : Document.Content :=
    { kind := .root, trivia := {}, offset := some 0, children := [], parent := none }
  let call : Call := { node := 0, brace := none }
  match ← loop (readStep s) { pos := 0, doc := [root], call, callers := [] } with
  | .ok doc => return .ok doc
  | .error e => return .error ⟨e.fault, ← positionOf? s e.offset⟩

end Bytewise

end SheetLint
