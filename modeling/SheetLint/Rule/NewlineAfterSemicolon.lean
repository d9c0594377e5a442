import SheetLint.Rule.Diagnostic
import SheetLint.Rule.Eligible
import SheetLint.Sheet.Document
import SheetLint.Spacing

/-
  The rule that a newline follows the semicolon of an at-rule. Comments may follow on the same
  line: what is looked at is the next sibling that is not a comment, and a newline has to be the
  first thing before it. The rule is fixed by putting a newline there. A run looks at the at-rules
  one after the other; when it fixes, each is looked at in the document that the fixes so far left.
-/

namespace SheetLint.NewlineAfterSemicolon

/-- The name of the rule. -/
def name : String := "at-rule-semicolon-newline-after"

/-- The values that the rule's option may have. -/
def accepted : List String := ["always"]

/-- The message of a finding. -/
def message : String := ruleMessage "Expected newline after \";\"" name

/-- Whether a node has text before it that does not start with a newline. -/
def lacksNewline (n : Node) : Bool :=
  (SpacingCheck.afterOneOnly ⟨.newline, .always⟩ { source := n.raw, index := -1 }).isSome

/-- An at-rule whose semicolon no newline follows, and the node that stands there instead. -/
structure Finding where
  statement : Node
  inspected : Node

/-- What the rule finds about a node with the given siblings after it. -/
def finding? (n : Node) (following : List Node) : Option Finding :=
  if n.isEligible following then
    match firstNonComment? following with
    | some m => if lacksNewline m then some ⟨n, m⟩ else none
    | none => none
  else none

/-- What the rule finds about the node with a given number, in the document as it is. -/
def findingAt? (d : Document) (id : Nat) : Option Finding :=
  (d.node? id).bind fun n => finding? n (d.following id)

/-- A finding as a report: it lies just past the semicolon of the statement. -/
def Finding.diagnostic (d : Document) (f : Finding) : Diagnostic :=
  let index := f.statement.render.length + 1
  { rule := name, message, kind := .violation, node := some f.statement.id, index := some index,
    position := d.position? f.statement index }

/-- A node with a newline put before it. -/
def putNewline (newline : Text) (n : Node) : Node :=
  { n with trivia := { n.trivia with before := newline ++ n.trivia.before } }

/-- A run that is under way: the document as it is by now, and what was reported and fixed. -/
structure Progress where
  document : Document
  diagnostics : List Diagnostic := []
  fixed : Nat := 0

/-- Looks at one at-rule. What is found is reported, or fixed before the next one is looked at. -/
def visit (mode : Mode) (p : Progress) (id : Nat) : Progress :=
  match findingAt? p.document id, mode with
  | none, _ => p
  | some f, .report => { p with diagnostics := p.diagnostics ++ [f.diagnostic p.document] }
  | some f, .fix =>
    { p with
      document := p.document.update f.inspected.id (putNewline p.document.newline)
      fixed := p.fixed + 1 }

/-- Looks at the at-rules of a document one after the other, in document order. -/
def walk (mode : Mode) (d : Document) : Progress :=
  (d.atRules.map (·.id)).foldl (visit mode) { document := d }

/-- Runs the rule with an option. -/
def run (option : Option String) (mode : Mode) (d : Document) : Document × Outcome :=
  match checkOption name option accepted with
  | some reason => (d, .aborted reason)
  | none =>
    let p := walk mode d
    (p.document, .completed p.diagnostics p.fixed)

end SheetLint.NewlineAfterSemicolon
