import SheetLint.Sheet.Node

/-
  Which at-rules a rule about statements looks at, and at which of their siblings. Mixin calls,
  variables, calls of detached rulesets and at-rules that are a bare name belong to the languages
  that extend the stylesheet language; they are not standard and are left alone.
-/

namespace SheetLint

/-- A statement such as `@name(…)`, which calls a ruleset. -/
def isDetachedCall (r : AtRule) (t : Trivia) : Bool :=
  !r.hasBlock && t.afterName.isEmpty && r.params.head? == some '('

/-- Whether a node is an at-rule that is written as the standard language writes them. -/
def Node.isStandardAtRule (n : Node) : Bool :=
  match n.kind with
  | .atRule r =>
    (r.hasBlock || !r.params.isEmpty) && !r.isMixin && !r.isVariable && !isDetachedCall r n.trivia
  | _ => false

/-- Whether a rule looks at a node, given the siblings after it: a standard at-rule that has no
    block and is not the last. -/
def Node.isEligible (n : Node) (following : List Node) : Bool :=
  !following.isEmpty && !n.kind.hasBlock && n.isStandardAtRule

/-- The first node that is not a comment. -/
def firstNonComment? (ns : List Node) : Option Node := ns.find? (!·.kind.isComment)

end SheetLint
