import SheetLint.Sheet.Node

/-
  The written form of a node. A node writes its head, and between braces its children and what
  follows them. The semicolon after a statement belongs to the list that the statement is in: every
  statement but the last has one, the last has one when the parent's trivia say so.
-/

namespace SheetLint

/-- The text of a node up to its block. -/
def Kind.head (t : Trivia) : Kind → Text
  | .root => []
  | .atRule r =>
    t.sigil ++ r.name ++ (if r.isVariable then [':'] else []) ++ t.afterName ++ r.params
      ++ t.between
  | .styleRule selector => selector ++ t.between
  | .declaration property value => property ++ t.between ++ value ++ t.after
  | .comment text => ['/', '*'] ++ t.left ++ text ++ t.right ++ ['*', '/']

/-- Braces around the inside of a block; the sheet itself has none. -/
def Kind.wrap (inside : Text) : Kind → Text
  | .root => inside
  | k => if k.hasBlock then ['{'] ++ inside ++ ['}'] else []

mutual

/-- The text of a node, without the blanks before it and the semicolon after it. -/
def Node.render : Node → Text
  | ⟨_, k, t, _, children⟩ => k.head t ++ k.wrap (renderAll t.semicolon children ++ t.after)

/-- The text of a list of siblings; `closed` says whether a statement at its end has a semicolon. -/
def renderAll (closed : Bool) : List Node → Text
  | [] => []
  | n :: ns =>
    n.trivia.before ++ n.render
      ++ (if n.kind.isStatement && (closed || !ns.isEmpty) then [';'] else [])
      ++ renderAll closed ns

end

/-- The text of a node with the blanks before it. -/
def Node.raw (n : Node) : Text := n.trivia.before ++ n.render

theorem Node.render_eq (n : Node) :
    n.render = n.kind.head n.trivia
      ++ n.kind.wrap (renderAll n.trivia.semicolon n.children ++ n.trivia.after) := by
  cases n; rw [render]

@[simp] theorem renderAll_nil (closed : Bool) : renderAll closed [] = [] := by rw [renderAll]

theorem renderAll_cons (closed : Bool) (n : Node) (ns : List Node) :
    renderAll closed (n :: ns) = n.raw
      ++ (if n.kind.isStatement && (closed || !ns.isEmpty) then [';'] else [])
      ++ renderAll closed ns := by
  rw [renderAll, Node.raw]

/-- Only the last of several siblings depends on what the parent says about semicolons. -/
theorem renderAll_append_cons (closed : Bool) (ns : List Node) (m : Node) (ms : List Node) :
    renderAll closed (ns ++ m :: ms) = renderAll true ns ++ renderAll closed (m :: ms) := by
  induction ns with
  | nil => simp
  | cons n ns ih =>
    rw [List.cons_append, renderAll_cons, ih, renderAll_cons true n ns]
    simp

end SheetLint
