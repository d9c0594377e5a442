import SheetLint.Text.Blank

/-
  The nodes of a stylesheet. A node has a kind, which holds what the node says, its trivia, which
  hold how it was written, and its children. The trivia keep every character that the kind does
  not, so a node can be written back exactly as it was found.
-/

namespace SheetLint

/-- The contents of an at-rule, or of a mixin call written like one. -/
structure AtRule where
  name : Text := []
  params : Text := []
  hasBlock : Bool := false
  /-- The name is followed by a colon, as in `@width: 10px`. -/
  isVariable : Bool := false
  /-- The statement is a call such as `.round(2px)` and starts with no `@`. -/
  isMixin : Bool := false
deriving DecidableEq, Repr

/-- What a node says. -/
inductive Kind
  | root
  | atRule (rule : AtRule)
  | styleRule (selector : Text)
  | declaration (property value : Text)
  | comment (text : Text)
deriving DecidableEq, Repr

namespace Kind

/-- Whether a node is a comment. -/
def isComment : Kind → Bool
  | comment _ => true
  | _ => false

/-- Whether a node is an at-rule. -/
def isAtRule : Kind → Bool
  | atRule _ => true
  | _ => false

/-- Whether a node of this kind owns the text between two braces, or the whole sheet. -/
def hasBlock : Kind → Bool
  | root => true
  | styleRule _ => true
  | atRule r => r.hasBlock
  | declaration .. => false
  | comment _ => false

/-- Whether a node of this kind is ended by a semicolon. -/
def isStatement : Kind → Bool
  | declaration .. => true
  | atRule r => !r.hasBlock
  | _ => false

end Kind

/-- How a node was written: the characters around and between its parts. -/
structure Trivia where
  /-- Blanks and stray semicolons before the node. -/
  before : Text := []
  /-- Between the head and its block, or between a property and its value. -/
  between : Text := []
  /-- Between the name and the parameters of an at-rule. -/
  afterName : Text := []
  /-- After the last child of a block, or after the value of a declaration. -/
  after : Text := []
  /-- Between the start of a comment and its text. -/
  left : Text := []
  /-- Between the text of a comment and its end. -/
  right : Text := []
  /-- The character that introduces an at-rule. -/
  sigil : Text := []
  /-- Whether the last child, if it is a statement, is ended by a semicolon. -/
  semicolon : Bool := false
deriving DecidableEq, Repr

/-- A node with its number in the document, its place in the source, if it has one, and its
    children. -/
structure Node where
  id : Nat
  kind : Kind
  trivia : Trivia := {}
  /-- The byte offset of the first character after `before`. -/
  offset : Option Nat := none
  children : List Node := []

mutual

/-- The nodes below a node, each before its own descendants. -/
def Node.descendants : Node → List Node
  | ⟨_, _, _, _, children⟩ => preorder children

/-- The nodes of a list with all their descendants, each before its own. -/
def preorder : List Node → List Node
  | [] => []
  | n :: ns => n :: (n.descendants ++ preorder ns)

end

theorem Node.descendants_eq (n : Node) : n.descendants = preorder n.children := by
  cases n; rw [descendants]

theorem preorder_append (ns ms : List Node) : preorder (ns ++ ms) = preorder ns ++ preorder ms := by
  induction ns with
  | nil => simp [preorder]
  | cons n ns ih => simp [preorder, ih]

mutual

/-- The node with a change made to every node of it whose number is selected. -/
def Node.updateWhere (selected : Nat → Bool) (change : Node → Node) : Node → Node
  | ⟨i, k, t, o, children⟩ =>
    let n := ⟨i, k, t, o, updateAll selected change children⟩
    if selected i then change n else n

/-- Makes a change to every node whose number is selected, at any depth. -/
def updateAll (selected : Nat → Bool) (change : Node → Node) : List Node → List Node
  | [] => []
  | n :: ns => n.updateWhere selected change :: updateAll selected change ns

end

mutual

/-- The siblings that follow the node with a given number below this node. -/
def Node.following? (id : Nat) : Node → Option (List Node)
  | ⟨_, _, _, _, children⟩ => followingIn? id children

/-- The siblings that follow the node with a given number, in a list or at any depth below it. -/
def followingIn? (id : Nat) : List Node → Option (List Node)
  | [] => none
  | n :: ns =>
    if n.id = id then some ns else (n.following? id).or (followingIn? id ns)

end

mutual

/-- The number of the node that has the node with a given number as a child. -/
def Node.parent? (id : Nat) : Node → Option Nat
  | ⟨i, _, _, _, children⟩ =>
    if children.any (·.id == id) then some i else parentIn? id children

/-- The parent of the node with a given number, sought at any depth of a list. -/
def parentIn? (id : Nat) : List Node → Option Nat
  | [] => none
  | n :: ns => (n.parent? id).or (parentIn? id ns)

end

end SheetLint
