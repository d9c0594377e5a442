import SheetLint.Proofs.Sheet.Forest
import SheetLint.Proofs.Sheet.Lookahead
import SheetLint.Sheet.Parse

/-
  Trees and their pieces. A tree is written down piece by piece (`piecesOf`), and nesting the pieces
  gives the tree back, with the numbers and the offsets that follow from its text alone
  (`settleAll`, `nest_piecesOf`). Conversely, pieces that nest are those of a tree
  (`exists_forest_of_nest`); what is used of them is how a piece that is read goes together with its
  ending and with the piece after it (`Pieces.Read`).
-/

namespace SheetLint

/-! ## The pieces of a tree -/

namespace Pieces

/-- Pieces with others in front of them. -/
def inFront (ps : List Piece) (rest : Pieces) : Pieces := ps.foldr cons rest

@[simp] theorem inFront_nil (rest : Pieces) : inFront [] rest = rest := rfl

@[simp] theorem inFront_cons (p : Piece) (ps : List Piece) (rest : Pieces) :
    inFront (p :: ps) rest = cons p (inFront ps rest) := rfl

theorem inFront_append (ps qs : List Piece) (rest : Pieces) :
    inFront (ps ++ qs) rest = inFront ps (inFront qs rest) := List.foldr_append

end Pieces

mutual

/-- The pieces of a node; `ended` says whether a semicolon ends it, if it is a statement. -/
def Node.pieces (ended : Bool) : Node → List Piece
  | ⟨_, k, t, _, children⟩ =>
    if k.hasBlock then
      .node k { t with after := [], semicolon := false } .openBrace
        :: (piecesOf t.semicolon children ++ [.closing t.after])
    else [.node k t (if k.isStatement && ended then .semicolon else .bare)]

/-- The pieces of a list of siblings; `closed` says whether a statement at its end has a
    semicolon. -/
def piecesOf (closed : Bool) : List Node → List Piece
  | [] => []
  | n :: ns => n.pieces (closed || !ns.isEmpty) ++ piecesOf closed ns

end

theorem Node.pieces_eq (ended : Bool) (n : Node) :
    n.pieces ended
      = if n.kind.hasBlock then
          .node n.kind { n.trivia with after := [], semicolon := false } .openBrace
            :: (piecesOf n.trivia.semicolon n.children ++ [.closing n.trivia.after])
        else
          [.node n.kind n.trivia (if n.kind.isStatement && ended then .semicolon else .bare)] := by
  cases n; rw [pieces]

@[simp] theorem piecesOf_nil (closed : Bool) : piecesOf closed [] = [] := by rw [piecesOf]

theorem piecesOf_cons (closed : Bool) (n : Node) (ns : List Node) :
    piecesOf closed (n :: ns) = n.pieces (closed || !ns.isEmpty) ++ piecesOf closed ns := by
  rw [piecesOf]

/-- The text of a node as it stands between its siblings. -/
def Node.span (ended : Bool) (n : Node) : Text :=
  n.raw ++ if n.kind.isStatement && ended then [';'] else []

theorem renderAll_cons_span (closed : Bool) (n : Node) (ns : List Node) :
    renderAll closed (n :: ns) = n.span (closed || !ns.isEmpty) ++ renderAll closed ns :=
  renderAll_cons closed n ns

/-! ## What nesting makes of the pieces -/

/-- Whether the latest statement is ended by a semicolon, after more nodes. -/
def flagAfter (was closed : Bool) : List Node → Bool
  | [] => was
  | n :: ns => flagAfter (if n.kind.isStatement then closed || !ns.isEmpty else was) closed ns

mutual

/-- The node with the numbers and offsets that it has when its text starts at a byte offset. -/
def Node.settle (start number : Nat) : Node → Node
  | ⟨_, k, t, _, children⟩ =>
    let offset := start + Text.bytes t.before
    ⟨number, k, t, some offset,
      settleAll t.semicolon (offset + Text.bytes (k.head t) + 1) (number + 1) children⟩

/-- A list of siblings, settled one after the other. -/
def settleAll (closed : Bool) (start number : Nat) : List Node → List Node
  | [] => []
  | n :: ns =>
    n.settle start number
      :: settleAll closed (start + Text.bytes (n.span (closed || !ns.isEmpty)))
          (number + 1 + n.descendants.length) ns

end

theorem Node.settle_eq (start number : Nat) (n : Node) :
    n.settle start number
      = ⟨number, n.kind, n.trivia, some (start + Text.bytes n.trivia.before),
          settleAll n.trivia.semicolon
            (start + Text.bytes n.trivia.before + Text.bytes (n.kind.head n.trivia) + 1)
            (number + 1) n.children⟩ := by
  cases n; rw [settle]

@[simp] theorem settleAll_nil (closed : Bool) (start number : Nat) :
    settleAll closed start number [] = [] := by rw [settleAll]

theorem settleAll_cons (closed : Bool) (start number : Nat) (n : Node) (ns : List Node) :
    settleAll closed start number (n :: ns)
      = n.settle start number
          :: settleAll closed (start + Text.bytes (n.span (closed || !ns.isEmpty)))
              (number + 1 + (preorder n.children).length) ns := by
  rw [settleAll, Node.descendants_eq]

/-- How the parts of a node that is read go together: it is no root, only a block has children, and
    the semicolon that its trivia note is that of its last statement. -/
structure Node.Shaped (n : Node) : Prop where
  notRoot : n.kind ≠ .root
  leaf : n.kind.hasBlock = false → n.children = []
  semicolon :
    n.kind.hasBlock → n.trivia.semicolon = flagAfter false n.trivia.semicolon n.children

/-- Every node of a forest is shaped. -/
def ShapedIn (ns : List Node) : Prop := ∀ n ∈ preorder ns, n.Shaped

theorem shapedIn_cons {n : Node} {ns : List Node} :
    ShapedIn (n :: ns) ↔ n.Shaped ∧ ShapedIn n.children ∧ ShapedIn ns := by
  simp only [ShapedIn, mem_preorder_cons]
  constructor
  · intro h
    exact ⟨h n (Or.inl rfl), fun m hm => h m (Or.inr (Or.inl hm)),
      fun m hm => h m (Or.inr (Or.inr hm))⟩
  · rintro ⟨hn, hc, hs⟩ m (rfl | hm | hm)
    · exact hn
    · exact hc m hm
    · exact hs m hm

/-- The head of a block does not say what stands at the end of the block. -/
theorem Kind.head_of_hasBlock {k : Kind} (h : k.hasBlock) (t : Trivia) :
    k.head { t with after := [], semicolon := false } = k.head t := by
  cases k with
  | declaration p v => simp [hasBlock] at h
  | _ => rfl

theorem Node.render_of_hasBlock {n : Node} (h : n.kind.hasBlock) (hr : n.kind ≠ .root) :
    n.render = n.kind.head n.trivia
      ++ ('{' :: (renderAll n.trivia.semicolon n.children ++ n.trivia.after) ++ ['}']) := by
  rw [Node.render_eq]
  cases hk : n.kind with
  | root => exact absurd hk hr
  | atRule r =>
    rw [hk] at h
    simp only [Kind.wrap, h, if_true, List.singleton_append]
  | styleRule s => rfl
  | declaration p v => simp [hk, Kind.hasBlock] at h
  | comment s => simp [hk, Kind.hasBlock] at h

theorem Node.render_of_not_hasBlock {n : Node} (h : n.kind.hasBlock = false) :
    n.render = n.kind.head n.trivia := by
  rw [Node.render_eq]
  cases hk : n.kind with
  | root => simp [hk, Kind.hasBlock] at h
  | atRule r =>
    rw [hk] at h
    simp only [Kind.wrap, h, Bool.false_eq_true, if_false, List.append_nil]
  | styleRule s => simp [hk, Kind.hasBlock] at h
  | declaration p v => exact List.append_nil _
  | comment s => exact List.append_nil _

theorem Kind.not_isStatement_of_hasBlock {k : Kind} (h : k.hasBlock) : k.isStatement = false := by
  cases k with
  | atRule r => simpa [isStatement, hasBlock] using h
  | declaration p v => simp [hasBlock] at h
  | _ => rfl

theorem Kind.not_hasBlock_of_isComment {k : Kind} (h : k.isComment) : k.hasBlock = false := by
  cases k with
  | comment s => rfl
  | _ => cases h

theorem Kind.not_isComment_of_hasBlock {k : Kind} (h : k.hasBlock) : k.isComment = false := by
  rw [← Bool.not_eq_true]
  intro hc
  rw [Kind.not_hasBlock_of_isComment hc] at h
  cases h

theorem Kind.not_isStatement_of_isComment {k : Kind} (h : k.isComment) :
    k.isStatement = false := by
  cases k with
  | comment s => rfl
  | _ => cases h

/-- What is neither a block nor a comment is a statement. -/
theorem Kind.isStatement_of_leaf {k : Kind} (hr : k ≠ .root) (hb : k.hasBlock = false)
    (hc : k.isComment = false) : k.isStatement := by
  cases k with
  | root => exact absurd rfl hr
  | atRule r => simpa [isStatement, hasBlock] using hb
  | styleRule s => cases hb
  | declaration p v => rfl
  | comment s => cases hc

theorem span_of_hasBlock {n : Node} (h : n.kind.hasBlock) (hr : n.kind ≠ .root) (ended : Bool) :
    n.span ended
      = (n.trivia.before ++ n.kind.head n.trivia ++ ['{'])
        ++ (renderAll n.trivia.semicolon n.children ++ (n.trivia.after ++ ['}'])) := by
  rw [Node.span, Node.raw, Node.render_of_hasBlock h hr, Kind.not_isStatement_of_hasBlock h]
  simp

theorem span_of_not_hasBlock {n : Node} (h : n.kind.hasBlock = false) (ended : Bool) :
    n.span ended = n.trivia.before ++ n.kind.head n.trivia
      ++ if n.kind.isStatement && ended then [';'] else [] := by
  rw [Node.span, Node.raw, Node.render_of_not_hasBlock h]

theorem bytes_span_of_hasBlock {n : Node} (h : n.kind.hasBlock) (hr : n.kind ≠ .root)
    (ended : Bool) :
    Text.bytes (n.span ended)
      = Text.bytes n.trivia.before + Text.bytes (n.kind.head n.trivia) + 1
          + Text.bytes (renderAll n.trivia.semicolon n.children)
          + Text.bytes n.trivia.after + 1 := by
  have h1 : '{'.utf8Size = 1 := by decide
  have h2 : '}'.utf8Size = 1 := by decide
  simp only [Node.span, Kind.not_isStatement_of_hasBlock h, Bool.false_and, Bool.false_eq_true,
    if_false, List.append_nil, Node.raw, Node.render_of_hasBlock h hr, Text.bytes_append,
    Text.bytes_cons, Text.bytes_nil, h1, h2]
  omega

theorem bytes_span_of_not_hasBlock {n : Node} (h : n.kind.hasBlock = false) (ended : Bool) :
    Text.bytes (n.span ended)
      = Text.bytes n.trivia.before + Text.bytes (n.kind.head n.trivia)
          + Text.bytes
              (if n.kind.isStatement && ended then Ending.semicolon else .bare).text := by
  rw [Node.span, Node.raw, Node.render_of_not_hasBlock h, Text.bytes_append, Text.bytes_append]
  split <;> rfl

/-! ## Nesting the pieces of a tree -/

/-- The frame after it took up siblings whose text starts at a byte offset. -/
def Frame.takeUp (closed : Bool) (start number : Nat) (ns : List Node) (f : Frame) : Frame :=
  { f with
    children := (settleAll closed start number ns).reverse ++ f.children
    trivia := { f.trivia with semicolon := flagAfter f.trivia.semicolon closed ns } }

theorem Frame.takeUp_nil (closed : Bool) (start number : Nat) (f : Frame) :
    f.takeUp closed start number [] = f := by
  simp [takeUp, flagAfter]

/-- The frame after one more node: a statement says whether a semicolon ends it. -/
def Frame.take (n : Node) (ended : Bool) (f : Frame) : Frame :=
  if n.kind.isStatement then (f.push n).mark ended else f.push n

theorem Frame.takeUp_cons (closed : Bool) (start number : Nat) (n : Node) (ns : List Node)
    (f : Frame) :
    f.takeUp closed start number (n :: ns)
      = (f.take (n.settle start number) (closed || !ns.isEmpty)).takeUp closed
          (start + Text.bytes (n.span (closed || !ns.isEmpty)))
          (number + 1 + (preorder n.children).length) ns := by
  have hk : (n.settle start number).kind = n.kind := by rw [Node.settle_eq]
  rw [takeUp, settleAll_cons, flagAfter, take, hk]
  split <;> simp [takeUp, push, mark]

/-- Closing the frame of a block, after it took up the children, gives the block. -/
theorem Frame.close_takeUp {n : Node} (hn : n.Shaped) (hb : n.kind.hasBlock) (start number : Nat) :
    (takeUp n.trivia.semicolon
        (start + Text.bytes n.trivia.before + Text.bytes (n.kind.head n.trivia) + 1) (number + 1)
        n.children
        { id := number, kind := n.kind, trivia := { n.trivia with after := [], semicolon := false },
          offset := start + Text.bytes n.trivia.before,
          brace := start + Text.bytes n.trivia.before + Text.bytes (n.kind.head n.trivia) }).close
      n.trivia.after = n.settle start number := by
  rw [Node.settle_eq, takeUp, close, ← hn.semicolon hb]
  simp

/-- A node that opens no block is taken up by the frame that its piece comes to. -/
theorem nest_leaf {n : Node} (hn : n.Shaped) (hb : n.kind.hasBlock = false) (ended : Bool)
    (offset size : Nat) (top : Frame) (around : List Frame) (rest : Pieces) :
    nest offset size top around
        (.cons (.node n.kind n.trivia
          (if n.kind.isStatement && ended then .semicolon else .bare)) rest)
      = nest (offset + Text.bytes (n.span ended)) (size + 1)
          (top.take (n.settle offset size) ended) around rest := by
  have hspan := bytes_span_of_not_hasBlock hb ended
  have hkind : (n.settle offset size).kind = n.kind := by rw [Node.settle_eq]
  have hsettle : n.settle offset size
      = { id := size, kind := n.kind, trivia := n.trivia,
          offset := some (offset + Text.bytes n.trivia.before) } := by
    rw [Node.settle_eq, hn.leaf hb, settleAll_nil]
  have hopen : (if n.kind.isStatement && ended then Ending.semicolon else .bare) ≠ .openBrace := by
    split <;> simp
  rw [nest, if_neg hopen]
  unfold Frame.take
  rw [hkind, hsettle]
  dsimp only
  congr 1
  · omega
  · by_cases hst : n.kind.isStatement
    · have he : ((if n.kind.isStatement && ended then Ending.semicolon else .bare)
          == .semicolon) = ended := by
        rw [hst]
        cases ended <;> rfl
      rw [if_pos hst, if_pos hst, he]
    · rw [if_neg hst, if_neg hst]

/-- The pieces of siblings nest to the siblings, settled where their text starts, and leave the
    pieces after them to the same frame. -/
theorem nest_piecesOf (closed : Bool) (ns : List Node) (hs : ShapedIn ns) (offset size : Nat)
    (top : Frame) (around : List Frame) (rest : Pieces) :
    nest offset size top around (.inFront (piecesOf closed ns) rest)
      = nest (offset + Text.bytes (renderAll closed ns)) (size + (preorder ns).length)
          (top.takeUp closed offset size ns) around rest := by
  induction ns using forestInduction generalizing closed offset size top around rest with
  | nil => simp [Frame.takeUp_nil]
  | cons n ns below after =>
    obtain ⟨hn, hc, hs⟩ := shapedIn_cons.1 hs
    have hbytes : Text.bytes (renderAll closed (n :: ns))
        = Text.bytes (n.span (closed || !ns.isEmpty)) + Text.bytes (renderAll closed ns) := by
      rw [renderAll_cons_span, Text.bytes_append]
    have hcount : (preorder (n :: ns)).length
        = 1 + (preorder n.children).length + (preorder ns).length := by
      rw [preorder_cons, List.length_cons, List.length_append]
      omega
    rw [piecesOf_cons, Pieces.inFront_append, Node.pieces_eq, hbytes, hcount, Frame.takeUp_cons]
    by_cases hb : n.kind.hasBlock
    · -- The block is opened, takes up its children and is closed; the rest goes to `top` again.
      have hkind : (n.settle offset size).kind = n.kind := by rw [Node.settle_eq]
      have hspan := bytes_span_of_hasBlock hb hn.notRoot (closed || !ns.isEmpty)
      rw [if_pos hb, Pieces.inFront_cons, Pieces.inFront_append, nest]
      simp only [if_true, Kind.head_of_hasBlock hb]
      rw [below _ hc, Pieces.inFront_cons, Pieces.inFront_nil, nest, after _ hs,
        Frame.close_takeUp hn hb, Frame.take, hkind, Kind.not_isStatement_of_hasBlock hb]
      simp only [Bool.false_eq_true, if_false]
      congr 1
      · omega
      · omega
      · congr 1
        omega
    · rw [Bool.not_eq_true] at hb
      rw [hb, if_neg Bool.false_ne_true, Pieces.inFront_cons, Pieces.inFront_nil, nest_leaf hn hb,
        after _ hs, hn.leaf hb, preorder_nil, List.length_nil]
      congr 1 <;> omega

/-! ## Pieces that are read -/

/-- How the parts of a node go together in a piece that is read. -/
structure NodeSound (k : Kind) (t : Trivia) (e : Ending) : Prop where
  notRoot : k ≠ .root
  opens : e = .openBrace ↔ k.hasBlock
  ended : e = .semicolon → k.isStatement
  semicolon : t.semicolon = false
  after : k.hasBlock → t.after = []
  sigil : ∀ r, k = .atRule r → (r.isMixin = false ↔ t.sigil = ['@'])

/-- Nothing ends a comment. -/
theorem NodeSound.bare_of_isComment {k : Kind} {t : Trivia} {e : Ending} (h : NodeSound k t e)
    (hc : k.isComment) : e = .bare := by
  have hst := Kind.not_isStatement_of_isComment hc
  cases e with
  | bare => rfl
  | semicolon =>
    rw [h.ended rfl] at hst
    cases hst
  | openBrace =>
    have hb := h.opens.1 rfl
    rw [Kind.not_hasBlock_of_isComment hc] at hb
    cases hb

/-- How the parts of a piece that is read go together. -/
def Piece.Sound : Piece → Prop
  | node k t e => NodeSound k t e
  | closing _ => True

theorem statementNode?_sound {before s : Text} {k : Kind} {t : Trivia} {e : Ending}
    (h : statementNode? before s = some (k, t)) (he : e ≠ .openBrace) : NodeSound k t e := by
  unfold statementNode? at h
  split at h
  · obtain ⟨rfl, rfl⟩ := Prod.mk.inj (Option.some.inj h)
    exact ⟨by simp, by simp [he, Kind.hasBlock], fun _ => rfl, rfl, by simp [Kind.hasBlock],
      by rintro r ⟨⟩; simp⟩
  · obtain ⟨rfl, rfl⟩ := Prod.mk.inj (Option.some.inj h)
    exact ⟨by simp, by simp [he, Kind.hasBlock], fun _ => rfl, rfl, by simp [Kind.hasBlock],
      by rintro r ⟨⟩; simp⟩
  · split at h
    · simp at h
    · obtain ⟨rfl, rfl⟩ := Prod.mk.inj (Option.some.inj h)
      exact ⟨by simp, by simp [he, Kind.hasBlock], fun _ => rfl, rfl, by simp [Kind.hasBlock],
        by rintro r ⟨⟩⟩

theorem readAfter_sound {before s r : Text} {p : Piece}
    (h : readAfter before s = .ok (.piece p r)) : p.Sound := by
  unfold readAfter at h
  split at h
  · simp at h
  · obtain ⟨rfl, rfl⟩ := Step.piece.inj (Except.ok.inj h)
    trivial
  · split at h
    · simp at h
    · obtain ⟨rfl, rfl⟩ := Step.piece.inj (Except.ok.inj h)
      exact ⟨by simp, by simp [Kind.hasBlock], by simp, rfl, by simp [Kind.hasBlock],
        by rintro r ⟨⟩⟩
  · obtain ⟨head, b, _, he⟩ := readAtRule_inv h
    obtain ⟨rfl, rfl⟩ := Step.piece.inj he
    refine ⟨by simp, ?_, ?_, rfl, fun _ => rfl, by rintro r ⟨⟩; simp⟩
    · rw [Kind.hasBlock, beq_iff_eq]
    · intro he
      rw [Kind.isStatement, he]
      rfl
  · obtain ⟨head, b, _, ⟨_, he⟩ | ⟨ho, k, t, hk, he⟩⟩ := readStatement_inv h
    · obtain ⟨rfl, rfl⟩ := Step.piece.inj he
      exact ⟨by simp, by simp [Kind.hasBlock], by simp, rfl, fun _ => rfl, by rintro r ⟨⟩⟩
    · obtain ⟨rfl, rfl⟩ := Step.piece.inj he
      exact statementNode?_sound hk ho

/-- A head without an ending runs to the end of a block or of the sheet. -/
theorem rest_of_bare {s head b : Text} (hs : splitHead 0 [] s = .ok (head, b))
    (hb : (Ending.read b).1 = .bare) :
    (Ending.read b).2 = [] ∨ ∃ t, (Ending.read b).2 = '}' :: t := by
  rcases splitHead_rest hs with rfl | ⟨c, t, rfl, rfl | rfl | rfl⟩
  · exact Or.inl rfl
  · simp [Ending.read] at hb
  · simp [Ending.read] at hb
  · exact Or.inr ⟨t, rfl⟩

/-- A statement that no semicolon ends is the last in its block or in the sheet. -/
theorem readAfter_loose {before s r : Text} {p : Piece}
    (h : readAfter before s = .ok (.piece p r)) (hp : p.isLoose) : r = [] ∨ ∃ t, r = '}' :: t := by
  unfold readAfter at h
  split at h
  · simp at h
  · obtain ⟨rfl, rfl⟩ := Step.piece.inj (Except.ok.inj h)
    simp [Piece.isLoose] at hp
  · split at h
    · simp at h
    · obtain ⟨rfl, rfl⟩ := Step.piece.inj (Except.ok.inj h)
      simp [Piece.isLoose, Kind.isComment] at hp
  · obtain ⟨head, b, hs, he⟩ := readAtRule_inv h
    obtain ⟨rfl, rfl⟩ := Step.piece.inj he
    simp only [Piece.isLoose, Bool.and_eq_true, beq_iff_eq] at hp
    exact rest_of_bare hs hp.1
  · obtain ⟨head, b, hs, ⟨_, he⟩ | ⟨_, k, t, _, he⟩⟩ := readStatement_inv h
    · obtain ⟨rfl, rfl⟩ := Step.piece.inj he
      simp [Piece.isLoose] at hp
    · obtain ⟨rfl, rfl⟩ := Step.piece.inj he
      simp only [Piece.isLoose, Bool.and_eq_true, beq_iff_eq] at hp
      exact rest_of_bare hs hp.1

namespace Pieces

/-- The block or the sheet ends right here. -/
def EndsHere : Pieces → Prop
  | finished after => after = []
  | cons (.closing before) _ => before = []
  | _ => False

/-- How pieces that are read go together: a statement that no semicolon ends is the last. -/
def Read : Pieces → Prop
  | cons p rest => p.Sound ∧ (p.isLoose → rest.EndsHere) ∧ rest.Read
  | _ => True

theorem Read.of_inFront {ps : List Piece} {rest : Pieces} (h : (inFront ps rest).Read) :
    rest.Read := by
  induction ps with
  | nil => exact h
  | cons p ps ih => exact ih h.2.2

end Pieces

theorem endsHere_pieces {s : Text} (h : s = [] ∨ ∃ t, s = '}' :: t) : (pieces s).EndsHere := by
  rcases h with rfl | ⟨t, rfl⟩
  · rw [pieces]
    rfl
  · rw [pieces]
    rfl

theorem read_pieces (s : Text) : (pieces s).Read := by
  fun_induction pieces s with
  | case1 => trivial
  | case2 => trivial
  | case3 s p r h ih =>
    refine ⟨readAfter_sound h, ?_, ih⟩
    intro hp
    exact endsHere_pieces (readAfter_loose h hp)

/-! ## Pieces that nest -/

theorem piecesOf_flagAfter (was closed : Bool) (ns : List Node) :
    piecesOf (flagAfter was closed ns) ns = piecesOf closed ns := by
  induction ns generalizing was with
  | nil => rw [piecesOf_nil, piecesOf_nil]
  | cons n ns ih =>
    rw [flagAfter, piecesOf_cons, piecesOf_cons, ih]
    congr 1
    cases ns with
    | cons m ms => simp
    | nil =>
      rw [Node.pieces_eq, Node.pieces_eq, flagAfter]
      cases n.kind.isStatement <;> simp

theorem flagAfter_flagAfter (was closed : Bool) (ns : List Node) :
    flagAfter was (flagAfter was closed ns) ns = flagAfter was closed ns := by
  induction ns generalizing was with
  | nil => rfl
  | cons n ns ih =>
    simp only [flagAfter]
    cases ns with
    | nil => cases n.kind.isStatement <;> simp [flagAfter]
    | cons m ms => simpa using ih (if n.kind.isStatement then true else was)

/-- The one piece of a node that opens no block. -/
theorem pieces_leaf {k : Kind} {t : Trivia} {e : Ending} (h : NodeSound k t e)
    (he : e ≠ .openBrace) {ended : Bool} (hs : k.isStatement → (e == .semicolon) = ended) :
    Node.pieces ended { id := 0, kind := k, trivia := t } = [.node k t e] := by
  have hb : k.hasBlock = false := by
    rw [← Bool.not_eq_true, ← h.opens]
    exact he
  rw [Node.pieces_eq]
  simp only [hb, Bool.false_eq_true, if_false]
  by_cases hst : k.isStatement
  · rw [← hs hst, hst]
    cases e with
    | openBrace => exact absurd rfl he
    | _ => rfl
  · have hbare : e = .bare := by
      cases e with
      | bare => rfl
      | semicolon => exact absurd (h.ended rfl) hst
      | openBrace => exact absurd rfl he
    simp [hst, hbare]

/-- The pieces of a block around those of its children. -/
theorem pieces_block {k : Kind} {t : Trivia} (h : NodeSound k t .openBrace) (closed : Bool)
    (ns : List Node) (after : Text) (ended : Bool) :
    Node.pieces ended { id := 0, kind := k, trivia := { t with
        after, semicolon := flagAfter false closed ns }, children := ns }
      = .node k t .openBrace :: (piecesOf closed ns ++ [.closing after]) := by
  have hb := h.opens.1 rfl
  have ht : { t with after := [], semicolon := false } = t := by
    rw [← h.after hb, ← h.semicolon]
  rw [Node.pieces_eq]
  simp only [hb, if_true, piecesOf_flagAfter, ht]

namespace Pieces

/-- What stands after the last node of the innermost block, or of the sheet. -/
def Closes (around : List Frame) : Pieces → Prop
  | finished _ => around = []
  | cons (.closing _) _ => around ≠ []
  | _ => False

/-- The number of pieces. -/
def length : Pieces → Nat
  | cons _ rest => rest.length + 1
  | _ => 0

theorem length_inFront (ps : List Piece) (rest : Pieces) :
    (inFront ps rest).length = ps.length + rest.length := by
  induction ps with
  | nil => simp
  | cons p ps ih =>
    rw [inFront_cons, length, ih, List.length_cons]
    omega

end Pieces

theorem not_endsHere_of_cons (closed : Bool) (n : Node) (ns : List Node) (rest : Pieces) :
    ¬ (Pieces.inFront (piecesOf closed (n :: ns)) rest).EndsHere := by
  rw [piecesOf_cons, Node.pieces_eq]
  split <;> simp [Pieces.EndsHere]

theorem shapedIn_nil : ShapedIn [] := by
  intro n hn
  rw [preorder_nil] at hn
  exact absurd hn List.not_mem_nil

/-- The piece of a node that opens no block, in front of those of a forest. -/
theorem exists_forest_leaf {k : Kind} {t : Trivia} {e : Ending} (hp : NodeSound k t e)
    (he : e ≠ .openBrace) {closed : Bool} {ns : List Node} (hs : ShapedIn ns) {tail : Pieces}
    (hloose : (Piece.node k t e).isLoose → (Pieces.inFront (piecesOf closed ns) tail).EndsHere) :
    ∃ closed' ms, ShapedIn ms ∧
      .cons (.node k t e) (.inFront (piecesOf closed ns) tail)
        = Pieces.inFront (piecesOf closed' ms) tail := by
  have hb : k.hasBlock = false := by
    rw [← Bool.not_eq_true, ← hp.opens]
    exact he
  have hshaped : ShapedIn ({ id := 0, kind := k, trivia := t } :: ns) := by
    rw [shapedIn_cons]
    refine ⟨⟨hp.notRoot, fun _ => rfl, ?_⟩, shapedIn_nil, hs⟩
    intro hb'
    rw [hb] at hb'
    cases hb'
  cases ns with
  | nil =>
    refine ⟨e == .semicolon, _, hshaped, ?_⟩
    rw [piecesOf_cons, pieces_leaf hp he (fun _ => by simp)]
    simp
  | cons n ns =>
    -- A statement among others is ended, else nothing would follow it.
    have hended : k.isStatement → (e == .semicolon) = true := by
      intro hst
      cases e with
      | semicolon => rfl
      | openBrace => exact absurd rfl he
      | bare =>
        refine absurd (hloose ?_) (not_endsHere_of_cons closed n ns tail)
        cases k with
        | comment s => simp [Kind.isStatement] at hst
        | _ => rfl
    have hne : (closed || !(n :: ns).isEmpty) = true := by simp
    refine ⟨closed, _, hshaped, ?_⟩
    rw [piecesOf_cons closed _ (n :: ns), hne, pieces_leaf hp he hended]
    rfl

/-- The pieces of a block, from its head to its closing brace, in front of those of a forest. -/
theorem exists_forest_block {k : Kind} {t : Trivia} (hp : NodeSound k t .openBrace)
    {inside closed : Bool} {cs ns : List Node} (hc : ShapedIn cs) (hs : ShapedIn ns)
    (before : Text) (tail : Pieces) :
    ∃ ms, ShapedIn ms ∧
      .cons (.node k t .openBrace) (.inFront (piecesOf inside cs)
          (.cons (.closing before) (.inFront (piecesOf closed ns) tail)))
        = Pieces.inFront (piecesOf closed ms) tail := by
  refine ⟨{ id := 0, kind := k, trivia := { t with
    after := before, semicolon := flagAfter false inside cs }, children := cs } :: ns, ?_, ?_⟩
  · rw [shapedIn_cons]
    refine ⟨⟨hp.notRoot, ?_, ?_⟩, hc, hs⟩
    · intro hb
      rw [hp.opens.1 rfl] at hb
      cases hb
    · intro _
      exact (flagAfter_flagAfter _ _ _).symm
  · rw [piecesOf_cons, pieces_block hp]
    simp [Pieces.inFront_append]

/-- Pieces that are read and that nest start with those of a forest, up to the end of the innermost
    block, or of the sheet if no block is open. -/
theorem exists_forest_of_nest {ps : Pieces} (hr : ps.Read) {offset size : Nat} {top : Frame}
    {around : List Frame} {result : Node × Nat} (h : nest offset size top around ps = .ok result) :
    ∃ closed ns rest, ShapedIn ns ∧ ps = .inFront (piecesOf closed ns) rest ∧
      rest.Closes around := by
  -- After a block, it is the pieces behind its closing brace that are gone through.
  induction hn : ps.length using Nat.strongRecOn generalizing ps offset size top around with
  | ind m ih =>
  cases ps with
  | finished after =>
    refine ⟨false, [], .finished after, shapedIn_nil, by simp, ?_⟩
    rw [nest] at h
    split at h
    · rename_i ha
      exact List.isEmpty_iff.1 ha
    · simp at h
  | stopped fault distance => simp [nest] at h
  | cons p rest =>
    obtain ⟨hp, hloose, hrest⟩ := hr
    rw [Pieces.length] at hn
    cases p with
    | closing before =>
      refine ⟨false, [], .cons (.closing before) rest, shapedIn_nil, by simp, ?_⟩
      rintro rfl
      simp [nest] at h
    | node k t e =>
      rw [nest] at h
      by_cases he : e = .openBrace
      · subst he
        rw [if_pos rfl] at h
        obtain ⟨inside, cs, tail, hc, rfl, htail⟩ := ih _ (by omega) hrest h rfl
        cases tail with
        | finished after => simp [Pieces.Closes] at htail
        | stopped fault distance => simp [Pieces.Closes] at htail
        | cons q rest =>
        cases q with
        | node k t e => simp [Pieces.Closes] at htail
        | closing before =>
        rw [nest_piecesOf inside cs hc, nest] at h
        rw [Pieces.length_inFront, Pieces.length] at hn
        obtain ⟨closed, ns, tail, hs, rfl, hcloses⟩ := ih _ (by omega) hrest.of_inFront.2.2 h rfl
        obtain ⟨ms, hms, heq⟩ := exists_forest_block hp hc hs before tail
        exact ⟨closed, ms, tail, hms, heq, hcloses⟩
      · rw [if_neg he] at h
        obtain ⟨closed, ns, tail, hs, rfl, hcloses⟩ := ih _ (by omega) hrest h rfl
        obtain ⟨closed', ms, hms, heq⟩ := exists_forest_leaf hp he hs hloose
        exact ⟨closed', ms, tail, hms, heq, hcloses⟩

end SheetLint
