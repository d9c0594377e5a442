import SheetLint.Proofs.Sheet.Nesting

/-
  What reading a stylesheet accepts, and what it makes of it. A forest is readable when each of its
  pieces is read off in front of the text of the pieces after it; reading the text of a readable
  forest gives the forest back, settled, and nothing else is ever read (`parse_eq_ok_iff`). It
  follows that the text of a document that was read is its source (`render_of_parse`).
-/

namespace SheetLint

/-! ## Pieces and their text -/

/-- The text of pieces that follow each other. -/
def textOf (ps : List Piece) : Text := ps.flatMap Piece.text

@[simp] theorem textOf_nil : textOf [] = [] := rfl

@[simp] theorem textOf_cons (p : Piece) (ps : List Piece) :
    textOf (p :: ps) = p.text ++ textOf ps := List.flatMap_cons

@[simp] theorem textOf_append (ps qs : List Piece) :
    textOf (ps ++ qs) = textOf ps ++ textOf qs := List.flatMap_append

/-- Each piece is read off in front of the text of the pieces after it, and what stands after the
    last one is blanks and semicolons. -/
def Fit (after : Text) : List Piece → Prop
  | [] => ∀ c ∈ after, isFiller c
  | p :: ps => p.FitsBefore (textOf ps ++ after) ∧ Fit after ps

theorem readPiece_of_filler {s : Text} (h : ∀ c ∈ s, isFiller c) :
    readPiece s = .ok (.finished s) := by
  have := readPiece_append (t := []) h (by simp)
  rw [List.append_nil] at this
  rw [this]
  rfl

theorem filler_of_readPiece {s after : Text} (h : readPiece s = .ok (.finished after)) :
    ∀ c ∈ after, isFiller c := by
  obtain ⟨_, ha⟩ := readAfter_finished h
  rw [ha]
  intro c hc
  exact List.all_eq_true.1 List.all_takeWhile c hc

/-- Cutting a sheet into pieces undoes putting the text of pieces together that fit. -/
theorem pieces_eq_iff {s after : Text} {ps : List Piece} :
    pieces s = .inFront ps (.finished after) ↔ Fit after ps ∧ s = textOf ps ++ after := by
  induction ps generalizing s with
  | nil =>
    constructor
    · intro h
      rw [pieces] at h
      split at h
      · simp at h
      · rename_i hs
        rw [Pieces.inFront_nil, Pieces.finished.injEq] at h
        rw [h] at hs
        exact ⟨filler_of_readPiece hs, (readPiece_finished hs).symm⟩
      · simp at h
    · rintro ⟨hf, rfl⟩
      have hs := readPiece_of_filler hf
      rw [pieces]
      split <;> simp_all
  | cons p ps ih =>
    constructor
    · intro h
      rw [pieces] at h
      split at h
      · simp at h
      · simp at h
      · rename_i q r hs
        rw [Pieces.inFront_cons, Pieces.cons.injEq] at h
        obtain ⟨rfl, hr⟩ := h
        obtain ⟨hf, rfl⟩ := ih.1 hr
        refine ⟨⟨fitsBefore_of_readPiece hs, hf⟩, ?_⟩
        rw [textOf_cons, List.append_assoc, readPiece_eq hs]
    · rintro ⟨⟨hp, hf⟩, rfl⟩
      have hr : readPiece (textOf (p :: ps) ++ after) = .ok (.piece p (textOf ps ++ after)) := by
        rw [textOf_cons, List.append_assoc]
        exact hp
      rw [pieces, Pieces.inFront_cons, ← ih.2 ⟨hf, rfl⟩]
      split <;> simp_all

/-- The pieces of a forest are its text. -/
theorem textOf_piecesOf_of_notRoot (closed : Bool) (ns : List Node)
    (h : ∀ n ∈ preorder ns, n.kind ≠ .root) : textOf (piecesOf closed ns) = renderAll closed ns := by
  induction ns using forestInduction generalizing closed with
  | nil => simp
  | cons n ns below after =>
    have hc : ∀ m ∈ preorder n.children, m.kind ≠ .root := fun m hm =>
      h m (mem_preorder_cons.2 (Or.inr (Or.inl hm)))
    have hs : ∀ m ∈ preorder ns, m.kind ≠ .root := fun m hm =>
      h m (mem_preorder_cons.2 (Or.inr (Or.inr hm)))
    rw [piecesOf_cons, textOf_append, after _ hs, renderAll_cons_span, Node.pieces_eq, Node.span,
      Node.raw]
    congr 1
    by_cases hb : n.kind.hasBlock
    · rw [if_pos hb, Node.render_of_hasBlock hb (h n (mem_preorder_cons.2 (Or.inl rfl))),
        Kind.not_isStatement_of_hasBlock hb]
      simp [below _ hc, Piece.text, Kind.head_of_hasBlock hb, Ending.text]
    · rw [Bool.not_eq_true] at hb
      rw [hb, Node.render_of_not_hasBlock hb]
      simp only [Bool.false_eq_true, if_false, textOf_cons, textOf_nil, Piece.text]
      split <;> simp [Ending.text]

theorem textOf_piecesOf (closed : Bool) (ns : List Node) (hs : ShapedIn ns) :
    textOf (piecesOf closed ns) = renderAll closed ns :=
  textOf_piecesOf_of_notRoot closed ns fun n hn => (hs n hn).notRoot

/-! ## Settling changes numbers and offsets only -/

@[simp] theorem Node.kind_settle (start number : Nat) (n : Node) :
    (n.settle start number).kind = n.kind := by rw [settle_eq]

@[simp] theorem Node.trivia_settle (start number : Nat) (n : Node) :
    (n.settle start number).trivia = n.trivia := by rw [settle_eq]

theorem Node.children_settle (start number : Nat) (n : Node) :
    (n.settle start number).children
      = settleAll n.trivia.semicolon
          (start + Text.bytes n.trivia.before + Text.bytes (n.kind.head n.trivia) + 1)
          (number + 1) n.children := by rw [settle_eq]

section Settle

variable (closed : Bool) (start number : Nat) (ns : List Node)

@[simp] theorem isEmpty_settleAll : (settleAll closed start number ns).isEmpty = ns.isEmpty := by
  cases ns with
  | nil => rw [settleAll_nil]
  | cons n ns => rw [settleAll_cons]; rfl

theorem length_preorder_settleAll :
    (preorder (settleAll closed start number ns)).length = (preorder ns).length := by
  induction ns using forestInduction generalizing closed start number with
  | nil => rw [settleAll_nil]
  | cons n ns below after =>
    rw [settleAll_cons, preorder_cons, preorder_cons, Node.children_settle]
    simp [below, after]

theorem renderAll_settleAll (d : Bool) :
    renderAll d (settleAll closed start number ns) = renderAll d ns := by
  induction ns using forestInduction generalizing closed start number d with
  | nil => rw [settleAll_nil]
  | cons n ns below after =>
    rw [settleAll_cons, renderAll_cons, renderAll_cons, after, isEmpty_settleAll, Node.kind_settle,
      Node.raw, Node.raw, Node.render_eq, Node.render_eq n, Node.children_settle, below,
      Node.kind_settle, Node.trivia_settle]

omit closed ns in
theorem Node.raw_settle (n : Node) : (n.settle start number).raw = n.raw := by
  rw [raw, raw, render_eq, render_eq n, children_settle, renderAll_settleAll, kind_settle,
    trivia_settle]

theorem piecesOf_settleAll (d : Bool) :
    piecesOf d (settleAll closed start number ns) = piecesOf d ns := by
  induction ns using forestInduction generalizing closed start number d with
  | nil => rw [settleAll_nil]
  | cons n ns below after =>
    rw [settleAll_cons, piecesOf_cons, piecesOf_cons, after, isEmpty_settleAll, Node.pieces_eq,
      Node.pieces_eq _ n, Node.children_settle, below, Node.kind_settle, Node.trivia_settle]

theorem flagAfter_settleAll (was d : Bool) :
    flagAfter was d (settleAll closed start number ns) = flagAfter was d ns := by
  induction ns generalizing start number was with
  | nil => rw [settleAll_nil]
  | cons n ns ih =>
    rw [settleAll_cons, flagAfter, flagAfter, ih, isEmpty_settleAll, Node.kind_settle]

theorem shapedIn_settleAll (h : ShapedIn ns) : ShapedIn (settleAll closed start number ns) := by
  induction ns using forestInduction generalizing closed start number with
  | nil => rwa [settleAll_nil]
  | cons n ns below after =>
    obtain ⟨hn, hc, hs⟩ := shapedIn_cons.1 h
    rw [settleAll_cons, shapedIn_cons, Node.children_settle]
    refine ⟨⟨?_, ?_, ?_⟩, below _ _ _ hc, after _ _ _ hs⟩
    · rw [Node.kind_settle]
      exact hn.notRoot
    · intro hb
      rw [Node.kind_settle] at hb
      rw [Node.children_settle, hn.leaf hb, settleAll_nil]
    · intro hb
      rw [Node.kind_settle] at hb
      rw [Node.children_settle, Node.trivia_settle, flagAfter_settleAll]
      exact hn.semicolon hb

theorem settleAll_settleAll (d : Bool) (start' number' : Nat) :
    settleAll closed start number (settleAll d start' number' ns)
      = settleAll closed start number ns := by
  induction ns using forestInduction generalizing closed start number d start' number' with
  | nil => rw [settleAll_nil]
  | cons n ns below after =>
    have hspan (ended : Bool) (start' number' : Nat) :
        (n.settle start' number').span ended = n.span ended := by
      rw [Node.span, Node.span, Node.raw_settle, Node.kind_settle]
    rw [settleAll_cons d, settleAll_cons, settleAll_cons, after, isEmpty_settleAll, hspan,
      Node.settle_eq, Node.settle_eq start number n, Node.children_settle, below,
      length_preorder_settleAll, Node.kind_settle, Node.trivia_settle]

end Settle

/-! ## Reading and readable forests -/

/-- The forest is what reading its own text, up to `after`, gives. -/
structure Readable (closed : Bool) (ns : List Node) (after : Text) : Prop where
  shaped : ShapedIn ns
  closed_eq : closed = flagAfter false closed ns
  fit : Fit after (piecesOf closed ns)

/-- The document of a forest, with its own text as the source. -/
def sheetOf (closed : Bool) (ns : List Node) (after : Text) : Document where
  source := renderAll closed ns ++ after
  root := {
    id := 0, kind := .root, trivia := { after, semicolon := closed }, offset := some 0
    children := settleAll closed 0 1 ns }
  size := 1 + (preorder ns).length

theorem parse_of_readable {closed : Bool} {ns : List Node} {after : Text}
    (h : Readable closed ns after) :
    parse (renderAll closed ns ++ after) = .ok (sheetOf closed ns after) := by
  have hp : pieces (renderAll closed ns ++ after)
      = .inFront (piecesOf closed ns) (.finished after) := by
    rw [pieces_eq_iff, textOf_piecesOf closed ns h.shaped]
    exact ⟨h.fit, rfl⟩
  rw [parse, hp, nest_piecesOf closed ns h.shaped, nest]
  simp [sheetOf, Frame.takeUp, Frame.close, rootFrame, ← h.closed_eq]

/-- Reading accepts the texts of readable forests and gives their documents. -/
theorem parse_eq_ok_iff {s : Text} {d : Document} :
    parse s = .ok d ↔ ∃ closed ns after, Readable closed ns after ∧
      s = renderAll closed ns ++ after ∧ d = sheetOf closed ns after := by
  constructor
  · intro h
    rcases hn : nest 0 1 rootFrame [] (pieces s) with e | ⟨root, size⟩
    · simp [parse, hn] at h
    obtain ⟨closed, ns, rest, hs, hp, hrest⟩ := exists_forest_of_nest (read_pieces s) hn
    cases rest with
    | stopped fault distance => simp [Pieces.Closes] at hrest
    | cons p rest => cases p <;> simp [Pieces.Closes] at hrest
    | finished after =>
    obtain ⟨hfit, htext⟩ := pieces_eq_iff.1 hp
    have hflag := piecesOf_flagAfter false closed ns
    have hread : Readable (flagAfter false closed ns) ns after :=
      ⟨hs, (flagAfter_flagAfter _ _ _).symm, by rw [hflag]; exact hfit⟩
    have htext' : s = renderAll (flagAfter false closed ns) ns ++ after := by
      rw [← textOf_piecesOf _ ns hs, hflag]
      exact htext
    refine ⟨_, ns, after, hread, htext', ?_⟩
    rw [htext', parse_of_readable hread] at h
    exact (Except.ok.inj h).symm
  · rintro ⟨closed, ns, after, h, rfl, rfl⟩
    exact parse_of_readable h

/-- A document that was read is the document of its own forest. -/
theorem readable_of_parse {s : Text} {d : Document} (h : parse s = .ok d) :
    Readable d.root.trivia.semicolon d.root.children d.root.trivia.after ∧
      s = renderAll d.root.trivia.semicolon d.root.children ++ d.root.trivia.after ∧
      d = sheetOf d.root.trivia.semicolon d.root.children d.root.trivia.after := by
  obtain ⟨closed, ns, after, ⟨hs, hc, hf⟩, rfl, rfl⟩ := parse_eq_ok_iff.1 h
  refine ⟨⟨shapedIn_settleAll _ _ _ _ hs, ?_, ?_⟩, ?_, ?_⟩
  · rw [sheetOf, flagAfter_settleAll]
    exact hc
  · rw [sheetOf, piecesOf_settleAll]
    exact hf
  · rw [sheetOf, renderAll_settleAll]
  · simp only [sheetOf, renderAll_settleAll, settleAll_settleAll, length_preorder_settleAll]

/-! ## Nothing is lost -/

theorem render_sheetOf (closed : Bool) (ns : List Node) (after : Text) :
    (sheetOf closed ns after).render = (sheetOf closed ns after).source := by
  rw [Document.render, Node.render_eq]
  simp only [sheetOf, renderAll_settleAll]
  rfl

/-- Writing a document that was read gives its source back, character by character. -/
theorem render_of_parse {s : Text} {d : Document} (h : parse s = .ok d) : d.render = s := by
  obtain ⟨_, hs, hd⟩ := readable_of_parse h
  rw [hd, render_sheetOf, hs]
  rfl

theorem exists_of_toBool_parse {s : Text} (h : (parse s).toBool = true) :
    ∃ d, parse s = .ok d := by
  cases hp : parse s with
  | error e => rw [hp] at h; cases h
  | ok d => exact ⟨d, rfl⟩

/-- A sheet with stray semicolons, an escape, comments, all three line endings, a variable, a mixin
    call, nested blocks and a last statement that no semicolon ends. -/
def mixedSheet : Text :=
  (";@a b\\;c ;/* d */\r\n.m( 1 ) ;@media x \x7be : f;;\r/**/g:h\x7d\n"
    ++ "@v: \"\x7d\" ;é\x7b;\x7d@w u").toList

theorem render_of_parse_mixedSheet :
    ∃ d, parse mixedSheet = .ok d ∧ d.render = mixedSheet := by
  obtain ⟨d, hd⟩ : ∃ d, parse mixedSheet = .ok d := exists_of_toBool_parse (by decide +kernel)
  exact ⟨d, hd, render_of_parse hd⟩

end SheetLint
