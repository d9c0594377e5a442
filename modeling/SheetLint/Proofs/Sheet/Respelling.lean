import Mathlib.Data.List.Forall2
import SheetLint.Proofs.Sheet.LineEndings
import SheetLint.Proofs.Sheet.Placement

/-
  Sheets that are written twice, with a line feed and with a carriage return and a line feed at the
  end of each line. Both are read, or neither, with the same error at the same line and column
  (`parse_withCrLf_eq_error_iff`); the documents are the same but for the line endings in their
  texts and for the offsets that follow from them (`unplaced_root_withCrLf`).
-/

namespace SheetLint

/-! ## Sheets that cannot be read -/

/-- A text fails with either line ending, at the same place. -/
theorem Fails.withCrLf {front s place : Text} {braces : List Text} {fault : Fault}
    (h : Fails front braces s fault place) :
    Fails (Text.withCrLf front) (braces.map Text.withCrLf) (Text.withCrLf s) fault
      (Text.withCrLf place) := by
  have hread {s : Text} {step : Except Stop Step} (h : readPiece s = step) :
      readPiece (Text.withCrLf s) = respell Step.withCrLf step := by
    rw [readPiece_withCrLf, h]
  induction h with
  | @stop front braces a e h =>
    have hstop := hread h
    rw [Text.withCrLf_append] at hstop ⊢
    rw [Text.withCrLf_append]
    exact .stop (e := e.withCrLf) hstop
  | unclosed h => exact .unclosed (hread h)
  | stray h =>
    rw [Text.withCrLf_append]
    exact .stray (hread h)
  | closing h _ ih =>
    refine .closing (hread h) ?_
    simpa [Text.withCrLf_cons] using ih
  | opening h _ ih =>
    refine .opening (hread h) ?_
    rw [Kind.head_withCrLf]
    simpa [Trivia.withCrLf, Text.withCrLf_cons] using ih
  | @leaf front braces s r k t e _ _ h he _ ih =>
    refine .leaf (hread h) he ?_
    rw [Kind.head_withCrLf]
    simpa [Trivia.withCrLf, Ending.text_withCrLf] using ih

theorem parse_withCrLf_of_error {s : Text} {e : ParseError} (h : parse s = .error e) :
    parse (Text.withCrLf s) = .error e := by
  obtain ⟨place, hf, hp⟩ := parse_eq_error_iff.1 h
  exact parse_eq_error_iff.2 ⟨_, hf.withCrLf, by rw [hp, Position.after_withCrLf]⟩

/-! ## Trees -/

/-- The node with the other line ending in its texts. -/
def Node.withCrLf (n : Node) : Node :=
  { n with kind := n.kind.withCrLf, trivia := n.trivia.withCrLf }

theorem inPlace_withCrLf : InPlace Node.withCrLf := ⟨fun _ => rfl, fun _ _ => rfl⟩

theorem Node.everywhere_withCrLf (n : Node) :
    n.everywhere Node.withCrLf
      = ⟨n.id, n.kind.withCrLf, n.trivia.withCrLf, n.offset,
          SheetLint.everywhere Node.withCrLf n.children⟩ := Node.everywhere_eq _ n

section Forest

variable (closed : Bool) (ns : List Node)

theorem flagAfter_withCrLf (was : Bool) :
    flagAfter was closed (everywhere Node.withCrLf ns) = flagAfter was closed ns := by
  induction ns generalizing was with
  | nil => rw [everywhere_nil]
  | cons n ns ih =>
    rw [everywhere_cons, flagAfter, flagAfter, ih, isEmpty_everywhere, Node.everywhere_withCrLf,
      Kind.isStatement_withCrLf]

theorem piecesOf_withCrLf :
    piecesOf closed (everywhere Node.withCrLf ns) = (piecesOf closed ns).map Piece.withCrLf := by
  induction ns using forestInduction generalizing closed with
  | nil => rw [everywhere_nil, piecesOf_nil]; rfl
  | cons n ns below after =>
    rw [everywhere_cons, piecesOf_cons, piecesOf_cons, List.map_append, after, isEmpty_everywhere,
      Node.everywhere_withCrLf, Node.pieces_eq, Node.pieces_eq]
    dsimp only
    rw [Kind.hasBlock_withCrLf, Kind.isStatement_withCrLf]
    split
    · simp [Trivia.withCrLf, below, Piece.withCrLf]
    · rfl

theorem shapedIn_withCrLf (h : ShapedIn ns) : ShapedIn (everywhere Node.withCrLf ns) := by
  induction ns using forestInduction with
  | nil => rwa [everywhere_nil]
  | cons n ns below after =>
    obtain ⟨⟨hroot, hleaf, hsemi⟩, hc, hs⟩ := shapedIn_cons.1 h
    rw [everywhere_cons, Node.everywhere_withCrLf]
    refine shapedIn_cons.2 ⟨⟨?_, ?_, ?_⟩, below hc, after hs⟩
    · intro hr
      refine hroot ?_
      cases hk : n.kind <;> simp_all [Kind.withCrLf]
    · intro hb
      rw [Kind.hasBlock_withCrLf] at hb
      show everywhere Node.withCrLf n.children = []
      rw [hleaf hb, everywhere_nil]
    · intro hb
      rw [Kind.hasBlock_withCrLf] at hb
      exact (hsemi hb).trans (flagAfter_withCrLf _ _ _).symm

end Forest

theorem textOf_withCrLf (ps : List Piece) :
    textOf (ps.map Piece.withCrLf) = Text.withCrLf (textOf ps) := by
  induction ps with
  | nil => rfl
  | cons p ps ih => rw [List.map_cons, textOf_cons, ih, Piece.text_withCrLf, textOf_cons,
      Text.withCrLf_append]

theorem Fit.withCrLf {after : Text} {ps : List Piece} (h : Fit after ps) :
    Fit (Text.withCrLf after) (ps.map Piece.withCrLf) := by
  induction ps with
  | nil => exact Text.forall_withCrLf rfl h
  | cons p ps ih =>
    obtain ⟨hp, hps⟩ := h
    refine ⟨?_, ih hps⟩
    have hread : readPiece _ = _ := hp
    rw [Piece.FitsBefore, textOf_withCrLf, Piece.text_withCrLf, ← Text.withCrLf_append,
      ← Text.withCrLf_append, readPiece_withCrLf, hread]
    rfl

theorem Kind.wrap_withCrLf (k : Kind) (inside : Text) :
    k.withCrLf.wrap (Text.withCrLf inside) = Text.withCrLf (k.wrap inside) := by
  have hblock : ['{'] ++ Text.withCrLf inside ++ ['}']
      = Text.withCrLf (['{'] ++ inside ++ ['}']) := by simp [Text.withCrLf_cons]
  cases k with
  | root => rfl
  | atRule r => cases hb : r.hasBlock <;> simp [withCrLf, wrap, hasBlock, hb, Text.withCrLf_cons]
  | styleRule s => exact hblock
  | declaration p v => rfl
  | comment s => rfl

section Texts

variable {n m : Node} (hk : m.kind = n.kind.withCrLf) (ht : m.trivia = n.trivia.withCrLf)
  (hc : renderAll n.trivia.semicolon m.children
    = Text.withCrLf (renderAll n.trivia.semicolon n.children))
include hk ht hc

theorem Node.render_of_withCrLf : m.render = Text.withCrLf n.render := by
  have hinside : Text.withCrLf (renderAll n.trivia.semicolon n.children)
        ++ Text.withCrLf n.trivia.after
      = Text.withCrLf (renderAll n.trivia.semicolon n.children ++ n.trivia.after) :=
    (Text.withCrLf_append _ _).symm
  rw [Node.render_eq, Node.render_eq n, hk, ht, Kind.head_withCrLf, Text.withCrLf_append,
    ← Kind.wrap_withCrLf, ← hinside, ← hc]
  rfl

theorem Node.span_of_withCrLf (ended : Bool) : m.span ended = Text.withCrLf (n.span ended) := by
  have hsemi (b : Bool) : Text.withCrLf (if b then [';'] else []) = if b then [';'] else [] := by
    cases b <;> rfl
  rw [Node.span, Node.span, Node.raw, Node.raw, Node.render_of_withCrLf hk ht hc, hk, ht,
    Kind.isStatement_withCrLf, Text.withCrLf_append, Text.withCrLf_append, hsemi]
  rfl

end Texts

theorem renderAll_withCrLf (closed : Bool) (ns : List Node) :
    renderAll closed (everywhere Node.withCrLf ns) = Text.withCrLf (renderAll closed ns) := by
  induction ns using forestInduction generalizing closed with
  | nil => rw [everywhere_nil, renderAll_nil]; rfl
  | cons n ns below after =>
    rw [everywhere_cons, renderAll_cons_span, renderAll_cons_span, after, isEmpty_everywhere,
      Node.everywhere_withCrLf, Node.span_of_withCrLf rfl rfl (below _), Text.withCrLf_append]

theorem Node.render_withCrLf (n : Node) :
    (n.everywhere Node.withCrLf).render = Text.withCrLf n.render := by
  rw [Node.everywhere_withCrLf]
  exact Node.render_of_withCrLf rfl rfl (SheetLint.renderAll_withCrLf _ _)

theorem Node.span_withCrLf (n : Node) (ended : Bool) :
    (n.everywhere Node.withCrLf).span ended = Text.withCrLf (n.span ended) := by
  rw [Node.everywhere_withCrLf]
  exact Node.span_of_withCrLf rfl rfl (SheetLint.renderAll_withCrLf _ _) ended

/-! ## Documents -/

/-- A forest stays readable with the other line ending. -/
theorem Readable.withCrLf {closed : Bool} {ns : List Node} {after : Text}
    (h : Readable closed ns after) :
    Readable closed (everywhere Node.withCrLf ns) (Text.withCrLf after) := by
  refine ⟨shapedIn_withCrLf _ h.shaped, ?_, ?_⟩
  · rw [flagAfter_withCrLf]
    exact h.closed_eq
  · rw [piecesOf_withCrLf]
    exact h.fit.withCrLf

theorem parse_withCrLf {s : Text} {d : Document} (h : parse s = .ok d) :
    parse (Text.withCrLf s)
      = .ok (sheetOf d.root.trivia.semicolon (everywhere Node.withCrLf d.root.children)
          (Text.withCrLf d.root.trivia.after)) := by
  obtain ⟨hread, hs, _⟩ := readable_of_parse h
  rw [← parse_of_readable hread.withCrLf, renderAll_withCrLf, ← Text.withCrLf_append, ← hs]

/-- A sheet cannot be read with one line ending if and only if it cannot be with the other. -/
theorem parse_withCrLf_eq_error_iff {s : Text} {e : ParseError} :
    parse (Text.withCrLf s) = .error e ↔ parse s = .error e := by
  constructor
  · intro h
    cases hs : parse s with
    | error e' =>
      rw [parse_withCrLf_of_error hs] at h
      exact h
    | ok d =>
      rw [parse_withCrLf hs] at h
      cases h
  · exact parse_withCrLf_of_error

/-- The node without its place in the source. -/
def Node.unplaced (n : Node) : Node := { n with offset := none }

theorem inPlace_unplaced : InPlace Node.unplaced := ⟨fun _ => rfl, fun _ _ => rfl⟩

theorem renderAll_unplaced (closed : Bool) (ns : List Node) :
    renderAll closed (everywhere Node.unplaced ns) = renderAll closed ns := by
  induction ns using forestInduction generalizing closed with
  | nil => rw [everywhere_nil]
  | cons n ns below after =>
    rw [everywhere_cons, renderAll_cons, renderAll_cons, after, isEmpty_everywhere, Node.raw,
      Node.raw, Node.render_eq, Node.render_eq n, Node.everywhere_eq]
    dsimp only [Node.unplaced]
    rw [below]
    rfl

/-- Where nodes stand in the source does not show in what they write. -/
theorem Node.render_unplaced (n : Node) : (n.everywhere Node.unplaced).render = n.render := by
  rw [Node.render_eq, Node.render_eq n, Node.everywhere_eq]
  dsimp only [Node.unplaced]
  rw [renderAll_unplaced]

theorem settleAll_withCrLf (closed : Bool) (start start' number : Nat) (ns : List Node) :
    everywhere Node.unplaced (settleAll closed start' number (everywhere Node.withCrLf ns))
      = everywhere Node.unplaced
          (everywhere Node.withCrLf (settleAll closed start number ns)) := by
  induction ns using forestInduction generalizing closed start start' number with
  | nil => simp
  | cons n ns below after =>
    have hlen := inPlace_withCrLf.length_preorder_everywhere n.children
    rw [everywhere_cons, settleAll_cons, settleAll_cons, everywhere_cons, everywhere_cons,
      everywhere_cons]
    congr 1
    · rw [Node.everywhere_withCrLf, Node.everywhere_withCrLf, Node.settle_eq, Node.settle_eq,
        Node.everywhere_eq, Node.everywhere_eq]
      dsimp only
      rw [below _ (start + Text.bytes n.trivia.before + Text.bytes (n.kind.head n.trivia) + 1)]
      rfl
    · rw [Node.everywhere_withCrLf]
      dsimp only
      rw [hlen]
      exact after _ _ _ _

/-- The documents of a sheet that is written with either line ending. -/
theorem unplaced_root_withCrLf {s : Text} {d e : Document} (h : parse s = .ok d)
    (he : parse (Text.withCrLf s) = .ok e) :
    e.root.everywhere Node.unplaced
      = (d.root.everywhere Node.withCrLf).everywhere Node.unplaced := by
  obtain ⟨_, _, hd⟩ := readable_of_parse h
  have hroot : d.root
      = ⟨0, .root, { after := d.root.trivia.after, semicolon := d.root.trivia.semicolon }, some 0,
          d.root.children⟩ := by
    conv => lhs; rw [hd, sheetOf]
    rw [settled_of_parse h]
  have hchildren := settleAll_withCrLf d.root.trivia.semicolon 0 0 1 d.root.children
  rw [settled_of_parse h] at hchildren
  rw [parse_withCrLf h] at he
  obtain rfl := Except.ok.inj he
  rw [Node.everywhere_eq, Node.everywhere_eq, Node.everywhere_withCrLf, sheetOf]
  dsimp only
  rw [hchildren, hroot]
  rfl

/-! ## Places -/

/-- A node of a sheet and the same node of the sheet with the other line ending: its texts are the
    same but for line endings, and it starts at the same place. -/
structure Node.Spelled (s : Text) (n m : Node) : Prop where
  id : m.id = n.id
  kind : m.kind = n.kind.withCrLf
  trivia : m.trivia = n.trivia.withCrLf
  render : m.render = Text.withCrLf n.render
  raw : n.raw <:+: s
  place : ∃ front, front <+: s ∧ n.offset = some (Text.bytes front) ∧
    m.offset = some (Text.bytes (Text.withCrLf front))

/-- A site and the same site of the sheet with the other line ending. -/
def Site.Spelled (s : Text) (σ τ : Site) : Prop :=
  σ.node.Spelled s τ.node ∧ List.Forall₂ (Node.Spelled s) σ.following τ.following

theorem Node.render_settle (start number : Nat) (n : Node) :
    (n.settle start number).render = n.render := by
  rw [Node.render_eq, Node.render_eq n, Node.children_settle, renderAll_settleAll,
    Node.kind_settle, Node.trivia_settle]

theorem Node.spelled_settle {s front : Text} {n : Node} {ended : Bool}
    (h : front ++ n.span ended <+: s) (number : Nat) :
    (n.settle (Text.bytes front) number).Spelled s
      ((n.everywhere Node.withCrLf).settle (Text.bytes (Text.withCrLf front)) number) := by
  refine ⟨?_, ?_, ?_, ?_, ?_, front ++ n.trivia.before, ?_, ?_, ?_⟩
  · rw [Node.settle_eq, Node.settle_eq]
  · rw [Node.kind_settle, Node.kind_settle, Node.everywhere_withCrLf]
  · rw [Node.trivia_settle, Node.trivia_settle, Node.everywhere_withCrLf]
  · rw [Node.render_settle, Node.render_settle, Node.render_withCrLf]
  · rw [Node.raw_settle]
    have hspan : n.span ended <:+: s := (List.suffix_append front _).isInfix.trans h.isInfix
    exact (List.prefix_append n.raw _).isInfix.trans hspan
  · refine List.IsPrefix.trans ?_ h
    rw [Node.span, Node.raw, List.append_assoc]
    exact (List.prefix_append_right_inj front).2 (List.prefix_append _ _)
  · rw [Node.settle_eq, Text.bytes_append]
  · rw [Node.settle_eq, Node.everywhere_withCrLf, Text.withCrLf_append, Text.bytes_append]
    rfl

/-- The sites of a forest whose text comes after `front`, with either line ending. -/
theorem spelled_sitesIn {s : Text} (closed : Bool) (ns : List Node) (hs : ShapedIn ns)
    {front : Text} (hfront : front ++ renderAll closed ns <+: s) (number : Nat) :
    List.Forall₂ (Site.Spelled s) (sitesIn (settleAll closed (Text.bytes front) number ns))
      (sitesIn (settleAll closed (Text.bytes (Text.withCrLf front)) number
        (everywhere Node.withCrLf ns))) ∧
    List.Forall₂ (Node.Spelled s) (settleAll closed (Text.bytes front) number ns)
      (settleAll closed (Text.bytes (Text.withCrLf front)) number
        (everywhere Node.withCrLf ns)) := by
  induction ns using forestInduction generalizing closed front number with
  | nil => simp
  | cons n ns below after =>
    obtain ⟨hn, hc, hs⟩ := shapedIn_cons.1 hs
    have hlen : (preorder (n.everywhere Node.withCrLf).children).length
        = (preorder n.children).length := by
      rw [Node.everywhere_withCrLf, inPlace_withCrLf.length_preorder_everywhere]
    rw [renderAll_cons_span, ← List.append_assoc] at hfront
    have hspan : front ++ n.span (closed || !ns.isEmpty) <+: s :=
      (List.prefix_append _ _).trans hfront
    have hhead := Node.spelled_settle hspan number
    have hafter := after closed hs hfront (number + 1 + (preorder n.children).length)
    rw [everywhere_cons, settleAll_cons, settleAll_cons, sitesIn_cons, sitesIn_cons,
      isEmpty_everywhere, Node.span_withCrLf, hlen, ← Text.bytes_append, ← Text.bytes_append,
      ← Text.withCrLf_append]
    refine ⟨.cons ⟨hhead, hafter.2⟩ (List.rel_append ?_ hafter.1), .cons hhead hafter.2⟩
    rw [Node.children_settle, Node.children_settle, Node.everywhere_withCrLf]
    by_cases hb : n.kind.hasBlock
    · have hbrace : '{'.utf8Size = 1 := by decide
      have hbelow : (front ++ (n.trivia.before ++ n.kind.head n.trivia ++ ['{']))
          ++ renderAll n.trivia.semicolon n.children <+: s := by
        refine List.IsPrefix.trans ?_ hspan
        rw [span_of_hasBlock hb hn.notRoot, List.append_assoc]
        refine (List.prefix_append_right_inj front).2 ?_
        exact (List.prefix_append_right_inj _).2 (List.prefix_append _ _)
      have hstart : Text.bytes (front ++ (n.trivia.before ++ n.kind.head n.trivia ++ ['{']))
          = Text.bytes front + Text.bytes n.trivia.before + Text.bytes (n.kind.head n.trivia)
            + 1 := by
        simp [hbrace, Nat.add_assoc]
      have hstart' : Text.bytes (Text.withCrLf
            (front ++ (n.trivia.before ++ n.kind.head n.trivia ++ ['{'])))
          = Text.bytes (Text.withCrLf front) + Text.bytes n.trivia.withCrLf.before
            + Text.bytes (n.kind.withCrLf.head n.trivia.withCrLf) + 1 := by
        rw [Kind.head_withCrLf, Trivia.withCrLf]
        simp [hbrace, Nat.add_assoc, Text.withCrLf_cons]
      have hsites := (below n.trivia.semicolon hc hbelow (number + 1)).1
      rw [hstart, hstart'] at hsites
      exact hsites
    · rw [Bool.not_eq_true] at hb
      rw [hn.leaf hb, everywhere_nil, settleAll_nil, settleAll_nil, sitesIn_nil]
      exact .nil

theorem spelled_sites_of_parse {s : Text} {d e : Document} (h : parse s = .ok d)
    (he : parse (Text.withCrLf s) = .ok e) :
    List.Forall₂ (Site.Spelled s) (sitesIn d.root.children) (sitesIn e.root.children) := by
  obtain ⟨hread, hs, _⟩ := readable_of_parse h
  have hfront : [] ++ renderAll d.root.trivia.semicolon d.root.children <+: s :=
    ⟨d.root.trivia.after, hs.symm⟩
  have hsites := (spelled_sitesIn _ _ hread.shaped hfront 1).1
  rw [Text.bytes_nil, settled_of_parse h] at hsites
  rw [parse_withCrLf h] at he
  obtain rfl := Except.ok.inj he
  exact hsites

/-- Places that the same number of bytes lead to are the same. -/
theorem eq_of_bytes_eq {a b s : Text} (ha : a <+: s) (hb : b <+: s)
    (h : Text.bytes a = Text.bytes b) : a = b := by
  obtain ⟨t, ht⟩ := ha
  obtain ⟨u, hu⟩ := hb
  have hup := Text.upTo?_bytes a t
  rw [ht, h, ← hu, Text.upTo?_bytes] at hup
  exact (Option.some.inj hup).symm

/-- Where a node stands in the sheet, it stands with the other line ending in the other one. -/
theorem Node.Spelled.front_eq {s front back front' back' : Text} {n m : Node}
    (h : n.Spelled s m) (hn : n.Between s front back)
    (hm : m.Between (Text.withCrLf s) front' back') : front' = Text.withCrLf front := by
  obtain ⟨w, hw, hoffset, hoffset'⟩ := h.place
  have hfront : front <+: s := ⟨n.render ++ back, by rw [hn.text, List.append_assoc]⟩
  have hfront' : front' <+: Text.withCrLf s :=
    ⟨m.render ++ back', by rw [hm.text, List.append_assoc]⟩
  have hw' : Text.withCrLf w <+: Text.withCrLf s := by
    obtain ⟨t, rfl⟩ := hw
    exact ⟨Text.withCrLf t, (Text.withCrLf_append w t).symm⟩
  obtain rfl := eq_of_bytes_eq hw hfront (Option.some.inj (hoffset.symm.trans hn.offset))
  exact (eq_of_bytes_eq hw' hfront' (Option.some.inj (hoffset'.symm.trans hm.offset))).symm

end SheetLint
