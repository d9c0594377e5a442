import SheetLint.Proofs.Sheet.Reading

/-
  Where the nodes of a sheet stand in its source. Each node that was read starts with a character
  that is no blank and no semicolon, at its offset; right after it, and after its semicolon, the
  text of its next siblings begins (`between_of_site`). In pre-order the offsets increase
  (`pairwise_precedes_of_parse`).
-/

namespace SheetLint

/-! ## What a node that was read looks like -/

/-- A node starts with a character that cannot stand before it, and a mixin call is told from
    other at-rules by its first character. -/
structure Node.Written (n : Node) : Prop where
  before : ∀ c ∈ n.trivia.before, isFiller c
  start : ∃ c t, n.render = c :: t ∧ isFiller c = false
  sigil : ∀ r, n.kind = .atRule r → (r.isMixin = false ↔ n.trivia.sigil = ['@'])

theorem Node.Shaped.hasBlock_of_mem {n m : Node} (h : n.Shaped) (hm : m ∈ preorder n.children) :
    n.kind.hasBlock := by
  cases hb : n.kind.hasBlock with
  | true => rfl
  | false =>
    rw [h.leaf hb, preorder_nil] at hm
    exact absurd hm List.not_mem_nil

theorem exists_piece_of_mem {n : Node} {ns : List Node} (hs : ShapedIn ns) (hn : n ∈ preorder ns)
    (closed : Bool) :
    ∃ t e, .node n.kind t e ∈ piecesOf closed ns ∧ t.before = n.trivia.before ∧
      t.sigil = n.trivia.sigil ∧ n.kind.head t = n.kind.head n.trivia := by
  induction ns using forestInduction generalizing closed with
  | nil => rw [preorder_nil] at hn; exact absurd hn List.not_mem_nil
  | cons m ns below after =>
    obtain ⟨hm, hc, hs⟩ := shapedIn_cons.1 hs
    rw [piecesOf_cons, Node.pieces_eq]
    rcases mem_preorder_cons.1 hn with rfl | hn | hn
    · by_cases hb : n.kind.hasBlock
      · rw [if_pos hb]
        exact ⟨_, _, List.mem_cons_self, rfl, rfl, Kind.head_of_hasBlock hb _⟩
      · rw [if_neg hb]
        exact ⟨_, _, List.mem_cons_self, rfl, rfl, rfl⟩
    · obtain ⟨t, e, hp, ht⟩ := below hc hn m.trivia.semicolon
      rw [if_pos (hm.hasBlock_of_mem hn)]
      refine ⟨t, e, List.mem_append_left _ (List.mem_cons_of_mem _ ?_), ht⟩
      exact List.mem_append_left _ hp
    · obtain ⟨t, e, hp, ht⟩ := after hs hn closed
      exact ⟨t, e, List.mem_append_right _ hp, ht⟩

theorem Fit.fitsBefore {after : Text} {ps : List Piece} (h : Fit after ps) {p : Piece}
    (hp : p ∈ ps) : ∃ r, p.FitsBefore r := by
  induction ps with
  | nil => exact absurd hp List.not_mem_nil
  | cons q ps ih =>
    obtain ⟨hq, h⟩ := h
    rcases List.mem_cons.1 hp with rfl | hp
    · exact ⟨_, hq⟩
    · exact ih h hp

theorem Piece.FitsBefore.sound {p : Piece} {r : Text} (h : p.FitsBefore r) : p.Sound := by
  obtain ⟨_, _, hread⟩ := h.spec
  have := readAfter_sound (hread p.before r fun _ => Or.inr rfl)
  rwa [Piece.withBefore_before] at this

theorem Readable.written {closed : Bool} {ns : List Node} {after : Text}
    (h : Readable closed ns after) {n : Node} (hn : n ∈ preorder ns) : n.Written := by
  obtain ⟨t, e, hp, hbefore, hsigil, hhead⟩ := exists_piece_of_mem h.shaped hn closed
  obtain ⟨r, hfits⟩ := h.fit.fitsBefore hp
  obtain ⟨hfill, ⟨c, u, hc, hcf⟩, _⟩ := hfits.spec
  have hsound : NodeSound n.kind t e := hfits.sound
  have hcore : n.kind.head n.trivia ++ e.text = c :: u := by rw [← hhead]; exact hc
  refine ⟨by rw [← hbefore]; exact hfill, ?_, by rw [← hsigil]; exact hsound.sigil⟩
  by_cases hb : n.kind.hasBlock
  · rw [hsound.opens.2 hb, Ending.text] at hcore
    have htext := congrArg
      (· ++ (renderAll n.trivia.semicolon n.children ++ n.trivia.after ++ ['}'])) hcore
    rw [Node.render_of_hasBlock hb hsound.notRoot]
    exact ⟨c, _, by simpa using htext, hcf⟩
  · rw [Bool.not_eq_true] at hb
    rw [Node.render_of_not_hasBlock hb]
    cases hh : n.kind.head n.trivia with
    | nil =>
      rw [hh, List.nil_append] at hcore
      cases e with
      | bare => cases hcore
      | semicolon =>
        obtain ⟨rfl, _⟩ := List.cons.inj hcore
        exact absurd hcf (by decide)
      | openBrace => rw [hsound.opens.1 rfl] at hb; cases hb
    | cons d v =>
      rw [hh] at hcore
      exact ⟨d, v, rfl, by rw [(List.cons.inj hcore).1]; exact hcf⟩

/-! ## Settled forests -/

/-- A forest that stays as it is when it is settled. -/
def Settled (closed : Bool) (start number : Nat) (ns : List Node) : Prop :=
  settleAll closed start number ns = ns

section Settled

variable {closed : Bool} {start number : Nat} {n : Node} {ns : List Node}
  (h : Settled closed start number (n :: ns))
include h

theorem Settled.offset : n.offset = some (start + Text.bytes n.trivia.before) := by
  rw [Settled, settleAll_cons, List.cons.injEq, Node.settle_eq] at h
  rw [← h.1]

theorem Settled.children :
    Settled n.trivia.semicolon
      (start + Text.bytes n.trivia.before + Text.bytes (n.kind.head n.trivia) + 1) (number + 1)
      n.children := by
  rw [Settled, settleAll_cons, List.cons.injEq] at h
  rw [Settled, ← Node.children_settle, h.1]

theorem Settled.tail :
    Settled closed (start + Text.bytes (n.span (closed || !ns.isEmpty)))
      (number + 1 + (preorder n.children).length) ns := by
  rw [Settled, settleAll_cons, List.cons.injEq] at h
  exact h.2

end Settled

/-- The text of a node at a site is part of that of the forest, and that of the siblings after it
    follows. -/
theorem exists_span_of_site {closed : Bool} {start number : Nat} {ns : List Node}
    (h : Settled closed start number ns) (hs : ShapedIn ns) {s : Site} (hsite : s ∈ sitesIn ns) :
    ∃ c front back,
      renderAll closed ns
        = front ++ s.node.span (c || !s.following.isEmpty) ++ renderAll c s.following ++ back ∧
      s.node.offset = some (start + Text.bytes front + Text.bytes s.node.trivia.before) := by
  induction ns using forestInduction generalizing closed start number with
  | nil => rw [sitesIn_nil] at hsite; exact absurd hsite List.not_mem_nil
  | cons n ns below after =>
    obtain ⟨hn, hc, hs⟩ := shapedIn_cons.1 hs
    rw [renderAll_cons_span]
    rcases mem_sitesIn_cons.1 hsite with rfl | hsite | hsite
    · exact ⟨closed, [], [], by simp, by simp [h.offset]⟩
    · obtain ⟨c, front, back, htext, hoffset⟩ := below h.children hc hsite
      have hb : n.kind.hasBlock := by
        refine hn.hasBlock_of_mem (m := s.node) ?_
        rw [← map_node_sitesIn]
        exact List.mem_map_of_mem hsite
      refine ⟨c, n.trivia.before ++ n.kind.head n.trivia ++ '{' :: front,
        back ++ n.trivia.after ++ '}' :: renderAll closed ns, ?_, ?_⟩
      · rw [Node.span, Node.raw, Node.render_of_hasBlock hb hn.notRoot,
          Kind.not_isStatement_of_hasBlock hb, htext]
        simp
      · have hbrace : '{'.utf8Size = 1 := by decide
        rw [hoffset]
        simp only [Text.bytes_append, Text.bytes_cons, hbrace]
        congr 1
        omega
    · obtain ⟨c, front, back, htext, hoffset⟩ := after h.tail hs hsite
      refine ⟨c, n.span (closed || !ns.isEmpty) ++ front, back, ?_, ?_⟩
      · rw [htext]
        simp
      · rw [hoffset, Text.bytes_append]
        congr 1
        omega

/-! ## Places in the source -/

/-- A node stands in a text between two others, the first of which leads to its offset. -/
structure Node.Between (n : Node) (s front back : Text) : Prop where
  text : s = front ++ n.render ++ back
  offset : n.offset = some (Text.bytes front)

theorem Node.Between.unique {n : Node} {s front back front' back' : Text}
    (h : n.Between s front back) (h' : n.Between s front' back') :
    front = front' ∧ back = back' := by
  have hbytes : Text.bytes front = Text.bytes front' := by
    have := h.offset.symm.trans h'.offset
    exact Option.some.inj this
  have hfront : front = front' := by
    have hup := Text.upTo?_bytes front (n.render ++ back)
    have hup' := Text.upTo?_bytes front' (n.render ++ back')
    rw [← List.append_assoc, ← h.text, hbytes] at hup
    rw [← List.append_assoc, ← h'.text, hup] at hup'
    exact Option.some.inj hup'
  refine ⟨hfront, ?_⟩
  have htext := h.text.symm.trans h'.text
  rw [hfront] at htext
  exact List.append_cancel_left htext

/-! ## Offsets increase -/

/-- A node starts before another one in the source. -/
def Node.Precedes (m n : Node) : Prop := ∃ i j, m.offset = some i ∧ n.offset = some j ∧ i < j

/-- The offsets of a settled forest lie in its text. -/
theorem offset_of_settled {closed : Bool} {start number : Nat} {ns : List Node}
    (h : Settled closed start number ns) (hs : ShapedIn ns) {n : Node} (hn : n ∈ preorder ns)
    (hw : n.Written) :
    ∃ i, n.offset = some i ∧ start ≤ i ∧ i < start + Text.bytes (renderAll closed ns) := by
  rw [← map_node_sitesIn, List.mem_map] at hn
  obtain ⟨s, hsite, rfl⟩ := hn
  obtain ⟨c, front, back, htext, hoffset⟩ := exists_span_of_site h hs hsite
  obtain ⟨b, t, hrender, _⟩ := hw.start
  have hpos := b.utf8Size_pos
  refine ⟨_, hoffset, by omega, ?_⟩
  rw [htext, Node.span, Node.raw, hrender]
  simp only [Text.bytes_append, Text.bytes_cons]
  omega

theorem pairwise_precedes {closed : Bool} {start number : Nat} {ns : List Node}
    (h : Settled closed start number ns) (hs : ShapedIn ns) (hw : ∀ n ∈ preorder ns, n.Written) :
    (preorder ns).Pairwise Node.Precedes := by
  induction ns using forestInduction generalizing closed start number with
  | nil => rw [preorder_nil]; exact List.Pairwise.nil
  | cons n ns below after =>
    obtain ⟨hn, hc, hs⟩ := shapedIn_cons.1 hs
    have hwn := hw n (mem_preorder_cons.2 (Or.inl rfl))
    have hwc : ∀ m ∈ preorder n.children, m.Written :=
      fun m hm => hw m (mem_preorder_cons.2 (Or.inr (Or.inl hm)))
    have hws : ∀ m ∈ preorder ns, m.Written :=
      fun m hm => hw m (mem_preorder_cons.2 (Or.inr (Or.inr hm)))
    have hlong : Text.bytes n.trivia.before < Text.bytes (n.span (closed || !ns.isEmpty)) := by
      obtain ⟨c, t, hrender, _⟩ := hwn.start
      have hpos := c.utf8Size_pos
      simp only [Node.span, Node.raw, hrender, Text.bytes_append, Text.bytes_cons]
      omega
    rw [preorder_cons, List.pairwise_cons, List.pairwise_append]
    refine ⟨?_, below h.children hc hwc, after h.tail hs hws, ?_⟩
    · intro m hm
      rcases List.mem_append.1 hm with hm | hm
      · obtain ⟨i, hi, hle, _⟩ := offset_of_settled h.children hc hm (hwc m hm)
        exact ⟨_, i, h.offset, hi, by omega⟩
      · obtain ⟨i, hi, hle, _⟩ := offset_of_settled h.tail hs hm (hws m hm)
        exact ⟨_, i, h.offset, hi, by omega⟩
    · -- The children end with the block, in front of the siblings.
      intro m hm k hk
      obtain ⟨i, hi, _, hlt⟩ := offset_of_settled h.children hc hm (hwc m hm)
      obtain ⟨j, hj, hle, _⟩ := offset_of_settled h.tail hs hk (hws k hk)
      have hspan := bytes_span_of_hasBlock (hn.hasBlock_of_mem hm) hn.notRoot
        (closed || !ns.isEmpty)
      exact ⟨i, j, hi, hj, by omega⟩

/-! ## Sheets that were read -/

section Parse

variable {s : Text} {d : Document} (h : parse s = .ok d)
include h

theorem source_of_parse : d.source = s := by
  obtain ⟨_, hs, hd⟩ := readable_of_parse h
  rw [hd, hs]
  rfl

theorem settled_of_parse : Settled d.root.trivia.semicolon 0 1 d.root.children := by
  obtain ⟨_, _, hd⟩ := readable_of_parse h
  exact (congrArg (fun d => d.root.children) hd).symm

theorem written_of_parse {n : Node} (hn : n ∈ preorder d.root.children) : n.Written := by
  obtain ⟨hread, _⟩ := readable_of_parse h
  exact hread.written hn

/-- Where the node at a site stands in the source: its semicolon comes next, if it has one, and
    then the text of the siblings after it. -/
theorem between_of_site {σ : Site} (hσ : σ ∈ sitesIn d.root.children) :
    ∃ c front back, σ.node.Between s front
      ((if σ.node.kind.isStatement && (c || !σ.following.isEmpty) then [';'] else [])
        ++ renderAll c σ.following ++ back) := by
  obtain ⟨hread, hs, _⟩ := readable_of_parse h
  obtain ⟨c, front, back, htext, hoffset⟩ :=
    exists_span_of_site (settled_of_parse h) hread.shaped hσ
  refine ⟨c, front ++ σ.node.trivia.before, back ++ d.root.trivia.after, ?_, ?_⟩
  · rw [hs, htext, Node.span, Node.raw]
    simp
  · rw [hoffset, Text.bytes_append, Nat.zero_add]

/-- The nodes of a sheet are in the order in which they stand in the source. -/
theorem pairwise_precedes_of_parse : (preorder d.root.children).Pairwise Node.Precedes := by
  obtain ⟨hread, _⟩ := readable_of_parse h
  exact pairwise_precedes (settled_of_parse h) hread.shaped fun n hn => hread.written hn

end Parse

end SheetLint
