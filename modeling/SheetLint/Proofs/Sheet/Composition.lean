import SheetLint.Proofs.Sheet.Faults
import SheetLint.Proofs.Sheet.Padding

/-
  Sheets that are read one after the other. A sheet that does not end in a statement without a
  semicolon is read the same whatever is put after it (`Fit.before`), and what follows is read as
  it is on its own, with the blanks and semicolons that the first sheet ends with before it. So a
  sheet followed by another is read if and only if the other is, and either way the result comes
  from that of the other (`parse_append`).
-/

namespace SheetLint

/-! ## Pieces in front of other texts -/

/-- Each piece is read off in front of the text of the pieces after it and of what comes then. -/
def FitBefore (rest : Text) : List Piece → Prop
  | [] => True
  | p :: ps => p.FitsBefore (textOf ps ++ rest) ∧ FitBefore rest ps

theorem fitBefore_append {ps qs : List Piece} {rest : Text} :
    FitBefore rest (ps ++ qs) ↔ FitBefore (textOf qs ++ rest) ps ∧ FitBefore rest qs := by
  induction ps with
  | nil => simp [FitBefore]
  | cons p ps ih =>
    rw [List.cons_append, FitBefore, FitBefore, ih, textOf_append, List.append_assoc, and_assoc]

theorem fit_iff {ps : List Piece} {after : Text} :
    Fit after ps ↔ FitBefore after ps ∧ ∀ c ∈ after, isFiller c := by
  induction ps with
  | nil => simp [Fit, FitBefore]
  | cons p ps ih => rw [Fit, FitBefore, ih, and_assoc]

theorem fit_append {ps qs : List Piece} {after : Text} :
    Fit after (ps ++ qs) ↔ FitBefore (textOf qs ++ after) ps ∧ Fit after qs := by
  rw [fit_iff, fit_iff, fitBefore_append, and_assoc]

theorem pieces_textOf_append {ps : List Piece} {rest : Text} (h : FitBefore rest ps) :
    pieces (textOf ps ++ rest) = .inFront ps (pieces rest) := by
  induction ps with
  | nil => rfl
  | cons p ps ih =>
    obtain ⟨hp, hps⟩ := h
    have hread : readPiece (textOf (p :: ps) ++ rest) = .ok (.piece p (textOf ps ++ rest)) := by
      rw [textOf_cons, List.append_assoc]
      exact hp
    rw [pieces_of_piece hread, ih hps, Pieces.inFront_cons]

/-- Pieces of which the last is no statement without a semicolon are read off in front of any
    text. -/
theorem Fit.before {after : Text} {ps : List Piece} (h : Fit after ps)
    (hlast : ∀ p, ps.getLast? = some p → p.isLoose = false) (rest : Text) :
    FitBefore rest ps := by
  induction ps with
  | nil => trivial
  | cons p ps ih =>
    obtain ⟨hp, hps⟩ := h
    refine ⟨?_, ih hps fun q hq => hlast q ?_⟩
    · have hhead : p.isLoose → (textOf ps ++ rest).head? = (textOf ps ++ after).head? := by
        intro hloose
        rcases ends_of_isLoose hp hloose hps with ⟨rfl, _⟩ | ⟨qs, rfl⟩
        · rw [hlast p rfl] at hloose
          cases hloose
        · rfl
      have := hp.change hp.spec.1 fun hloose => Or.inr (hhead hloose)
      rwa [Piece.withBefore_before] at this
    · rw [List.getLast?_cons, hq]
      rfl

/-! ## Siblings that end with a semicolon, if with a statement -/

/-- The siblings do not end with a statement that no semicolon ends. -/
def Ended (closed : Bool) (ns : List Node) : Prop :=
  ∀ n, ns.getLast? = some n → n.kind.isStatement → closed = true

theorem ended_cons_cons {closed : Bool} {n m : Node} {ms : List Node} :
    Ended closed (n :: m :: ms) ↔ Ended closed (m :: ms) := by
  rw [Ended, Ended, List.getLast?_cons_cons]

theorem Ended.isStatement {closed : Bool} {n : Node} (h : Ended closed [n]) :
    closed = true ∨ n.kind.isStatement = false := by
  cases hn : n.kind.isStatement with
  | false => exact Or.inr rfl
  | true => exact Or.inl (h n rfl hn)

theorem Node.pieces_of_not_isStatement {n : Node} (h : n.kind.isStatement = false)
    (ended ended' : Bool) : n.pieces ended = n.pieces ended' := by
  rw [Node.pieces_eq, Node.pieces_eq, h]
  rfl

/-- Where nodes start does not depend on a semicolon after the last of them. -/
theorem settleAll_closed (closed closed' : Bool) (start number : Nat) (ns : List Node) :
    settleAll closed start number ns = settleAll closed' start number ns := by
  induction ns generalizing start number with
  | nil => rw [settleAll_nil, settleAll_nil]
  | cons n ns ih =>
    cases ns with
    | nil => rw [settleAll_cons, settleAll_cons, settleAll_nil, settleAll_nil]
    | cons m ms =>
      rw [settleAll_cons, settleAll_cons closed', ih]
      simp

section Ended

variable {closed : Bool} {ns : List Node} (h : Ended closed ns)
include h

theorem Ended.piecesOf_eq : piecesOf closed ns = piecesOf true ns := by
  induction ns with
  | nil => rw [piecesOf_nil, piecesOf_nil]
  | cons n ns ih =>
    cases ns with
    | nil =>
      rcases h.isStatement with rfl | hn
      · rfl
      · rw [piecesOf_cons, piecesOf_cons, Node.pieces_of_not_isStatement hn, piecesOf_nil,
          piecesOf_nil]
    | cons m ms =>
      rw [piecesOf_cons, piecesOf_cons true, ih (ended_cons_cons.1 h)]
      simp

theorem Ended.flagAfter_eq (was : Bool) : flagAfter was closed ns = flagAfter was true ns := by
  induction ns generalizing was with
  | nil => rfl
  | cons n ns ih =>
    cases ns with
    | nil =>
      rcases h.isStatement with rfl | hn
      · rfl
      · simp [flagAfter, hn]
    | cons m ms =>
      show flagAfter (if n.kind.isStatement then closed || true else was) closed (m :: ms) = _
      rw [ih (ended_cons_cons.1 h), Bool.or_true]
      rfl

theorem Ended.renderAll_eq (hs : ShapedIn ns) : renderAll closed ns = renderAll true ns := by
  rw [← textOf_piecesOf closed ns hs, ← textOf_piecesOf true ns hs, h.piecesOf_eq]

end Ended

theorem ended_of_not_any {ns : List Node} (h : ns.any (·.kind.isStatement) = false)
    (closed : Bool) : Ended closed ns := by
  intro n hn hst
  rw [List.any_eq_false] at h
  exact absurd hst (h n (List.mem_of_getLast? hn))

/-- Without a statement there is no semicolon to note. -/
theorem piecesOf_ite (ns : List Node) (closed closed' : Bool) :
    piecesOf (if ns.any (·.kind.isStatement) then closed else closed') ns = piecesOf closed ns := by
  cases hany : ns.any (·.kind.isStatement) with
  | true => rfl
  | false =>
    exact (ended_of_not_any hany closed').piecesOf_eq.trans
      (ended_of_not_any hany closed).piecesOf_eq.symm

/-- The last piece of siblings that a semicolon ends is no statement without one. -/
theorem not_isLoose_last (ns : List Node) :
    ∀ p, (piecesOf true ns).getLast? = some p → p.isLoose = false := by
  have hnode (n : Node) (p : Piece) (hp : (n.pieces true).getLast? = some p) :
      p.isLoose = false := by
    rw [Node.pieces_eq] at hp
    by_cases hb : n.kind.hasBlock
    · rw [if_pos hb, ← List.cons_append, List.getLast?_concat] at hp
      obtain rfl := Option.some.inj hp
      rfl
    · rw [if_neg hb] at hp
      obtain rfl := Option.some.inj hp
      cases hk : n.kind with
      | root => rw [hk] at hb; exact absurd rfl hb
      | atRule r =>
        rw [hk, Bool.not_eq_true] at hb
        have hst : (Kind.atRule r).isStatement = true := by
          simpa [Kind.isStatement, Kind.hasBlock] using hb
        simp [Piece.isLoose, hst]
      | styleRule s => rw [hk] at hb; exact absurd rfl hb
      | declaration p v => simp [Piece.isLoose, Kind.isStatement]
      | comment s => simp [Piece.isLoose, Kind.isComment]
  induction ns with
  | nil => intro p hp; rw [piecesOf_nil] at hp; cases hp
  | cons n ns ih =>
    intro p hp
    rw [piecesOf_cons, List.getLast?_append] at hp
    cases hl : (piecesOf true ns).getLast? with
    | none =>
      rw [hl, Option.none_or] at hp
      exact hnode n p hp
    | some q =>
      rw [hl, Option.some_or] at hp
      exact ih p (hl.trans hp)

/-! ## Forests one after the other -/

/-- A semicolon ends each statement that other siblings follow. -/
theorem ended_append_cons (closed : Bool) (ns : List Node) (m : Node) (ms : List Node) :
    (closed || !(ns ++ m :: ms).isEmpty) = (true || !ns.isEmpty) := by simp

theorem piecesOf_append_cons (closed : Bool) (ns : List Node) (m : Node) (ms : List Node) :
    piecesOf closed (ns ++ m :: ms) = piecesOf true ns ++ piecesOf closed (m :: ms) := by
  induction ns with
  | nil => rw [piecesOf_nil]; rfl
  | cons n ns ih =>
    rw [List.cons_append, piecesOf_cons, ih, piecesOf_cons true n ns, ended_append_cons, List.append_assoc]

theorem settleAll_append_cons (closed : Bool) (start number : Nat) (ns : List Node) (m : Node)
    (ms : List Node) :
    settleAll closed start number (ns ++ m :: ms)
      = settleAll true start number ns
        ++ settleAll closed (start + Text.bytes (renderAll true ns))
            (number + (preorder ns).length) (m :: ms) := by
  induction ns generalizing start number with
  | nil => simp
  | cons n ns ih =>
    rw [List.cons_append, settleAll_cons, ih, settleAll_cons true, ended_append_cons, renderAll_cons_span,
      Text.bytes_append, preorder_cons, List.length_cons, List.length_append]
    simp only [List.cons_append, Nat.add_assoc, Nat.add_left_comm, Nat.add_comm]

theorem flagAfter_append_cons (was closed : Bool) (ns : List Node) (m : Node) (ms : List Node) :
    flagAfter was closed (ns ++ m :: ms)
      = flagAfter (flagAfter was true ns) closed (m :: ms) := by
  induction ns generalizing was with
  | nil => rfl
  | cons n ns ih =>
    rw [List.cons_append, flagAfter, ih, ended_append_cons]
    rfl

theorem flagAfter_of_not_any {ns : List Node} (h : ns.any (·.kind.isStatement) = false)
    (was closed : Bool) : flagAfter was closed ns = was := by
  induction ns generalizing was with
  | nil => rfl
  | cons n ns ih =>
    rw [List.any_cons, Bool.or_eq_false_iff] at h
    rw [flagAfter, ih h.2, h.1]
    rfl

theorem flagAfter_of_any {ns : List Node} (h : ns.any (·.kind.isStatement) = true)
    (was was' closed : Bool) : flagAfter was closed ns = flagAfter was' closed ns := by
  induction ns generalizing was was' with
  | nil => cases h
  | cons n ns ih =>
    rw [flagAfter, flagAfter]
    cases hn : n.kind.isStatement with
    | true => rfl
    | false =>
      rw [List.any_cons, hn, Bool.false_or] at h
      exact ih h _ _

theorem shapedIn_append {ns ms : List Node} : ShapedIn (ns ++ ms) ↔ ShapedIn ns ∧ ShapedIn ms := by
  simp only [ShapedIn, preorder_append, List.mem_append]
  exact ⟨fun h => ⟨fun n hn => h n (Or.inl hn), fun n hn => h n (Or.inr hn)⟩,
    fun h n hn => hn.elim (h.1 n) (h.2 n)⟩

/-! ## More before a node -/

/-- The node with more before it. -/
def Node.pad (w : Text) (n : Node) : Node :=
  { n with trivia := { n.trivia with before := w ++ n.trivia.before } }

/-- Siblings with more before the first of them. -/
def padFirst (w : Text) : List Node → List Node
  | [] => []
  | n :: ns => n.pad w :: ns

/-- What stands before a node is not in its head. -/
theorem Kind.head_withBefore (k : Kind) (t : Trivia) (w : Text) :
    k.head { t with before := w } = k.head t := by
  cases k <;> rfl

section Pad

variable (w : Text) (n : Node) (ns : List Node)

theorem Node.head_pad : n.kind.head (n.pad w).trivia = n.kind.head n.trivia :=
  n.kind.head_withBefore n.trivia _

theorem Node.span_pad (ended : Bool) : (n.pad w).span ended = w ++ n.span ended := by
  have hrender : (n.pad w).render = n.render := by
    rw [Node.render_eq, Node.render_eq n]
    exact congrArg (· ++ _) (n.head_pad w)
  rw [Node.span, Node.span, Node.raw, Node.raw, hrender, ← List.append_assoc, ← List.append_assoc]
  rfl

theorem Node.settle_pad (start number : Nat) :
    (n.pad w).settle start number = (n.settle (start + Text.bytes w) number).pad w := by
  have hstart : start + Text.bytes (n.pad w).trivia.before
      = start + Text.bytes w + Text.bytes n.trivia.before := by
    rw [Node.pad, Text.bytes_append, Nat.add_assoc]
  rw [Node.settle_eq, Node.settle_eq, hstart]
  show Node.mk _ n.kind _ _ (settleAll _ (_ + Text.bytes (n.kind.head (n.pad w).trivia) + 1) _ _)
    = _
  rw [n.head_pad w]
  rfl

theorem shapedIn_padFirst (h : ShapedIn ns) : ShapedIn (padFirst w ns) := by
  cases ns with
  | nil => exact h
  | cons n ns =>
    obtain ⟨⟨hr, hl, hs⟩, hc, hns⟩ := shapedIn_cons.1 h
    exact shapedIn_cons.2 ⟨⟨hr, hl, hs⟩, hc, hns⟩

theorem any_padFirst :
    (padFirst w ns).any (·.kind.isStatement) = ns.any (·.kind.isStatement) := by
  cases ns <;> rfl

theorem length_preorder_padFirst :
    (preorder (padFirst w ns)).length = (preorder ns).length := by
  cases ns with
  | nil => rfl
  | cons n ns => rw [padFirst, preorder_cons, preorder_cons]; rfl

theorem flagAfter_padFirst (was closed : Bool) :
    flagAfter was closed (padFirst w ns) = flagAfter was closed ns := by
  cases ns <;> rfl

theorem piecesOf_padFirst (hw : ∀ c ∈ w, isFiller c) (closed : Bool) :
    List.Forall₂ Padded (piecesOf closed ns) (piecesOf closed (padFirst w ns)) := by
  have hself (p : Piece) : Padded p p := by
    cases p with
    | node k t e => exact .node (w := []) (by simp) k t e
    | closing before => exact .closing before
  cases ns with
  | nil => rw [padFirst, piecesOf_nil]; exact .nil
  | cons n ns =>
    rw [padFirst, piecesOf_cons, piecesOf_cons, Node.pieces_eq, Node.pieces_eq, Node.pad]
    dsimp only
    split
    · exact .cons (.node hw _ _ _) (List.forall₂_same.2 fun p _ => hself p)
    · exact .cons (.node hw _ _ _) (List.forall₂_same.2 fun p _ => hself p)

theorem renderAll_padFirst (closed : Bool) :
    renderAll closed (padFirst w (n :: ns)) = w ++ renderAll closed (n :: ns) := by
  rw [padFirst, renderAll_cons_span, renderAll_cons_span, Node.span_pad, List.append_assoc]

theorem settleAll_padFirst (closed : Bool) (start number : Nat) :
    settleAll closed start number (padFirst w ns)
      = padFirst w (settleAll closed (start + Text.bytes w) number ns) := by
  cases ns with
  | nil => rw [padFirst, settleAll_nil, settleAll_nil, padFirst]
  | cons n ns =>
    rw [padFirst, settleAll_cons, settleAll_cons, padFirst, Node.span_pad, Node.settle_pad,
      Text.bytes_append, ← Nat.add_assoc start]
    rfl

end Pad

/-! ## Sheets that are read -/

/-- A node of a sheet that comes after another one. -/
def Node.shift (bytes count : Nat) (n : Node) : Node :=
  { n with id := count + n.id, offset := n.offset.map (bytes + ·) }

theorem settleAll_shift (bytes count : Nat) (closed : Bool) (start number : Nat) (ns : List Node) :
    settleAll closed (bytes + start) (count + number) ns
      = everywhere (Node.shift bytes count) (settleAll closed start number ns) := by
  induction ns using forestInduction generalizing closed start number with
  | nil => rw [settleAll_nil, settleAll_nil, everywhere_nil]
  | cons n ns below after =>
    rw [settleAll_cons, settleAll_cons, everywhere_cons, Node.everywhere_eq, Node.settle_eq,
      Node.settle_eq]
    simp only [Nat.add_assoc, below, after, Node.shift, Option.map_some]

theorem any_settleAll (closed : Bool) (start number : Nat) (ns : List Node) :
    (settleAll closed start number ns).any (·.kind.isStatement) = ns.any (·.kind.isStatement) := by
  induction ns generalizing start number with
  | nil => rw [settleAll_nil]
  | cons n ns ih => rw [settleAll_cons, List.any_cons, List.any_cons, ih, Node.kind_settle]

/-- What two sheets make that stand one after the other: what the first one ends with stands before
    the first node of the second. -/
def Document.join (d₁ d₂ : Document) : Document where
  source := d₁.source ++ d₂.source
  root := { d₁.root with
    trivia := { d₁.root.trivia with
      after :=
        if d₂.root.children.isEmpty then d₁.root.trivia.after ++ d₂.root.trivia.after
        else d₂.root.trivia.after
      semicolon :=
        if d₂.root.children.any (·.kind.isStatement) then d₂.root.trivia.semicolon
        else d₁.root.trivia.semicolon }
    children := d₁.root.children
      ++ padFirst d₁.root.trivia.after
          (everywhere (Node.shift (Text.bytes d₁.source) (d₁.size - 1)) d₂.root.children) }
  size := d₁.size + (d₂.size - 1)

section Join

variable {c₁ c₂ : Bool} {ns₁ ns₂ : List Node} {a₁ a₂ : Text} (h₁ : Readable c₁ ns₁ a₁)
  (hend : Ended c₁ ns₁)
include h₁ hend

theorem Readable.fitBefore (rest : Text) : FitBefore rest (piecesOf c₁ ns₁) := by
  have hfit := h₁.fit
  rw [hend.piecesOf_eq] at hfit ⊢
  exact hfit.before (not_isLoose_last ns₁) rest

/-- Blanks and semicolons after a sheet are read with those that it ends with. -/
theorem Readable.append_filler (ha : ∀ c ∈ a₂, isFiller c) : Readable c₁ ns₁ (a₁ ++ a₂) := by
  have hfill : ∀ c ∈ a₁ ++ a₂, isFiller c :=
    List.forall_mem_append.2 ⟨(fit_iff.1 h₁.fit).2, ha⟩
  refine ⟨h₁.shaped, h₁.closed_eq, ?_⟩
  rw [← List.append_nil (piecesOf c₁ ns₁), fit_append]
  exact ⟨h₁.fitBefore hend _, hfill⟩

/-- The nodes of two sheets that stand one after the other are read as such. -/
theorem Readable.append (h₂ : Readable c₂ ns₂ a₂) :
    Readable (if ns₂.any (·.kind.isStatement) then c₂ else c₁) (ns₁ ++ padFirst a₁ ns₂)
      (if ns₂.isEmpty then a₁ ++ a₂ else a₂) := by
  cases ns₂ with
  | nil =>
    rw [padFirst, List.append_nil]
    exact h₁.append_filler hend h₂.fit
  | cons m ms =>
    refine ⟨shapedIn_append.2 ⟨h₁.shaped, shapedIn_padFirst _ _ h₂.shaped⟩, ?_, ?_⟩
    · have h₁c : c₁ = flagAfter false true ns₁ := h₁.closed_eq.trans (hend.flagAfter_eq false)
      rw [padFirst, flagAfter_append_cons, ← h₁c, ← padFirst, flagAfter_padFirst]
      by_cases hany : (m :: ms).any (·.kind.isStatement)
      · rw [if_pos hany, flagAfter_of_any hany c₁ false]
        exact h₂.closed_eq
      · rw [Bool.not_eq_true] at hany
        rw [hany, flagAfter_of_not_any hany]
        rfl
    · rw [padFirst, piecesOf_append_cons, ← padFirst, ← hend.piecesOf_eq, fit_append]
      refine ⟨h₁.fitBefore hend _, ?_⟩
      rw [← any_padFirst a₁, piecesOf_ite]
      exact fit_of_padded (piecesOf_padFirst a₁ _ (fit_iff.1 h₁.fit).2 c₂) h₂.fit

theorem Readable.renderAll_append (h₂ : Readable c₂ ns₂ a₂) :
    renderAll (if ns₂.any (·.kind.isStatement) then c₂ else c₁) (ns₁ ++ padFirst a₁ ns₂)
        ++ (if ns₂.isEmpty then a₁ ++ a₂ else a₂)
      = (renderAll c₁ ns₁ ++ a₁) ++ (renderAll c₂ ns₂ ++ a₂) := by
  cases ns₂ with
  | nil => simp [padFirst]
  | cons m ms =>
    have hrender : renderAll (if (m :: ms).any (·.kind.isStatement) then c₂ else c₁) (m :: ms)
        = renderAll c₂ (m :: ms) := by
      rw [← textOf_piecesOf _ _ h₂.shaped, ← textOf_piecesOf _ _ h₂.shaped, piecesOf_ite]
    rw [padFirst, renderAll_append_cons, ← padFirst, renderAll_padFirst, hrender,
      hend.renderAll_eq h₁.shaped]
    simp

theorem settleAll_join (c c₂ : Bool) :
    settleAll c 0 1 (ns₁ ++ padFirst a₁ ns₂)
      = settleAll c₁ 0 1 ns₁
        ++ padFirst a₁ (everywhere (Node.shift (Text.bytes (renderAll c₁ ns₁ ++ a₁))
            (preorder ns₁).length) (settleAll c₂ 0 1 ns₂)) := by
  cases ns₂ with
  | nil => simp [padFirst, settleAll_closed c c₁]
  | cons m ms =>
    rw [padFirst, settleAll_append_cons, ← padFirst, settleAll_padFirst, settleAll_closed true c₁,
      settleAll_closed c c₂, hend.renderAll_eq h₁.shaped, ← settleAll_shift, Text.bytes_append,
      Nat.zero_add, Nat.add_zero, Nat.add_comm 1]

theorem sheetOf_join (h₂ : Readable c₂ ns₂ a₂) :
    sheetOf (if ns₂.any (·.kind.isStatement) then c₂ else c₁) (ns₁ ++ padFirst a₁ ns₂)
        (if ns₂.isEmpty then a₁ ++ a₂ else a₂)
      = (sheetOf c₁ ns₁ a₁).join (sheetOf c₂ ns₂ a₂) := by
  have hsize : 1 + (preorder (ns₁ ++ padFirst a₁ ns₂)).length
      = 1 + (preorder ns₁).length + (1 + (preorder ns₂).length - 1) := by
    rw [preorder_append, List.length_append, length_preorder_padFirst]
    omega
  rw [sheetOf, h₁.renderAll_append hend h₂, settleAll_join h₁ hend _ c₂, hsize]
  simp only [sheetOf, Document.join, isEmpty_settleAll, any_settleAll, Nat.add_sub_cancel_left]

theorem parse_append_of_readable (h₂ : Readable c₂ ns₂ a₂) :
    parse ((renderAll c₁ ns₁ ++ a₁) ++ (renderAll c₂ ns₂ ++ a₂))
      = .ok ((sheetOf c₁ ns₁ a₁).join (sheetOf c₂ ns₂ a₂)) := by
  rw [← h₁.renderAll_append hend h₂, parse_of_readable (h₁.append hend h₂),
    sheetOf_join h₁ hend h₂]

end Join

/-! ## Sheets that cannot be read -/

/-- What cannot be read after some blanks and semicolons cannot be read after others. -/
theorem readAfter_eq_error {before s : Text} {e : Stop} (h : readAfter before s = .error e)
    (before' : Text) : readAfter before' s = .error e := by
  unfold readAfter at h ⊢
  split at h
  · cases h
  · cases h
  · split at h
    · exact h
    · cases h
  · have hs := readAtRule_error h
    unfold readAtRule
    simp only [hs, bind, Except.bind]
  · rcases readStatement_error h with hs | ⟨head, b, hs, ho, hk, rfl⟩
    · unfold readStatement
      simp only [hs, bind, Except.bind]
    · have hk' : statementNode? before' head = none := by
        rw [Option.eq_none_iff_forall_not_mem]
        rintro ⟨k, t⟩ hkt
        rw [statementNode?_withBefore hkt] at hk
        cases hk
      unfold readStatement
      simp only [hs, bind, Except.bind, ho, hk', if_false]
      rfl

section Fill

variable {w s : Text} (hw : ∀ c ∈ w, isFiller c)
include hw

theorem readPiece_fill_error {e : Stop} (h : readPiece s = .error e) :
    readPiece (w ++ s) = .error e := by
  have hfill : ∀ c ∈ w ++ s.takeWhile isFiller, isFiller c :=
    List.forall_mem_append.2 ⟨hw, List.all_eq_true.1 List.all_takeWhile⟩
  have hhead : ∀ c, (s.dropWhile isFiller).head? = some c → isFiller c = false := by
    intro c hc
    have hd := List.head?_dropWhile_not isFiller s
    rw [hc] at hd
    simpa using hd
  have hs : w ++ s = (w ++ s.takeWhile isFiller) ++ s.dropWhile isFiller := by
    rw [List.append_assoc, List.takeWhile_append_dropWhile]
  rw [hs, readPiece_append hfill hhead]
  exact readAfter_eq_error h _

theorem readPiece_fill_finished {after : Text} (h : readPiece s = .ok (.finished after)) :
    readPiece (w ++ s) = .ok (.finished (w ++ after)) := by
  have hs := filler_of_readPiece h
  obtain rfl := readPiece_finished h
  exact readPiece_of_filler (List.forall_mem_append.2 ⟨hw, hs⟩)

theorem readPiece_fill {r : Text} {p : Piece} (h : readPiece s = .ok (.piece p r)) :
    readPiece (w ++ s) = .ok (.piece (p.withBefore (w ++ p.before)) r) := by
  have hp := fitsBefore_of_readPiece h
  have hfill : ∀ c ∈ w ++ p.before, isFiller c := List.forall_mem_append.2 ⟨hw, hp.spec.1⟩
  have hq : readPiece ((p.withBefore (w ++ p.before)).text ++ r) = _ :=
    hp.change hfill fun _ => Or.inr rfl
  rwa [Piece.text_eq, Piece.before_withBefore, Piece.core_withBefore, List.append_assoc,
    List.append_assoc, ← List.append_assoc p.before, ← Piece.text_eq, readPiece_eq h] at hq

/-- A text fails after blanks and semicolons where it does without them. -/
theorem Fails.fill {front place : Text} {braces : List Text} {fault : Fault}
    (h : Fails (front ++ w) braces s fault place) : Fails front braces (w ++ s) fault place := by
  cases h with
  | @stop _ _ a e h =>
    have hstop := readPiece_fill_error hw h
    rw [← List.append_assoc] at hstop ⊢
    rw [List.append_assoc front]
    exact .stop hstop
  | unclosed h => exact .unclosed (readPiece_fill_finished hw h)
  | stray h =>
    rw [List.append_assoc]
    exact .stray (readPiece_fill hw h)
  | closing h hr =>
    rw [List.append_assoc, ← List.append_assoc w] at hr
    exact .closing (readPiece_fill hw h) hr
  | opening h hr =>
    refine .opening (readPiece_fill hw h) ?_
    simpa [Piece.before, Kind.head_withBefore] using hr
  | leaf h he hr =>
    refine .leaf (readPiece_fill hw h) he ?_
    simpa [Piece.before, Kind.head_withBefore] using hr

end Fill

/-- Where a text fails does not depend on what comes before it. -/
theorem Fails.shift {front s place : Text} {braces : List Text} {fault : Fault}
    (h : Fails front braces s fault place) (w : Text) :
    Fails (w ++ front) (braces.map (w ++ ·)) s fault (w ++ place) := by
  induction h with
  | stop h =>
    rw [← List.append_assoc]
    exact .stop h
  | unclosed h => exact .unclosed h
  | stray h =>
    rw [← List.append_assoc]
    exact .stray h
  | closing h _ ih =>
    rw [← List.append_assoc] at ih
    exact .closing h ih
  | opening h _ ih =>
    rw [List.map_cons, ← List.append_assoc w, ← List.append_assoc w] at ih
    exact .opening h ih
  | leaf h he _ ih =>
    rw [← List.append_assoc] at ih
    exact .leaf h he ih

theorem parse_append_of_fails {c : Bool} {ns : List Node} {a : Text} (h : Readable c ns a)
    (hend : Ended c ns) {s place : Text} {fault : Fault} (hf : Fails [] [] s fault place) :
    parse ((renderAll c ns ++ a) ++ s)
      = .error ⟨fault, Position.ofOffset ((renderAll c ns ++ a) ++ s)
          (Text.bytes (renderAll c ns ++ a) + Text.bytes place)⟩ := by
  have hfails : Fails (renderAll c ns) [] (a ++ s) fault ((renderAll c ns ++ a) ++ place) := by
    refine Fails.fill (fit_iff.1 h.fit).2 ?_
    have := hf.shift (renderAll c ns ++ a)
    rwa [List.append_nil] at this
  have hpieces : pieces ((renderAll c ns ++ a) ++ s)
      = .inFront (piecesOf c ns) (pieces (a ++ s)) := by
    rw [← textOf_piecesOf _ _ h.shaped, List.append_assoc]
    exact pieces_textOf_append (h.fitBefore hend _)
  rw [parse, hpieces, nest_piecesOf _ _ h.shaped, Nat.zero_add,
    nest_of_fails hfails _ (opened_nil _), Text.bytes_append]

/-- Reading is compositional: after a sheet that does not end in a statement without a semicolon,
    a sheet is read as it is on its own. The nodes of the two stand one after the other, and what
    the first sheet ends with stands before the first node of the second; a fault is the same, at
    the same byte of the second sheet. -/
theorem parse_append {s₁ : Text} {d₁ : Document} (h : parse s₁ = .ok d₁)
    (hend : Ended d₁.root.trivia.semicolon d₁.root.children) (s₂ : Text) :
    ((∃ d, parse (s₁ ++ s₂) = .ok d) ↔ ∃ d₂, parse s₂ = .ok d₂) ∧
      (∀ d₂, parse s₂ = .ok d₂ → parse (s₁ ++ s₂) = .ok (d₁.join d₂)) ∧
      ∀ e₂, parse s₂ = .error e₂ → ∃ place, place <+: s₂ ∧
        e₂.position = Position.ofOffset s₂ (Text.bytes place) ∧
        parse (s₁ ++ s₂) = .error ⟨e₂.fault,
          Position.ofOffset (s₁ ++ s₂) (Text.bytes s₁ + Text.bytes place)⟩ := by
  obtain ⟨h₁, hs₁, hd₁⟩ := readable_of_parse h
  have hok : ∀ d₂, parse s₂ = .ok d₂ → parse (s₁ ++ s₂) = .ok (d₁.join d₂) := by
    intro d₂ hd₂
    obtain ⟨h₂, hs₂, hd₂⟩ := readable_of_parse hd₂
    have hj := parse_append_of_readable h₁ hend h₂
    rwa [← hs₁, ← hs₂, ← hd₁, ← hd₂] at hj
  have herror : ∀ e₂, parse s₂ = .error e₂ → ∃ place, place <+: s₂ ∧
      e₂.position = Position.ofOffset s₂ (Text.bytes place) ∧
      parse (s₁ ++ s₂) = .error ⟨e₂.fault,
        Position.ofOffset (s₁ ++ s₂) (Text.bytes s₁ + Text.bytes place)⟩ := by
    intro e₂ he₂
    obtain ⟨place, hf, hp⟩ := parse_eq_error_iff.1 he₂
    obtain ⟨back, hback⟩ := hf.isPrefix (fun _ hb => absurd hb List.not_mem_nil)
    rw [List.nil_append] at hback
    refine ⟨place, ⟨back, hback⟩, ?_, ?_⟩
    · rw [hp, ← hback, Position.ofOffset_bytes]
    · rw [hs₁]
      exact parse_append_of_fails h₁ hend hf
  refine ⟨⟨?_, ?_⟩, hok, herror⟩
  · rintro ⟨d, hd⟩
    cases hs : parse s₂ with
    | ok d₂ => exact ⟨d₂, rfl⟩
    | error e₂ =>
      obtain ⟨_, _, _, he⟩ := herror e₂ hs
      rw [hd] at he
      cases he
  · rintro ⟨d₂, hd₂⟩
    exact ⟨_, hok d₂ hd₂⟩

/-- A sheet with a block, and with blanks and stray semicolons after its last statement. -/
def strayEnd : Text := "/**/a \x7b b: c;; \x7d;@d e; ;\r\n;".toList

/-- A sheet that starts with a stray semicolon and ends with a statement that none ends. -/
def looseEnd : Text := "; f\x7bg:h\x7d .i() ; j: \"k\" ".toList

/-- A sheet with a string that is not closed. -/
def brokenEnd : Text := "\n f\x7b\n g: \"h; \x7d".toList

theorem parse_append_strayEnd :
    ∃ d₁ d₂, parse strayEnd = .ok d₁ ∧ Ended d₁.root.trivia.semicolon d₁.root.children ∧
      parse looseEnd = .ok d₂ ∧ parse (strayEnd ++ looseEnd) = .ok (d₁.join d₂) ∧
      ∃ place, place <+: brokenEnd ∧
        parse brokenEnd
          = .error ⟨.unclosedString, Position.ofOffset brokenEnd (Text.bytes place)⟩ ∧
        parse (strayEnd ++ brokenEnd) = .error ⟨.unclosedString,
          Position.ofOffset (strayEnd ++ brokenEnd)
            (Text.bytes strayEnd + Text.bytes place)⟩ := by
  obtain ⟨d₁, hd₁, hflag⟩ : ∃ d, parse strayEnd = .ok d ∧ d.root.trivia.semicolon = true := by
    have hflag : (parse strayEnd).toOption.any (·.root.trivia.semicolon) = true := by
      decide +kernel
    cases hd : parse strayEnd with
    | error e => rw [hd] at hflag; cases hflag
    | ok d => rw [hd] at hflag; exact ⟨d, rfl, hflag⟩
  have hend : Ended d₁.root.trivia.semicolon d₁.root.children := fun _ _ _ => hflag
  obtain ⟨d₂, hd₂⟩ : ∃ d, parse looseEnd = .ok d := exists_of_toBool_parse (by decide +kernel)
  have hfault : (match parse brokenEnd with | .error e => some e | .ok _ => none)
      = some ⟨.unclosedString, ⟨3, 5⟩⟩ := by decide +kernel
  have hbroken : parse brokenEnd = .error ⟨.unclosedString, ⟨3, 5⟩⟩ := by
    cases hd : parse brokenEnd with
    | error e => rw [hd] at hfault; rw [Option.some.inj hfault]
    | ok d => rw [hd] at hfault; cases hfault
  obtain ⟨place, hplace, hposition, herror⟩ := (parse_append hd₁ hend brokenEnd).2.2 _ hbroken
  refine ⟨d₁, d₂, hd₁, hend, hd₂, (parse_append hd₁ hend looseEnd).2.1 d₂ hd₂, place, hplace, ?_,
    herror⟩
  rw [hbroken, ← hposition]

end SheetLint
