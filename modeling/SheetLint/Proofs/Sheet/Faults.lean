import SheetLint.Proofs.Sheet.Nesting

/-
  Why and where reading a sheet fails. Reading goes through a text with the braces in mind of the
  blocks that are still open; it fails at a piece that cannot be read, at the end of the text with a
  block still open, or at a closing brace with none (`Fails`). That is all that nesting the pieces
  can say (`parse_eq_error_iff`), and it says it about texts: a place is the text that leads to it,
  not a number of bytes.
-/

namespace SheetLint

/-! ## Pieces that cannot be read -/

theorem inFront_eq_error {front : Text} {cut : Except Stop (Text × Text)} {e : Stop}
    (h : inFront front cut = .error e) : cut = .error e := by
  cases cut with
  | error e' => exact h
  | ok p => cases h

/-- A head that cannot be cut off stops in its text or where the brackets were opened. -/
theorem rest_of_splitHead {depth : Nat} {opened s : Text} {e : Stop}
    (h : splitHead depth opened s = .error e) :
    e.rest <:+ s ∨ depth ≠ 0 ∧ e.rest = opened := by
  fun_induction splitHead depth opened s with
  | case1 => cases h
  | case2 depth opened hd =>
    obtain rfl := Except.error.inj h
    exact Or.inr ⟨hd, rfl⟩
  | case3 depth opened c s ih =>
    refine (ih (inFront_eq_error h)).imp_left fun hs => ?_
    exact (hs.trans (List.suffix_cons c s)).trans (List.suffix_cons _ _)
  | case4 => obtain rfl := Except.error.inj h; exact Or.inl (List.suffix_refl _)
  | case5 depth opened s inside rest hi ih =>
    refine (ih (inFront_eq_error h)).imp_left fun hs => hs.trans ?_
    rw [← closeComment?_eq hi]
    exact ⟨'/' :: '*' :: inside ++ ['*', '/'], by simp⟩
  | case6 => obtain rfl := Except.error.inj h; exact Or.inl (List.suffix_refl _)
  | case7 depth opened c s _ _ _ inside rest hi ih =>
    refine (ih (inFront_eq_error h)).imp_left fun hs => hs.trans ?_
    rw [← closeQuote?_eq hi]
    exact ⟨c :: inside, by simp⟩
  | case8 depth opened c s _ _ _ _ ih =>
    rcases ih (inFront_eq_error h) with hs | ⟨_, hs⟩
    · exact Or.inl (hs.trans (List.suffix_cons c s))
    · by_cases hd : depth = 0
      · rw [dif_pos hd] at hs
        exact Or.inl (hs ▸ List.suffix_refl _)
      · rw [dif_neg hd] at hs
        exact Or.inr ⟨hd, hs⟩
  | case9 depth opened c s _ _ _ _ _ ih =>
    rcases ih (inFront_eq_error h) with hs | ⟨hd, hs⟩
    · exact Or.inl (hs.trans (List.suffix_cons c s))
    · exact Or.inr ⟨by omega, hs⟩
  | case10 => cases h
  | case11 depth opened c s _ _ _ _ _ _ ih =>
    exact (ih (inFront_eq_error h)).imp_left fun hs => hs.trans (List.suffix_cons c s)

theorem rest_of_splitHead_zero {s : Text} {e : Stop} (h : splitHead 0 [] s = .error e) :
    e.rest <:+ s := by
  rcases rest_of_splitHead h with hs | ⟨hd, _⟩
  · exact hs
  · exact absurd rfl hd

theorem readAtRule_error {before s : Text} {e : Stop} (h : readAtRule before s = .error e) :
    splitHead 0 [] (AtName.read s).rest = .error e := by
  unfold readAtRule at h
  rcases hs : splitHead 0 [] (AtName.read s).rest with e' | ⟨head, b⟩ <;>
    simp only [hs, bind, Except.bind, pure, Except.pure, reduceCtorEq] at h
  rw [Except.error.inj h]

theorem readStatement_error {before s : Text} {e : Stop}
    (h : readStatement before s = .error e) :
    splitHead 0 [] s = .error e ∨ ∃ head b, splitHead 0 [] s = .ok (head, b) ∧
      (Ending.read b).1 ≠ .openBrace ∧ statementNode? before head = none ∧
      e = ⟨.unknownWord, s⟩ := by
  unfold readStatement at h
  rcases hs : splitHead 0 [] s with e' | ⟨head, b⟩ <;>
    simp only [hs, bind, Except.bind, pure, Except.pure] at h
  · exact Or.inl (congrArg Except.error (Except.error.inj h))
  · refine Or.inr ⟨head, b, rfl, ?_⟩
    split at h
    · cases h
    · rename_i ho
      split at h
      · cases h
      · rename_i hk
        exact ⟨ho, hk, (Except.error.inj h).symm⟩

/-- What cannot be read is a part of the text that was to be read. -/
theorem rest_of_readAfter {before s : Text} {e : Stop} (h : readAfter before s = .error e) :
    e.rest <:+ s := by
  unfold readAfter at h
  split at h
  · cases h
  · cases h
  · split at h
    · obtain rfl := Except.error.inj h
      exact List.suffix_refl _
    · cases h
  · rename_i s
    have hr := rest_of_splitHead_zero (readAtRule_error h)
    have hs : (AtName.read s).rest <:+ s := ⟨_, AtName.text_append_rest s⟩
    exact (hr.trans hs).trans (List.suffix_cons _ _)
  · rcases readStatement_error h with hs | ⟨_, _, _, _, _, rfl⟩
    · exact rest_of_splitHead_zero hs
    · exact List.suffix_refl _

theorem exists_append_of_readPiece {s : Text} {e : Stop} (h : readPiece s = .error e) :
    ∃ a, s = a ++ e.rest := by
  obtain ⟨a, ha⟩ := (rest_of_readAfter h).trans (List.dropWhile_suffix isFiller)
  exact ⟨a, ha.symm⟩

theorem pieces_of_error {s : Text} {e : Stop} (h : readPiece s = .error e) :
    pieces s = .stopped e.fault (Text.bytes s - Text.bytes e.rest) := by
  rw [pieces]
  split <;> simp_all

theorem pieces_of_finished {s after : Text} (h : readPiece s = .ok (.finished after)) :
    pieces s = .finished after := by
  rw [pieces]
  split <;> simp_all

theorem pieces_of_piece {s r : Text} {p : Piece} (h : readPiece s = .ok (.piece p r)) :
    pieces s = .cons p (pieces r) := by
  rw [pieces]
  split <;> simp_all

/-! ## Texts that cannot be read -/

/-- Reading a text that comes after `front` fails with a fault at the end of `place`. The texts
    `braces` lead to the braces of the blocks that are still open, innermost first. -/
inductive Fails : Text → List Text → Text → Fault → Text → Prop
  /-- The next piece cannot be read. -/
  | stop {front : Text} {braces : List Text} {a : Text} {e : Stop}
      (h : readPiece (a ++ e.rest) = .error e) :
      Fails front braces (a ++ e.rest) e.fault (front ++ a)
  /-- The text ends in a block. -/
  | unclosed {front brace : Text} {braces : List Text} {s after : Text}
      (h : readPiece s = .ok (.finished after)) :
      Fails front (brace :: braces) s .unclosedBlock brace
  /-- A brace closes no block. -/
  | stray {front s before r : Text} (h : readPiece s = .ok (.piece (.closing before) r)) :
      Fails front [] s .unexpectedCloseBrace (front ++ before)
  /-- The text fails after a brace that closes the innermost block. -/
  | closing {front brace : Text} {braces : List Text} {s before r : Text} {fault : Fault}
      {place : Text} (h : readPiece s = .ok (.piece (.closing before) r))
      (hr : Fails (front ++ (before ++ ['}'])) braces r fault place) :
      Fails front (brace :: braces) s fault place
  /-- The text fails after a head that opens a block. -/
  | opening {front : Text} {braces : List Text} {s r : Text} {k : Kind} {t : Trivia}
      {fault : Fault} {place : Text}
      (h : readPiece s = .ok (.piece (.node k t .openBrace) r))
      (hr : Fails (front ++ (t.before ++ k.head t ++ ['{']))
        ((front ++ (t.before ++ k.head t)) :: braces) r fault place) :
      Fails front braces s fault place
  /-- The text fails after a comment or a statement. -/
  | leaf {front : Text} {braces : List Text} {s r : Text} {k : Kind} {t : Trivia} {e : Ending}
      {fault : Fault} {place : Text} (h : readPiece s = .ok (.piece (.node k t e) r))
      (he : e ≠ .openBrace)
      (hr : Fails (front ++ (t.before ++ k.head t ++ e.text)) braces r fault place) :
      Fails front braces s fault place

/-- The place of a fault lies in the text. -/
theorem Fails.isPrefix {front s place : Text} {braces : List Text} {fault : Fault}
    (h : Fails front braces s fault place) (hb : ∀ b ∈ braces, b <+: front ++ s) :
    place <+: front ++ s := by
  induction h with
  | stop h => exact ⟨_, List.append_assoc _ _ _⟩
  | unclosed h => exact hb _ List.mem_cons_self
  | @stray front s before r h =>
    rw [← readPiece_eq h]
    exact ⟨'}' :: r, by simp [Piece.text]⟩
  | closing h _ ih =>
    have hs := readPiece_eq h
    rw [Piece.text] at hs
    rw [List.append_assoc, hs] at ih
    exact ih fun b hm => hb b (List.mem_cons_of_mem _ hm)
  | @opening front braces s r k t _ _ h _ ih =>
    have hs := readPiece_eq h
    rw [Piece.text, Ending.text] at hs
    rw [List.append_assoc, hs] at ih
    refine ih fun b hm => ?_
    rcases List.mem_cons.1 hm with rfl | hm
    · rw [← hs]
      exact ⟨'{' :: r, by simp⟩
    · exact hb b hm
  | leaf h _ _ ih =>
    have hs := readPiece_eq h
    rw [Piece.text] at hs
    rw [List.append_assoc, hs] at ih
    exact ih hb

/-! ## What nesting says about them -/

/-- The texts lead to the braces of the open blocks; the outermost frame is the sheet's. -/
def Opened (braces : List Text) (top : Frame) (around : List Frame) : Prop :=
  (top :: around).dropLast.map Frame.brace = braces.map Text.bytes

theorem opened_nil (top : Frame) : Opened [] top [] := rfl

theorem opened_cons {brace : Text} {braces : List Text} {top f : Frame} {around : List Frame} :
    Opened (brace :: braces) top (f :: around)
      ↔ top.brace = Text.bytes brace ∧ Opened braces f around := by
  simp [Opened]

theorem Opened.of_brace {braces : List Text} {top top' : Frame} {around : List Frame}
    (h : Opened braces top around) (ht : top'.brace = top.brace) : Opened braces top' around := by
  cases around with
  | nil => exact h
  | cons f around =>
    rw [Opened, List.dropLast_cons_cons, List.map_cons] at h ⊢
    rw [ht, h]

theorem not_opened_nil {top f : Frame} {around : List Frame} : ¬ Opened [] top (f :: around) := by
  simp [Opened]

theorem not_opened_cons {brace : Text} {braces : List Text} {top : Frame} :
    ¬ Opened (brace :: braces) top [] := by
  simp [Opened]

section Steps

variable {s r : Text} (front : Text) (size : Nat) (top f : Frame) (around : List Frame)

theorem nest_of_closing {before : Text} (h : readPiece s = .ok (.piece (.closing before) r)) :
    nest (Text.bytes front) size top (f :: around) (pieces s)
      = nest (Text.bytes (front ++ (before ++ ['}']))) size (f.push (top.close before)) around
          (pieces r) := by
  have hbrace : '}'.utf8Size = 1 := by decide
  have hnext : Text.bytes front + Text.bytes before + 1
      = Text.bytes (front ++ (before ++ ['}'])) := by
    simp [hbrace, Nat.add_assoc]
  rw [pieces_of_piece h, nest, hnext]

theorem nest_of_opening {k : Kind} {t : Trivia}
    (h : readPiece s = .ok (.piece (.node k t .openBrace) r)) :
    ∃ g : Frame, g.brace = Text.bytes (front ++ (t.before ++ k.head t)) ∧
      nest (Text.bytes front) size top around (pieces s)
        = nest (Text.bytes (front ++ (t.before ++ k.head t ++ ['{']))) (size + 1) g
            (top :: around) (pieces r) := by
  have hbrace : '{'.utf8Size = 1 := by decide
  have hstop : Text.bytes front + Text.bytes t.before + Text.bytes (k.head t)
      = Text.bytes (front ++ (t.before ++ k.head t)) := by
    simp [Nat.add_assoc]
  have hnext : Text.bytes (front ++ (t.before ++ k.head t)) + 1
      = Text.bytes (front ++ (t.before ++ k.head t ++ ['{'])) := by
    simp [hbrace, Nat.add_assoc]
  rw [pieces_of_piece h, nest]
  simp only [if_true, hstop, hnext]
  exact ⟨_, rfl, rfl⟩

theorem nest_of_leaf {k : Kind} {t : Trivia} {e : Ending}
    (h : readPiece s = .ok (.piece (.node k t e) r)) (he : e ≠ .openBrace) :
    ∃ top' : Frame, top'.brace = top.brace ∧
      nest (Text.bytes front) size top around (pieces s)
        = nest (Text.bytes (front ++ (t.before ++ k.head t ++ e.text))) (size + 1) top' around
            (pieces r) := by
  have hnext : Text.bytes front + Text.bytes t.before + Text.bytes (k.head t)
        + Text.bytes e.text
      = Text.bytes (front ++ (t.before ++ k.head t ++ e.text)) := by
    simp [Nat.add_assoc]
  rw [pieces_of_piece h, nest, if_neg he]
  simp only [hnext]
  refine ⟨_, ?_, rfl⟩
  split <;> rfl

end Steps

/-- Nesting the pieces of a text that fails stops with the fault, at its place. -/
theorem nest_of_fails {front s place : Text} {braces : List Text} {fault : Fault}
    (h : Fails front braces s fault place) (size : Nat) {top : Frame} {around : List Frame}
    (ho : Opened braces top around) :
    nest (Text.bytes front) size top around (pieces s)
      = .error ⟨fault, Text.bytes place⟩ := by
  induction h generalizing size top around with
  | stop h => rw [pieces_of_error h, nest]; simp
  | unclosed h =>
    cases around with
    | nil => exact absurd ho not_opened_cons
    | cons f around =>
      rw [pieces_of_finished h, nest, (opened_cons.1 ho).1]
      rfl
  | stray h =>
    cases around with
    | cons f around => exact absurd ho not_opened_nil
    | nil => rw [pieces_of_piece h, nest, Text.bytes_append]
  | closing h _ ih =>
    cases around with
    | nil => exact absurd ho not_opened_cons
    | cons f around =>
      rw [nest_of_closing _ _ _ _ _ h]
      exact ih size ((opened_cons.1 ho).2.of_brace rfl)
  | @opening front _ _ _ _ _ _ _ h _ ih =>
    obtain ⟨g, hg, hn⟩ := nest_of_opening front size top around h
    rw [hn]
    exact ih (size + 1) (opened_cons.2 ⟨hg, ho⟩)
  | @leaf front _ _ _ _ _ _ _ _ h he _ ih =>
    obtain ⟨top', ht, hn⟩ := nest_of_leaf front size top around h he
    rw [hn]
    exact ih (size + 1) (ho.of_brace ht)

/-- Where nesting the pieces of a text stops, the text fails. -/
theorem exists_fails_of_nest {front s : Text} {braces : List Text} {size : Nat} {top : Frame}
    {around : List Frame} {m : Misfit} (ho : Opened braces top around)
    (h : nest (Text.bytes front) size top around (pieces s) = .error m) :
    ∃ place, Fails front braces s m.fault place ∧ m.offset = Text.bytes place := by
  -- The rest after a piece is shorter, and it is read with the braces that are then open.
  induction hlen : s.length using Nat.strongRecOn generalizing s front braces size top around with
  | ind len ih =>
  subst hlen
  rcases hs : readPiece s with e | (⟨p, r⟩ | after)
  · rw [pieces_of_error hs, nest] at h
    obtain rfl := Except.error.inj h
    obtain ⟨a, rfl⟩ := exists_append_of_readPiece hs
    exact ⟨front ++ a, .stop hs, by simp⟩
  · have hlt := length_lt_of_readPiece hs
    cases p with
    | closing before =>
      cases around with
      | nil =>
        rw [pieces_of_piece hs, nest] at h
        obtain rfl := Except.error.inj h
        cases braces with
        | nil => exact ⟨front ++ before, .stray hs, by simp⟩
        | cons brace braces => exact absurd ho not_opened_cons
      | cons f around =>
        cases braces with
        | nil => exact absurd ho not_opened_nil
        | cons brace braces =>
          have ho' : Opened braces (f.push (top.close before)) around :=
            (opened_cons.1 ho).2.of_brace rfl
          rw [nest_of_closing _ _ _ _ _ hs] at h
          obtain ⟨place, hf, hp⟩ := ih _ hlt ho' h rfl
          exact ⟨place, .closing hs hf, hp⟩
    | node k t e =>
      by_cases he : e = .openBrace
      · subst he
        obtain ⟨g, hg, hn⟩ := nest_of_opening front size top around hs
        rw [hn] at h
        obtain ⟨place, hf, hp⟩ := ih _ hlt (opened_cons.2 ⟨hg, ho⟩) h rfl
        exact ⟨place, .opening hs hf, hp⟩
      · obtain ⟨top', ht, hn⟩ := nest_of_leaf front size top around hs he
        rw [hn] at h
        obtain ⟨place, hf, hp⟩ := ih _ hlt (ho.of_brace ht) h rfl
        exact ⟨place, .leaf hs he hf, hp⟩
  · rw [pieces_of_finished hs, nest] at h
    cases around with
    | nil => cases h
    | cons f around =>
      obtain rfl := Except.error.inj h
      cases braces with
      | nil => exact absurd ho not_opened_nil
      | cons brace braces => exact ⟨brace, .unclosed hs, (opened_cons.1 ho).1⟩

/-- A sheet cannot be read when its text fails with no block open; the error is at the place that
    the text leads to. -/
theorem parse_eq_error_iff {s : Text} {e : ParseError} :
    parse s = .error e ↔
      ∃ place, Fails [] [] s e.fault place ∧ e.position = Position.after place := by
  have hparse {m : Misfit} (hn : nest 0 1 rootFrame [] (pieces s) = .error m) :
      parse s = .error ⟨m.fault, Position.ofOffset s m.offset⟩ := by
    rw [parse, hn]
  have hposition {fault : Fault} {place : Text} (hf : Fails [] [] s fault place) :
      Position.ofOffset s (Text.bytes place) = Position.after place := by
    obtain ⟨t, rfl⟩ := hf.isPrefix fun _ hb => absurd hb List.not_mem_nil
    exact Position.ofOffset_bytes place t
  constructor
  · intro h
    rcases hn : nest 0 1 rootFrame [] (pieces s) with m | ⟨root, size⟩
    · have hn' : nest (Text.bytes []) 1 rootFrame [] (pieces s) = .error m := hn
      obtain ⟨place, hf, hp⟩ := exists_fails_of_nest (opened_nil _) hn'
      rw [hparse hn] at h
      obtain rfl := Except.error.inj h
      exact ⟨place, hf, by rw [hp, hposition hf]⟩
    · rw [parse, hn] at h
      cases h
  · rintro ⟨place, hf, hp⟩
    have hn := nest_of_fails hf 1 (opened_nil rootFrame)
    rw [hparse hn, hposition hf, ← hp]

end SheetLint
