import SheetLint.Proofs.Sheet.Composition

/-
  What stands where a sheet cannot be read. The place of an error is one of a character, and it is
  that of the culprit: the comment, the string or the bracket that is not closed, the brace of the
  innermost block that is still open at the end, the brace that closes no block though all before
  it can be read, or the statement that is no statement (`parse_error_culprit`).
-/

namespace SheetLint

/-! ## Comments, strings and brackets that are not closed -/

/-- A text ends in a backslash that escapes what comes next: its last backslashes are odd in
    number. -/
def EndsInEscape (s : Text) : Prop := (s.reverse.takeWhile (· = '\\')).length % 2 = 1

/-- The culprit that a fault in the text of a piece is about starts the text `b`. -/
def Fault.LeftOpen (b : Text) : Fault → Prop
  | .unclosedComment => ∃ r, b = '/' :: '*' :: r ∧ ¬ ['*', '/'] <:+: r
  | .unclosedString => ∃ q r, (q = '"' ∨ q = '\'') ∧ b = q :: r ∧
      ∀ x y, r = x ++ q :: y → EndsInEscape x
  | .unclosedBracket => ∃ c r, (c = '(' ∨ c = '[') ∧ b = c :: r
  | _ => False

theorem not_infix_of_closeComment? {s : Text} (h : closeComment? s = none) :
    ¬ ['*', '/'] <:+: s := by
  rintro ⟨x, y, rfl⟩
  induction x with
  | nil => simp [closeComment?] at h
  | cons c x ih =>
    have hne : ¬ (∃ t, c = '*' ∧ x ++ ['*', '/'] ++ y = '/' :: t) := by
      rintro ⟨t, rfl, ht⟩
      simp only [List.cons_append, ht, closeComment?] at h
      cases h
    rw [List.cons_append, List.cons_append, closeComment?.eq_3, Option.map_eq_none_iff] at h
    · exact ih h
    · exact fun t hc ht => hne ⟨t, hc, ht⟩

/-- One more character in front, unless it is a backslash before backslashes only. -/
theorem EndsInEscape.cons {s : Text} (h : EndsInEscape s) {c : Char} (hc : c ≠ '\\') :
    EndsInEscape (c :: s) := by
  rw [EndsInEscape, List.reverse_cons, List.takeWhile_append]
  split
  · have hall : (s.reverse.takeWhile (· = '\\')).length = s.reverse.length := ‹_›
    rw [EndsInEscape, hall] at h
    simpa [hc] using h
  · exact h

theorem EndsInEscape.escape {s : Text} (h : EndsInEscape s) (c : Char) :
    EndsInEscape ('\\' :: c :: s) := by
  by_cases hc : c = '\\'
  · rw [hc, EndsInEscape, List.reverse_cons, List.reverse_cons, List.append_assoc,
      List.takeWhile_append]
    split
    · have hall : (s.reverse.takeWhile (· = '\\')).length = s.reverse.length := ‹_›
      rw [EndsInEscape, hall] at h
      simpa [Nat.add_mod] using h
    · exact h
  · have hs := h.cons hc
    rw [EndsInEscape, List.reverse_cons, List.takeWhile_append]
    split
    · -- Then `c` is a backslash, as everything behind the first one is.
      have hall : ((c :: s).reverse.takeWhile (· = '\\')).length = (c :: s).reverse.length := ‹_›
      have hself := (List.takeWhile_prefix _).eq_of_length hall
      have hmem := List.all_eq_true.1 (hself ▸ List.all_takeWhile) c (by simp)
      exact absurd (of_decide_eq_true hmem) hc
    · exact hs

/-- In a string that is not closed every quote of its kind is behind a backslash. -/
theorem endsInEscape_of_closeQuote? {q : Char} (hq : q ≠ '\\') {s : Text}
    (h : closeQuote? q s = none) {x y : Text} (hs : s = x ++ q :: y) : EndsInEscape x := by
  fun_induction closeQuote? q s generalizing x with
  | case1 => simp at hs
  | case2 c s ih =>
    rcases x with _ | ⟨d, _ | ⟨e, x⟩⟩
    · exact absurd (List.cons.inj hs).1.symm hq
    · rw [← (List.cons.inj hs).1]
      rfl
    · simp only [List.cons_append, List.cons.injEq] at hs
      obtain ⟨rfl, rfl, hs⟩ := hs
      exact (ih (Option.map_eq_none_iff.1 h) hs).escape c
  | case3 => cases h
  | case4 c s hesc hne ih =>
    cases x with
    | nil => exact absurd (List.cons.inj hs).1 hne
    | cons d x =>
      rw [List.cons_append, List.cons.injEq] at hs
      obtain ⟨rfl, hs⟩ := hs
      refine (ih (Option.map_eq_none_iff.1 h) hs).cons ?_
      intro hd
      obtain ⟨a, t, ht⟩ : ∃ a t, s = a :: t := by
        rw [hs]
        cases x <;> exact ⟨_, _, rfl⟩
      exact hesc a t hd ht

/-- A head that cannot be cut off leaves a comment, a string or a bracket open, one of its own or
    the one that was open before. -/
theorem leftOpen_of_splitHead {depth : Nat} {opened s : Text} {e : Stop}
    (h : splitHead depth opened s = .error e)
    (ho : depth ≠ 0 → ∃ c r, (c = '(' ∨ c = '[') ∧ opened = c :: r) :
    e.fault.LeftOpen e.rest := by
  fun_induction splitHead depth opened s with
  | case1 => cases h
  | case2 depth opened hd =>
    obtain rfl := Except.error.inj h
    exact ho hd
  | case3 depth opened c s ih => exact ih (inFront_eq_error h) ho
  | case4 depth opened s hc =>
    obtain rfl := Except.error.inj h
    exact ⟨s, rfl, not_infix_of_closeComment? hc⟩
  | case5 depth opened s inside rest hc ih => exact ih (inFront_eq_error h) ho
  | case6 depth opened c s _ _ hq hc =>
    obtain rfl := Except.error.inj h
    have hne : c ≠ '\\' := by
      rintro rfl
      simp at hq
    exact ⟨c, s, hq, rfl, fun x y hs => endsInEscape_of_closeQuote? hne hc hs⟩
  | case7 depth opened c s _ _ _ inside rest hc ih => exact ih (inFront_eq_error h) ho
  | case8 depth opened c s _ _ _ hb ih =>
    refine ih (inFront_eq_error h) fun _ => ?_
    by_cases hd : depth = 0
    · exact ⟨c, s, hb, by rw [dif_pos hd]⟩
    · rw [dif_neg hd]
      exact ho hd
  | case9 depth opened c s _ _ _ _ _ ih =>
    exact ih (inFront_eq_error h) fun hd => ho (by omega)
  | case10 => cases h
  | case11 depth opened c s _ _ _ _ _ _ ih => exact ih (inFront_eq_error h) ho

/-! ## Pieces that cannot be read -/

/-- Reading a sheet piece by piece comes to a part of it. -/
inductive Reaches (s : Text) : Text → Prop
  | start : Reaches s s
  | next {u r : Text} {p : Piece} (h : Reaches s u) (hp : readPiece u = .ok (.piece p r)) :
      Reaches s r

theorem Reaches.of_next {s r u : Text} {p : Piece} (hp : readPiece s = .ok (.piece p r))
    (h : Reaches r u) : Reaches s u := by
  induction h with
  | start => exact .next .start hp
  | next _ hq ih => exact .next ih hq

/-- The text `b` starts with a statement that is none: up to the semicolon or the closing brace
    that ends it, or to the end of the text, it has no colon, and it is no at-rule and no mixin
    call. -/
def UnknownAt (b : Text) : Prop :=
  ∃ w r, w ≠ [] ∧ b = w ++ r ∧ splitHead 0 [] b = .ok (w, r) ∧
    (∀ c, r.head? = some c → c = ';' ∨ c = '}') ∧ ':' ∉ w ∧
    ∀ c, w.head? = some c → c ≠ '@' ∧ c ≠ '.' ∧ c ≠ '#'

theorem statementNode?_eq_none {before s : Text} (h : statementNode? before s = none) :
    ':' ∉ s ∧ ∀ c, s.head? = some c → c ≠ '.' ∧ c ≠ '#' := by
  unfold statementNode? at h
  split at h
  · cases h
  · cases h
  · rename_i hdot hhash
    split at h
    · rename_i hnone
      refine ⟨fun hm => ?_, fun c hc => ?_⟩
      · have hself := List.takeWhile_append_dropWhile (p := (· ≠ ':')) (l := s)
        rw [hnone, List.append_nil] at hself
        have hne := List.all_eq_true.1 (hself ▸ List.all_takeWhile) ':' hm
        simp at hne
      · obtain ⟨t, rfl⟩ := List.head?_eq_some_iff.1 hc
        exact ⟨fun he => hdot t (by rw [he]), fun he => hhash t (by rw [he])⟩
    · cases h

theorem unknownAt_of_readStatement {before s head b : Text} (hs : splitHead 0 [] s = .ok (head, b))
    (ho : (Ending.read b).1 ≠ .openBrace) (hk : statementNode? before head = none)
    (hfirst : ∃ c t, s = c :: t ∧ c ≠ ';' ∧ c ≠ '}' ∧ c ≠ '@') : UnknownAt s := by
  obtain ⟨hcolon, hhead⟩ := statementNode?_eq_none hk
  obtain ⟨c, t, hc, hsemi, hclose, hat⟩ := hfirst
  have hb := splitHead_eq hs
  have hends : ∀ c, b.head? = some c → c = ';' ∨ c = '}' := by
    intro d hd
    obtain ⟨u, rfl⟩ := List.head?_eq_some_iff.1 hd
    rcases stops_of_splitHead hs d rfl with rfl | rfl | rfl
    · exact Or.inl rfl
    · exact absurd rfl ho
    · exact Or.inr rfl
  refine ⟨head, b, ?_, hb.symm, hs, hends, hcolon, ?_⟩
  · rintro rfl
    rw [List.nil_append, hc] at hb
    rcases hends c (by rw [hb]; rfl) with h | h
    · exact hsemi h
    · exact hclose h
  · intro d hd
    obtain ⟨u, rfl⟩ := List.head?_eq_some_iff.1 hd
    rw [hc, List.cons_append, List.cons.injEq] at hb
    exact ⟨hb.1 ▸ hat, hhead d rfl⟩

/-- What is wrong with a piece that cannot be read. -/
theorem culprit_of_readPiece {s : Text} {e : Stop} (h : readPiece s = .error e) :
    e.fault.LeftOpen e.rest ∨
      e.fault = .unknownWord ∧ s.dropWhile isFiller = e.rest ∧ UnknownAt e.rest := by
  have hfirst : ∀ c, (s.dropWhile isFiller).head? = some c → c ≠ ';' := by
    rintro c hc rfl
    have hd := List.head?_dropWhile_not isFiller s
    rw [hc] at hd
    cases hd
  have hzero : ∀ {e : Stop} {u : Text}, splitHead 0 [] u = .error e → e.fault.LeftOpen e.rest :=
    fun hs => leftOpen_of_splitHead hs fun hd => absurd rfl hd
  rw [readPiece] at h
  generalize s.dropWhile isFiller = u at h hfirst
  unfold readAfter at h
  split at h
  · cases h
  · cases h
  · split at h
    · rename_i hc
      obtain rfl := Except.error.inj h
      exact Or.inl ⟨_, rfl, not_infix_of_closeComment? hc⟩
    · cases h
  · exact Or.inl (hzero (readAtRule_error h))
  · rename_i u hnil hclose _ hat
    rcases readStatement_error h with hs | ⟨head, b, hs, ho, hk, rfl⟩
    · exact Or.inl (hzero hs)
    · refine Or.inr ⟨rfl, rfl, unknownAt_of_readStatement hs ho hk ?_⟩
      obtain ⟨c, t, hu⟩ := List.exists_cons_of_ne_nil hnil
      exact ⟨c, t, hu, hfirst c (by rw [hu]; rfl), fun hc => hclose t (by rw [hu, hc]),
        fun hc => hat t (by rw [hu, hc])⟩

/-! ## Texts whose blocks are closed -/

/-- A text closes the given number of blocks that are open before it, and those that it opens. -/
def ClosesOff (blocks : Nat) (s : Text) : Prop :=
  ∀ (front : Text) (size : Nat) (top : Frame) (around : List Frame), around.length = blocks →
    ∃ result, nest (Text.bytes front) size top around (pieces s) = .ok result

section ClosesOff

variable {s r : Text} {blocks : Nat}

theorem closesOff_of_finished {after : Text} (h : readPiece s = .ok (.finished after)) :
    ClosesOff 0 s := by
  intro front size top around hlen
  rw [pieces_of_finished h, nest, List.length_eq_zero_iff.1 hlen]
  exact ⟨_, rfl⟩

theorem ClosesOff.closing {before : Text} (h : readPiece s = .ok (.piece (.closing before) r))
    (hr : ClosesOff blocks r) : ClosesOff (blocks + 1) s := by
  intro front size top around hlen
  cases around with
  | nil => cases hlen
  | cons f around =>
    rw [nest_of_closing front size top f around h]
    exact hr _ _ _ _ (Nat.succ.inj hlen)

theorem ClosesOff.opening {k : Kind} {t : Trivia}
    (h : readPiece s = .ok (.piece (.node k t .openBrace) r)) (hr : ClosesOff (blocks + 1) r) :
    ClosesOff blocks s := by
  intro front size top around hlen
  obtain ⟨g, _, hn⟩ := nest_of_opening front size top around h
  rw [hn]
  exact hr _ _ _ _ (congrArg Nat.succ hlen)

theorem ClosesOff.leaf {k : Kind} {t : Trivia} {e : Ending}
    (h : readPiece s = .ok (.piece (.node k t e) r)) (he : e ≠ .openBrace)
    (hr : ClosesOff blocks r) : ClosesOff blocks s := by
  intro front size top around hlen
  obtain ⟨top', _, hn⟩ := nest_of_leaf front size top around h he
  rw [hn]
  exact hr _ _ _ _ hlen

theorem ClosesOff.exists_parse (h : ClosesOff 0 s) : ∃ d, parse s = .ok d := by
  obtain ⟨result, hn⟩ := h [] 1 rootFrame [] rfl
  rw [parse]
  have hn' : nest 0 1 rootFrame [] (pieces s) = .ok result := hn
  rw [hn']
  exact ⟨_, rfl⟩

end ClosesOff

theorem mayFollow_self_append (x y : Text) : MayFollow x (x ++ y) := by
  cases x with
  | nil => exact Or.inl rfl
  | cons c x => exact Or.inr rfl

/-- A piece is read the same when the text behind it is cut off somewhere. -/
theorem readPiece_cut {s x y : Text} {p : Piece} (h : readPiece s = .ok (.piece p (x ++ y))) :
    readPiece (p.text ++ x) = .ok (.piece p x) := by
  have hp := fitsBefore_of_readPiece h
  have := hp.change hp.spec.1 fun _ => mayFollow_self_append x y
  rwa [Piece.withBefore_before] at this

/-! ## Where reading fails -/

/-- Reading `s` comes to a piece that cannot be read, for something that stands at `x`. -/
def StopsAt (fault : Fault) (s x : Text) : Prop :=
  ∃ u e, Reaches s u ∧ readPiece u = .error e ∧ e.fault = fault ∧ s = x ++ e.rest

theorem StopsAt.of_next {fault : Fault} {s r x : Text} {p : Piece}
    (hp : readPiece s = .ok (.piece p r)) (h : StopsAt fault r x) :
    StopsAt fault s (p.text ++ x) := by
  obtain ⟨u, e, hu, he, hf, rfl⟩ := h
  exact ⟨u, e, hu.of_next hp, he, hf, by rw [List.append_assoc, ← readPiece_eq hp]⟩

/-- Unless braces do not match, reading fails at a piece that it comes to and cannot read. -/
theorem Fails.exists_stopsAt {front s place : Text} {braces : List Text} {fault : Fault}
    (h : Fails front braces s fault place) (hb : fault ≠ .unclosedBlock)
    (hs : fault ≠ .unexpectedCloseBrace) :
    ∃ x, place = front ++ x ∧ StopsAt fault s x := by
  induction h with
  | stop h => exact ⟨_, rfl, _, _, .start, h, rfl, rfl⟩
  | unclosed => exact absurd rfl hb
  | stray => exact absurd rfl hs
  | closing h _ ih =>
    obtain ⟨x, rfl, hx⟩ := ih hb hs
    exact ⟨_, List.append_assoc _ _ _, hx.of_next h⟩
  | opening h _ ih =>
    obtain ⟨x, rfl, hx⟩ := ih hb hs
    exact ⟨_, List.append_assoc _ _ _, hx.of_next h⟩
  | leaf h _ _ ih =>
    obtain ⟨x, rfl, hx⟩ := ih hb hs
    exact ⟨_, List.append_assoc _ _ _, hx.of_next h⟩

/-- In front of a brace that closes no block, all blocks are closed. -/
theorem Fails.exists_stray {front s place : Text} {braces : List Text} {fault : Fault}
    (h : Fails front braces s fault place) (hf : fault = .unexpectedCloseBrace) :
    ∃ x y, s = x ++ '}' :: y ∧ place = front ++ x ∧ ClosesOff braces.length x := by
  induction h with
  | stop h =>
    rcases culprit_of_readPiece h with hc | ⟨hc, _⟩
    · rw [hf] at hc
      exact hc.elim
    · rw [hf] at hc
      cases hc
  | unclosed => cases hf
  | stray h =>
    have hs := readPiece_eq h
    refine ⟨_, _, by simpa [Piece.text] using hs.symm, rfl, ?_⟩
    exact closesOff_of_finished (readPiece_of_filler (fitsBefore_of_readPiece h).spec.1)
  | closing h _ ih =>
    obtain ⟨x, y, rfl, rfl, hx⟩ := ih hf
    refine ⟨_, y, ?_, List.append_assoc _ _ _, hx.closing (readPiece_cut h)⟩
    rw [List.append_assoc, ← readPiece_eq h]
    rfl
  | opening h _ ih =>
    obtain ⟨x, y, rfl, rfl, hx⟩ := ih hf
    refine ⟨_, y, ?_, List.append_assoc _ _ _, hx.opening (readPiece_cut h)⟩
    rw [List.append_assoc, ← readPiece_eq h]
    rfl
  | leaf h he _ ih =>
    obtain ⟨x, y, rfl, rfl, hx⟩ := ih hf
    refine ⟨_, y, ?_, List.append_assoc _ _ _, hx.leaf (readPiece_cut h) he⟩
    rw [List.append_assoc, ← readPiece_eq h]
    rfl

/-- At `x` a brace of `s` opens a block, and the text behind it closes all blocks but this one. -/
def LeavesOpen (s x : Text) : Prop :=
  ∃ u k t r, Reaches s u ∧ readPiece u = .ok (.piece (.node k t .openBrace) r) ∧
    s = x ++ '{' :: r ∧ ClosesOff 0 r

theorem LeavesOpen.of_next {s r x : Text} {p : Piece} (hp : readPiece s = .ok (.piece p r))
    (h : LeavesOpen r x) : LeavesOpen s (p.text ++ x) := by
  obtain ⟨u, k, t, w, hu, hread, rfl, hw⟩ := h
  refine ⟨u, k, t, w, hu.of_next hp, hread, ?_, hw⟩
  rw [List.append_assoc, ← readPiece_eq hp]

/-- Where a text ends in a block, the block is one that the text opens and does not close, or one
    that was open before, with the blocks inside it closed by the text. -/
theorem Fails.exists_unclosed {front s place : Text} {braces : List Text} {fault : Fault}
    (h : Fails front braces s fault place) (hf : fault = .unclosedBlock) :
    (∃ x, place = front ++ x ∧ LeavesOpen s x) ∨
      ∃ inner outer, braces = inner ++ place :: outer ∧ ClosesOff inner.length s := by
  induction h with
  | stop h =>
    rcases culprit_of_readPiece h with hc | ⟨hc, _⟩
    · rw [hf] at hc
      exact hc.elim
    · rw [hf] at hc
      cases hc
  | unclosed h => exact Or.inr ⟨[], _, rfl, closesOff_of_finished h⟩
  | stray => cases hf
  | closing h _ ih =>
    rcases ih hf with ⟨x, rfl, hx⟩ | ⟨inner, outer, rfl, hc⟩
    · exact Or.inl ⟨_, List.append_assoc _ _ _, hx.of_next h⟩
    · exact Or.inr ⟨_ :: inner, outer, rfl, hc.closing h⟩
  | opening h _ ih =>
    rcases ih hf with ⟨x, rfl, hx⟩ | ⟨inner, outer, hb, hc⟩
    · exact Or.inl ⟨_, List.append_assoc _ _ _, hx.of_next h⟩
    · -- The innermost block is the one opened here, or it was open before.
      cases inner with
      | nil =>
        obtain ⟨rfl, rfl⟩ := List.cons.inj hb
        refine Or.inl ⟨_, rfl, _, _, _, _, .start, h, ?_, hc⟩
        rw [← readPiece_eq h, Piece.text, List.append_assoc]
        rfl
      | cons b inner =>
        rw [List.cons_append, List.cons.injEq] at hb
        exact Or.inr ⟨inner, outer, hb.2, hc.opening h⟩
  | leaf h he _ ih =>
    rcases ih hf with ⟨x, rfl, hx⟩ | ⟨inner, outer, rfl, hc⟩
    · exact Or.inl ⟨_, List.append_assoc _ _ _, hx.of_next h⟩
    · exact Or.inr ⟨inner, outer, rfl, hc.leaf h he⟩

/-! ## The culprits -/

/-- What stands at the place of a fault in the sheet `a ++ b`, at the end of `a`. -/
def Fault.Culprit (a b : Text) : Fault → Prop
  /- The brace opens a block, and what follows it can be read on its own, so the block is not closed
     and no block in it is left open. -/
  | .unclosedBlock => ∃ u k t r, Reaches (a ++ b) u ∧
      readPiece u = .ok (.piece (.node k t .openBrace) r) ∧ b = '{' :: r ∧ ∃ d, parse r = .ok d
  | .unexpectedCloseBrace => ∃ r, b = '}' :: r ∧ ∃ d, parse a = .ok d
  | .unknownWord => ∃ u, Reaches (a ++ b) u ∧ u.dropWhile isFiller = b ∧ UnknownAt b
  | fault => fault.LeftOpen b

theorem Fault.Culprit.ne_nil {a b : Text} {fault : Fault} (h : fault.Culprit a b) : b ≠ [] := by
  rintro rfl
  cases fault with
  | unclosedBlock =>
    obtain ⟨_, _, _, _, _, _, hb, _⟩ := h
    cases hb
  | unexpectedCloseBrace =>
    obtain ⟨_, hb, _⟩ := h
    cases hb
  | unknownWord =>
    obtain ⟨_, _, _, w, r, hw, hb, _⟩ := h
    exact hw (List.append_eq_nil_iff.1 hb.symm).1
  | unclosedComment =>
    obtain ⟨_, hb, _⟩ := h
    cases hb
  | unclosedString =>
    obtain ⟨_, _, _, hb, _⟩ := h
    cases hb
  | unclosedBracket =>
    obtain ⟨_, _, _, hb⟩ := h
    cases hb

theorem Fails.culprit {s place : Text} {fault : Fault} (h : Fails [] [] s fault place) :
    ∃ b, s = place ++ b ∧ fault.Culprit place b := by
  by_cases hb : fault = .unclosedBlock
  · rcases h.exists_unclosed hb with ⟨x, rfl, u, k, t, r, hu, hread, rfl, hr⟩ | ⟨inner, outer, he, _⟩
    · rw [hb]
      exact ⟨_, rfl, u, k, t, r, hu, hread, rfl, hr.exists_parse⟩
    · simp at he
  by_cases hs : fault = .unexpectedCloseBrace
  · obtain ⟨x, y, rfl, rfl, hx⟩ := h.exists_stray hs
    rw [hs]
    exact ⟨_, rfl, y, rfl, hx.exists_parse⟩
  obtain ⟨_, rfl, u, e, hu, he, rfl, rfl⟩ := h.exists_stopsAt hb hs
  refine ⟨e.rest, rfl, ?_⟩
  rcases culprit_of_readPiece he with hl | ⟨hf, hd, hw⟩
  · cases hf : e.fault <;> rw [hf] at hl <;> first | exact hl | exact hl.elim
  · rw [hf]
    exact ⟨u, hu, hd, hw⟩

/-- The position of a parse error is that of a character, and at this character stands what the
    error is about. -/
theorem parse_error_culprit {s : Text} {e : ParseError} (h : parse s = .error e) :
    ∃ a b, s = a ++ b ∧ Text.bytes a < Text.bytes s ∧
      e.position = Position.ofOffset s (Text.bytes a) ∧ e.fault.Culprit a b := by
  obtain ⟨place, hf, hp⟩ := parse_eq_error_iff.1 h
  obtain ⟨b, rfl, hb⟩ := hf.culprit
  refine ⟨place, b, rfl, ?_, by rw [hp, Position.ofOffset_bytes], hb⟩
  have := Text.length_le_bytes b
  have := List.length_pos_iff.2 hb.ne_nil
  rw [Text.bytes_append]
  omega

/-- A sheet with two blocks that are open at its end, after others that are closed, and with braces
    in a string and in a comment. -/
def openSheet : Text := "@m é\x7ba\x7bb:c\x7dd\x7be:\"\x7d\";/*\x7b*/f\x7b\x7d".toList

theorem parse_error_culprit_openSheet :
    parse openSheet = .error ⟨.unclosedBlock, ⟨1, 13⟩⟩ ∧
      ∃ a b, openSheet = a ++ b ∧ Text.bytes a < Text.bytes openSheet ∧
        ⟨1, 13⟩ = Position.ofOffset openSheet (Text.bytes a) ∧
        Fault.unclosedBlock.Culprit a b := by
  have hfault : (match parse openSheet with | .error e => some e | .ok _ => none)
      = some ⟨.unclosedBlock, ⟨1, 13⟩⟩ := by decide +kernel
  have hparse : parse openSheet = .error ⟨.unclosedBlock, ⟨1, 13⟩⟩ := by
    cases hd : parse openSheet with
    | error e => rw [hd] at hfault; rw [Option.some.inj hfault]
    | ok d => rw [hd] at hfault; cases hfault
  exact ⟨hparse, parse_error_culprit hparse⟩

end SheetLint
