import SheetLint.Sheet.Piece

/-
  How far reading a piece looks ahead. A comment and a piece that ends with a semicolon or a brace
  are read off no matter what follows them; a statement without an ending is read off in front of
  every text that starts with the same character, and at the end of the text. What comes before a
  piece, blanks and stray semicolons, does not matter to the piece itself.
  `Piece.FitsBefore.change` says both of a whole piece.
-/

namespace SheetLint

/-! ## Quotes, comments and heads -/

theorem closeQuote?_append {q : Char} (hq : q ≠ '\\') {s a b : Text}
    (h : closeQuote? q s = some (a, b)) (r : Text) : closeQuote? q (a ++ r) = some (a, r) := by
  fun_induction closeQuote? q s generalizing a b with
  | case1 => simp at h
  | case2 c s ih =>
    obtain ⟨⟨x, y⟩, hx, he⟩ := Option.map_eq_some_iff.1 h
    obtain ⟨rfl, rfl⟩ := Prod.mk.inj he
    simp only [List.cons_append, closeQuote?, ih hx, Option.map_some]
  | case3 s _ =>
    obtain ⟨rfl, rfl⟩ := Prod.mk.inj (Option.some.inj h)
    rw [List.singleton_append, closeQuote?.eq_3 _ _ _ (fun _ _ hc _ => hq hc), if_pos rfl]
  | case4 c s hc hne ih =>
    obtain ⟨⟨x, y⟩, hx, he⟩ := Option.map_eq_some_iff.1 h
    obtain ⟨rfl, rfl⟩ := Prod.mk.inj he
    have hbs : c ≠ '\\' := by
      intro hb
      cases s with
      | nil => simp [closeQuote?] at hx
      | cons d s => exact hc d s hb rfl
    rw [List.cons_append, closeQuote?.eq_3 _ _ _ (fun _ _ hb _ => hbs hb), if_neg hne, ih hx]
    rfl

theorem closeComment?_append {s a b : Text} (h : closeComment? s = some (a, b)) (r : Text) :
    closeComment? (a ++ '*' :: '/' :: r) = some (a, r) := by
  fun_induction closeComment? s generalizing a b with
  | case1 => simp at h
  | case2 s =>
    obtain ⟨rfl, rfl⟩ := Prod.mk.inj (Option.some.inj h)
    rfl
  | case3 c s hc ih =>
    obtain ⟨⟨x, y⟩, hx, he⟩ := Option.map_eq_some_iff.1 h
    obtain ⟨rfl, rfl⟩ := Prod.mk.inj he
    have hs := closeComment?_eq hx
    rw [List.cons_append, closeComment?.eq_3, ih hx]
    · rfl
    · -- The end of the comment does not come earlier: its first mark would be read from `s`.
      intro t hstar hslash
      cases x with
      | nil => simp at hslash
      | cons d x =>
        simp only [List.cons_append, List.cons.injEq] at hslash
        refine hc (x ++ '*' :: '/' :: y) hstar ?_
        rw [← hs, ← hslash.1]
        rfl

theorem head?_append_congr {a r b : Text} (h : r.head? = b.head?) :
    (a ++ r).head? = (a ++ b).head? := by
  rw [List.head?_append, List.head?_append, h]

theorem inFront_ok (front a b : Text) : inFront front (.ok (a, b)) = .ok (front ++ a, b) := rfl

theorem inFront_eq_ok_iff {front a b : Text} {cut : Except Stop (Text × Text)} :
    inFront front cut = .ok (a, b) ↔ ∃ x, cut = .ok (x, b) ∧ a = front ++ x := by
  cases cut with
  | error e => simp [inFront, Except.map]
  | ok p =>
    obtain ⟨x, y⟩ := p
    simp only [inFront_ok, Except.ok.injEq, Prod.mk.injEq]
    constructor
    · rintro ⟨rfl, rfl⟩
      exact ⟨x, ⟨rfl, rfl⟩, rfl⟩
    · rintro ⟨z, ⟨rfl, rfl⟩, rfl⟩
      exact ⟨rfl, rfl⟩

/-- The first character of a head does not belong together with the one after it: it neither
    escapes it nor opens a comment with it. -/
def StandsAlone (c : Char) (s : Text) : Prop :=
  (c = '\\' → s.head? = none) ∧ (c = '/' → s.head? ≠ some '*')

theorem standsAlone_of_not {c : Char} {s : Text}
    (hb : ∀ d t, c = '\\' → s = d :: t → False) (hc : ∀ t, c = '/' → s = '*' :: t → False) :
    StandsAlone c s := by
  cases s with
  | nil => exact ⟨fun _ => rfl, fun _ h => by simp at h⟩
  | cons d t =>
    refine ⟨fun e => (hb d t e rfl).elim, fun e he => ?_⟩
    rw [List.head?_cons, Option.some.injEq] at he
    exact hc t e (by rw [he])

theorem StandsAlone.congr {c : Char} {s t : Text} (h : StandsAlone c s) (ht : t.head? = s.head?) :
    StandsAlone c t := by
  rw [StandsAlone, ht]
  exact h

/-- One character of a head that stands alone. -/
theorem splitHead_cons {c : Char} {s : Text} (h : StandsAlone c s) (depth : Nat) (opened : Text) :
    splitHead depth opened (c :: s) =
      if c = '"' ∨ c = '\'' then
        match closeQuote? c s with
        | none => .error ⟨.unclosedString, c :: s⟩
        | some (a, b) => inFront (c :: a) (splitHead depth opened b)
      else if c = '(' ∨ c = '[' then
        inFront [c] (splitHead (depth + 1) (if depth = 0 then c :: s else opened) s)
      else if c = ')' ∨ c = ']' then
        inFront [c] (splitHead (depth - 1) opened s)
      else if depth = 0 ∧ (c = ';' ∨ c = '{' ∨ c = '}') then
        .ok ([], c :: s)
      else
        inFront [c] (splitHead depth opened s) := by
  rw [splitHead.eq_4]
  · split
    · split <;> simp_all
    · rfl
  · intro d t e hs
    have := h.1 e
    rw [hs] at this
    simp at this
  · intro t e hs
    exact h.2 e (by rw [hs]; rfl)

theorem splitHead_comment {s inside rest : Text} (h : closeComment? s = some (inside, rest))
    (depth : Nat) (opened : Text) :
    splitHead depth opened ('/' :: '*' :: s)
      = inFront ('/' :: '*' :: (inside ++ ['*', '/'])) (splitHead depth opened rest) := by
  rw [splitHead]
  split <;> simp_all

/-- A text that may follow where another one did: it starts with the same character, or it holds
    none. -/
def MayFollow (r b : Text) : Prop := r = [] ∨ r.head? = b.head?

theorem MayFollow.append {r b : Text} (h : MayFollow r b) (x : Text) :
    MayFollow (x ++ r) (x ++ b) := by
  rcases h with rfl | h
  · cases x with
    | nil => exact Or.inl rfl
    | cons c x => exact Or.inr rfl
  · exact Or.inr (head?_append_congr h)

theorem StandsAlone.of_mayFollow {c : Char} {s t : Text} (h : StandsAlone c s)
    (ht : MayFollow t s) : StandsAlone c t := by
  rcases ht with rfl | ht
  · exact ⟨fun _ => rfl, fun _ h => by cases h⟩
  · exact h.congr ht

/-- A head is cut off in front of any text that may follow where the text after it did. Where the
    brackets that are open were opened does not matter. -/
theorem splitHead_append {depth : Nat} {opened s a b : Text}
    (h : splitHead depth opened s = .ok (a, b)) {r : Text} (hr : MayFollow r b)
    (opened' : Text) : splitHead depth opened' (a ++ r) = .ok (a, r) := by
  have same {c : Char} {s x : Text} (hs : x ++ b = s) (h : StandsAlone c s) :
      StandsAlone c (x ++ r) := h.of_mayFollow (hs ▸ hr.append x)
  fun_induction splitHead depth opened s generalizing a opened' with
  | case1 opened =>
    obtain ⟨rfl, rfl⟩ := Prod.mk.inj (Except.ok.inj h)
    have hnil : r = [] := hr.elim id List.head?_eq_none_iff.1
    rw [hnil, List.append_nil, splitHead, if_pos rfl]
  | case2 => simp at h
  | case3 depth opened c s ih =>
    obtain ⟨x, hx, rfl⟩ := inFront_eq_ok_iff.1 h
    simp only [List.cons_append, List.nil_append, splitHead]
    rw [ih hx opened', inFront_ok]
    rfl
  | case4 => simp at h
  | case5 depth opened s inside rest hi ih =>
    obtain ⟨x, hx, rfl⟩ := inFront_eq_ok_iff.1 h
    have hc := closeComment?_append hi (x ++ r)
    simp only [List.cons_append, List.append_assoc, List.nil_append]
    rw [splitHead_comment hc, ih hx opened', inFront_ok]
    simp
  | case6 => simp at h
  | case7 depth opened c s hb hc hq inside rest hi ih =>
    obtain ⟨x, hx, rfl⟩ := inFront_eq_ok_iff.1 h
    have hs : (inside ++ x) ++ b = s := by
      rw [List.append_assoc, splitHead_eq hx, closeQuote?_eq hi]
    have hne : c ≠ '\\' := by
      rintro rfl
      simp at hq
    have ha := closeQuote?_append hne hi (x ++ r)
    rw [← List.append_assoc] at ha
    rw [List.cons_append, List.cons_append, splitHead_cons (same hs (standsAlone_of_not hb hc)),
      if_pos hq, ha]
    simp only [ih hx opened', inFront_ok, List.cons_append]
  | case8 depth opened c s hb hc hq ho ih =>
    obtain ⟨x, hx, rfl⟩ := inFront_eq_ok_iff.1 h
    rw [List.append_assoc, List.singleton_append,
      splitHead_cons (same (splitHead_eq hx) (standsAlone_of_not hb hc)), if_neg hq, if_pos ho,
      ih hx, inFront_ok]
  | case9 depth opened c s hb hc hq ho hcl ih =>
    obtain ⟨x, hx, rfl⟩ := inFront_eq_ok_iff.1 h
    rw [List.append_assoc, List.singleton_append,
      splitHead_cons (same (splitHead_eq hx) (standsAlone_of_not hb hc)), if_neg hq, if_neg ho,
      if_pos hcl, ih hx, inFront_ok]
  | case10 depth opened c s hb hc hq ho hcl hend =>
    obtain ⟨rfl, rfl⟩ := Prod.mk.inj (Except.ok.inj h)
    rcases hr with rfl | hr
    · rw [List.append_nil, splitHead, if_pos hend.1]
    obtain ⟨t, rfl⟩ := List.head?_eq_some_iff.1 hr
    have ht : StandsAlone c t := by
      refine ⟨?_, ?_⟩ <;> rintro rfl <;> simp at hend
    rw [List.nil_append, splitHead_cons ht, if_neg hq, if_neg ho, if_neg hcl, if_pos hend]
  | case11 depth opened c s hb hc hq ho hcl hend ih =>
    obtain ⟨x, hx, rfl⟩ := inFront_eq_ok_iff.1 h
    rw [List.append_assoc, List.singleton_append,
      splitHead_cons (same (splitHead_eq hx) (standsAlone_of_not hb hc)), if_neg hq, if_neg ho,
      if_neg hcl, if_neg hend, ih hx, inFront_ok]

/-! ## Names and statements -/

/-- The text is at its end or starts with one of the characters that a head stops at. -/
def Stops (s : Text) : Prop := ∀ c, s.head? = some c → c = ';' ∨ c = '{' ∨ c = '}'

theorem stops_of_splitHead {depth : Nat} {opened s a b : Text}
    (h : splitHead depth opened s = .ok (a, b)) : Stops b := by
  intro c hc
  rcases splitHead_rest h with rfl | ⟨d, r, rfl, hd⟩
  · simp at hc
  · rw [List.head?_cons, Option.some.injEq] at hc
    rw [← hc]
    exact hd

theorem Stops.of_mayFollow {s t : Text} (h : Stops s) (ht : MayFollow t s) : Stops t := by
  rcases ht with rfl | ht
  · exact fun _ hc => by cases hc
  · rw [Stops, ht]
    exact h

/-- A class of characters that a head does not stop at ends at the latest where the head does. -/
theorem while_append_of_stops {q : Char → Bool} (hq : ∀ c, q c → c ≠ ';' ∧ c ≠ '{' ∧ c ≠ '}')
    {r : Text} (hr : Stops r) (u : Text) :
    (u ++ r).takeWhile q = u.takeWhile q ∧ (u ++ r).dropWhile q = u.dropWhile q ++ r := by
  induction u with
  | nil =>
    cases r with
    | nil => exact ⟨rfl, rfl⟩
    | cons c r =>
      have hc : q c = false := by
        rw [Bool.eq_false_iff]
        intro h
        have hne := hq c h
        rcases hr c rfl with rfl | rfl | rfl
        · exact hne.1 rfl
        · exact hne.2.1 rfl
        · exact hne.2.2 rfl
      simp [hc]
  | cons c u ih =>
    by_cases hc : q c
    · simp [hc, ih]
    · simp [hc]

theorem not_stop_of_isBlank (c : Char) (h : isBlank c) : c ≠ ';' ∧ c ≠ '{' ∧ c ≠ '}' := by
  refine ⟨?_, ?_, ?_⟩ <;> rintro rfl <;> simp [isBlank] at h

theorem not_stop_of_not_endsName (c : Char) (h : !endsName c) : c ≠ ';' ∧ c ≠ '{' ∧ c ≠ '}' := by
  refine ⟨?_, ?_, ?_⟩ <;> rintro rfl <;> simp [endsName] at h

theorem cutColon_append {r : Text} (hr : Stops r) (name x : Text) :
    cutColon name (x ++ r) = ((cutColon name x).1, (cutColon name x).2 ++ r) := by
  cases x with
  | nil =>
    cases r with
    | nil => rfl
    | cons c r =>
      rcases hr c rfl with rfl | rfl | rfl <;> rfl
  | cons c x =>
    by_cases hc : c = ':'
    · subst hc
      simp only [cutColon, List.cons_append]
      split <;> rfl
    · simp [cutColon, hc]

/-- What an at-rule says before its parameters does not reach past the end of its head. -/
theorem AtName.read_append {r : Text} (hr : Stops r) (u : Text) :
    AtName.read (u ++ r) = { AtName.read u with rest := (AtName.read u).rest ++ r } := by
  have hn := while_append_of_stops not_stop_of_not_endsName hr u
  simp only [AtName.read, hn, cutColon_append hr, Text.lead, Text.dropLead]
  rw [(while_append_of_stops not_stop_of_isBlank hr _).1,
    (while_append_of_stops not_stop_of_isBlank hr _).2]

/-- What an at-rule says before its parameters, as text. -/
def AtName.text (n : AtName) : Text :=
  n.name ++ (if n.isVariable then [':'] else []) ++ n.afterName

theorem AtName.text_append_rest (s : Text) : (AtName.read s).text ++ (AtName.read s).rest = s :=
  AtName.read_eq s

/-- The name of an at-rule is read the same in front of every text that its head stops at. -/
theorem AtName.read_of_splitHead {s head b : Text} {n : AtName} (hn : AtName.read s = n)
    (h : splitHead 0 [] n.rest = .ok (head, b)) {r : Text} (hr : MayFollow r b) :
    AtName.read (n.text ++ head ++ r) = { n with rest := head ++ r } := by
  have hb := stops_of_splitHead h
  have hs : n.text ++ head ++ b = s := by
    rw [List.append_assoc, splitHead_eq h, ← hn, AtName.text_append_rest]
  have hm : AtName.read (n.text ++ head) = { n with rest := head } := by
    have hu := AtName.read_append hb (n.text ++ head)
    rw [hs, hn] at hu
    have hrest : (AtName.read (n.text ++ head)).rest = head := by
      have := congrArg AtName.rest hu
      rw [← splitHead_eq h] at this
      exact (List.append_cancel_right this).symm
    generalize AtName.read (n.text ++ head) = m at hu hrest ⊢
    rw [hu, ← hrest]
  rw [AtName.read_append (hb.of_mayFollow hr), hm]

theorem Ending.read_append {b : Text} (r : Text)
    (hr : (Ending.read b).1 = .bare → MayFollow r (Ending.read b).2) :
    MayFollow ((Ending.read b).1.text ++ r) b ∧
      Ending.read ((Ending.read b).1.text ++ r) = ((Ending.read b).1, r) := by
  cases b with
  | nil =>
    have hnil : r = [] := (hr rfl).elim id List.head?_eq_none_iff.1
    rw [hnil]
    exact ⟨Or.inl rfl, rfl⟩
  | cons c b =>
    by_cases hs : c = ';'
    · subst hs
      exact ⟨Or.inr rfl, rfl⟩
    by_cases hb : c = '{'
    · subst hb
      exact ⟨Or.inr rfl, rfl⟩
    -- Nothing is taken off, and `r` starts as `b` does or is empty.
    have hbare {t : Text} : Ending.read (c :: t) = (bare, c :: t) := by
      rw [Ending.read.eq_3]
      · exact fun _ e => hs (List.cons.inj e).1
      · exact fun _ e => hb (List.cons.inj e).1
    rw [hbare] at hr ⊢
    rcases hr rfl with rfl | hr
    · exact ⟨Or.inl rfl, rfl⟩
    obtain ⟨t, ht⟩ := List.head?_eq_some_iff.1 hr
    rw [ht]
    exact ⟨Or.inr rfl, hbare⟩

/-- The piece with other blanks and semicolons before it. -/
def Piece.withBefore (before : Text) : Piece → Piece
  | node k t e => node k { t with before } e
  | closing _ => closing before

/-- A statement that no semicolon ends. -/
def Piece.isLoose : Piece → Bool
  | node k _ e => e == .bare && !k.isComment
  | closing _ => false

theorem statementNode?_withBefore {before s : Text} {k : Kind} {t : Trivia}
    (h : statementNode? before s = some (k, t)) (before' : Text) :
    statementNode? before' s = some (k, { t with before := before' }) := by
  unfold statementNode? at h ⊢
  split at h
  · obtain ⟨rfl, rfl⟩ := Prod.mk.inj (Option.some.inj h)
    rfl
  · obtain ⟨rfl, rfl⟩ := Prod.mk.inj (Option.some.inj h)
    rfl
  · split at h
    · simp at h
    · obtain ⟨rfl, rfl⟩ := Prod.mk.inj (Option.some.inj h)
      rfl

theorem not_isComment_of_statementNode? {before s : Text} {k : Kind} {t : Trivia}
    (h : statementNode? before s = some (k, t)) : k.isComment = false := by
  unfold statementNode? at h
  split at h
  · obtain ⟨rfl, rfl⟩ := Prod.mk.inj (Option.some.inj h)
    rfl
  · obtain ⟨rfl, rfl⟩ := Prod.mk.inj (Option.some.inj h)
    rfl
  · split at h
    · simp at h
    · obtain ⟨rfl, rfl⟩ := Prod.mk.inj (Option.some.inj h)
      rfl

/-- What an at-rule that is read comes from. -/
theorem readAtRule_inv {before s : Text} {step : Step} (h : readAtRule before s = .ok step) :
    ∃ head b, splitHead 0 [] (AtName.read s).rest = .ok (head, b) ∧
      step = .piece (.node (.atRule {
          name := (AtName.read s).name, params := Text.dropTrail head,
          hasBlock := (Ending.read b).1 == .openBrace, isVariable := (AtName.read s).isVariable })
        { before, sigil := ['@'], afterName := (AtName.read s).afterName,
          between := Text.trail head } (Ending.read b).1) (Ending.read b).2 := by
  unfold readAtRule at h
  rcases hs : splitHead 0 [] (AtName.read s).rest with e | ⟨head, b⟩ <;>
    simp only [hs, bind, Except.bind, pure, Except.pure, reduceCtorEq, Except.ok.injEq] at h
  exact ⟨head, b, rfl, h.symm⟩

/-- What a style rule, a mixin call or a declaration that is read comes from. -/
theorem readStatement_inv {before s : Text} {step : Step}
    (h : readStatement before s = .ok step) :
    ∃ head b, splitHead 0 [] s = .ok (head, b) ∧
      ((Ending.read b).1 = .openBrace ∧
          step = .piece (.node (.styleRule (Text.dropTrail head))
            { before, between := Text.trail head } .openBrace) (Ending.read b).2 ∨
        (Ending.read b).1 ≠ .openBrace ∧ ∃ k t, statementNode? before head = some (k, t) ∧
          step = .piece (.node k t (Ending.read b).1) (Ending.read b).2) := by
  unfold readStatement at h
  rcases hs : splitHead 0 [] s with e | ⟨head, b⟩ <;>
    simp only [hs, bind, Except.bind, reduceCtorEq] at h
  refine ⟨head, b, rfl, ?_⟩
  split at h
  · rename_i ho
    rw [ho] at h
    exact Or.inl ⟨ho, (Except.ok.inj h).symm⟩
  · rename_i ho
    split at h
    · rename_i k t hk
      exact Or.inr ⟨ho, k, t, hk, (Except.ok.inj h).symm⟩
    · simp [throw, throwThe, MonadExceptOf.throw] at h

theorem readAtRule_append {before s r : Text} {p : Piece}
    (h : readAtRule before s = .ok (.piece p r)) :
    ∃ t, t ++ r = s ∧ ∀ before' r', (p.isLoose → MayFollow r' r) →
      readAtRule before' (t ++ r') = .ok (.piece (p.withBefore before') r') := by
  obtain ⟨head, b, hs, hp⟩ := readAtRule_inv h
  obtain ⟨rfl, rfl⟩ := Step.piece.inj hp
  refine ⟨(AtName.read s).text ++ head ++ (Ending.read b).1.text, ?_, fun before' r' hr => ?_⟩
  · rw [List.append_assoc, Ending.read_eq, List.append_assoc, splitHead_eq hs,
      AtName.text_append_rest]
  · have hloose : (Ending.read b).1 = .bare → MayFollow r' (Ending.read b).2 := by
      intro hbare
      refine hr ?_
      rw [hbare]
      rfl
    obtain ⟨hhead, hread⟩ := Ending.read_append r' hloose
    unfold readAtRule
    rw [List.append_assoc, AtName.read_of_splitHead rfl hs hhead]
    simp only [splitHead_append hs hhead [], hread, bind, Except.bind, pure, Except.pure]
    rfl

/-- Whether a text starts with a comment is decided by its first two characters. -/
theorem startsComment_congr {front x y u : Text} (hne : front ≠ []) (h : MayFollow x y)
    (hu : front ++ x = '/' :: '*' :: u) : ∃ v, front ++ y = '/' :: '*' :: v := by
  cases front with
  | nil => exact absurd rfl hne
  | cons c front =>
    rw [List.cons_append, List.cons.injEq] at hu
    obtain ⟨rfl, hu⟩ := hu
    rcases h.append front with hnil | hh
    · rw [hu] at hnil
      cases hnil
    rw [hu] at hh
    obtain ⟨v, hv⟩ := List.head?_eq_some_iff.1 hh.symm
    exact ⟨v, by rw [List.cons_append, hv]⟩

theorem readStatement_append {before s r : Text} {p : Piece}
    (h : readStatement before s = .ok (.piece p r)) :
    ∃ t, t ≠ [] ∧ t ++ r = s ∧ ∀ before' r', (p.isLoose → MayFollow r' r) →
      readStatement before' (t ++ r') = .ok (.piece (p.withBefore before') r') ∧
        ∀ u, t ++ r' = '/' :: '*' :: u → ∃ v, s = '/' :: '*' :: v := by
  obtain ⟨head, b, hs, h⟩ := readStatement_inv h
  have hsb := splitHead_eq hs
  refine ⟨head ++ (Ending.read b).1.text, ?_⟩
  rcases h with ⟨ho, hp⟩ | ⟨ho, k, t, hk, hp⟩
  · obtain ⟨rfl, rfl⟩ := Step.piece.inj hp
    refine ⟨by simp [ho, Ending.text], by rw [List.append_assoc, Ending.read_eq, hsb],
      fun before' r' _ => ?_⟩
    obtain ⟨hhead, hread⟩ := Ending.read_append (b := b) r' (by simp [ho])
    rw [ho] at hhead hread
    rw [List.append_assoc, ho]
    refine ⟨?_, fun u hu => ?_⟩
    · unfold readStatement
      simp only [splitHead_append hs hhead [], hread, bind, Except.bind, if_true, pure,
        Except.pure]
      rfl
    · rw [← hsb]
      refine startsComment_congr ?_ hhead hu
      rintro rfl
      simp [Ending.text] at hu
  · obtain ⟨rfl, rfl⟩ := Step.piece.inj hp
    have hne : head ≠ [] := by
      rintro rfl
      simp [statementNode?] at hk
    refine ⟨by simp [hne], by rw [List.append_assoc, Ending.read_eq, hsb], fun before' r' hr => ?_⟩
    have hloose : (Ending.read b).1 = .bare → MayFollow r' (Ending.read b).2 := by
      intro hbare
      refine hr ?_
      rw [hbare, Piece.isLoose, not_isComment_of_statementNode? hk]
      rfl
    obtain ⟨hhead, hread⟩ := Ending.read_append r' hloose
    rw [List.append_assoc]
    refine ⟨?_, fun u hu => ?_⟩
    · unfold readStatement
      simp only [splitHead_append hs hhead [], hread, bind, Except.bind, ho, if_false,
        statementNode?_withBefore hk before', pure, Except.pure]
      rfl
    · rw [← hsb]
      exact startsComment_congr hne hhead hu

/-! ## Pieces -/

/-- What follows the blanks and semicolons before a piece is read off the same, whatever they are,
    in front of any other text; a statement without an ending needs one that starts the same. -/
theorem readAfter_append {before s r : Text} {p : Piece}
    (h : readAfter before s = .ok (.piece p r)) :
    ∃ t, t ≠ [] ∧ t ++ r = s ∧ ∀ before' r', (p.isLoose → MayFollow r' r) →
      readAfter before' (t ++ r') = .ok (.piece (p.withBefore before') r') := by
  unfold readAfter at h
  split at h
  · simp at h
  · rename_i s
    obtain ⟨rfl, rfl⟩ := Step.piece.inj (Except.ok.inj h)
    exact ⟨['}'], by simp, rfl, fun before' r' _ => rfl⟩
  · rename_i s
    split at h
    · simp at h
    · rename_i inside rest hc
      obtain ⟨rfl, rfl⟩ := Step.piece.inj (Except.ok.inj h)
      refine ⟨'/' :: '*' :: (inside ++ ['*', '/']), by simp, ?_, fun before' r' _ => ?_⟩
      · simpa using closeComment?_eq hc
      · have hc' := closeComment?_append hc r'
        simp only [List.cons_append, List.append_assoc, List.nil_append, readAfter, hc']
        rfl
  · rename_i s
    obtain ⟨t, rfl, ht⟩ := readAtRule_append h
    exact ⟨'@' :: t, by simp, rfl, ht⟩
  · rename_i s hnil hbrace hcomment hat
    obtain ⟨t, hne, hts, ht⟩ := readStatement_append h
    refine ⟨t, hne, hts, fun before' r' hr => ?_⟩
    obtain ⟨hread, hslash⟩ := ht before' r' hr
    rw [readAfter.eq_5, hread]
    · simp [hne]
    · intro u hu
      cases t with
      | nil => exact hne rfl
      | cons c t => exact hbrace _ (by rw [← hts, (List.cons.inj hu).1]; rfl)
    · intro u hu
      obtain ⟨v, hv⟩ := hslash u hu
      exact hcomment v hv
    · intro u hu
      cases t with
      | nil => exact hne rfl
      | cons c t => exact hat _ (by rw [← hts, (List.cons.inj hu).1]; rfl)

theorem readPiece_append {before t : Text} (hb : ∀ c ∈ before, isFiller c)
    (ht : ∀ c, t.head? = some c → isFiller c = false) :
    readPiece (before ++ t) = readAfter before t := by
  rw [readPiece, List.takeWhile_append_of_pos hb, List.dropWhile_append_of_pos hb]
  cases t with
  | nil => rw [List.takeWhile_nil, List.dropWhile_nil, List.append_nil]
  | cons c t =>
    have hc : ¬ isFiller c = true := by rw [ht c rfl]; simp
    rw [List.takeWhile_cons_of_neg hc, List.dropWhile_cons_of_neg hc, List.append_nil]

/-- The piece is what is read off when it stands in front of a text. -/
def Piece.FitsBefore (p : Piece) (r : Text) : Prop := readPiece (p.text ++ r) = .ok (.piece p r)

namespace Piece

/-- The blanks and semicolons before a piece. -/
def before : Piece → Text
  | node _ t _ => t.before
  | closing before => before

/-- A piece without the blanks and semicolons before it. -/
def core : Piece → Text
  | node k t e => k.head t ++ e.text
  | closing _ => ['}']

theorem text_eq (p : Piece) : p.text = p.before ++ p.core := by
  cases p with
  | node k t e => rw [text, before, core, List.append_assoc]
  | closing before => rfl

theorem core_withBefore (w : Text) (p : Piece) : (p.withBefore w).core = p.core := by
  cases p with
  | node k t e => cases k <;> rfl
  | closing before => rfl

theorem before_withBefore (w : Text) (p : Piece) : (p.withBefore w).before = w := by
  cases p <;> rfl

theorem withBefore_before (p : Piece) : p.withBefore p.before = p := by
  cases p <;> rfl

end Piece

theorem before_of_readAfter {before s r : Text} {p : Piece}
    (h : readAfter before s = .ok (.piece p r)) : p.before = before := by
  obtain ⟨t, _, hs, ht⟩ := readAfter_append h
  have hself := ht before r fun _ => Or.inr rfl
  rw [hs, h, Except.ok.injEq, Step.piece.injEq] at hself
  rw [hself.1, Piece.before_withBefore]

theorem fitsBefore_of_readPiece {s r : Text} {p : Piece} (h : readPiece s = .ok (.piece p r)) :
    p.FitsBefore r := by
  rw [Piece.FitsBefore, readPiece_eq h]
  exact h

namespace Piece.FitsBefore

variable {p : Piece} {r : Text}

/-- What a piece consists of: fillers, and a core that starts with no filler. -/
theorem spec (h : p.FitsBefore r) :
    (∀ c ∈ p.before, isFiller c) ∧ (∃ c t, p.core = c :: t ∧ isFiller c = false) ∧
      ∀ before' r', (p.isLoose → MayFollow r' r) →
        readAfter before' (p.core ++ r') = .ok (.piece (p.withBefore before') r') := by
  obtain ⟨t, hne, htr, ht⟩ := readAfter_append h
  obtain ⟨t', _, hp, htr'⟩ := readAfter_eq h
  have heq : t' = t := List.append_cancel_right (htr'.trans htr.symm)
  subst heq
  have hbefore : p.before = (p.text ++ r).takeWhile isFiller := before_of_readAfter h
  have hcore : p.core = t' := by
    rw [← hbefore, text_eq] at hp
    exact List.append_cancel_left hp
  refine ⟨?_, ?_, by rw [hcore]; exact ht⟩
  · rw [hbefore]
    intro c hc
    exact List.all_eq_true.1 List.all_takeWhile c hc
  · rw [hcore]
    cases t' with
    | nil => exact absurd rfl hne
    | cons c t' =>
      refine ⟨c, t', rfl, ?_⟩
      have := List.head?_dropWhile_not isFiller (p.text ++ r)
      rw [← htr] at this
      simpa using this

/-- The piece is read off with any other fillers before it, and in front of any other text. -/
theorem change (h : p.FitsBefore r) {w r' : Text} (hw : ∀ c ∈ w, isFiller c)
    (hr : p.isLoose → MayFollow r' r) : (p.withBefore w).FitsBefore r' := by
  obtain ⟨_, ⟨c, t, hc, hcf⟩, hread⟩ := h.spec
  rw [Piece.FitsBefore, text_eq, core_withBefore, before_withBefore, List.append_assoc,
    readPiece_append hw, hread w r' hr]
  intro d hd
  rw [hc, List.cons_append, List.head?_cons, Option.some.injEq] at hd
  rw [← hd, hcf]

end Piece.FitsBefore

end SheetLint
