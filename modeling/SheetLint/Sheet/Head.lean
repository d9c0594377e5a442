import SheetLint.Text.Blank

/-
  The heads of statements. A head runs to the first semicolon or brace that is not in a string, in
  a comment, in brackets or behind a backslash, or to the end of the text. Strings, comments and
  brackets have to be closed; a text that leaves one open stops with the fault and with the text
  from the place on where it was opened. `splitHead_eq` says that a head and the text after it
  are the text that was split.
-/

namespace SheetLint

/-- What can be wrong with the text of a stylesheet. -/
inductive Fault
  | unclosedBlock
  | unclosedComment
  | unclosedString
  | unclosedBracket
  | unexpectedCloseBrace
  | unknownWord
deriving DecidableEq, Repr

/-- A fault, and the text from the place on where it lies. -/
structure Stop where
  fault : Fault
  rest : Text
deriving DecidableEq, Repr

/-- Cuts a text after the first quote `q` that no backslash stands before. -/
def closeQuote? (q : Char) : Text → Option (Text × Text)
  | [] => none
  | '\\' :: c :: s => (closeQuote? q s).map fun (a, b) => ('\\' :: c :: a, b)
  | c :: s =>
    if c = q then some ([c], s) else (closeQuote? q s).map fun (a, b) => (c :: a, b)

/-- Cuts a text before and after the first end of a comment. -/
def closeComment? : Text → Option (Text × Text)
  | [] => none
  | '*' :: '/' :: s => some ([], s)
  | c :: s => (closeComment? s).map fun (a, b) => (c :: a, b)

theorem closeQuote?_eq {q : Char} {s a b : Text} (h : closeQuote? q s = some (a, b)) :
    a ++ b = s := by
  fun_induction closeQuote? q s generalizing a b with
  | case1 => simp at h
  | case2 c s ih =>
    obtain ⟨⟨x, y⟩, hx, he⟩ := Option.map_eq_some_iff.1 h
    simp only [Prod.mk.injEq] at he
    simp [← he.1, ← he.2, ih hx]
  | case3 =>
    simp only [Option.some.injEq, Prod.mk.injEq] at h
    simp [← h.1, ← h.2]
  | case4 c s _ _ ih =>
    obtain ⟨⟨x, y⟩, hx, he⟩ := Option.map_eq_some_iff.1 h
    simp only [Prod.mk.injEq] at he
    simp [← he.1, ← he.2, ih hx]

theorem closeComment?_eq {s a b : Text} (h : closeComment? s = some (a, b)) :
    a ++ '*' :: '/' :: b = s := by
  fun_induction closeComment? s generalizing a b with
  | case1 => simp at h
  | case2 => simp_all
  | case3 c s _ ih =>
    obtain ⟨⟨x, y⟩, hx, he⟩ := Option.map_eq_some_iff.1 h
    simp only [Prod.mk.injEq] at he
    simp [← he.1, ← he.2, ih hx]

/-- Puts a text in front of the first part of a cut. -/
def inFront (front : Text) (cut : Except Stop (Text × Text)) : Except Stop (Text × Text) :=
  cut.map fun (a, b) => (front ++ a, b)

/-- Cuts a text after the head that it starts with. Inside `depth` brackets no semicolon and no
    brace ends the head; `opened` is the text from the outermost of these brackets on. -/
def splitHead (depth : Nat) (opened : Text) (s : Text) : Except Stop (Text × Text) :=
  match s with
  | [] => if depth = 0 then .ok ([], []) else .error ⟨.unclosedBracket, opened⟩
  | '\\' :: c :: s => inFront ['\\', c] (splitHead depth opened s)
  | '/' :: '*' :: s =>
    match _h : closeComment? s with
    | none => .error ⟨.unclosedComment, '/' :: '*' :: s⟩
    | some (a, b) => inFront ('/' :: '*' :: (a ++ ['*', '/'])) (splitHead depth opened b)
  | c :: s =>
    if c = '"' ∨ c = '\'' then
      match _h : closeQuote? c s with
      | none => .error ⟨.unclosedString, c :: s⟩
      | some (a, b) => inFront (c :: a) (splitHead depth opened b)
    else if c = '(' ∨ c = '[' then
      inFront [c] (splitHead (depth + 1) (if depth = 0 then c :: s else opened) s)
    else if c = ')' ∨ c = ']' then
      inFront [c] (splitHead (depth - 1) opened s)
    else if depth = 0 ∧ (c = ';' ∨ c = '{' ∨ c = '}') then
      .ok ([], c :: s)
    else
      inFront [c] (splitHead depth opened s)
termination_by s.length
decreasing_by
  all_goals simp only [List.length_cons]
  all_goals try omega
  · have := congrArg List.length (closeComment?_eq _h)
    simp only [List.length_append, List.length_cons] at this
    omega
  · have := congrArg List.length (closeQuote?_eq _h)
    simp only [List.length_append] at this
    omega

theorem inFront_eq_ok {front a b s : Text} {cut : Except Stop (Text × Text)}
    (h : inFront front cut = .ok (a, b)) (hcut : ∀ {x y}, cut = .ok (x, y) → x ++ y = s) :
    a ++ b = front ++ s := by
  cases cut with
  | error e => simp [inFront, Except.map] at h
  | ok p =>
    simp only [inFront, Except.map, Except.ok.injEq, Prod.mk.injEq] at h
    rw [← h.1, ← h.2, List.append_assoc, hcut rfl]

theorem splitHead_eq {depth : Nat} {opened s a b : Text}
    (h : splitHead depth opened s = .ok (a, b)) : a ++ b = s := by
  fun_induction splitHead depth opened s generalizing a b with
  | case1 => simp_all
  | case2 => simp at h
  | case3 _ _ c s ih => exact inFront_eq_ok h ih
  | case4 => simp at h
  | case5 _ _ s x y hx ih =>
    rw [inFront_eq_ok h ih]
    simp [closeComment?_eq hx]
  | case6 => simp at h
  | case7 _ _ c s _ _ _ x y hx ih =>
    rw [inFront_eq_ok h ih]
    simp [closeQuote?_eq hx]
  | case8 _ _ c s _ _ _ _ ih => exact inFront_eq_ok h ih
  | case9 _ _ c s _ _ _ _ _ ih => exact inFront_eq_ok h ih
  | case10 => simp_all
  | case11 _ _ c s _ _ _ _ _ _ ih => exact inFront_eq_ok h ih

/-- A head that runs on in front of a given text ends at its end or at a semicolon or brace. -/
theorem splitHead_rest {depth : Nat} {opened s a b : Text}
    (h : splitHead depth opened s = .ok (a, b)) :
    b = [] ∨ ∃ c r, b = c :: r ∧ (c = ';' ∨ c = '{' ∨ c = '}') := by
  have step {front : Text} {cut : Except Stop (Text × Text)} {a b : Text}
      (h : inFront front cut = .ok (a, b)) : ∃ x, cut = .ok (x, b) := by
    cases cut with
    | error e => simp [inFront, Except.map] at h
    | ok p =>
      simp only [inFront, Except.map, Except.ok.injEq, Prod.mk.injEq] at h
      exact ⟨p.1, by rw [← h.2]⟩
  fun_induction splitHead depth opened s generalizing a b with
  | case1 => simp_all
  | case2 => simp at h
  | case3 _ _ c s ih => exact ih (step h).choose_spec
  | case4 => simp at h
  | case5 _ _ s x y hx ih => exact ih (step h).choose_spec
  | case6 => simp at h
  | case7 _ _ c s _ _ _ x y hx ih => exact ih (step h).choose_spec
  | case8 _ _ c s _ _ _ _ ih => exact ih (step h).choose_spec
  | case9 _ _ c s _ _ _ _ _ ih => exact ih (step h).choose_spec
  | case10 _ _ c s _ _ _ _ _ hc =>
    simp only [Except.ok.injEq, Prod.mk.injEq] at h
    exact .inr ⟨c, s, h.2.symm, hc.2⟩
  | case11 _ _ c s _ _ _ _ _ _ ih => exact ih (step h).choose_spec

end SheetLint
