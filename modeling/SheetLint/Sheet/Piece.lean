import SheetLint.Sheet.Head
import SheetLint.Sheet.Render

/-
  Pieces of a stylesheet: a comment, a statement, a head with the brace that opens its block, or
  the brace that closes one. A sheet is read piece by piece, and what comes before a piece, blanks
  and stray semicolons, is read with it. `readPiece_eq` says that a piece holds all the text that
  reading it took.
-/

namespace SheetLint

/-- What stands right after a comment or the head of a statement. -/
inductive Ending
  | bare
  | semicolon
  | openBrace
deriving DecidableEq, Repr

/-- The text of an ending. -/
def Ending.text : Ending → Text
  | bare => []
  | semicolon => [';']
  | openBrace => ['{']

/-- Reads the ending that a text starts with. -/
def Ending.read : Text → Ending × Text
  | ';' :: s => (semicolon, s)
  | '{' :: s => (openBrace, s)
  | s => (bare, s)

theorem Ending.read_eq (s : Text) : (Ending.read s).1.text ++ (Ending.read s).2 = s := by
  unfold Ending.read
  split <;> rfl

/-- One step of a sheet. -/
inductive Piece
  /-- A node up to its block, and what follows it. -/
  | node (kind : Kind) (trivia : Trivia) (ending : Ending)
  /-- A closing brace, and the blanks before it. -/
  | closing (before : Text)
deriving DecidableEq, Repr

/-- The text that a piece stands for. -/
def Piece.text : Piece → Text
  | node k t e => t.before ++ k.head t ++ e.text
  | closing before => before ++ ['}']

/-- What reading one step of a sheet gives: a piece and the text after it, or the blanks that the
    sheet ends with. -/
inductive Step
  | piece (p : Piece) (rest : Text)
  | finished (after : Text)
deriving DecidableEq, Repr

/-- Blanks and semicolons may stand between any two nodes. -/
def isFiller (c : Char) : Bool := isBlank c || c == ';'

/-- The characters that end the name of an at-rule. -/
def endsName (c : Char) : Bool :=
  isBlank c || c == '(' || c == '{' || c == '}' || c == ';' || c == ':' || c == '"' || c == '\''
    || c == '/'

/-- The characters that end the name of a mixin. -/
def endsMixinName (c : Char) : Bool := isBlank c || c == '(' || c == '!'

/-- A comment from the text between its marks. Blanks alone are all on the left. -/
def commentNode (before inside : Text) : Kind × Trivia :=
  let s := Text.dropLead inside
  (.comment (Text.dropTrail s), { before, left := Text.lead inside, right := Text.trail s })

/-- Takes the colon that directly follows the name of a variable; an empty name is none. -/
def cutColon (name : Text) : Text → Bool × Text
  | ':' :: s => if name.isEmpty then (false, ':' :: s) else (true, s)
  | s => (false, s)

theorem cutColon_eq (name s : Text) :
    (if (cutColon name s).1 then [':'] else []) ++ (cutColon name s).2 = s := by
  unfold cutColon
  split
  · split <;> rfl
  · rfl

/-- What an at-rule says before its parameters, and the text after that. -/
structure AtName where
  name : Text
  isVariable : Bool
  afterName : Text
  rest : Text

/-- Reads the name of an at-rule from the text after its `@`. -/
def AtName.read (s : Text) : AtName :=
  let name := s.takeWhile (!endsName ·)
  let (isVariable, s) := cutColon name (s.dropWhile (!endsName ·))
  { name, isVariable, afterName := Text.lead s, rest := Text.dropLead s }

theorem AtName.read_eq (s : Text) :
    let n := AtName.read s
    n.name ++ (if n.isVariable then [':'] else []) ++ n.afterName ++ n.rest = s := by
  have h := cutColon_eq (s.takeWhile (!endsName ·)) (s.dropWhile (!endsName ·))
  simp only [AtName.read, List.append_assoc, Text.lead_append_dropLead]
  exact (congrArg _ h).trans List.takeWhile_append_dropWhile

/-- A mixin call from the text of its head, which starts with the sigil. -/
def mixinNode (before : Text) (sigil : Char) (s : Text) : Kind × Trivia :=
  let name := s.takeWhile (!endsMixinName ·)
  let s := s.dropWhile (!endsMixinName ·)
  let tail := Text.dropLead s
  (.atRule { name, params := Text.dropTrail tail, isMixin := true },
    { before, sigil := [sigil], afterName := Text.lead s, between := Text.trail tail })

/-- A declaration from the text before and after its first colon. -/
def declarationNode (before property value : Text) : Kind × Trivia :=
  let tail := Text.dropLead value
  (.declaration (Text.dropTrail property) (Text.dropTrail tail),
    { before, between := Text.trail property ++ ':' :: Text.lead value, after := Text.trail tail })

/-- A statement, other than one that starts with `@`, from the text of its head: a mixin call if it
    starts with a dot or a hash, else a declaration if it has a colon. -/
def statementNode? (before s : Text) : Option (Kind × Trivia) :=
  match s with
  | '.' :: r => some (mixinNode before '.' r)
  | '#' :: r => some (mixinNode before '#' r)
  | s =>
    match s.dropWhile (· ≠ ':') with
    | [] => none
    | _ :: value => some (declarationNode before (s.takeWhile (· ≠ ':')) value)

/-- Reads an at-rule from the text after its `@`. -/
def readAtRule (before s : Text) : Except Stop Step := do
  let n := AtName.read s
  let (head, s) ← splitHead 0 [] n.rest
  let (ending, s) := Ending.read s
  let rule : AtRule :=
    { name := n.name, params := Text.dropTrail head, hasBlock := ending == .openBrace,
      isVariable := n.isVariable }
  let trivia : Trivia :=
    { before, sigil := ['@'], afterName := n.afterName, between := Text.trail head }
  return .piece (.node (.atRule rule) trivia ending) s

/-- Reads a style rule, a mixin call or a declaration. -/
def readStatement (before s : Text) : Except Stop Step := do
  let (head, rest) ← splitHead 0 [] s
  let (ending, rest) := Ending.read rest
  if ending = .openBrace then
    let trivia : Trivia := { before, between := Text.trail head }
    return .piece (.node (.styleRule (Text.dropTrail head)) trivia ending) rest
  else
    match statementNode? before head with
    | some (kind, trivia) => return .piece (.node kind trivia ending) rest
    | none => throw ⟨.unknownWord, s⟩

/-- Reads what follows the blanks and semicolons `before`. -/
def readAfter (before : Text) : Text → Except Stop Step
  | [] => .ok (.finished before)
  | '}' :: s => .ok (.piece (.closing before) s)
  | '/' :: '*' :: s =>
    match closeComment? s with
    | none => .error ⟨.unclosedComment, '/' :: '*' :: s⟩
    | some (inside, rest) =>
      let (kind, trivia) := commentNode before inside
      .ok (.piece (.node kind trivia .bare) rest)
  | '@' :: s => readAtRule before s
  | s => readStatement before s

/-- Reads one step of a sheet. -/
def readPiece (s : Text) : Except Stop Step :=
  readAfter (s.takeWhile isFiller) (s.dropWhile isFiller)

theorem commentNode_eq (before inside : Text) :
    (commentNode before inside).2.before = before ∧
      (commentNode before inside).1.head (commentNode before inside).2
        = '/' :: '*' :: inside ++ ['*', '/'] := by
  simp only [commentNode, Kind.head, true_and]
  simp

theorem mixinNode_eq (before : Text) (c : Char) (s : Text) :
    (mixinNode before c s).2.before = before ∧
      (mixinNode before c s).1.head (mixinNode before c s).2 = c :: s := by
  simp only [mixinNode, Kind.head, true_and]
  simp

theorem declarationNode_eq (before property value : Text) :
    (declarationNode before property value).2.before = before ∧
      (declarationNode before property value).1.head (declarationNode before property value).2
        = property ++ ':' :: value := by
  simp only [declarationNode, Kind.head, true_and]
  simp [Text.dropTrail_append_trail_append]

theorem statementNode?_eq {before s : Text} {kind : Kind} {trivia : Trivia}
    (h : statementNode? before s = some (kind, trivia)) :
    trivia.before = before ∧ kind.head trivia = s := by
  unfold statementNode? at h
  split at h
  · simp only [Option.some.injEq] at h
    have := mixinNode_eq before '.' ‹_›
    simpa [h] using this
  · simp only [Option.some.injEq] at h
    have := mixinNode_eq before '#' ‹_›
    simpa [h] using this
  · split at h
    · simp at h
    · rename_i c value hd
      simp only [Option.some.injEq] at h
      have := declarationNode_eq before (s.takeWhile (· ≠ ':')) value
      rw [h] at this
      have hc : c = ':' := by
        have := List.head?_dropWhile_not (· ≠ ':') s
        rw [hd] at this
        simpa using this
      refine ⟨this.1, this.2.trans ?_⟩
      conv => lhs; arg 2; rw [← hc, ← hd]
      exact List.takeWhile_append_dropWhile

/-- What an at-rule that is read consists of. -/
theorem readAtRule_eq_ok {before s : Text} {step : Step} (h : readAtRule before s = .ok step) :
    ∃ head t, head ++ t = (AtName.read s).rest ∧
      step = .piece (.node (.atRule {
          name := (AtName.read s).name, params := Text.dropTrail head,
          hasBlock := (Ending.read t).1 == .openBrace, isVariable := (AtName.read s).isVariable })
        { before, sigil := ['@'], afterName := (AtName.read s).afterName,
          between := Text.trail head } (Ending.read t).1) (Ending.read t).2 := by
  unfold readAtRule at h
  rcases hs : splitHead 0 [] (AtName.read s).rest with e | ⟨head, t⟩ <;>
    simp only [hs, bind, Except.bind, pure, Except.pure, reduceCtorEq, Except.ok.injEq] at h
  exact ⟨head, t, splitHead_eq hs, h.symm⟩

/-- What a style rule, a mixin call or a declaration that is read consists of. -/
theorem readStatement_eq_ok {before s : Text} {step : Step}
    (h : readStatement before s = .ok step) :
    ∃ kind trivia ending head t, head ++ ending.text ≠ [] ∧ head ++ (ending.text ++ t) = s ∧
      trivia.before = before ∧ kind.head trivia = head ∧
      step = .piece (.node kind trivia ending) t := by
  unfold readStatement at h
  rcases hs : splitHead 0 [] s with e | ⟨head, t⟩ <;>
    simp only [hs, bind, Except.bind, reduceCtorEq] at h
  have ht := splitHead_eq hs
  have he := Ending.read_eq t
  split at h
  · rename_i ho
    simp only [pure, Except.pure, Except.ok.injEq] at h
    exact ⟨_, _, _, head, _, by simp [ho, Ending.text], by rw [he, ht], rfl, by simp [Kind.head],
      h.symm⟩
  · split at h
    · rename_i kind trivia hk
      simp only [pure, Except.pure, Except.ok.injEq] at h
      have hn := statementNode?_eq hk
      refine ⟨kind, trivia, _, head, _, ?_, by rw [he, ht], hn.1, hn.2, h.symm⟩
      intro h0
      rw [(List.append_eq_nil_iff.1 h0).1] at hk
      simp [statementNode?] at hk
    · simp [throw, throwThe, MonadExceptOf.throw] at h

/-- A piece is what comes before it and at least one character of its own. -/
theorem readAfter_eq {before s r : Text} {p : Piece} (h : readAfter before s = .ok (.piece p r)) :
    ∃ t, t ≠ [] ∧ p.text = before ++ t ∧ t ++ r = s := by
  unfold readAfter at h
  split at h
  · simp at h
  · simp only [Except.ok.injEq, Step.piece.injEq] at h
    exact ⟨['}'], by simp, by rw [← h.1]; rfl, by rw [h.2]; rfl⟩
  · split at h
    · simp at h
    · rename_i inside rest hc
      simp only [Except.ok.injEq, Step.piece.injEq] at h
      have := commentNode_eq before inside
      refine ⟨'/' :: '*' :: inside ++ ['*', '/'], by simp, ?_, ?_⟩
      · rw [← h.1]
        simp only [Piece.text, this, Ending.text, List.append_nil]
      · rw [← h.2]
        simpa using closeComment?_eq hc
  · rename_i s
    obtain ⟨head, t, ht, he⟩ := readAtRule_eq_ok h
    simp only [Step.piece.injEq] at he
    have hn := AtName.read_eq s
    have hr := Ending.read_eq t
    simp only at hn
    refine ⟨'@' :: ((AtName.read s).name ++ ((if (AtName.read s).isVariable then [':'] else [])
      ++ ((AtName.read s).afterName ++ (head ++ (Ending.read t).1.text)))), by simp, ?_, ?_⟩
    · rw [he.1]
      simp only [Piece.text, Kind.head, List.append_assoc, List.cons_append, List.nil_append,
        Text.dropTrail_append_trail_append]
    · rw [he.2]
      simp only [List.append_assoc, List.cons_append, hr, ht] at hn ⊢
      rw [hn]
  · obtain ⟨kind, trivia, ending, head, t, hne, hs, hb, hh, he⟩ := readStatement_eq_ok h
    simp only [Step.piece.injEq] at he
    refine ⟨_, hne, ?_, ?_⟩
    · rw [he.1, Piece.text, hb, hh, List.append_assoc]
    · rw [he.2, List.append_assoc, hs]

/-- A piece is the text that reading it took. -/
theorem readPiece_eq {s r : Text} {p : Piece} (h : readPiece s = .ok (.piece p r)) :
    p.text ++ r = s := by
  obtain ⟨t, _, hp, hs⟩ := readAfter_eq h
  rw [hp, List.append_assoc, hs, List.takeWhile_append_dropWhile]

/-- Reading a piece takes some text. -/
theorem length_lt_of_readPiece {s r : Text} {p : Piece} (h : readPiece s = .ok (.piece p r)) :
    r.length < s.length := by
  obtain ⟨t, ht, hp, _⟩ := readAfter_eq h
  have hs := congrArg List.length (readPiece_eq h)
  have := List.length_pos_iff.2 ht
  simp only [hp, List.length_append] at hs
  omega

theorem readAfter_finished {before s after : Text}
    (h : readAfter before s = .ok (.finished after)) : s = [] ∧ after = before := by
  unfold readAfter at h
  split at h
  · simp_all
  · simp at h
  · split at h <;> simp at h
  · obtain ⟨_, _, _, he⟩ := readAtRule_eq_ok h
    simp at he
  · obtain ⟨_, _, _, _, _, _, _, _, _, he⟩ := readStatement_eq_ok h
    simp at he

/-- A sheet in which no piece is left is blanks and semicolons alone. -/
theorem readPiece_finished {s after : Text} (h : readPiece s = .ok (.finished after)) :
    after = s := by
  obtain ⟨hs, ha⟩ := readAfter_finished h
  have := List.takeWhile_append_dropWhile (p := isFiller) (l := s)
  rw [hs, List.append_nil] at this
  rw [ha, this]

end SheetLint
