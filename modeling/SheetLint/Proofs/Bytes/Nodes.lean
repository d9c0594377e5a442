import SheetLint.Proofs.Bytes.Scanning

/-
  What the byte reader finds at the start of a node. `readNode?_agrees`: it finds the node that the
  reader of characters finds there, up to its block, with the offsets of its start and its end, or
  the same fault at the offset of the text that could not be read.
-/

namespace SheetLint

namespace Bytewise

open Text (byte? slice? bytes IsByteOf)

/-- A node that starts after `front` and is followed by an ending and a rest, as it is found. -/
def foundOf (front : Text) (kind : Kind) (trivia : Trivia) (ending : Ending) (rest : Text) :
    Found where
  kind
  trivia
  start := bytes front
  stop := bytes (front ++ kind.head trivia)
  terminator := if kind.isComment then none else some (terminatorOf (ending.text ++ rest))

theorem decide_openBrace (b : Text) :
    decide (terminatorOf b = .openBrace) = ((Ending.read b).1 == .openBrace) := by
  unfold terminatorOf Ending.read
  split
  · rfl
  · rfl
  · rfl
  · rename_i hsemi hopen _
    split
    · exact absurd rfl (hsemi _)
    · exact absurd rfl (hopen _)
    · rfl

theorem terminatorOf_read (b : Text) :
    terminatorOf ((Ending.read b).1.text ++ (Ending.read b).2) = terminatorOf b := by
  rw [Ending.read_eq]

/-- What is found in a source after `front` is what was read from the characters there. -/
inductive Agrees (s front : Text) : Except Stop Step → Except Misfit Found → Prop
  | error (e : Stop) : Agrees s front (.error e) (.error ⟨e.fault, bytes s - bytes e.rest⟩)
  | node (kind : Kind) (trivia : Trivia) (ending : Ending) (rest : Text) :
      Agrees s front (.ok (.piece (.node kind trivia ending) rest))
        (.ok (foundOf front kind trivia ending rest))

section Node

variable {s front : Text} (before : Text)

theorem readComment?_agrees {t : Text} (hs : s = front ++ '/' :: '*' :: t) :
    ∃ x, readComment? s (bytes front) before = some x
      ∧ Agrees s front (readAfter before ('/' :: '*' :: t)) x := by
  rw [readComment?, commentEnd?_eq hs, readAfter]
  cases hc : closeComment? t with
  | none =>
    refine ⟨_, rfl, ?_⟩
    rw [← sub_bytes hs]
    exact .error ⟨.unclosedComment, _⟩
  | some p =>
    obtain ⟨inside, r⟩ := p
    have hstart : bytes front + 2 = bytes (front ++ ['/', '*']) := by
      rw [Text.bytes_append]
      rfl
    have hslice : slice? s (bytes front + 2) (bytes ((front ++ ['/', '*']) ++ inside))
        = some inside := by
      have := Text.slice?_between (front ++ ['/', '*']) inside ('*' :: '/' :: r)
      rw [hstart, hs, ← closeComment?_eq hc]
      simpa using this
    have hstop : bytes ((front ++ ['/', '*']) ++ inside) + 2
        = bytes (front ++ (commentNode before inside).1.head (commentNode before inside).2) := by
      have hmark : bytes ['*', '/'] = 2 := rfl
      rw [(commentNode_eq before inside).2, ← hmark, ← Text.bytes_append]
      simp
    refine ⟨_, ?_, .node _ _ _ _⟩
    simp only [endOf, Option.bind_eq_bind, Option.bind_some, hslice, splitLeading?_eq,
      splitTrailing?_eq, hstop]
    rfl

/-! ## At-rules -/

theorem readAtRule_of_split {t head b : Text}
    (h : splitHead 0 [] (AtName.read t).rest = .ok (head, b)) :
    readAtRule before t = .ok (.piece (.node (.atRule {
        name := (AtName.read t).name, params := Text.dropTrail head,
        hasBlock := (Ending.read b).1 == .openBrace, isVariable := (AtName.read t).isVariable })
      { before, sigil := ['@'], afterName := (AtName.read t).afterName,
        between := Text.trail head } (Ending.read b).1) (Ending.read b).2) := by
  simp only [readAtRule, h]
  rfl

theorem readAtRule_of_error {t : Text} {e : Stop}
    (h : splitHead 0 [] (AtName.read t).rest = .error e) : readAtRule before t = .error e := by
  simp only [readAtRule, h]
  rfl

/-- The byte behind the name tells whether the name is that of a variable. -/
theorem isVariable_eq {name u : Text} (hs : s = front ++ u) :
    (!name.isEmpty && byte? s (bytes front) == some ':') = (cutColon name u).1 := by
  have hbyte := byte?_eq_some_iff hs (d := ':') rfl
  unfold cutColon
  split
  · rename_i v
    rw [beq_iff_eq.2 (hbyte.2 ⟨v, rfl⟩), Bool.and_true]
    cases name <;> rfl
  · rename_i hne
    have hno : (byte? s (bytes front) == some ':') = false := by
      rw [beq_eq_false_iff_ne]
      intro hb
      obtain ⟨v, hv⟩ := hbyte.1 hb
      exact hne v hv
    rw [hno, Bool.and_false]

/-- What is taken before the parameters of an at-rule: its name, a colon and blanks. -/
theorem take?_atName {t : Text} (hs : s = front ++ t) {n : AtName} (hn : AtName.read t = n) :
    take? s (!endsName ·) (bytes front) = some (n.name, bytes (front ++ n.name)) ∧
      (!n.name.isEmpty && byte? s (bytes (front ++ n.name)) == some ':') = n.isVariable ∧
      take? s isBlank (if n.isVariable then bytes (front ++ n.name) + 1
          else bytes (front ++ n.name)) = some (n.afterName, bytes (front ++ n.text)) := by
  subst hn
  have hname : s = (front ++ (AtName.read t).name) ++ t.dropWhile (!endsName ·) := by
    rw [hs, List.append_assoc]
    exact congrArg (front ++ ·) List.takeWhile_append_dropWhile.symm
  refine ⟨take?_eq endsName_byte hs, isVariable_eq hname, ?_⟩
  have hcut := cutColon_eq (t.takeWhile (!endsName ·)) (t.dropWhile (!endsName ·))
  obtain ⟨colon, hcolon⟩ : ∃ colon : Text,
      colon = if (AtName.read t).isVariable then [':'] else [] := ⟨_, rfl⟩
  have hpos : (if (AtName.read t).isVariable then bytes (front ++ (AtName.read t).name) + 1
      else bytes (front ++ (AtName.read t).name))
        = bytes ((front ++ (AtName.read t).name) ++ colon) := by
    rw [hcolon]
    split
    · exact (bytes_concat rfl _).symm
    · rw [List.append_nil]
  have hrest : s = ((front ++ (AtName.read t).name) ++ colon)
      ++ (cutColon (t.takeWhile (!endsName ·)) (t.dropWhile (!endsName ·))).2 := by
    rw [hname, List.append_assoc (front ++ _), hcolon]
    exact congrArg _ hcut.symm
  rw [hpos, take?_eq isBlank_byte hrest, AtName.text, ← hcolon]
  simp only [List.append_assoc]
  rfl

theorem readAtRule?_agrees {t : Text} (hs : s = front ++ '@' :: t) :
    ∃ x, readAtRule? s (bytes front) before = some x
      ∧ Agrees s front (readAtRule before t) x := by
  obtain ⟨n, hn⟩ : ∃ n, AtName.read t = n := ⟨_, rfl⟩
  have hs' : s = (front ++ ['@']) ++ t := by rw [hs, List.append_assoc]; rfl
  obtain ⟨hname, hvar, hafter⟩ := take?_atName hs' hn
  rw [bytes_concat rfl] at hname
  have hrest : s = ((front ++ ['@']) ++ n.text) ++ n.rest := by
    rw [hs', List.append_assoc (front ++ ['@']), ← hn, AtName.text_append_rest]
  rw [readAtRule?, hname]
  simp only [Option.bind_eq_bind, Option.bind_some, hvar, hafter, scanEnd?_eq hrest]
  cases hsplit : splitHead 0 [] n.rest with
  | error e =>
    rw [readAtRule_of_error before (hn ▸ hsplit)]
    exact ⟨_, rfl, .error e⟩
  | ok p =>
    obtain ⟨head, b⟩ := p
    rw [readAtRule_of_split before (hn ▸ hsplit)]
    have hslice : slice? s (bytes ((front ++ ['@']) ++ n.text))
        (bytes (((front ++ ['@']) ++ n.text) ++ head)) = some head := by
      rw [hrest, ← splitHead_eq hsplit, ← List.append_assoc]
      exact Text.slice?_between _ _ _
    refine ⟨_, ?_, .node _ _ _ _⟩
    simp only [scanned, Option.bind_some, hslice, splitTrailing?_eq, decide_openBrace]
    rw [foundOf, terminatorOf_read, Kind.head, hn]
    simp only [AtName.text, List.append_assoc, Text.dropTrail_append_trail]
    rfl

/-! ## Statements -/

theorem mixinCall?_eq (c : Char) (hc : c.utf8Size = 1) (t : Text) :
    mixinCall? before (c :: t) = some (mixinNode before c t) := by
  have hsigil : splitAt? (c :: t) 1 = some ([c], t) := by
    have := splitAt?_eq [c] t
    rwa [Text.bytes_cons, Text.bytes_nil, hc] at this
  have hname : splitAt? t (bytes (t.takeWhile (!endsMixinName ·)))
      = some (t.takeWhile (!endsMixinName ·), t.dropWhile (!endsMixinName ·)) := by
    have := splitAt?_eq (t.takeWhile (!endsMixinName ·)) (t.dropWhile (!endsMixinName ·))
    rwa [List.takeWhile_append_dropWhile] at this
  rw [mixinCall?, hsigil]
  simp only [Option.bind_eq_bind, Option.bind_some, Text.getD_findChar?, hname, splitLeading?_eq,
    splitTrailing?_eq]
  rfl

theorem declaration?_eq (property value : Text) :
    declaration? before (property ++ ':' :: value) (bytes property)
      = some (declarationNode before property value) := by
  have hcolon : bytes property + 1 = bytes (property ++ [':']) := (bytes_concat rfl _).symm
  have hfront := Text.slice?_left property (':' :: value)
  have hback : slice? (property ++ ':' :: value) (bytes property + 1)
      (bytes (property ++ ':' :: value)) = some value := by
    have := Text.slice?_right (property ++ [':']) value
    rwa [List.append_assoc, ← hcolon] at this
  have hgap : slice? (property ++ ':' :: value) (bytes (Text.dropTrail property)) (bytes property)
      = some (Text.trail property) := by
    have := Text.slice?_between (Text.dropTrail property) (Text.trail property) (':' :: value)
    rwa [Text.dropTrail_append_trail] at this
  rw [declaration?, hfront]
  simp only [Option.bind_eq_bind, Option.bind_some, splitTrailing?_eq, hback, splitLeading?_eq,
    hgap]
  rfl

theorem statementNode?_of_plain {head : Text} (hdot : head.head? ≠ some '.')
    (hhash : head.head? ≠ some '#') :
    statementNode? before head
      = match head.dropWhile (· ≠ ':') with
        | [] => none
        | _ :: value => some (declarationNode before (head.takeWhile (· ≠ ':')) value) := by
  unfold statementNode?
  split
  · exact absurd rfl hdot
  · exact absurd rfl hhash
  · rfl

/-- What the head of a statement says that opens no block. -/
theorem statement?_eq {head : Text} {terminator : Terminator} (h : terminator ≠ .openBrace) :
    statement? before head terminator = some (statementNode? before head) := by
  rw [statement?, if_neg h]
  by_cases hdot : head.head? = some '.'
  · obtain ⟨t, rfl⟩ := List.head?_eq_some_iff.1 hdot
    rw [if_pos (Or.inl hdot), mixinCall?_eq before '.' rfl]
    rfl
  by_cases hhash : head.head? = some '#'
  · obtain ⟨t, rfl⟩ := List.head?_eq_some_iff.1 hhash
    rw [if_pos (Or.inr hhash), mixinCall?_eq before '#' rfl]
    rfl
  have hclass : (fun c : Char => !(c == ':')) = fun c => decide (c ≠ ':') := by
    funext c
    rw [decide_not]
    rfl
  rw [if_neg (not_or.2 ⟨hdot, hhash⟩), Text.findChar?_eq, hclass,
    statementNode?_of_plain before hdot hhash]
  cases hd : head.dropWhile (fun c => decide (c ≠ ':')) with
  | nil => rfl
  | cons d value =>
    have hcolon : d = ':' := by
      have := List.head?_dropWhile_not (fun c => decide (c ≠ ':')) head
      rw [hd] at this
      simpa using this
    have hcut := @List.takeWhile_append_dropWhile _ (fun c : Char => decide (c ≠ ':')) head
    have hdecl := declaration?_eq before (head.takeWhile (fun c => decide (c ≠ ':'))) value
    rw [hd, hcolon] at hcut
    rw [hcut] at hdecl
    rw [if_neg (List.cons_ne_nil _ _)]
    simp only [hdecl]
    rfl

section Statement

variable {rest head b : Text} (hsplit : splitHead 0 [] rest = .ok (head, b))
include hsplit

theorem readStatement_of_block (hb : (Ending.read b).1 = .openBrace) :
    readStatement before rest
      = .ok (.piece (.node (.styleRule (Text.dropTrail head))
          { before, between := Text.trail head } (Ending.read b).1) (Ending.read b).2) := by
  simp only [readStatement, hsplit, bind, Except.bind]
  rw [if_pos hb]
  rfl

theorem readStatement_of_node (hb : (Ending.read b).1 ≠ .openBrace) {kind : Kind}
    {trivia : Trivia} (hk : statementNode? before head = some (kind, trivia)) :
    readStatement before rest
      = .ok (.piece (.node kind trivia (Ending.read b).1) (Ending.read b).2) := by
  simp only [readStatement, hsplit, bind, Except.bind]
  rw [if_neg hb, hk]
  rfl

theorem readStatement_of_unknown (hb : (Ending.read b).1 ≠ .openBrace)
    (hk : statementNode? before head = none) :
    readStatement before rest = .error ⟨.unknownWord, rest⟩ := by
  simp only [readStatement, hsplit, bind, Except.bind]
  rw [if_neg hb, hk]
  rfl

end Statement

theorem readOther?_agrees {rest : Text} (hs : s = front ++ rest) :
    ∃ x, readOther? s (bytes front) before = some x
      ∧ Agrees s front (readStatement before rest) x := by
  rw [readOther?, scanEnd?_eq hs]
  cases hsplit : splitHead 0 [] rest with
  | error e =>
    have hread : readStatement before rest = .error e := by
      simp only [readStatement, hsplit]
      rfl
    rw [hread]
    exact ⟨_, rfl, .error e⟩
  | ok p =>
    obtain ⟨head, b⟩ := p
    have hslice : slice? s (bytes front) (bytes (front ++ head)) = some head := by
      rw [hs, ← splitHead_eq hsplit, ← List.append_assoc]
      exact Text.slice?_between _ _ _
    simp only [scanned, Option.bind_eq_bind, Option.bind_some, hslice]
    have hopen : terminatorOf b = .openBrace ↔ (Ending.read b).1 = .openBrace := by
      rw [← beq_iff_eq (a := (Ending.read b).1), ← decide_openBrace, decide_eq_true_iff]
    by_cases hblock : (Ending.read b).1 = .openBrace
    · rw [readStatement_of_block before hsplit hblock]
      refine ⟨_, ?_, .node _ _ _ _⟩
      rw [statement?, if_pos (hopen.2 hblock), splitTrailing?_eq, foundOf, terminatorOf_read,
        Kind.head, Text.dropTrail_append_trail]
      rfl
    · rw [statement?_eq before (fun h => hblock (hopen.1 h))]
      cases hk : statementNode? before head with
      | none =>
        rw [readStatement_of_unknown before hsplit hblock hk, ← sub_bytes hs]
        exact ⟨_, rfl, .error ⟨.unknownWord, rest⟩⟩
      | some node =>
        obtain ⟨kind, trivia⟩ := node
        rw [readStatement_of_node before hsplit hblock hk]
        refine ⟨_, ?_, .node _ _ _ _⟩
        rw [foundOf, terminatorOf_read, (statementNode?_eq hk).2,
          not_isComment_of_statementNode? hk]
        rfl

/-- What starts with a byte of a character is what starts with the character. -/
theorem readNode?_agrees {c b : Char} {t : Text} (hs : s = front ++ c :: t) (hb : IsByteOf c b)
    (hc : c ≠ '}') :
    ∃ x, readNode? s (bytes front) b before = some x
      ∧ Agrees s front (readAfter before (c :: t)) x := by
  unfold readNode?
  split
  · rename_i hcomment
    obtain ⟨u, hu⟩ := (startsComment_iff hs).1 hcomment.2
    rw [hu]
    exact readComment?_agrees before (hu ▸ hs)
  · rename_i hcomment
    have hplain : ∀ u, c :: t = '/' :: '*' :: u → False := by
      intro u hu
      refine hcomment ⟨(hb.eq_iff rfl).2 (List.cons.inj hu).1, (startsComment_iff hs).2 ⟨u, hu⟩⟩
    split
    · rename_i hat
      obtain rfl := (hb.eq_iff rfl).1 hat
      exact readAtRule?_agrees before hs
    · rename_i hat
      have hread : readAfter before (c :: t) = readStatement before (c :: t) := by
        unfold readAfter
        split
        · rename_i h
          cases h
        · rename_i h
          exact absurd (List.cons.inj h).1 hc
        · rename_i h
          exact (hplain _ h).elim
        · rename_i h
          exact absurd ((hb.eq_iff rfl).2 (List.cons.inj h).1) hat
        · rfl
      rw [hread]
      exact readOther?_agrees before hs

end Node

end Bytewise

end SheetLint
