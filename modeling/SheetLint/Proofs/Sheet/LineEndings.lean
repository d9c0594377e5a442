import SheetLint.Proofs.Sheet.Faults

/-
  Sheets with the other line ending. A carriage return that is put before each line feed is read as
  a part of the line ending: what is cut off, and where, is the same text with the other line
  ending, also where a backslash stands before the line feed.
-/

namespace SheetLint

/-! ## Texts -/

/-- A character as it is written when a carriage return stands before each line feed. -/
def spelled (c : Char) : Text := if c = '\n' then crLf else [c]

/-- A text with a carriage return put before each line feed. -/
def Text.withCrLf (s : Text) : Text := s.flatMap spelled

namespace Text

@[simp] theorem withCrLf_nil : withCrLf [] = [] := rfl

@[simp] theorem withCrLf_append (s t : Text) : withCrLf (s ++ t) = withCrLf s ++ withCrLf t :=
  List.flatMap_append

theorem withCrLf_lineFeed (s : Text) : withCrLf ('\n' :: s) = '\r' :: '\n' :: withCrLf s := rfl

theorem withCrLf_cons {c : Char} (h : c ≠ '\n') (s : Text) :
    withCrLf (c :: s) = c :: withCrLf s := by
  rw [withCrLf, List.flatMap_cons, spelled, if_neg h]
  rfl

theorem spelled_ne_nil (c : Char) : spelled c ≠ [] := by
  unfold spelled
  split <;> simp [crLf]

@[simp] theorem withCrLf_eq_nil {s : Text} : withCrLf s = [] ↔ s = [] := by
  cases s with
  | nil => simp
  | cons c s => simp [withCrLf, spelled_ne_nil]

@[simp] theorem isEmpty_withCrLf (s : Text) : (withCrLf s).isEmpty = s.isEmpty := by
  rw [Bool.eq_iff_iff, List.isEmpty_iff, List.isEmpty_iff, withCrLf_eq_nil]

/-- A text starts with the same characters, but for line endings. -/
theorem eq_cons_of_withCrLf {c : Char} {s t : Text} (hr : c ≠ '\r') (h : withCrLf s = c :: t) :
    ∃ u, s = c :: u ∧ t = withCrLf u := by
  cases s with
  | nil => cases h
  | cons d s =>
    by_cases hd : d = '\n'
    · rw [hd, withCrLf_lineFeed] at h
      exact absurd (List.cons.inj h).1.symm hr
    · rw [withCrLf_cons hd] at h
      obtain ⟨rfl, rfl⟩ := List.cons.inj h
      exact ⟨s, rfl, rfl⟩

/-! ## Classes of characters -/

section Classes

variable {p : Char → Bool} {f : Char → Text} (hne : ∀ c, f c ≠ []) (hf : ∀ c, ∀ d ∈ f c, p d = p c)
include hne hf

/-- A class of characters ends where it did when each character is replaced by some that are of the
    class if it is. -/
theorem while_flatMap (s : Text) :
    (s.flatMap f).takeWhile p = (s.takeWhile p).flatMap f ∧
      (s.flatMap f).dropWhile p = (s.dropWhile p).flatMap f := by
  induction s with
  | nil => exact ⟨rfl, rfl⟩
  | cons c s ih =>
    rw [List.flatMap_cons]
    by_cases hc : p c
    · have hall : ∀ d ∈ f c, p d := fun d hd => (hf c d hd).trans hc
      rw [List.takeWhile_append_of_pos hall, List.dropWhile_append_of_pos hall, ih.1, ih.2,
        List.takeWhile_cons_of_pos hc, List.dropWhile_cons_of_pos hc]
      exact ⟨rfl, rfl⟩
    · obtain ⟨d, t, hd⟩ := List.exists_cons_of_ne_nil (hne c)
      have hpd : ¬ p d = true := by
        rw [hf c d (by rw [hd]; exact List.mem_cons_self)]
        exact hc
      rw [List.takeWhile_cons_of_neg hc, List.dropWhile_cons_of_neg hc, List.flatMap_cons, hd]
      exact ⟨List.takeWhile_cons_of_neg hpd, List.dropWhile_cons_of_neg hpd⟩

end Classes

theorem class_of_mem_spelled {p : Char → Bool} (hp : p '\r' = p '\n') (c d : Char)
    (h : d ∈ spelled c) : p d = p c := by
  unfold spelled at h
  split at h
  · rename_i hc
    rw [hc]
    rcases List.mem_cons.1 h with rfl | h
    · exact hp
    · rw [List.mem_singleton.1 h]
  · rw [List.mem_singleton.1 h]

theorem forall_withCrLf {p : Char → Bool} (hp : p '\r' = p '\n') {s : Text}
    (h : ∀ c ∈ s, p c) : ∀ c ∈ withCrLf s, p c := by
  intro d hd
  obtain ⟨c, hc, hd⟩ := List.mem_flatMap.1 hd
  rw [class_of_mem_spelled hp c d hd]
  exact h c hc

section

variable {p : Char → Bool} (hp : p '\r' = p '\n') (s : Text)
include hp

theorem takeWhile_withCrLf : (withCrLf s).takeWhile p = withCrLf (s.takeWhile p) :=
  (while_flatMap spelled_ne_nil (class_of_mem_spelled hp) s).1

theorem dropWhile_withCrLf : (withCrLf s).dropWhile p = withCrLf (s.dropWhile p) :=
  (while_flatMap spelled_ne_nil (class_of_mem_spelled hp) s).2

end

section Blanks

variable (s : Text)

@[simp] theorem lead_withCrLf : lead (withCrLf s) = withCrLf (lead s) := takeWhile_withCrLf rfl s

@[simp] theorem dropLead_withCrLf : dropLead (withCrLf s) = withCrLf (dropLead s) :=
  dropWhile_withCrLf rfl s

theorem trail_and_dropTrail_withCrLf :
    trail (withCrLf s) = withCrLf (trail s) ∧ dropTrail (withCrLf s) = withCrLf (dropTrail s) := by
  have hne (c : Char) : (List.reverse ∘ spelled) c ≠ [] := by simp [spelled_ne_nil]
  have hf (c d : Char) (h : d ∈ (List.reverse ∘ spelled) c) : isBlank d = isBlank c :=
    class_of_mem_spelled rfl c d (List.mem_reverse.1 h)
  have hback (t : Text) :
      (t.flatMap (List.reverse ∘ spelled)).reverse = withCrLf t.reverse := by
    rw [List.reverse_flatMap, withCrLf]
    congr 1
    funext c
    simp
  obtain ⟨htake, hdrop⟩ := while_flatMap hne hf s.reverse
  rw [trail, dropTrail, withCrLf, List.reverse_flatMap, htake, hdrop, hback, hback]
  exact ⟨rfl, rfl⟩

@[simp] theorem trail_withCrLf : trail (withCrLf s) = withCrLf (trail s) :=
  (trail_and_dropTrail_withCrLf s).1

@[simp] theorem dropTrail_withCrLf : dropTrail (withCrLf s) = withCrLf (dropTrail s) :=
  (trail_and_dropTrail_withCrLf s).2

end Blanks

end Text

/-- Positions count characters up to the latest line feed, which a carriage return does not move. -/
theorem Position.after_withCrLf (s : Text) : Position.after s.withCrLf = Position.after s := by
  have hfold (p : Position) : s.withCrLf.foldl step p = s.foldl step p := by
    induction s generalizing p with
    | nil => rfl
    | cons c s ih =>
      by_cases hc : c = '\n'
      · rw [hc, Text.withCrLf_lineFeed]
        exact ih _
      · rw [Text.withCrLf_cons hc]
        exact ih _
  exact hfold start

/-! ## Comments, quotes and heads -/

theorem closeComment?_cons {c : Char} {s : Text} (h : ∀ t, c = '*' → s = '/' :: t → False) :
    closeComment? (c :: s) = (closeComment? s).map fun (a, b) => (c :: a, b) :=
  closeComment?.eq_3 c s h

theorem closeComment?_withCrLf (s : Text) :
    closeComment? (Text.withCrLf s)
      = (closeComment? s).map (Prod.map Text.withCrLf Text.withCrLf) := by
  fun_induction closeComment? s with
  | case1 => rfl
  | case2 s => rfl
  | case3 c s hc ih =>
    rw [Option.map_map]
    by_cases hn : c = '\n'
    · subst hn
      rw [Text.withCrLf_lineFeed, closeComment?_cons (by rintro _ ⟨⟩),
        closeComment?_cons (by rintro _ ⟨⟩), ih, Option.map_map, Option.map_map]
      rfl
    · have hslash : ∀ t, c = '*' → Text.withCrLf s = '/' :: t → False := by
        intro t hstar ht
        obtain ⟨u, hu, _⟩ := Text.eq_cons_of_withCrLf (by decide) ht
        exact hc u hstar hu
      rw [Text.withCrLf_cons hn, closeComment?_cons hslash, ih, Option.map_map]
      congr 1
      funext p
      obtain ⟨a, b⟩ := p
      simp [Text.withCrLf_cons hn]

theorem closeQuote?_cons {q c : Char} {s : Text} (h : c = '\\' → s = []) (hq : c ≠ q) :
    closeQuote? q (c :: s) = (closeQuote? q s).map fun (a, b) => (c :: a, b) := by
  rw [closeQuote?.eq_3, if_neg hq]
  intro d t hc hs
  rw [h hc] at hs
  cases hs

/-- A backslash that escapes nothing stands at the end, with either line ending. -/
theorem withCrLf_eq_nil_of_not_escape {c : Char} {s : Text}
    (h : ∀ d t, c = '\\' → s = d :: t → False) (hc : c = '\\') : Text.withCrLf s = [] := by
  cases s with
  | nil => rfl
  | cons d t => exact (h d t hc rfl).elim

theorem closeQuote?_withCrLf {q : Char} (hr : q ≠ '\r') (hf : q ≠ '\n') (s : Text) :
    closeQuote? q (Text.withCrLf s)
      = (closeQuote? q s).map (Prod.map Text.withCrLf Text.withCrLf) := by
  fun_induction closeQuote? q s with
  | case1 => rfl
  | case2 c s ih =>
    rw [Option.map_map, Text.withCrLf_cons (by decide)]
    by_cases hn : c = '\n'
    · -- The backslash stands before the carriage return, and the line feed alone.
      subst hn
      rw [Text.withCrLf_lineFeed, closeQuote?, closeQuote?_cons (by rintro ⟨⟩) hf.symm, ih,
        Option.map_map, Option.map_map]
      rfl
    · rw [Text.withCrLf_cons hn, closeQuote?, ih, Option.map_map]
      congr 1
      funext p
      obtain ⟨a, b⟩ := p
      simp [Text.withCrLf_cons hn, Text.withCrLf_cons (show '\\' ≠ '\n' by decide)]
  | case3 s hc =>
    rw [Text.withCrLf_cons hf, closeQuote?.eq_3, if_pos rfl]
    · rw [Option.map_some, Prod.map_apply, Text.withCrLf_cons hf, Text.withCrLf_nil]
    · intro d t hq hs
      rw [withCrLf_eq_nil_of_not_escape hc hq] at hs
      cases hs
  | case4 c s hc hne ih =>
    rw [Option.map_map]
    by_cases hn : c = '\n'
    · subst hn
      rw [Text.withCrLf_lineFeed, closeQuote?_cons (by rintro ⟨⟩) hr.symm,
        closeQuote?_cons (by rintro ⟨⟩) hf.symm, ih, Option.map_map, Option.map_map]
      rfl
    · rw [Text.withCrLf_cons hn, closeQuote?_cons (withCrLf_eq_nil_of_not_escape hc) hne, ih,
        Option.map_map]
      congr 1
      funext p
      obtain ⟨a, b⟩ := p
      simp [Text.withCrLf_cons hn]

/-- A stop in a text with the other line ending. -/
def Stop.withCrLf (e : Stop) : Stop := ⟨e.fault, Text.withCrLf e.rest⟩

/-- What is read off a text with the other line ending. -/
def respell {α : Type} (f : α → α) : Except Stop α → Except Stop α
  | .error e => .error e.withCrLf
  | .ok a => .ok (f a)

theorem inFront_respell (front : Text) (cut : Except Stop (Text × Text)) :
    inFront (Text.withCrLf front) (respell (Prod.map Text.withCrLf Text.withCrLf) cut)
      = respell (Prod.map Text.withCrLf Text.withCrLf) (inFront front cut) := by
  cases cut with
  | error e => rfl
  | ok p =>
    obtain ⟨a, b⟩ := p
    simp [respell, inFront_ok]

theorem inFront_inFront (a b : Text) (cut : Except Stop (Text × Text)) :
    inFront a (inFront b cut) = inFront (a ++ b) cut := by
  cases cut with
  | error e => rfl
  | ok p =>
    obtain ⟨x, y⟩ := p
    simp [inFront_ok]

section Cons

variable (depth : Nat) (opened s : Text)

theorem splitHead_lineFeed :
    splitHead depth opened ('\n' :: s) = inFront ['\n'] (splitHead depth opened s) := by
  rw [splitHead_cons ⟨by simp, by simp⟩]
  simp

theorem splitHead_crLf :
    splitHead depth opened ('\r' :: '\n' :: s) = inFront crLf (splitHead depth opened s) := by
  rw [splitHead_cons ⟨by simp, by simp⟩]
  simp [splitHead_lineFeed, inFront_inFront, crLf]

theorem splitHead_escape (c : Char) :
    splitHead depth opened ('\\' :: c :: s) = inFront ['\\', c] (splitHead depth opened s) := by
  rw [splitHead]

theorem splitHead_openComment (h : closeComment? s = none) :
    splitHead depth opened ('/' :: '*' :: s) = .error ⟨.unclosedComment, '/' :: '*' :: s⟩ := by
  rw [splitHead]
  split <;> simp_all

end Cons

/-- A character that stands alone does so with the other line ending. -/
theorem standsAlone_withCrLf {c : Char} {s : Text} (hb : ∀ d t, c = '\\' → s = d :: t → False)
    (hc : ∀ t, c = '/' → s = '*' :: t → False) : StandsAlone c (Text.withCrLf s) := by
  refine standsAlone_of_not ?_ ?_
  · intro d t hc hs
    rw [withCrLf_eq_nil_of_not_escape hb hc] at hs
    cases hs
  · intro t hslash ht
    obtain ⟨u, hu, _⟩ := Text.eq_cons_of_withCrLf (by decide) ht
    exact hc u hslash hu

theorem splitHead_withCrLf (depth : Nat) (opened s : Text) :
    splitHead depth (Text.withCrLf opened) (Text.withCrLf s)
      = respell (Prod.map Text.withCrLf Text.withCrLf) (splitHead depth opened s) := by
  fun_induction splitHead depth opened s with
  | case1 => rw [Text.withCrLf_nil, splitHead, if_pos rfl]; rfl
  | case2 depth opened hd => rw [Text.withCrLf_nil, splitHead, if_neg hd]; rfl
  | case3 depth opened c s ih =>
    rw [← inFront_respell, ← ih, Text.withCrLf_cons (by decide)]
    by_cases hn : c = '\n'
    · subst hn
      rw [Text.withCrLf_lineFeed, splitHead_escape, splitHead_lineFeed, inFront_inFront]
      rfl
    · rw [Text.withCrLf_cons hn, splitHead_escape, Text.withCrLf_cons (by decide),
        Text.withCrLf_cons hn, Text.withCrLf_nil]
  | case4 depth opened s hi =>
    have hi' : closeComment? (Text.withCrLf s) = none := by rw [closeComment?_withCrLf, hi]; rfl
    exact splitHead_openComment depth _ _ hi'
  | case5 depth opened s inside rest hi ih =>
    have hi' : closeComment? (Text.withCrLf s)
        = some (Text.withCrLf inside, Text.withCrLf rest) := by rw [closeComment?_withCrLf, hi]; rfl
    refine (splitHead_comment hi' depth _).trans ?_
    rw [← inFront_respell, ← ih]
    simp [Text.withCrLf_cons]
  | case6 depth opened c s h₁ h₂ hq hi =>
    have hn : c ≠ '\n' := by rcases hq with rfl | rfl <;> decide
    have hr : c ≠ '\r' := by rcases hq with rfl | rfl <;> decide
    have hi' : closeQuote? c (Text.withCrLf s) = none := by rw [closeQuote?_withCrLf hr hn, hi]; rfl
    rw [Text.withCrLf_cons hn, splitHead_cons (standsAlone_withCrLf h₁ h₂), if_pos hq, hi',
      respell, Stop.withCrLf, Text.withCrLf_cons hn]
  | case7 depth opened c s h₁ h₂ hq inside rest hi ih =>
    have hn : c ≠ '\n' := by rcases hq with rfl | rfl <;> decide
    have hr : c ≠ '\r' := by rcases hq with rfl | rfl <;> decide
    have hi' : closeQuote? c (Text.withCrLf s)
        = some (Text.withCrLf inside, Text.withCrLf rest) := by
      rw [closeQuote?_withCrLf hr hn, hi]; rfl
    rw [Text.withCrLf_cons hn, splitHead_cons (standsAlone_withCrLf h₁ h₂), if_pos hq, hi',
      ← inFront_respell, ← ih, Text.withCrLf_cons hn]
  | case8 depth opened c s h₁ h₂ hq hb ih =>
    have hn : c ≠ '\n' := by rcases hb with rfl | rfl <;> decide
    rw [dite_eq_ite] at ih
    rw [Text.withCrLf_cons hn, splitHead_cons (standsAlone_withCrLf h₁ h₂), if_neg hq, if_pos hb,
      ← inFront_respell, ← ih, Text.withCrLf_cons hn]
    split
    · rw [Text.withCrLf_cons hn]; rfl
    · rfl
  | case9 depth opened c s h₁ h₂ hq hb hb' ih =>
    have hn : c ≠ '\n' := by rcases hb' with rfl | rfl <;> decide
    rw [Text.withCrLf_cons hn, splitHead_cons (standsAlone_withCrLf h₁ h₂), if_neg hq, if_neg hb,
      if_pos hb', ← inFront_respell, ← ih, Text.withCrLf_cons hn]
    rfl
  | case10 depth opened c s h₁ h₂ hq hb hb' hs =>
    have hn : c ≠ '\n' := by rcases hs.2 with rfl | rfl | rfl <;> decide
    rw [Text.withCrLf_cons hn, splitHead_cons (standsAlone_withCrLf h₁ h₂), if_neg hq, if_neg hb,
      if_neg hb', if_pos hs, respell, Prod.map_apply, Text.withCrLf_cons hn, Text.withCrLf_nil]
  | case11 depth opened c s h₁ h₂ hq hb hb' hs ih =>
    rw [← inFront_respell, ← ih]
    by_cases hn : c = '\n'
    · subst hn
      exact splitHead_crLf depth _ _
    · rw [Text.withCrLf_cons hn, splitHead_cons (standsAlone_withCrLf h₁ h₂), if_neg hq,
        if_neg hb, if_neg hb', if_neg hs, Text.withCrLf_cons hn, Text.withCrLf_nil]

/-! ## Nodes -/

/-- What a node says, with the other line ending. -/
def Kind.withCrLf : Kind → Kind
  | root => .root
  | atRule r => .atRule { r with name := Text.withCrLf r.name, params := Text.withCrLf r.params }
  | styleRule s => .styleRule (Text.withCrLf s)
  | declaration p v => .declaration (Text.withCrLf p) (Text.withCrLf v)
  | comment s => .comment (Text.withCrLf s)

/-- How a node was written, with the other line ending. -/
def Trivia.withCrLf (t : Trivia) : Trivia where
  before := Text.withCrLf t.before
  between := Text.withCrLf t.between
  afterName := Text.withCrLf t.afterName
  after := Text.withCrLf t.after
  left := Text.withCrLf t.left
  right := Text.withCrLf t.right
  sigil := Text.withCrLf t.sigil
  semicolon := t.semicolon

namespace Kind

variable (k : Kind)

@[simp] theorem isComment_withCrLf : k.withCrLf.isComment = k.isComment := by cases k <;> rfl

@[simp] theorem hasBlock_withCrLf : k.withCrLf.hasBlock = k.hasBlock := by cases k <;> rfl

@[simp] theorem isStatement_withCrLf : k.withCrLf.isStatement = k.isStatement := by
  cases k <;> rfl

theorem head_withCrLf (t : Trivia) :
    k.withCrLf.head t.withCrLf = Text.withCrLf (k.head t) := by
  cases k with
  | root => rfl
  | atRule r =>
    cases hv : r.isVariable <;>
      simp [withCrLf, head, Trivia.withCrLf, hv, Text.withCrLf_cons]
  | styleRule s => simp [withCrLf, head, Trivia.withCrLf]
  | declaration p v => simp [withCrLf, head, Trivia.withCrLf]
  | comment s => simp [withCrLf, head, Trivia.withCrLf, Text.withCrLf_cons]

end Kind

theorem cutColon_withCrLf (name s : Text) :
    cutColon (Text.withCrLf name) (Text.withCrLf s)
      = ((cutColon name s).1, Text.withCrLf (cutColon name s).2) := by
  have hcut {name s : Text} (h : ∀ t, s = ':' :: t → False) : cutColon name s = (false, s) := by
    rw [cutColon]
    exact h
  by_cases h : ∃ t, s = ':' :: t
  · obtain ⟨t, rfl⟩ := h
    rw [Text.withCrLf_cons (by decide), cutColon, cutColon, Text.isEmpty_withCrLf]
    split <;> simp [Text.withCrLf_cons]
  · have hs : ∀ t, s = ':' :: t → False := fun t ht => h ⟨t, ht⟩
    have hs' : ∀ t, Text.withCrLf s = ':' :: t → False := by
      intro t ht
      obtain ⟨u, hu, _⟩ := Text.eq_cons_of_withCrLf (by decide) ht
      exact hs u hu
    rw [hcut hs, hcut hs']

theorem AtName.read_withCrLf (s : Text) :
    AtName.read (Text.withCrLf s)
      = ⟨Text.withCrLf (AtName.read s).name, (AtName.read s).isVariable,
          Text.withCrLf (AtName.read s).afterName, Text.withCrLf (AtName.read s).rest⟩ := by
  have htake := Text.takeWhile_withCrLf (p := fun c => !endsName c) rfl s
  have hdrop := Text.dropWhile_withCrLf (p := fun c => !endsName c) rfl s
  simp only [AtName.read, htake, hdrop, cutColon_withCrLf, Text.lead_withCrLf,
    Text.dropLead_withCrLf]

theorem Ending.read_withCrLf (s : Text) :
    Ending.read (Text.withCrLf s) = ((Ending.read s).1, Text.withCrLf (Ending.read s).2) := by
  cases s with
  | nil => rfl
  | cons c s =>
    by_cases hs : c = ';'
    · subst hs
      rfl
    by_cases hb : c = '{'
    · subst hb
      rfl
    have hbare {d : Char} (hs : d ≠ ';') (hb : d ≠ '{') (t : Text) :
        Ending.read (d :: t) = (bare, d :: t) := by
      rw [Ending.read.eq_3]
      · exact fun _ e => hs (List.cons.inj e).1
      · exact fun _ e => hb (List.cons.inj e).1
    rw [hbare hs hb]
    by_cases hn : c = '\n'
    · subst hn
      rfl
    · rw [Text.withCrLf_cons hn]
      exact hbare hs hb _

section StatementNodes

variable (before : Text)

theorem commentNode_withCrLf (inside : Text) :
    commentNode (Text.withCrLf before) (Text.withCrLf inside)
      = ((commentNode before inside).1.withCrLf, (commentNode before inside).2.withCrLf) := by
  simp [commentNode, Kind.withCrLf, Trivia.withCrLf]

theorem mixinNode_withCrLf {sigil : Char} (h : sigil ≠ '\n') (s : Text) :
    mixinNode (Text.withCrLf before) sigil (Text.withCrLf s)
      = ((mixinNode before sigil s).1.withCrLf, (mixinNode before sigil s).2.withCrLf) := by
  have htake := Text.takeWhile_withCrLf (p := fun c => !endsMixinName c) rfl s
  have hdrop := Text.dropWhile_withCrLf (p := fun c => !endsMixinName c) rfl s
  simp [mixinNode, Kind.withCrLf, Trivia.withCrLf, htake, hdrop, Text.withCrLf_cons h]

theorem declarationNode_withCrLf (property value : Text) :
    declarationNode (Text.withCrLf before) (Text.withCrLf property) (Text.withCrLf value)
      = ((declarationNode before property value).1.withCrLf,
          (declarationNode before property value).2.withCrLf) := by
  simp [declarationNode, Kind.withCrLf, Trivia.withCrLf, Text.withCrLf_cons]

theorem statementNode?_of_head {s : Text} (hdot : ∀ t, s = '.' :: t → False)
    (hhash : ∀ t, s = '#' :: t → False) :
    statementNode? before s
      = match s.dropWhile (· ≠ ':') with
        | [] => none
        | _ :: value => some (declarationNode before (s.takeWhile (· ≠ ':')) value) := by
  unfold statementNode?
  split
  · exact (hdot _ rfl).elim
  · exact (hhash _ rfl).elim
  · rfl

theorem statementNode?_withCrLf (s : Text) :
    statementNode? (Text.withCrLf before) (Text.withCrLf s)
      = (statementNode? before s).map (Prod.map Kind.withCrLf Trivia.withCrLf) := by
  by_cases hdot : ∃ t, s = '.' :: t
  · obtain ⟨t, rfl⟩ := hdot
    rw [Text.withCrLf_cons (by decide), statementNode?, mixinNode_withCrLf before (by decide)]
    rfl
  by_cases hhash : ∃ t, s = '#' :: t
  · obtain ⟨t, rfl⟩ := hhash
    rw [Text.withCrLf_cons (by decide), statementNode?, mixinNode_withCrLf before (by decide)]
    rfl
  have hne {c : Char} (hc : c ≠ '\r') (h : ¬ ∃ t, s = c :: t) :
      ∀ t, Text.withCrLf s = c :: t → False := by
    intro t ht
    obtain ⟨u, hu, _⟩ := Text.eq_cons_of_withCrLf hc ht
    exact h ⟨u, hu⟩
  have htake := Text.takeWhile_withCrLf (p := fun c => decide (c ≠ ':')) rfl s
  have hdrop := Text.dropWhile_withCrLf (p := fun c => decide (c ≠ ':')) rfl s
  rw [statementNode?_of_head _ (hne (by decide) hdot) (hne (by decide) hhash),
    statementNode?_of_head before (fun t ht => hdot ⟨t, ht⟩) (fun t ht => hhash ⟨t, ht⟩),
    htake, hdrop]
  cases hs : s.dropWhile (· ≠ ':') with
  | nil => rfl
  | cons c value =>
    have hc : c = ':' := by
      have := List.head?_dropWhile_not (fun c => decide (c ≠ ':')) s
      rw [hs] at this
      simpa using this
    subst hc
    rw [Text.withCrLf_cons (by decide)]
    exact congrArg some (declarationNode_withCrLf before _ value)

end StatementNodes

/-! ## Pieces -/

/-- A piece with the other line ending. -/
def Piece.withCrLf : Piece → Piece
  | node k t e => .node k.withCrLf t.withCrLf e
  | closing before => .closing (Text.withCrLf before)

/-- One step of a sheet with the other line ending. -/
def Step.withCrLf : Step → Step
  | piece p rest => .piece p.withCrLf (Text.withCrLf rest)
  | finished after => .finished (Text.withCrLf after)

theorem Ending.text_withCrLf (e : Ending) : Text.withCrLf e.text = e.text := by cases e <;> rfl

theorem Piece.text_withCrLf (p : Piece) : p.withCrLf.text = Text.withCrLf p.text := by
  cases p with
  | node k t e =>
    rw [withCrLf, text, text, Kind.head_withCrLf, Text.withCrLf_append, Text.withCrLf_append,
      Ending.text_withCrLf]
    rfl
  | closing before => simp [withCrLf, text, Text.withCrLf_cons]

theorem splitHead_withCrLf_zero (s : Text) :
    splitHead 0 [] (Text.withCrLf s)
      = respell (Prod.map Text.withCrLf Text.withCrLf) (splitHead 0 [] s) :=
  splitHead_withCrLf 0 [] s

section Read

variable (before s : Text)

theorem readAtRule_withCrLf :
    readAtRule (Text.withCrLf before) (Text.withCrLf s)
      = respell Step.withCrLf (readAtRule before s) := by
  have hsigil : Text.withCrLf ['@'] = ['@'] := rfl
  unfold readAtRule
  rw [AtName.read_withCrLf]
  simp only [splitHead_withCrLf_zero, bind, Except.bind, pure, Except.pure]
  cases splitHead 0 [] (AtName.read s).rest with
  | error e => rfl
  | ok p =>
    obtain ⟨head, b⟩ := p
    simp only [respell, Prod.map_apply, Ending.read_withCrLf, Step.withCrLf, Piece.withCrLf,
      Kind.withCrLf, Trivia.withCrLf, Text.dropTrail_withCrLf, Text.trail_withCrLf, hsigil,
      Text.withCrLf_nil]

theorem readStatement_withCrLf :
    readStatement (Text.withCrLf before) (Text.withCrLf s)
      = respell Step.withCrLf (readStatement before s) := by
  unfold readStatement
  simp only [splitHead_withCrLf_zero, bind, Except.bind, pure, Except.pure]
  cases splitHead 0 [] s with
  | error e => rfl
  | ok p =>
    obtain ⟨head, b⟩ := p
    simp only [respell, Prod.map_apply, Ending.read_withCrLf]
    by_cases ho : (Ending.read b).1 = .openBrace
    · rw [if_pos ho, if_pos ho]
      simp only [Step.withCrLf, Piece.withCrLf, Kind.withCrLf, Trivia.withCrLf,
        Text.dropTrail_withCrLf, Text.trail_withCrLf, Text.withCrLf_nil]
    · rw [if_neg ho, if_neg ho, statementNode?_withCrLf]
      cases statementNode? before head <;> rfl

theorem readAfter_withCrLf :
    readAfter (Text.withCrLf before) (Text.withCrLf s)
      = respell Step.withCrLf (readAfter before s) := by
  have hne {c : Char} (hc : c ≠ '\r') {u : Text} (hu : Text.withCrLf s = c :: u) :
      ∃ t, s = c :: t ∧ u = Text.withCrLf t := Text.eq_cons_of_withCrLf hc hu
  unfold readAfter
  split
  · rename_i hs
    rw [Text.withCrLf_eq_nil] at hs
    rw [hs]
    rfl
  · rename_i hs
    obtain ⟨t, ht, rfl⟩ := hne (by decide) hs
    rw [ht]
    rfl
  · rename_i hs
    obtain ⟨t, ht, hu⟩ := hne (by decide) hs
    obtain ⟨u, rfl, rfl⟩ := Text.eq_cons_of_withCrLf (by decide) hu.symm
    rw [ht, closeComment?_withCrLf]
    cases hi : closeComment? u with
    | none => simp [respell, Stop.withCrLf, Text.withCrLf_cons, hi]
    | some p => simp [respell, Step.withCrLf, Piece.withCrLf, commentNode_withCrLf, hi]
  · rename_i hs
    obtain ⟨t, ht, rfl⟩ := hne (by decide) hs
    rw [ht]
    exact readAtRule_withCrLf before t
  · rename_i h₁ h₂ h₃ h₄
    split
    · exact absurd rfl h₁
    · exact (h₂ _ rfl).elim
    · exact (h₃ _ rfl).elim
    · exact (h₄ _ rfl).elim
    · exact readStatement_withCrLf before s

theorem readPiece_withCrLf :
    readPiece (Text.withCrLf s) = respell Step.withCrLf (readPiece s) := by
  rw [readPiece, readPiece, Text.takeWhile_withCrLf rfl, Text.dropWhile_withCrLf rfl,
    readAfter_withCrLf]

end Read

end SheetLint
