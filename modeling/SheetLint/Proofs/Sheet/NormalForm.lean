import SheetLint.Proofs.Sheet.Composition

/-
  Sheets in normal form: plain texts, with blanks where a sheet may have them. A document in normal
  form can be read back from its own text: reading finds the same nodes, with the same parts and
  the same blanks, in the same order and at the same depth (`parse_render_of_normal`). Only what a
  block notes about its latest semicolon is made up anew (`Node.note`), since the text of a block
  shows no semicolon that its last statement does not have.
-/

namespace SheetLint

/-! ## The normal form -/

/-- Letters, digits and hyphens. -/
def isWordChar (c : Char) : Bool := c.isAlphanum || c == '-'

/-- Letters and hyphens. -/
def isNameChar (c : Char) : Bool := c.isAlpha || c == '-'

/-- Decided by a look at the characters of the text, and not at all the characters there are. -/
instance Text.decidableForallMem (s : Text) (p : Char → Prop) [DecidablePred p] :
    Decidable (∀ c ∈ s, p c) :=
  List.decidableBAll p s

/-- A text of blanks. -/
def Blank (s : Text) : Prop := ∀ c ∈ s, isBlank c

instance (s : Text) : Decidable (Blank s) := inferInstanceAs (Decidable (∀ c ∈ s, isBlank c))

/-- A text of letters, digits, hyphens and inner spaces. -/
structure Plain (s : Text) : Prop where
  chars : ∀ c ∈ s, isWordChar c ∨ c = ' '
  first : s.head? ≠ some ' '
  last : s.getLast? ≠ some ' '

instance (s : Text) : Decidable (Plain s) :=
  decidable_of_iff ((∀ c ∈ s, isWordChar c ∨ c = ' ') ∧ s.head? ≠ some ' ' ∧ s.getLast? ≠ some ' ')
    ⟨fun ⟨h, hf, hl⟩ => ⟨h, hf, hl⟩, fun ⟨h, hf, hl⟩ => ⟨h, hf, hl⟩⟩

/-- A colon between blanks. -/
def Colon (s : Text) : Prop := ∃ a b, Blank a ∧ Blank b ∧ s = a ++ ':' :: b

theorem colon_iff {s : Text} : Colon s ↔ s.filter (!isBlank ·) = [':'] := by
  constructor
  · rintro ⟨a, b, ha, hb, rfl⟩
    have ha' : a.filter (!isBlank ·) = [] := by
      rw [List.filter_eq_nil_iff]
      intro c hc
      simp [ha c hc]
    have hb' : b.filter (!isBlank ·) = [] := by
      rw [List.filter_eq_nil_iff]
      intro c hc
      simp [hb c hc]
    rw [List.filter_append, List.filter_cons_of_pos (by decide), ha', hb']
    rfl
  · intro h
    obtain ⟨a, b, hs, ha, _, hb⟩ := List.filter_eq_cons_iff.1 h
    rw [List.filter_eq_nil_iff] at hb
    exact ⟨a, b, by simpa [Blank] using ha, by simpa [Blank] using hb, hs⟩

instance (s : Text) : Decidable (Colon s) := decidable_of_iff _ colon_iff.symm

/-- An at-rule in normal form. Its parameters are told from its name by blanks or by a colon. -/
structure AtRule.Normal (t : Trivia) (r : AtRule) : Prop where
  sigil : t.sigil = ['@']
  noMixin : r.isMixin = false
  named : r.name ≠ []
  name : ∀ c ∈ r.name, isNameChar c
  params : Plain r.params
  afterName : Blank t.afterName
  between : Blank t.between
  apart : r.params ≠ [] → r.isVariable = false → t.afterName ≠ []
  together : r.params = [] → t.between = []

instance (t : Trivia) (r : AtRule) : Decidable (r.Normal t) :=
  decidable_of_iff
    (t.sigil = ['@'] ∧ r.isMixin = false ∧ r.name ≠ [] ∧ (∀ c ∈ r.name, isNameChar c) ∧
      Plain r.params ∧ Blank t.afterName ∧ Blank t.between ∧
      (r.params ≠ [] → r.isVariable = false → t.afterName ≠ []) ∧
      (r.params = [] → t.between = []))
    ⟨fun ⟨h₁, h₂, h₃, h₄, h₅, h₆, h₇, h₈, h₉⟩ => ⟨h₁, h₂, h₃, h₄, h₅, h₆, h₇, h₈, h₉⟩,
      fun ⟨h₁, h₂, h₃, h₄, h₅, h₆, h₇, h₈, h₉⟩ => ⟨h₁, h₂, h₃, h₄, h₅, h₆, h₇, h₈, h₉⟩⟩

namespace Kind

/-- The parts and the blanks inside of a node in normal form. -/
def Normal (t : Trivia) : Kind → Prop
  | root => False
  | atRule r => r.Normal t
  | styleRule s => s ≠ [] ∧ Plain s ∧ Blank t.between
  | declaration p v =>
    (p ≠ [] ∧ Plain p) ∧ (v ≠ [] ∧ Plain v) ∧ Colon t.between ∧ Blank t.after
  | comment s => Plain s ∧ Blank t.left ∧ Blank t.right ∧ (s = [] → t.right = [])

instance (t : Trivia) : (k : Kind) → Decidable (k.Normal t)
  | root => inferInstanceAs (Decidable False)
  | atRule r => inferInstanceAs (Decidable (r.Normal t))
  | styleRule _ => inferInstanceAs (Decidable (_ ∧ _))
  | declaration .. => inferInstanceAs (Decidable (_ ∧ _))
  | comment _ => inferInstanceAs (Decidable (_ ∧ _))

/-- The trivia that a node of this kind has; the others are left out. -/
def named (t : Trivia) : Kind → Trivia
  | root => { after := t.after, semicolon := t.semicolon }
  | atRule r =>
    if r.hasBlock then
      { before := t.before, sigil := t.sigil, afterName := t.afterName, between := t.between,
        after := t.after, semicolon := t.semicolon }
    else
      { before := t.before, sigil := t.sigil, afterName := t.afterName, between := t.between }
  | styleRule _ =>
    { before := t.before, between := t.between, after := t.after, semicolon := t.semicolon }
  | declaration .. => { before := t.before, between := t.between, after := t.after }
  | comment _ => { before := t.before, left := t.left, right := t.right }

end Kind

/-- The end of a block in normal form: blanks, which do not follow a statement that no semicolon
    ends. -/
def Trivia.Ends (t : Trivia) (ns : List Node) : Prop :=
  Blank t.after ∧
    (ns.getLast?.any (·.kind.isStatement) = true → t.semicolon = false → t.after = [])

instance (t : Trivia) (ns : List Node) : Decidable (t.Ends ns) :=
  inferInstanceAs (Decidable (_ ∧ _))

/-- A node in normal form. -/
structure Node.Normal (n : Node) : Prop where
  before : Blank n.trivia.before
  trivia : n.trivia = n.kind.named n.trivia
  kind : n.kind.Normal n.trivia
  leaf : n.kind.hasBlock = false → n.children = []
  ends : n.kind.hasBlock → n.trivia.Ends n.children

instance (n : Node) : Decidable n.Normal :=
  decidable_of_iff
    (Blank n.trivia.before ∧ n.trivia = n.kind.named n.trivia ∧ n.kind.Normal n.trivia ∧
      (n.kind.hasBlock = false → n.children.isEmpty) ∧
      (n.kind.hasBlock → n.trivia.Ends n.children))
    ⟨fun ⟨h₁, h₂, h₃, h₄, h₅⟩ => ⟨h₁, h₂, h₃, fun hb => List.isEmpty_iff.1 (h₄ hb), h₅⟩,
      fun ⟨h₁, h₂, h₃, h₄, h₅⟩ => ⟨h₁, h₂, h₃, fun hb => List.isEmpty_iff.2 (h₄ hb), h₅⟩⟩

/-- A document in normal form. -/
structure Document.Normal (d : Document) : Prop where
  kind : d.root.kind = .root
  trivia : d.root.trivia = Kind.root.named d.root.trivia
  ends : d.root.trivia.Ends d.root.children
  nodes : ∀ n ∈ preorder d.root.children, n.Normal

instance (d : Document) : Decidable d.Normal :=
  decidable_of_iff
    (d.root.kind = .root ∧ d.root.trivia = Kind.root.named d.root.trivia ∧
      d.root.trivia.Ends d.root.children ∧ ∀ n ∈ preorder d.root.children, n.Normal)
    ⟨fun ⟨h₁, h₂, h₃, h₄⟩ => ⟨h₁, h₂, h₃, h₄⟩, fun ⟨h₁, h₂, h₃, h₄⟩ => ⟨h₁, h₂, h₃, h₄⟩⟩

/-! ## Reading plain texts and blanks -/

/-- The characters that a head in normal form has after its first one. -/
def isInnerChar (c : Char) : Bool := isWordChar c || isBlank c || c == ':'

section Texts

variable {s b : Text}

theorem ne_of_class {p : Char → Bool} {c d : Char} (hc : p c) (hd : p d = false) : c ≠ d := by
  rintro rfl
  rw [hc] at hd
  cases hd

theorem Blank.filler (h : Blank s) : ∀ c ∈ s, isFiller c := by
  intro c hc
  simp [isFiller, h c hc]

theorem Plain.inner (h : Plain s) : ∀ c ∈ s, isInnerChar c := by
  intro c hc
  rcases h.chars c hc with hw | rfl
  · simp [isInnerChar, hw]
  · rfl

theorem Blank.inner (h : Blank s) : ∀ c ∈ s, isInnerChar c := by
  intro c hc
  simp [isInnerChar, h c hc]

theorem Colon.inner (h : Colon s) : ∀ c ∈ s, isInnerChar c := by
  obtain ⟨x, y, hx, hy, rfl⟩ := h
  exact List.forall_mem_append.2 ⟨hx.inner, List.forall_mem_cons.2 ⟨rfl, hy.inner⟩⟩

theorem isBlank_of_isWordChar {c : Char} (h : isWordChar c) : isBlank c = false := by
  rw [Bool.eq_false_iff]
  intro hb
  simp only [isBlank, Bool.or_eq_true, beq_iff_eq] at hb
  rcases hb with (((rfl | rfl) | rfl) | rfl) | rfl <;> exact absurd h (by decide)

/-- A plain text that is not empty starts with a letter, a digit or a hyphen. -/
theorem Plain.exists_cons (h : Plain s) (hs : s ≠ []) : ∃ c t, s = c :: t ∧ isWordChar c := by
  cases s with
  | nil => exact absurd rfl hs
  | cons c t =>
    refine ⟨c, t, rfl, ?_⟩
    rcases h.chars c List.mem_cons_self with hw | rfl
    · exact hw
    · exact absurd rfl h.first

/-- A plain text starts with no blank, and with blanks after it neither, if it is not empty. -/
theorem Plain.head (h : Plain s) (hb : s = [] → b = []) :
    ∀ c, (s ++ b).head? = some c → isBlank c = false := by
  intro c hc
  by_cases hs : s = []
  · rw [hb hs, hs] at hc
    cases hc
  · obtain ⟨d, t, rfl, hd⟩ := h.exists_cons hs
    rw [← Option.some.inj hc]
    exact isBlank_of_isWordChar hd

theorem Plain.getLast (h : Plain s) : ∀ c, s.getLast? = some c → isBlank c = false := by
  intro c hc
  rcases h.chars c (List.mem_of_getLast? hc) with hw | rfl
  · exact isBlank_of_isWordChar hw
  · exact absurd hc h.last

/-- Blanks are split off in front of a text that starts with none. -/
theorem lead_blank_append (hb : Blank b) (hs : ∀ c, s.head? = some c → isBlank c = false) :
    Text.lead (b ++ s) = b ∧ Text.dropLead (b ++ s) = s := by
  rw [Text.lead, Text.dropLead, List.takeWhile_append_of_pos hb, List.dropWhile_append_of_pos hb]
  cases s with
  | nil => simp
  | cons c s =>
    have hc : ¬ isBlank c = true := by rw [hs c rfl]; simp
    rw [List.takeWhile_cons_of_neg hc, List.dropWhile_cons_of_neg hc, List.append_nil]
    exact ⟨rfl, rfl⟩

/-- Blanks are split off after a text that ends with none. -/
theorem trail_append_blank (hs : ∀ c, s.getLast? = some c → isBlank c = false) (hb : Blank b) :
    Text.dropTrail (s ++ b) = s ∧ Text.trail (s ++ b) = b := by
  have hb' : Blank b.reverse := fun c hc => hb c (List.mem_reverse.1 hc)
  have hs' : ∀ c, s.reverse.head? = some c → isBlank c = false := by
    intro c hc
    rw [List.head?_reverse] at hc
    exact hs c hc
  obtain ⟨hlead, hdrop⟩ := lead_blank_append hb' hs'
  rw [Text.lead] at hlead
  rw [Text.dropLead] at hdrop
  rw [Text.dropTrail, Text.trail, List.reverse_append, hlead, hdrop, List.reverse_reverse,
    List.reverse_reverse]
  exact ⟨rfl, rfl⟩

end Texts

/-- A head in normal form goes on to the character that ends it. -/
theorem splitHead_inner {s r : Text} (hs : ∀ c ∈ s, isInnerChar c) (hr : Stops r) :
    splitHead 0 [] (s ++ r) = .ok (s, r) := by
  induction s with
  | nil =>
    cases r with
    | nil => rw [List.append_nil, splitHead, if_pos rfl]
    | cons c r =>
      have hc := hr c rfl
      rw [List.nil_append, splitHead_cons]
      · rcases hc with rfl | rfl | rfl <;> rfl
      · rcases hc with rfl | rfl | rfl <;> exact ⟨by simp, by simp⟩
  | cons c s ih =>
    have hne (d : Char) (hd : isInnerChar d = false) : c ≠ d :=
      ne_of_class (hs c List.mem_cons_self) hd
    have halone : StandsAlone c (s ++ r) :=
      ⟨fun h => absurd h (hne _ (by decide)), fun h => absurd h (hne _ (by decide))⟩
    rw [List.cons_append, splitHead_cons halone, ih fun d hd => hs d (List.mem_cons_of_mem _ hd)]
    simp only [hne '"' (by decide), hne '\'' (by decide), hne '(' (by decide),
      hne '[' (by decide), hne ')' (by decide), hne ']' (by decide), hne ';' (by decide),
      hne '{' (by decide), hne '}' (by decide), or_self, and_false, if_false]
    rfl

/-- What an ending is read from; a statement without one stands at the end of the sheet or of a
    block. -/
def Ending.Before (r : Text) (e : Ending) : Prop := e = .bare → r = [] ∨ ∃ t, r = '}' :: t

section Endings

variable {e : Ending} {r : Text} (h : e.Before r)
include h

theorem Ending.Before.read : Ending.read (e.text ++ r) = (e, r) := by
  cases e with
  | bare => rcases h rfl with rfl | ⟨t, rfl⟩ <;> rfl
  | semicolon => rfl
  | openBrace => rfl

theorem Ending.Before.stops : Stops (e.text ++ r) := by
  intro c hc
  cases e with
  | bare =>
    rcases h rfl with rfl | ⟨t, rfl⟩
    · cases hc
    · exact Or.inr (Or.inr (Option.some.inj hc).symm)
  | semicolon => exact Or.inl (Option.some.inj hc).symm
  | openBrace => exact Or.inr (Or.inl (Option.some.inj hc).symm)

end Endings

/-! ## Nodes in normal form are read off -/

theorem not_endsName_of_isNameChar {c : Char} (h : isNameChar c) : endsName c = false := by
  rw [Bool.eq_false_iff]
  intro he
  simp only [endsName, isBlank, Bool.or_eq_true, beq_iff_eq] at he
  have hne (d : Char) (hd : isNameChar d = false) : c ≠ d := ne_of_class h hd
  simp only [hne ' ' (by decide), hne '\t' (by decide), hne '\n' (by decide), hne '\r' (by decide),
    hne '\x0c' (by decide), hne '(' (by decide), hne '{' (by decide), hne '}' (by decide),
    hne ';' (by decide), hne ':' (by decide), hne '"' (by decide), hne '\'' (by decide),
    hne '/' (by decide), or_self] at he

/-- The name of an at-rule ends where its colon, its blanks or its parameters start. -/
theorem AtName.read_of_normal {t : Trivia} {a : AtRule} (h : a.Normal t) :
    AtName.read (a.name ++ ((if a.isVariable then [':'] else [])
        ++ (t.afterName ++ (a.params ++ t.between))))
      = ⟨a.name, a.isVariable, t.afterName, a.params ++ t.between⟩ := by
  have hname : ∀ c ∈ a.name, !endsName c := by
    intro c hc
    rw [not_endsName_of_isNameChar (h.name c hc)]
    rfl
  obtain ⟨hlead, hdrop⟩ := lead_blank_append h.afterName (h.params.head h.together)
  have hnamed : a.name.isEmpty = false := by
    rw [List.isEmpty_eq_false_iff]
    exact h.named
  unfold AtName.read
  rw [List.takeWhile_append_of_pos hname, List.dropWhile_append_of_pos hname]
  cases hv : a.isVariable with
  | true =>
    simp [cutColon, hnamed, hlead, hdrop, endsName]
  | false =>
    -- What follows starts with a blank, or nothing follows.
    have hcut : (t.afterName ++ (a.params ++ t.between)).takeWhile (!endsName ·) = [] ∧
        (t.afterName ++ (a.params ++ t.between)).dropWhile (!endsName ·)
          = t.afterName ++ (a.params ++ t.between) ∧
        cutColon a.name (t.afterName ++ (a.params ++ t.between))
          = (false, t.afterName ++ (a.params ++ t.between)) := by
      cases hs : t.afterName with
      | nil =>
        have hp : a.params = [] := by
          by_contra hp
          exact h.apart hp hv hs
        rw [hp, h.together hp]
        exact ⟨rfl, rfl, rfl⟩
      | cons c s =>
        have hb : isBlank c = true := h.afterName c (by rw [hs]; exact List.mem_cons_self)
        have he : endsName c = true := by simp [endsName, hb]
        have hc : c ≠ ':' := by
          rintro rfl
          cases hb
        refine ⟨by simp [he], by simp [he], ?_⟩
        rw [List.cons_append, cutColon]
        intro u hu
        exact hc (List.cons.inj hu).1
    simp [hcut, hlead, hdrop]

section Pieces

variable {t : Trivia} {before r : Text} {e : Ending}

theorem readAtRule_of_normal {a : AtRule} (h : a.Normal t) (he : e.Before r)
    (hopen : a.hasBlock = (e == .openBrace)) :
    readAtRule before (a.name ++ ((if a.isVariable then [':'] else [])
        ++ (t.afterName ++ (a.params ++ t.between))) ++ (e.text ++ r))
      = .ok (.piece (.node (.atRule a) {
          before, sigil := ['@'], afterName := t.afterName, between := t.between } e) r) := by
  have hinner : ∀ c ∈ a.params ++ t.between, isInnerChar c :=
    List.forall_mem_append.2 ⟨h.params.inner, h.between.inner⟩
  obtain ⟨htail, htrail⟩ := trail_append_blank h.params.getLast h.between
  unfold readAtRule
  rw [AtName.read_append he.stops, AtName.read_of_normal h]
  simp only [splitHead_inner hinner he.stops, he.read, htail, htrail, ← hopen, bind, Except.bind,
    pure, Except.pure]
  rw [← h.noMixin]

theorem readStatement_of_selector {s : Text} (hs : Plain s) (hb : Blank t.between) :
    readStatement before (s ++ t.between ++ '{' :: r)
      = .ok (.piece (.node (.styleRule s) { before, between := t.between } .openBrace) r) := by
  have hinner : ∀ c ∈ s ++ t.between, isInnerChar c :=
    List.forall_mem_append.2 ⟨hs.inner, hb.inner⟩
  have hstops : Stops ('{' :: r) := by
    intro c hc
    exact Or.inr (Or.inl (Option.some.inj hc).symm)
  obtain ⟨htail, htrail⟩ := trail_append_blank hs.getLast hb
  unfold readStatement
  simp only [splitHead_inner hinner hstops, Ending.read, htail, htrail, bind, Except.bind,
    if_true, pure, Except.pure]

theorem statementNode?_of_declaration {p v : Text} (hp : p ≠ [] ∧ Plain p)
    (hv : v ≠ [] ∧ Plain v) (hbetween : Colon t.between) (hafter : Blank t.after) :
    statementNode? before (p ++ t.between ++ v ++ t.after)
      = some (.declaration p v, { before, between := t.between, after := t.after }) := by
  obtain ⟨a, b, ha, hb, hab⟩ := hbetween
  obtain ⟨c, p', hc, hcw⟩ := hp.2.exists_cons hp.1
  have hfirst (d : Char) (hd : isWordChar d = false) (s u : Text) : p ++ s ≠ d :: u := by
    rw [hc, List.cons_append]
    exact fun h => ne_of_class hcw hd (List.cons.inj h).1
  have hcolon : ∀ c ∈ p ++ a, decide (c ≠ ':') = true := by
    intro c hc
    rw [decide_eq_true_iff]
    rintro rfl
    rcases List.mem_append.1 hc with hc | hc
    · exact absurd (hp.2.chars _ hc) (by decide)
    · exact absurd (ha _ hc) (by decide)
  have hvalueHead : ∀ c, (v ++ t.after).head? = some c → isBlank c = false :=
    hv.2.head fun h => absurd h hv.1
  have hhead : p ++ t.between ++ v ++ t.after = (p ++ a) ++ ':' :: (b ++ (v ++ t.after)) := by
    rw [hab]
    simp
  obtain ⟨hlead, hdrop⟩ := lead_blank_append hb hvalueHead
  obtain ⟨hproperty, htrail⟩ := trail_append_blank hp.2.getLast ha
  obtain ⟨hvalue, hend⟩ := trail_append_blank hv.2.getLast hafter
  rw [hhead]
  unfold statementNode?
  split
  · rename_i h
    rw [List.append_assoc] at h
    exact absurd h (hfirst '.' (by decide) _ _)
  · rename_i h
    rw [List.append_assoc] at h
    exact absurd h (hfirst '#' (by decide) _ _)
  · rw [List.takeWhile_append_of_pos hcolon, List.dropWhile_append_of_pos hcolon]
    simp [declarationNode, hlead, hdrop, hproperty, htrail, hvalue, hend, hab]

theorem readStatement_of_declaration {p v : Text} (hp : p ≠ [] ∧ Plain p) (hv : v ≠ [] ∧ Plain v)
    (hbetween : Colon t.between) (hafter : Blank t.after) (he : e.Before r)
    (hopen : e ≠ .openBrace) :
    readStatement before (p ++ t.between ++ v ++ t.after ++ (e.text ++ r))
      = .ok (.piece (.node (.declaration p v) {
          before, between := t.between, after := t.after } e) r) := by
  have hinner : ∀ c ∈ p ++ t.between ++ v ++ t.after, isInnerChar c := by
    simp only [List.forall_mem_append]
    exact ⟨⟨⟨hp.2.inner, hbetween.inner⟩, hv.2.inner⟩, hafter.inner⟩
  unfold readStatement
  simp only [splitHead_inner hinner he.stops, he.read, hopen,
    statementNode?_of_declaration hp hv hbetween hafter, bind, Except.bind, if_false, pure,
    Except.pure]

theorem closeComment?_inner {s : Text} (hs : ∀ c ∈ s, isInnerChar c) (r : Text) :
    closeComment? (s ++ '*' :: '/' :: r) = some (s, r) := by
  induction s with
  | nil => rfl
  | cons c s ih =>
    have hc := hs c List.mem_cons_self
    rw [List.cons_append, closeComment?.eq_3, ih fun d hd => hs d (List.mem_cons_of_mem _ hd)]
    · rfl
    · rintro u rfl _
      exact absurd hc (by decide)

theorem readAfter_of_comment {s : Text} (hs : Plain s) (hl : Blank t.left) (hr : Blank t.right)
    (hempty : s = [] → t.right = []) :
    readAfter before ('/' :: '*' :: (t.left ++ (s ++ t.right) ++ '*' :: '/' :: r))
      = .ok (.piece (.node (.comment s) { before, left := t.left, right := t.right } .bare) r) := by
  have hinner : ∀ c ∈ t.left ++ (s ++ t.right), isInnerChar c := by
    simp only [List.forall_mem_append]
    exact ⟨hl.inner, hs.inner, hr.inner⟩
  obtain ⟨hlead, hdrop⟩ := lead_blank_append hl (hs.head hempty)
  obtain ⟨htext, htrail⟩ := trail_append_blank hs.getLast hr
  rw [readAfter, closeComment?_inner hinner]
  simp only [commentNode, hlead, hdrop, htext, htrail]

theorem readAfter_of_isWordChar {c : Char} (hc : isWordChar c) (s : Text) :
    readAfter before (c :: s) = readStatement before (c :: s) := by
  have hne (d : Char) (hd : isWordChar d = false) : c ≠ d := ne_of_class hc hd
  unfold readAfter
  split
  · rename_i h; cases h
  · rename_i h; exact absurd (List.cons.inj h).1 (hne '}' (by decide))
  · rename_i h; exact absurd (List.cons.inj h).1 (hne '/' (by decide))
  · rename_i h; exact absurd (List.cons.inj h).1 (hne '@' (by decide))
  · rfl

end Pieces

theorem isFiller_of_isWordChar {c : Char} (h : isWordChar c) : isFiller c = false := by
  have hc : c ≠ ';' := ne_of_class h (by decide)
  simp [isFiller, isBlank_of_isWordChar h, hc]

/-- A node in normal form, up to its block, is read off in front of every text that its ending
    may stand in front of. -/
theorem Kind.Normal.fitsBefore {k : Kind} {t : Trivia} {e : Ending} {r : Text} (h : k.Normal t)
    (hb : Blank t.before) (ht : t = k.named t) (hopen : e = .openBrace ↔ k.hasBlock)
    (hended : e = .semicolon → k.isStatement) (hbare : k.isStatement → e.Before r)
    (hblock : k.hasBlock → t.after = [] ∧ t.semicolon = false) :
    (Piece.node k t e).FitsBefore r := by
  -- It is enough to read what stands after the blanks.
  have hread {c : Char} {s : Text} (hc : isFiller c = false)
      (hs : k.head t ++ (e.text ++ r) = c :: s)
      (hread : readAfter t.before (c :: s) = .ok (.piece (.node k t e) r)) :
      (Piece.node k t e).FitsBefore r := by
    rw [Piece.FitsBefore, Piece.text, List.append_assoc, List.append_assoc,
      readPiece_append hb.filler, hs, hread]
    intro d hd
    rw [hs] at hd
    rw [← Option.some.inj hd, hc]
  cases k with
  | root => exact absurd h id
  | atRule a =>
    have h : a.Normal t := h
    have hhas : a.hasBlock = (e == .openBrace) := by
      rw [Bool.eq_iff_iff, beq_iff_eq]
      exact hopen.symm
    have he : e.Before r := by
      intro hbar
      refine hbare ?_ hbar
      rw [Kind.isStatement, hhas, hbar]
      rfl
    have htrivia : t = {
        before := t.before, sigil := ['@'], afterName := t.afterName, between := t.between } := by
      by_cases hbl : a.hasBlock
      · rw [Kind.named, if_pos hbl, h.sigil, (hblock hbl).1, (hblock hbl).2] at ht
        exact ht
      · rw [Kind.named, if_neg hbl, h.sigil] at ht
        exact ht
    have hhead : (Kind.atRule a).head t
        = '@' :: (a.name ++ ((if a.isVariable then [':'] else [])
          ++ (t.afterName ++ (a.params ++ t.between)))) := by
      simp [Kind.head, h.sigil]
    refine hread (by decide) (congrArg (· ++ _) hhead) ?_
    refine (readAtRule_of_normal h he hhas).trans ?_
    rw [← htrivia]
  | styleRule s =>
    obtain ⟨hne, hs, hbetween⟩ := h
    obtain ⟨c, u, rfl, hc⟩ := hs.exists_cons hne
    obtain ⟨hafter, hsemicolon⟩ := hblock rfl
    obtain rfl := hopen.2 rfl
    rw [Kind.named, hafter, hsemicolon] at ht
    refine hread (isFiller_of_isWordChar hc) rfl ?_
    rw [readAfter_of_isWordChar hc]
    refine (readStatement_of_selector hs hbetween).trans ?_
    rw [← ht]
    rfl
  | declaration p v =>
    obtain ⟨hp, hv, hbetween, hafter⟩ := h
    obtain ⟨c, u, rfl, hc⟩ := hp.2.exists_cons hp.1
    have ho : e ≠ .openBrace := fun he => absurd (hopen.1 he) (by simp [Kind.hasBlock])
    rw [Kind.named] at ht
    refine hread (isFiller_of_isWordChar hc) rfl ?_
    rw [readAfter_of_isWordChar hc]
    refine (readStatement_of_declaration hp hv hbetween hafter (hbare rfl) ho).trans ?_
    rw [← ht]
  | comment s =>
    obtain ⟨hs, hl, hr, hempty⟩ := h
    have hbar : e = .bare := by
      cases e with
      | bare => rfl
      | semicolon => exact absurd (hended rfl) (by simp [Kind.isStatement])
      | openBrace => exact absurd (hopen.1 rfl) (by simp [Kind.hasBlock])
    subst hbar
    rw [Kind.named] at ht
    have hhead : (Kind.comment s).head t ++ (Ending.bare.text ++ r)
        = '/' :: '*' :: (t.left ++ (s ++ t.right) ++ '*' :: '/' :: r) := by
      simp [Kind.head, Ending.text]
    refine hread (by decide) hhead ?_
    refine (readAfter_of_comment hs hl hr hempty).trans ?_
    rw [← ht]

/-! ## Forests in normal form are read back -/

theorem piece_closing_fitsBefore {after : Text} (h : Blank after) (r : Text) :
    (Piece.closing after).FitsBefore r := by
  have hread : readPiece (after ++ '}' :: r) = readAfter after ('}' :: r) :=
    readPiece_append h.filler fun c hc => by rw [← Option.some.inj hc]; rfl
  rw [Piece.FitsBefore, Piece.text, List.append_assoc]
  exact hread

/-- What may stand after siblings: after a statement that no semicolon ends, only the end of the
    sheet or of a block. -/
def Closes (closed : Bool) (ns : List Node) (rest : Text) : Prop :=
  ns.getLast?.any (·.kind.isStatement) = true → closed = false → rest = [] ∨ ∃ t, rest = '}' :: t

section Opening

variable {k : Kind} {t : Trivia} (hb : k.hasBlock)
include hb

/-- The head of a block does not depend on what the block notes about its end. -/
theorem Kind.Normal.opening (h : k.Normal t) :
    k.Normal { t with after := [], semicolon := false } := by
  cases k with
  | root => exact h
  | atRule a =>
    obtain ⟨h₁, h₂, h₃, h₄, h₅, h₆, h₇, h₈, h₉⟩ := h
    exact ⟨h₁, h₂, h₃, h₄, h₅, h₆, h₇, h₈, h₉⟩
  | styleRule s => exact h
  | declaration p v => cases hb
  | comment s => cases hb

theorem Kind.named_opening (h : t = k.named t) :
    ({ t with after := [], semicolon := false } : Trivia)
      = k.named { t with after := [], semicolon := false } := by
  have hstrip := congrArg (fun t : Trivia => { t with after := [], semicolon := false }) h
  cases k with
  | root => exact hstrip
  | atRule a =>
    have ha : a.hasBlock := hb
    rw [Kind.named, if_pos ha] at hstrip ⊢
    exact hstrip
  | styleRule s => exact hstrip
  | declaration p v => cases hb
  | comment s => cases hb

end Opening

/-- A forest in normal form is read off piece by piece. -/
theorem fitBefore_piecesOf {closed : Bool} {ns : List Node} (h : ∀ n ∈ preorder ns, n.Normal)
    {rest : Text} (hrest : Closes closed ns rest) : FitBefore rest (piecesOf closed ns) := by
  induction ns using forestInduction generalizing closed rest with
  | nil => rw [piecesOf_nil]; trivial
  | cons n ns below after =>
    have hn := h n (mem_preorder_cons.2 (Or.inl rfl))
    have hc : ∀ m ∈ preorder n.children, m.Normal := fun m hm =>
      h m (mem_preorder_cons.2 (Or.inr (Or.inl hm)))
    have hs : ∀ m ∈ preorder ns, m.Normal := fun m hm =>
      h m (mem_preorder_cons.2 (Or.inr (Or.inr hm)))
    have hafter : Closes closed ns rest := by
      intro hlast
      refine hrest ?_
      cases ns with
      | nil => cases hlast
      | cons m ms => rwa [List.getLast?_cons_cons]
    rw [piecesOf_cons, fitBefore_append]
    refine ⟨?_, after hs hafter⟩
    rw [Node.pieces_eq]
    by_cases hb : n.kind.hasBlock
    · rw [if_pos hb, FitBefore, fitBefore_append]
      obtain ⟨hblank, hempty⟩ := hn.ends hb
      refine ⟨?_, below hc ?_, piece_closing_fitsBefore hblank _, trivial⟩
      · exact (hn.kind.opening hb).fitsBefore hn.before (Kind.named_opening hb hn.trivia)
          (by simp [hb]) (by simp) (fun _ => by rintro ⟨⟩) (fun _ => ⟨rfl, rfl⟩)
      · intro hlast hclosed
        rw [hempty hlast hclosed]
        exact Or.inr ⟨_, rfl⟩
    · rw [if_neg hb]
      refine ⟨?_, trivial⟩
      refine hn.kind.fitsBefore hn.before hn.trivia ?_ ?_ ?_ (fun hb' => absurd hb' hb)
      · simp only [hb]
        split <;> simp
      · intro he
        by_cases hst : n.kind.isStatement
        · exact hst
        · simp [hst] at he
      · -- Without a semicolon it is the last statement, and none ends the siblings.
        intro hst he
        have hended : (closed || !ns.isEmpty) = false := by
          rw [hst, Bool.true_and] at he
          cases hc : closed || !ns.isEmpty with
          | false => rfl
          | true => rw [hc] at he; cases he
        obtain ⟨rfl, hempty⟩ := Bool.or_eq_false_iff.1 hended
        obtain rfl : ns = [] := by simpa using hempty
        rw [piecesOf_nil]
        exact hrest hst rfl

/-! ## What reading notes -/

/-- The node with a note of whether the latest statement among its children ends with a semicolon,
    as reading takes it. -/
def Node.note (n : Node) : Node :=
  { n with trivia := { n.trivia with
      semicolon := flagAfter false n.trivia.semicolon n.children } }

/-- The node without its number and its place. -/
def Node.unnumbered (n : Node) : Node := { n with id := 0, offset := none }

section Note

variable (closed : Bool) (ns : List Node)

theorem flagAfter_note (was : Bool) :
    flagAfter was closed (everywhere Node.note ns) = flagAfter was closed ns := by
  induction ns generalizing was with
  | nil => rw [everywhere_nil]
  | cons n ns ih =>
    rw [everywhere_cons, flagAfter, flagAfter, ih, isEmpty_everywhere, Node.everywhere_eq]
    rfl

theorem Node.everywhere_note (n : Node) :
    n.everywhere Node.note
      = { n with
          trivia := { n.trivia with semicolon := flagAfter false n.trivia.semicolon n.children }
          children := SheetLint.everywhere Node.note n.children } := by
  rw [Node.everywhere_eq, Node.note, flagAfter_note]

theorem Node.Normal.notRoot {n : Node} (h : n.Normal) : n.kind ≠ .root := by
  intro hroot
  have hk := h.kind
  rw [hroot] at hk
  exact hk

theorem Node.Normal.semicolon {n : Node} (h : n.Normal) (hb : n.kind.hasBlock = false) :
    n.trivia.semicolon = false := by
  rw [h.trivia]
  cases hk : n.kind with
  | root => rw [hk] at hb; cases hb
  | styleRule s => rw [hk] at hb; cases hb
  | atRule a =>
    have ha : a.hasBlock = false := by rw [hk] at hb; exact hb
    rw [Kind.named, ha]
    rfl
  | declaration p v => rfl
  | comment s => rfl

theorem piecesOf_note (h : ∀ n ∈ preorder ns, n.Normal) :
    piecesOf closed (everywhere Node.note ns) = piecesOf closed ns := by
  induction ns using forestInduction generalizing closed with
  | nil => rw [everywhere_nil]
  | cons n ns below after =>
    have hn := h n (mem_preorder_cons.2 (Or.inl rfl))
    have hc := below n.trivia.semicolon fun m hm => h m (mem_preorder_cons.2 (Or.inr (Or.inl hm)))
    have hs := after closed fun m hm => h m (mem_preorder_cons.2 (Or.inr (Or.inr hm)))
    rw [everywhere_cons, piecesOf_cons, piecesOf_cons, hs, isEmpty_everywhere,
      Node.everywhere_note, Node.pieces_eq, Node.pieces_eq]
    dsimp only
    by_cases hb : n.kind.hasBlock
    · rw [if_pos hb, if_pos hb, ← flagAfter_note, piecesOf_flagAfter, hc]
    · rw [Bool.not_eq_true] at hb
      rw [hb, if_neg Bool.false_ne_true, if_neg Bool.false_ne_true, hn.leaf hb, flagAfter,
        ← hn.semicolon hb]

theorem shapedIn_note (h : ∀ n ∈ preorder ns, n.Normal) : ShapedIn (everywhere Node.note ns) := by
  induction ns using forestInduction with
  | nil =>
    intro m hm
    rw [everywhere_nil, preorder_nil] at hm
    cases hm
  | cons n ns below after =>
    have hn := h n (mem_preorder_cons.2 (Or.inl rfl))
    have hc := below fun m hm => h m (mem_preorder_cons.2 (Or.inr (Or.inl hm)))
    have hs := after fun m hm => h m (mem_preorder_cons.2 (Or.inr (Or.inr hm)))
    rw [everywhere_cons, Node.everywhere_note]
    refine shapedIn_cons.2 ⟨⟨?_, ?_, ?_⟩, hc, hs⟩
    · exact hn.notRoot
    · intro hb
      show everywhere Node.note n.children = []
      rw [hn.leaf hb, everywhere_nil]
    · intro _
      show flagAfter _ _ _ = flagAfter _ (flagAfter _ _ _) _
      rw [flagAfter_note, flagAfter_flagAfter]

theorem settleAll_unnumbered (start number : Nat) :
    everywhere Node.unnumbered (settleAll closed start number ns)
      = everywhere Node.unnumbered ns := by
  induction ns using forestInduction generalizing closed start number with
  | nil => rw [settleAll_nil]
  | cons n ns below after =>
    rw [settleAll_cons, everywhere_cons, everywhere_cons, after, Node.everywhere_eq,
      Node.everywhere_eq, Node.settle_eq, below]
    rfl

end Note

theorem readable_note {d : Document} (h : d.Normal) :
    Readable (flagAfter false d.root.trivia.semicolon d.root.children)
      (everywhere Node.note d.root.children) d.root.trivia.after := by
  obtain ⟨hblank, hempty⟩ := h.ends
  have hcloses : Closes d.root.trivia.semicolon d.root.children d.root.trivia.after :=
    fun hlast hclosed => Or.inl (hempty hlast hclosed)
  refine ⟨shapedIn_note _ h.nodes, ?_, ?_⟩
  · rw [flagAfter_note, flagAfter_flagAfter]
  · rw [piecesOf_note _ _ h.nodes, piecesOf_flagAfter, fit_iff]
    exact ⟨fitBefore_piecesOf h.nodes hcloses, hblank.filler⟩

/-- A document in normal form can be read back from its text. -/
theorem parse_render_of_normal {d : Document} (h : d.Normal) :
    ∃ e, parse d.render = .ok e ∧
      e.root.everywhere Node.unnumbered
        = (d.root.everywhere Node.note).everywhere Node.unnumbered := by
  have hread := readable_note h
  have hrender : d.render
      = renderAll (flagAfter false d.root.trivia.semicolon d.root.children)
          (everywhere Node.note d.root.children) ++ d.root.trivia.after := by
    have hshaped := shapedIn_note _ h.nodes
    rw [← textOf_piecesOf _ _ hshaped, piecesOf_note _ _ h.nodes, piecesOf_flagAfter,
      textOf_piecesOf_of_notRoot _ _ fun n hn => (h.nodes n hn).notRoot, Document.render,
      Node.render_eq, h.kind]
    rfl
  refine ⟨_, (congrArg parse hrender).trans (parse_of_readable hread), ?_⟩
  rw [Node.everywhere_eq, Node.everywhere_note, Node.everywhere_eq]
  simp only [sheetOf, settleAll_unnumbered, Node.unnumbered, h.kind]
  rw [h.trivia]
  rfl

/-- A sheet with a comment, a block in a block, a variable and an empty block, the children of
    which were not added in the order of the sheet. -/
def addedSheet : Document :=
  let name (s : String) : Text := s.toList
  ({} : Document)
    |>.append 0 (.comment (name "a b")) { left := [' '], right := ['\t'] }
    |>.append 0 (.atRule { name := name "media", params := name "x 1", hasBlock := true })
        { before := ['\n'], sigil := ['@'], afterName := [' '], between := [' '], after := ['\r'],
          semicolon := true }
    |>.append 0 (.styleRule (name "e")) { after := ['\x0c'] }
    |>.append 2 (.styleRule (name "f-2 g")) { before := [' '], between := [' '] }
    |>.append 4 (.declaration (name "h") (name "0 i")) { between := [' ', ':'], after := [' '] }
    |>.append 0 (.atRule { name := name "v", params := name "3", isVariable := true })
        { sigil := ['@'], between := [' '] }
    |>.append 2 (.declaration (name "k") (name "l")) { before := ['\n'], between := [':', ' '] }
    |>.update 0 fun root => { root with trivia := { after := ['\n'], semicolon := true } }

theorem parse_render_of_normal_addedSheet :
    addedSheet.Normal ∧ ∃ e, parse addedSheet.render = .ok e ∧
      e.root.everywhere Node.unnumbered
        = (addedSheet.root.everywhere Node.note).everywhere Node.unnumbered := by
  have h : addedSheet.Normal := by decide +kernel
  exact ⟨h, parse_render_of_normal h⟩

end SheetLint
