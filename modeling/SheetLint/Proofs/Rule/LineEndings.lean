import SheetLint.Proofs.Rule.Insertion
import SheetLint.Proofs.Sheet.Respelling

/-
  The rule does not depend on the line ending of a sheet (`line_endings_do_not_matter`). With a
  carriage return put before each line feed, a sheet is read or not as before, the same nodes are
  reported at the same lines and columns, and what fixing makes of it is the fixed sheet with a
  carriage return before each line feed, those that fixing put in among them.
-/

namespace SheetLint

theorem Text.head?_withCrLf {c : Char} (hr : c ≠ '\r') (hn : c ≠ '\n') (s : Text) :
    (withCrLf s).head? = some c ↔ s.head? = some c := by
  constructor
  · intro h
    obtain ⟨t, ht⟩ := List.head?_eq_some_iff.1 h
    obtain ⟨u, rfl, _⟩ := eq_cons_of_withCrLf hr ht
    rfl
  · intro h
    obtain ⟨t, rfl⟩ := List.head?_eq_some_iff.1 h
    rw [withCrLf_cons hn]
    rfl

theorem map_eq_of_forall₂ {α β γ : Type} {R : α → β → Prop} {as : List α} {bs : List β}
    (h : List.Forall₂ R as bs) {f : α → γ} {g : β → γ}
    (hfg : ∀ a ∈ as, ∀ b ∈ bs, R a b → f a = g b) : as.map f = bs.map g := by
  induction h with
  | nil => rfl
  | cons hab _ ih =>
    rw [List.map_cons, List.map_cons, hfg _ List.mem_cons_self _ List.mem_cons_self hab,
      ih fun a ha b hb => hfg a (List.mem_cons_of_mem _ ha) b (List.mem_cons_of_mem _ hb)]

namespace NewlineAfterSemicolon

/-! ## Findings -/

section Spelled

variable {s : Text} {n m : Node} {ns ms : List Node}

theorem isEmpty_of_spelled (h : List.Forall₂ (Node.Spelled s) ns ms) :
    ms.isEmpty = ns.isEmpty := by
  cases h <;> rfl

theorem isEligible_of_spelled (h : n.Spelled s m) (hs : List.Forall₂ (Node.Spelled s) ns ms) :
    m.isEligible ms = n.isEligible ns := by
  have hcall (t : Text) : ((Text.withCrLf t).head? == some '(') = (t.head? == some '(') := by
    rw [Bool.eq_iff_iff, beq_iff_eq, beq_iff_eq, Text.head?_withCrLf (by decide) (by decide)]
  unfold Node.isEligible Node.isStandardAtRule
  rw [isEmpty_of_spelled hs, h.kind, h.trivia]
  cases n.kind with
  | atRule r => simp [Kind.withCrLf, Kind.hasBlock, isDetachedCall, Trivia.withCrLf, hcall]
  | _ => rfl

theorem firstNonComment?_of_spelled (h : List.Forall₂ (Node.Spelled s) ns ms) :
    Option.Rel (Node.Spelled s) (firstNonComment? ns) (firstNonComment? ms) := by
  induction h with
  | nil => exact .none
  | @cons n m ns ms hnm _ ih =>
    rw [firstNonComment?, firstNonComment?, List.find?_cons, List.find?_cons, hnm.kind,
      Kind.isComment_withCrLf]
    cases n.kind.isComment with
    | false => exact .some hnm
    | true => exact ih

variable (hs : '\r' ∉ s)
include hs

/-- A newline is missing where it was: without a carriage return in it, a text that starts with
    the one line ending starts with the other when it is spelled anew, and no other text does. -/
theorem lacksNewline_of_spelled (h : n.Spelled s m) : lacksNewline m = lacksNewline n := by
  have hraw : m.raw = Text.withCrLf n.raw := by
    rw [Node.raw, Node.raw, h.trivia, h.render, Text.withCrLf_append]
    rfl
  have hcr : '\r' ∉ n.raw := fun hc => hs (h.raw.subset hc)
  rw [Bool.eq_iff_iff, lacksNewline_iff, lacksNewline_iff, hraw]
  cases hn : n.raw with
  | nil => rfl
  | cons c t =>
    by_cases hc : c = '\n'
    · subst hc
      simp [Text.withCrLf_lineFeed, lineFeed, crLf]
    · have hc' : c ≠ '\r' := by
        rintro rfl
        rw [hn] at hcr
        exact hcr List.mem_cons_self
      rw [Text.withCrLf_cons hc]
      simp [lineFeed, crLf, List.cons_prefix_iff, hc, hc']

/-- A finding and the same finding with the other line ending. -/
def Finding.Spelled (s : Text) (f g : Finding) : Prop :=
  f.statement.Spelled s g.statement ∧ f.inspected.Spelled s g.inspected

theorem finding?_of_spelled {σ τ : Site} (h : σ.Spelled s τ) :
    Option.Rel (Finding.Spelled s) (finding? σ.node σ.following)
      (finding? τ.node τ.following) := by
  obtain ⟨hnode, hfollowing⟩ := h
  have hfirst := firstNonComment?_of_spelled hfollowing
  unfold finding?
  rw [isEligible_of_spelled hnode hfollowing]
  by_cases hel : σ.node.isEligible σ.following
  · rw [if_pos hel, if_pos hel]
    generalize firstNonComment? σ.following = a at hfirst ⊢
    generalize firstNonComment? τ.following = b at hfirst ⊢
    cases hfirst with
    | none => exact .none
    | some hnm =>
      dsimp only
      rw [lacksNewline_of_spelled hs hnm]
      split
      · exact .some ⟨hnode, hnm⟩
      · exact .none
  · rw [if_neg hel, if_neg hel]
    exact .none

section Parse

variable {d e : Document} (h : parse s = .ok d) (he : parse (Text.withCrLf s) = .ok e)
include h he

theorem findings_of_spelled :
    List.Forall₂ (Finding.Spelled s) (findings d) (findings e) :=
  List.rel_filterMap (fun _ _ hστ => finding?_of_spelled hs hστ) (spelled_sites_of_parse h he)

theorem lacking_of_spelled : lacking e = lacking d := by
  rw [lacking, lacking]
  exact (map_eq_of_forall₂ (findings_of_spelled hs h he) fun f _ g _ hfg => hfg.2.id.symm).symm

/-- A report without the number of characters in its statement. -/
def withoutIndex (r : Diagnostic) : Diagnostic := { r with index := none }

theorem diagnostics_of_spelled :
    ((findings d).map (·.diagnostic d)).map withoutIndex
      = ((findings e).map (·.diagnostic e)).map withoutIndex := by
  rw [List.map_map, List.map_map]
  refine map_eq_of_forall₂ (findings_of_spelled hs h he) fun f hf g hg hfg => ?_
  obtain ⟨front, back, hplace, hposition⟩ := place_of_mem_findings h hf
  obtain ⟨front', back', hplace', hposition'⟩ := place_of_mem_findings he hg
  have hsame : (g.diagnostic e).position = (f.diagnostic d).position := by
    have htext : front' ++ g.statement.render ++ [';']
        = Text.withCrLf (front ++ f.statement.render ++ [';']) := by
      rw [hfg.1.front_eq hplace hplace', hfg.1.render]
      simp [Text.withCrLf_cons]
    rw [hposition, hposition', htext, Position.after_withCrLf]
  show withoutIndex (f.diagnostic d) = withoutIndex (g.diagnostic e)
  simp only [withoutIndex, Finding.diagnostic] at hsame ⊢
  rw [hsame, hfg.1.id]

end Parse

end Spelled

/-! ## The fixed text -/

theorem putNewline_withCrLf (n : Node) :
    putNewline crLf n.withCrLf = (putNewline lineFeed n).withCrLf := by
  unfold putNewline Node.withCrLf Trivia.withCrLf
  rw [Text.withCrLf_append]
  rfl

section Parse

variable {s : Text} {d e : Document} (hr : '\r' ∉ s) (hn : '\n' ∈ s) (h : parse s = .ok d)
  (he : parse (Text.withCrLf s) = .ok e)

include hr h in
theorem newline_eq_lineFeed : d.newline = lineFeed := by
  rw [Document.newline, source_of_parse h, if_neg]
  rw [hasCrLf_iff]
  intro hc
  exact hr (hc.subset List.mem_cons_self)

include hn he in
theorem newline_eq_crLf : e.newline = crLf := by
  rw [Document.newline, source_of_parse he, if_pos]
  rw [hasCrLf_iff]
  obtain ⟨a, b, rfl⟩ := List.append_of_mem hn
  exact ⟨Text.withCrLf a, Text.withCrLf b, by simp [Text.withCrLf_lineFeed, crLf]⟩

include hr hn h he in
theorem render_broken_withCrLf :
    (broken e (lacking e)).render = Text.withCrLf (broken d (lacking d)).render := by
  have hplace (newline : Text) := Node.updateWhere_everywhere (inPlace_putNewline newline)
    inPlace_unplaced (inPlace_putNewline newline) fun _ => rfl
  have hspell := Node.updateWhere_everywhere (inPlace_putNewline lineFeed) inPlace_withCrLf
    (inPlace_putNewline crLf) putNewline_withCrLf
  unfold broken Document.updateWhere Document.render
  rw [newline_eq_lineFeed hr h, newline_eq_crLf hn he, lacking_of_spelled hr h he]
  generalize (fun i => decide (i ∈ lacking d)) = selected
  -- Where the nodes stand is different, and of no account for the text.
  calc (e.root.updateWhere selected (putNewline crLf)).render
      = ((e.root.everywhere Node.unplaced).updateWhere selected (putNewline crLf)).render := by
        rw [hplace, Node.render_unplaced]
    _ = (((d.root.everywhere Node.withCrLf).updateWhere selected
          (putNewline crLf)).everywhere Node.unplaced).render := by
        rw [unplaced_root_withCrLf h he, hplace]
    _ = Text.withCrLf (d.root.updateWhere selected (putNewline lineFeed)).render := by
        rw [Node.render_unplaced, hspell, Node.render_withCrLf]

end Parse

/-- A document and the document of the same sheet with the other line ending, for the rule. -/
structure Respelled (d e : Document) : Prop where
  /-- The nodes are the same, with the other line ending in all their texts. -/
  root : e.root.everywhere Node.unplaced
    = (d.root.everywhere Node.withCrLf).everywhere Node.unplaced
  /-- What is reported is the same, but for the number of characters in the statements. -/
  report : ∃ reports reports', run (some "always") .report d = (d, .completed reports 0) ∧
    run (some "always") .report e = (e, .completed reports' 0) ∧
    reports.map withoutIndex = reports'.map withoutIndex
  /-- As much is fixed, and the fixed text is the same but for the line endings. -/
  fix : ∃ fixed fixed' n, run (some "always") .fix d = (fixed, .completed [] n) ∧
    run (some "always") .fix e = (fixed', .completed [] n) ∧
    fixed'.render = Text.withCrLf fixed.render

theorem respelled_of_parse {s : Text} {d e : Document} (hr : '\r' ∉ s) (hn : '\n' ∈ s)
    (h : parse s = .ok d) (he : parse (Text.withCrLf s) = .ok e) : Respelled d e := by
  have hd := Document.numbered_of_parse h
  have he' := Document.numbered_of_parse he
  refine ⟨unplaced_root_withCrLf h he, ⟨_, _, ?_, ?_, diagnostics_of_spelled hr h he⟩,
    broken d (lacking d), broken e (lacking e), (findings d).length, ?_, ?_,
    render_broken_withCrLf hr hn h he⟩
  · rw [run_always, walk_report hd]
  · rw [run_always, walk_report he']
  · rw [run_always, walk_fix hd]
  · rw [run_always, walk_fix he', (findings_of_spelled hr h he).length_eq]

/-- A sheet whose lines end with a line feed, and the same sheet with the other line ending, are
    both read or fail in the same way at the same line and column, and when they are read the rule
    reports and fixes the same. -/
theorem line_endings_do_not_matter {s : Text} (hr : '\r' ∉ s) (hn : '\n' ∈ s) :
    ((∃ d, parse s = .ok d) ↔ ∃ e, parse (Text.withCrLf s) = .ok e) ∧
    (∀ err, parse s = .error err ↔ parse (Text.withCrLf s) = .error err) ∧
    ∀ d e, parse s = .ok d → parse (Text.withCrLf s) = .ok e → Respelled d e := by
  refine ⟨?_, fun err => parse_withCrLf_eq_error_iff.symm, fun d e => respelled_of_parse hr hn⟩
  constructor
  · rintro ⟨d, hd⟩
    exact ⟨_, parse_withCrLf hd⟩
  · rintro ⟨e, he⟩
    cases hs : parse s with
    | ok d => exact ⟨d, rfl⟩
    | error err =>
      rw [parse_withCrLf_eq_error_iff.2 hs] at he
      cases he

/-- A sheet with line ends behind a backslash, in a string, in a comment, in a block and before a
    semicolon that ends no statement. -/
def foldedSheet : Text :=
  "@a b\\\nc; d \x7b@e \"f\\\n\";/* g\n */h: i;\n;\x7d@j k;\n".toList

theorem line_endings_do_not_matter_foldedSheet :
    '\r' ∉ foldedSheet ∧ '\n' ∈ foldedSheet ∧ ∃ d e, parse foldedSheet = .ok d ∧
      parse (Text.withCrLf foldedSheet) = .ok e ∧ (run (some "always") .fix d).2.fixed = 2 ∧
      Respelled d e := by
  have hr : '\r' ∉ foldedSheet := by decide
  have hn : '\n' ∈ foldedSheet := by decide
  have hfixed : (parse foldedSheet).toOption.map (fun d => (run (some "always") .fix d).2.fixed)
      = some 2 := by decide +kernel
  obtain ⟨hboth, _, hsame⟩ := line_endings_do_not_matter hr hn
  cases hd : parse foldedSheet with
  | error e =>
    rw [hd] at hfixed
    cases hfixed
  | ok d =>
    rw [hd] at hfixed
    obtain ⟨e, he⟩ := hboth.1 ⟨d, hd⟩
    exact ⟨hr, hn, d, e, rfl, he, Option.some.inj hfixed, hsame d e hd he⟩

end NewlineAfterSemicolon

end SheetLint
