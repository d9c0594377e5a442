import SheetLint.Proofs.Rule.Walk
import SheetLint.Proofs.Sheet.Placement

/-
  What is reported on a sheet, told by its source. A statement is reported when it is written as the
  standard language writes at-rules and the source does not go on with a newline after it, or after
  the comments that follow it; reports come in the order of the source and point past the semicolon
  (`reports_are_exact`).
-/

namespace SheetLint

/-- Blanks and semicolons come before the first character of a node, so whether a newline is the
    first thing there shows in the node's own text. -/
theorem Node.Written.newline_prefix_iff {m : Node} (h : m.Written) (t : Text) :
    (lineFeed <+: m.raw ++ t ↔ lineFeed <+: m.raw) ∧ (crLf <+: m.raw ++ t ↔ crLf <+: m.raw) := by
  obtain ⟨c, u, hrender, hc⟩ := h.start
  have hcr : c ≠ '\r' := by
    rintro rfl
    exact absurd hc (by decide)
  rw [Node.raw, hrender]
  cases m.trivia.before with
  | nil => simp [lineFeed, crLf, List.cons_prefix_iff, hcr]
  | cons b bs => cases bs <;> simp [lineFeed, crLf, List.cons_prefix_iff]

namespace NewlineAfterSemicolon

/-! ## What the source has to say -/

/-- An at-rule without a block that is no variable, no bare name and no call. -/
def IsStandardStatement (n : Node) : Prop :=
  ∃ r, n.kind = .atRule r ∧ n.trivia.sigil = ['@'] ∧ r.hasBlock = false ∧ r.isVariable = false ∧
    r.params ≠ [] ∧ ¬ (n.trivia.afterName = [] ∧ r.params.head? = some '(')

/-- A node ends in a text right before the rest of it, with a semicolon if it is a statement. -/
def EndsBefore (s : Text) (n : Node) (back : Text) : Prop :=
  ∃ front, n.Between s front ((if n.kind.isStatement then [';'] else []) ++ back)

/-- A statement after which, and after the comments that follow it, the source does not go on with
    a newline, although there is another node. -/
structure Misses (s : Text) (d : Document) (n : Node) : Prop where
  statement : IsStandardStatement n
  newline : ∃ comments m rest, d.following n.id = comments ++ m :: rest ∧
    (∀ c ∈ comments, c.kind.isComment) ∧ m.kind.isComment = false ∧
    ∃ back, EndsBefore s (comments.getLastD n) back ∧ ¬ lineFeed <+: back ∧ ¬ crLf <+: back

theorem EndsBefore.unique {s : Text} {n : Node} {back back' : Text} (h : EndsBefore s n back)
    (h' : EndsBefore s n back') : back = back' := by
  obtain ⟨front, hf⟩ := h
  obtain ⟨front', hf'⟩ := h'
  exact List.append_cancel_left (hf.unique hf').2

theorem isEligible_iff_of_written {n : Node} (h : n.Written) (following : List Node) :
    n.isEligible following ↔ following ≠ [] ∧ IsStandardStatement n := by
  rw [Node.isEligible_iff, IsStandardStatement]
  refine and_congr_right fun _ => exists_congr fun r => and_congr_right fun hr => ?_
  have hcall (hb : r.hasBlock = false) : isDetachedCall r n.trivia = false
      ↔ ¬ (n.trivia.afterName = [] ∧ r.params.head? = some '(') := by
    simp [isDetachedCall, hb]
  rw [h.sigil r hr]
  constructor
  · rintro ⟨hb, hp, hs, hv, hd⟩
    exact ⟨hs, hb, hv, hp, (hcall hb).1 hd⟩
  · rintro ⟨hs, hb, hv, hp, hd⟩
    exact ⟨hb, hp, hs, hv, (hcall hb).2 hd⟩

theorem lacksNewline_iff_of_written {m : Node} (h : m.Written) (t : Text) :
    lacksNewline m ↔ ¬ lineFeed <+: m.raw ++ t ∧ ¬ crLf <+: m.raw ++ t := by
  obtain ⟨c, u, hrender, _⟩ := h.start
  have hne : m.raw ≠ [] := by
    rw [Node.raw, hrender]
    simp
  rw [lacksNewline_iff, (h.newline_prefix_iff t).1, (h.newline_prefix_iff t).2]
  exact and_iff_right hne

section Parse

variable {s : Text} {d : Document} (h : parse s = .ok d)
include h

/-- Where the siblings after a node were passed over up to some node, the text goes on with it. -/
theorem endsBefore_of_site {n m : Node} {comments rest : List Node}
    (hσ : ⟨n, comments ++ m :: rest⟩ ∈ sitesIn d.root.children) :
    ∃ t, EndsBefore s (comments.getLastD n) (m.raw ++ t) := by
  have hlast : ⟨comments.getLastD n, m :: rest⟩ ∈ sitesIn d.root.children := by
    rcases List.eq_nil_or_concat comments with rfl | ⟨cs, p, rfl⟩
    · exact hσ
    · have hsplit : (cs ++ [p]) ++ m :: rest = cs ++ p :: m :: rest := by simp
      rw [List.concat_eq_append] at hσ ⊢
      rw [List.getLastD_concat]
      exact site_of_following hσ hsplit
  obtain ⟨c, front, back, hplace⟩ := between_of_site h hlast
  rw [renderAll_cons] at hplace
  exact ⟨_, front, by simpa using hplace⟩

theorem written_of_site {σ : Site} (hσ : σ ∈ sitesIn d.root.children) : σ.node.Written := by
  refine written_of_parse h ?_
  rw [← map_node_sitesIn]
  exact List.mem_map_of_mem hσ

/-- The rule finds at a site what the source says about it. -/
theorem exists_finding?_iff {σ : Site} (hσ : σ ∈ sitesIn d.root.children) :
    (∃ f, finding? σ.node σ.following = some f) ↔ Misses s d σ.node := by
  have hfollowing := Document.following_of_site (Document.numbered_of_parse h) hσ
  have hwritten := written_of_site h hσ
  -- The first node that is no comment, with the comments before it.
  have hlacks {comments rest : List Node} {m : Node}
      (he : σ.following = comments ++ m :: rest) : ∃ t,
      EndsBefore s (comments.getLastD σ.node) (m.raw ++ t) ∧
        (lacksNewline m ↔ ¬ lineFeed <+: m.raw ++ t ∧ ¬ crLf <+: m.raw ++ t) := by
    obtain ⟨n, following⟩ := σ
    subst he
    obtain ⟨t, ht⟩ := endsBefore_of_site h hσ
    exact ⟨t, ht, lacksNewline_iff_of_written (written_of_site h (site_of_following hσ rfl)) t⟩
  constructor
  · rintro ⟨f, hf⟩
    obtain ⟨_, he, hfirst, hl⟩ := finding?_eq_some.1 hf
    obtain ⟨hm, comments, rest, hsplit, hcomments⟩ := List.find?_eq_some_iff_append.1 hfirst
    obtain ⟨t, hends, hiff⟩ := hlacks hsplit
    refine ⟨((isEligible_iff_of_written hwritten _).1 he).2, comments, f.inspected, rest,
      hfollowing.trans hsplit, fun c hc => by simpa using hcomments c hc, by simpa using hm,
      _, hends, hiff.1 hl⟩
  · rintro ⟨hstatement, comments, m, rest, hsplit, hcomments, hm, back, hends, hback⟩
    rw [hfollowing] at hsplit
    obtain ⟨t, hends', hiff⟩ := hlacks hsplit
    rw [hends.unique hends', ← hiff] at hback
    have he : σ.node.isEligible σ.following :=
      (isEligible_iff_of_written hwritten _).2 ⟨by rw [hsplit]; simp, hstatement⟩
    have hfirst : firstNonComment? σ.following = some m := by
      rw [firstNonComment?, List.find?_eq_some_iff_append]
      exact ⟨by simp [hm], comments, rest, hsplit, fun c hc => by simp [hcomments c hc]⟩
    exact ⟨⟨σ.node, m⟩, finding?_eq_some.2 ⟨rfl, he, hfirst, hback⟩⟩

theorem misses_of_mem_findings {f : Finding} (hf : f ∈ findings d) : Misses s d f.statement := by
  obtain ⟨σ, hσ, hf⟩ := mem_findingsIn_iff.1 hf
  rw [(finding?_eq_some.1 hf).1]
  exact (exists_finding?_iff h hσ).1 ⟨f, hf⟩

theorem exists_finding_of_misses {n : Node} (hn : n ∈ d.nodes) (hm : Misses s d n) :
    ∃ f ∈ findings d, f.statement = n := by
  rw [Document.nodes_eq, ← map_node_sitesIn] at hn
  rcases List.mem_cons.1 hn with rfl | hn
  · -- The root is no at-rule.
    obtain ⟨_, _, hd⟩ := readable_of_parse h
    obtain ⟨r, hr, _⟩ := hm.statement
    rw [hd] at hr
    cases hr
  · obtain ⟨σ, hσ, rfl⟩ := List.mem_map.1 hn
    obtain ⟨f, hf⟩ := (exists_finding?_iff h hσ).2 hm
    exact ⟨f, mem_findingsIn_iff.2 ⟨σ, hσ, hf⟩, (finding?_eq_some.1 hf).1⟩

/-- A finding is reported just past the semicolon of its statement. -/
theorem place_of_mem_findings {f : Finding} (hf : f ∈ findings d) :
    ∃ front back, f.statement.Between s front (';' :: back) ∧
      (f.diagnostic d).position = some (Position.after (front ++ f.statement.render ++ [';'])) := by
  obtain ⟨σ, hσ, hf⟩ := mem_findingsIn_iff.1 hf
  obtain ⟨hn, he, _⟩ := finding?_eq_some.1 hf
  obtain ⟨hst, _⟩ := isStatement_of_isEligible he
  obtain ⟨hne, _⟩ := Node.isEligible_iff.1 he
  obtain ⟨c, front, back, hplace⟩ := between_of_site h hσ
  rw [hst, List.isEmpty_eq_false_iff.2 hne, Bool.not_false, Bool.or_true, Bool.and_self,
    if_pos rfl, ← hn, List.append_assoc, List.singleton_append] at hplace
  refine ⟨front, _, hplace, ?_⟩
  have hsource := source_of_parse h
  have hup : Text.upTo? s (Text.bytes front) = some front := by
    rw [hplace.text, List.append_assoc]
    exact Text.upTo?_bytes front _
  have htake : s.take (front.length + (f.statement.render.length + 1))
      = front ++ f.statement.render ++ [';'] := by
    have hlen : front.length + (f.statement.render.length + 1)
        = (front ++ f.statement.render ++ [';']).length := by simp
    rw [hplace.text, List.append_cons, hlen, List.take_left]
  rw [Finding.diagnostic, Document.position?, hplace.offset, hsource]
  simp only [bind, Option.bind, hup, pure, htake]

theorem node?_of_mem_findings {f : Finding} (hf : f ∈ findings d) :
    d.node? f.statement.id = some f.statement := by
  obtain ⟨σ, hσ, hf⟩ := mem_findingsIn_iff.1 hf
  rw [(finding?_eq_some.1 hf).1]
  exact Document.node?_of_site (Document.numbered_of_parse h) hσ

/-- Findings come in the order of the source. -/
theorem pairwise_findings :
    (findings d).Pairwise fun f g => f.statement.Precedes g.statement := by
  have hsites : (sitesIn d.root.children).Pairwise fun σ τ => σ.node.Precedes τ.node := by
    rw [← List.pairwise_map, map_node_sitesIn]
    exact pairwise_precedes_of_parse h
  rw [findings, findingsIn, List.pairwise_filterMap]
  refine hsites.imp ?_
  intro σ τ hστ f hf g hg
  rw [(finding?_eq_some.1 hf).1, (finding?_eq_some.1 hg).1]
  exact hστ

end Parse

/-! ## Reports -/

/-- What the reports on a sheet have to do with its source. -/
structure Exact (s : Text) (d : Document) (reports : List Diagnostic) : Prop where
  run_eq : run (some "always") .report d = (d, .completed reports 0)
  /-- Reports are about the statements that the source misses a newline after. -/
  reported_iff : ∀ id, (∃ r ∈ reports, r.node = some id) ↔
    ∃ n, d.node? id = some n ∧ Misses s d n
  /-- No statement is reported twice. -/
  once : (reports.map (·.node)).Nodup
  /-- Each is reported before those that stand after it in the source. -/
  increasing : reports.Pairwise fun r r' => ∃ n n',
    r.node.bind d.node? = some n ∧ r'.node.bind d.node? = some n' ∧ n.Precedes n'
  /-- A report points past the semicolon of its statement. -/
  place : ∀ r ∈ reports, ∃ n front back,
    r.node.bind d.node? = some n ∧ n.Between s front (';' :: back) ∧
    r.index = some (n.render.length + 1) ∧
    r.position = some (Position.after (front ++ n.render ++ [';']))

/-- What is reported on a sheet, and where, is what its source says. -/
theorem reports_are_exact {s : Text} {d : Document} (h : parse s = .ok d) :
    ∃ reports, Exact s d reports := by
  have horder := pairwise_findings h
  refine ⟨(findings d).map (·.diagnostic d), ?_, fun id => ⟨?_, ?_⟩, ?_, ?_, ?_⟩
  · rw [run_always, walk_report (Document.numbered_of_parse h)]
  · rintro ⟨r, hr, hid⟩
    obtain ⟨f, hf, rfl⟩ := List.mem_map.1 hr
    obtain rfl : f.statement.id = id := Option.some.inj hid
    exact ⟨f.statement, node?_of_mem_findings h hf, misses_of_mem_findings h hf⟩
  · rintro ⟨n, hn, hmisses⟩
    obtain ⟨hmem, rfl⟩ := Document.mem_of_node? hn
    obtain ⟨f, hf, rfl⟩ := exists_finding_of_misses h hmem hmisses
    exact ⟨f.diagnostic d, List.mem_map_of_mem hf, rfl⟩
  · -- A node that stood before itself would start before it starts.
    rw [List.map_map, List.Nodup, List.pairwise_map]
    refine horder.imp_of_mem ?_
    intro f g hf hg hfg he
    have hid := Option.some.inj he
    have hf' := node?_of_mem_findings h hf
    rw [hid, node?_of_mem_findings h hg] at hf'
    obtain ⟨i, j, hi, hj, hlt⟩ := hfg
    rw [← Option.some.inj hf', hj] at hi
    have := Option.some.inj hi
    omega
  · rw [List.pairwise_map]
    refine horder.imp_of_mem ?_
    intro f g hf hg hfg
    exact ⟨_, _, node?_of_mem_findings h hf, node?_of_mem_findings h hg, hfg⟩
  · intro r hr
    obtain ⟨f, hf, rfl⟩ := List.mem_map.1 hr
    obtain ⟨front, back, hplace, hposition⟩ := place_of_mem_findings h hf
    exact ⟨f.statement, front, back, node?_of_mem_findings h hf, hplace, rfl, hposition⟩

/-- A sheet with a statement that comments follow, one before a newline, one before a blank and a
    newline, and a call; a character of it has two bytes. -/
def spacedSheet : Text :=
  "@a \"é\";/* b */ /* c */@d e;\r\n@f g; \n@h(i);@j k".toList

theorem reports_are_exact_spacedSheet :
    ∃ d reports, parse spacedSheet = .ok d ∧ Exact spacedSheet d reports ∧
      reports.map (·.position) = [some ⟨1, 8⟩, some ⟨2, 6⟩] := by
  have hpositions : (parse spacedSheet).toOption.map
      (fun d => (run (some "always") .report d).2.diagnostics.map (·.position))
        = some [some ⟨1, 8⟩, some ⟨2, 6⟩] := by decide +kernel
  cases hd : parse spacedSheet with
  | error e =>
    rw [hd] at hpositions
    cases hpositions
  | ok d =>
    obtain ⟨reports, hr⟩ := reports_are_exact hd
    rw [hd] at hpositions
    have hlist : (run (some "always") .report d).2.diagnostics.map (·.position)
        = [some ⟨1, 8⟩, some ⟨2, 6⟩] := Option.some.inj hpositions
    rw [hr.run_eq] at hlist
    exact ⟨d, reports, rfl, hr, hlist⟩

end NewlineAfterSemicolon

end SheetLint
