import SheetLint.Proofs.Arena.Links
import SheetLint.Proofs.Rule.Walk
import SheetLint.Rule.Registry

/-
  Reporting and fixing agree on every document that a program can get hold of, whether it was read
  or built node by node (`report_and_fix_agree`). All that is used of such documents is that their
  nodes have numbers of their own; their texts may be anything, blank ones and roots below the root
  among them.
-/

namespace SheetLint

namespace Document

/-- The documents there are: an empty one or one that was read, and what adding a node below an
    existing one, changing what a node says or how it is written, and running a rule make of one. -/
inductive Reachable : Document → Prop
  | empty : Reachable {}
  | read {s : Text} {d : Document} (h : parse s = .ok d) : Reachable d
  | append {d : Document} (h : Reachable d) {parent : Nat} (hp : parent ∈ d.ids) (kind : Kind)
      (trivia : Trivia) : Reachable (d.append parent kind trivia)
  | edit {d : Document} (h : Reachable d) (id : Nat) (kind : Kind → Kind)
      (trivia : Trivia → Trivia) :
      Reachable (d.update id fun n => { n with kind := kind n.kind, trivia := trivia n.trivia })
  | run {d : Document} (h : Reachable d) (rule : Rule) (option : Option String) (mode : Mode) :
      Reachable (rule.run option mode d).1

end Document

namespace NewlineAfterSemicolon

/-- A run gives the document back, or puts newlines before some of its nodes. -/
theorem run_document {d : Document} (h : d.Numbered) (option : Option String) (mode : Mode) :
    ∃ is, (run option mode d).1 = broken d is := by
  have hd : d = broken d [] := (broken_nil d).symm
  unfold run
  cases checkOption name option accepted with
  | some reason => exact ⟨[], hd⟩
  | none =>
    cases mode with
    | report => exact ⟨[], (congrArg Progress.document (walk_report h)).trans hd⟩
    | fix => exact ⟨_, congrArg Progress.document (walk_fix h)⟩

/-- The nodes of every document are numbered from 0 up, later children higher. -/
theorem ordered_of_reachable {d : Document} (h : d.Reachable) : d.Ordered := by
  induction h with
  | empty => exact Document.ordered_empty
  | read h => exact Document.ordered_of_parse h
  | append _ hp kind trivia ih => exact ih.appendAt hp kind trivia none
  | edit _ id kind trivia ih =>
    have hc : InPlace fun n => { n with kind := kind n.kind, trivia := trivia n.trivia } :=
      ⟨fun _ => rfl, fun _ _ => rfl⟩
    exact Document.Ordered.updateWhere hc ih
  | run _ rule option mode ih =>
    cases rule with
    | newlineAfterSemicolon =>
      obtain ⟨is, he⟩ := run_document ih.toNumbered option mode
      rw [Rule.run, he]
      exact Document.Ordered.updateWhere (inPlace_putNewline _) ih

/-- The nodes of every document have numbers of their own. -/
theorem numbered_of_reachable {d : Document} (h : d.Reachable) : d.Numbered :=
  (ordered_of_reachable h).toNumbered

/-! ## Reports and fixes -/

/-- The number of the node that is looked at for a statement: the first one after it that is not a
    comment. -/
def inspected? (d : Document) (statement : Nat) : Option Nat :=
  (firstNonComment? (d.following statement)).map (·.id)

/-- What the reports on a document, the nodes that they are about and the fixed document have to do
    with each other. -/
structure Agreement (d : Document) (reports : List Diagnostic) (inspected : List Nat)
    (fixed : Document) : Prop where
  /-- Reporting leaves the document as it is. -/
  report : run (some "always") .report d = (d, .completed reports 0)
  /-- Fixing reports nothing, and counts the reports. -/
  fix : run (some "always") .fix d = (fixed, .completed [] reports.length)
  /-- Each report is about a statement with a node after it that is looked at. -/
  statements : reports.map (fun r => r.node.bind (inspected? d)) = inspected.map some
  /-- No node is looked at for two of the statements. -/
  nodup : inspected.Nodup
  /-- There are the same nodes as before, in the same order. -/
  nodes : fixed.source = d.source ∧ fixed.size = d.size ∧ fixed.ids = d.ids
  /-- What they are and how they are linked is the same, but for one newline before each of those
      that are looked at. -/
  contents : ∀ id, fixed.content? id = (d.content? id).map fun c =>
    if id ∈ inspected then { c with trivia.before := d.newline ++ c.trivia.before } else c
  /-- Nothing is left to report. -/
  clean : run (some "always") .report fixed = (fixed, .completed [] 0)

theorem inspected?_of_mem_findings {d : Document} (h : d.Numbered) {f : Finding}
    (hf : f ∈ findings d) : inspected? d f.statement.id = some f.inspected.id := by
  obtain ⟨s, hs, hf⟩ := mem_findingsIn_iff.1 hf
  obtain ⟨hn, _, hfirst, _⟩ := finding?_eq_some.1 hf
  rw [inspected?, hn, Document.following_of_site h hs, hfirst]
  rfl

/-- On every document there is, fixing does what reporting announces, and no more. -/
theorem report_and_fix_agree {d : Document} (h : d.Reachable) :
    ∃ reports inspected fixed, Agreement d reports inspected fixed := by
  have hd := numbered_of_reachable h
  have hall : ∀ i ∈ lacking d, i ∈ lacking d := fun _ hi => hi
  have hb : (broken d (lacking d)).Numbered :=
    Document.Numbered.updateWhere (inPlace_putNewline _) hd
  refine ⟨(findings d).map (·.diagnostic d), lacking d, broken d (lacking d), ?_, ?_, ?_, ?_, ?_,
    ?_, ?_⟩
  · rw [run_always, walk_report hd]
  · rw [run_always, walk_fix hd, List.length_map]
  · rw [lacking, List.map_map, List.map_map]
    exact List.map_congr_left fun f hf => inspected?_of_mem_findings hd hf
  · exact nodup_lackingIn hd.nodup_children
  · exact ⟨rfl, rfl, Document.ids_updateWhere (inPlace_putNewline _) d⟩
  · intro id
    have := @Document.content?_updateWhere (fun i => decide (i ∈ lacking d))
      (fun t => { t with before := d.newline ++ t.before }) d id
    simp only [decide_eq_true_eq] at this
    exact this
  · rw [run_always, walk_report hb, findings_broken hd hall hall]
    rfl

/-- A root below the root, which writes a statement of a lone carriage return, a comment and a
    block that another carriage return stands before. -/
def builtSheet : Document :=
  ((((({} : Document).append 0 (.atRule { name := ['a'], params := ['b'] }) {}).append 0 .root {}
    ).append 2 (.atRule { params := ['\r'] }) {}).append 2 (.comment []) {}
    ).append 2 (.styleRule []) { before := ['\r'] }

theorem report_and_fix_agree_builtSheet :
    ∃ reports inspected fixed,
      Agreement builtSheet reports inspected fixed ∧ reports.length = 2 := by
  have h : builtSheet.Reachable :=
    (((((Document.Reachable.empty.append (by decide +kernel) _ _).append (by decide +kernel) _ _
      ).append (by decide +kernel) _ _).append (by decide +kernel) _ _
      ).append (by decide +kernel) _ _)
  obtain ⟨reports, inspected, fixed, ha⟩ := report_and_fix_agree h
  have hlen : (run (some "always") .report builtSheet).2.diagnostics.length = 2 := by
    decide +kernel
  rw [ha.report] at hlen
  exact ⟨reports, inspected, fixed, ha, hlen⟩

end NewlineAfterSemicolon

end SheetLint
