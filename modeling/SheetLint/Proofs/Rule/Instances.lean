import SheetLint.Linter
import SheetLint.Proofs.Rule.Agreement

/-
  Linters that run the rule several times, each time with an option of its own. When they report,
  every instance sees the same document and says what it would say alone. When they fix, the first
  instance whose option is accepted leaves a document in which nothing is found any more, so the
  others find nothing to do (`runAll_fix`); an instance whose option is refused says so and looks at
  no document (`run_of_ne_always`). Both together are `lintDocument_instances`.
-/

namespace SheetLint

/-- The linter that runs the rule once with each of some options. -/
def Linter.instances (options : List (Option String)) : Linter :=
  options.map fun option => { rule := .newlineAfterSemicolon, option }

/-- Every linter runs the one rule there is. -/
theorem Linter.eq_instances (l : Linter) : l = instances (l.map (·.option)) := by
  unfold instances
  rw [List.map_map]
  conv => lhs; rw [← List.map_id l]
  apply List.map_congr_left
  rintro ⟨⟨⟩, option⟩ _
  rfl

theorem Linter.instances_cons (option : Option String) (options : List (Option String)) :
    instances (option :: options)
      = { rule := .newlineAfterSemicolon, option } :: instances options := rfl

namespace NewlineAfterSemicolon

/-! ## One instance -/

/-- What the rule says of an option that it does not accept. -/
def refusal (option : Option String) : Diagnostic where
  rule := name
  message :=
    match option with
    | none => "Expected option value for rule \"" ++ name ++ "\""
    | some value => "Invalid option value \"" ++ value ++ "\" for rule \"" ++ name ++ "\""
  kind := .invalidOption

/-- What the rule reports about a document when it runs alone. -/
def reports (d : Document) : List Diagnostic := (run (some "always") .report d).2.diagnostics

/-- What the rule makes of a document when it fixes it alone. -/
def mended (d : Document) : Document := (run (some "always") .fix d).1

theorem run_of_ne_always {option : Option String} (h : option ≠ some "always") (mode : Mode)
    (d : Document) : run option mode d = (d, .aborted (refusal option)) := by
  unfold run checkOption accepted
  cases option with
  | none => rfl
  | some value =>
    have hne : value ≠ "always" := fun he => h (congrArg some he)
    simp [hne, refusal]

section Numbered

variable {d : Document} (h : d.Numbered)
include h

theorem run_report :
    run (some "always") .report d = (d, .completed ((findings d).map (·.diagnostic d)) 0) := by
  rw [run_always, walk_report h]

theorem run_fix :
    run (some "always") .fix d
      = (broken d (lacking d), .completed [] (findings d).length) := by
  rw [run_always, walk_fix h]

theorem reports_eq : reports d = (findings d).map (·.diagnostic d) := by
  rw [reports, run_report h]
  rfl

theorem length_reports : (reports d).length = (findings d).length := by
  rw [reports_eq h, List.length_map]

theorem mended_eq : mended d = broken d (lacking d) := by rw [mended, run_fix h]

theorem numbered_mended : (mended d).Numbered := by
  rw [mended_eq h]
  exact Document.Numbered.updateWhere (inPlace_putNewline _) h

/-- Nothing is found in a document that was fixed. -/
theorem findings_mended : findings (mended d) = [] := by
  rw [mended_eq h]
  exact findings_broken h (fun _ hi => hi) fun _ hi => hi

end Numbered

/-- A document in which nothing is found is left as it is. -/
theorem mended_of_findings_eq_nil {d : Document} (h : d.Numbered) (hnone : findings d = []) :
    mended d = d := by
  rw [mended_eq h, lacking, hnone]
  exact broken_nil d

/-! ## Several instances -/

/-- Instances that report leave the document to each other as it is. -/
theorem runAll_report {d : Document} (h : d.Numbered) (options : List (Option String)) :
    ∃ outcomes,
      (Linter.instances options).runAll .report d = (d, outcomes) ∧
      outcomes.flatMap (·.diagnostics)
        = (options.flatMap fun o => if o = some "always" then reports d else [refusal o]) ∧
      outcomes.foldr (fun o n => o.fixed + n) 0 = 0 := by
  induction options with
  | nil => exact ⟨[], rfl, rfl, rfl⟩
  | cons o os ih =>
    obtain ⟨outcomes, hrun, hdiag, hfixed⟩ := ih
    rw [Linter.instances_cons, Linter.runAll, List.flatMap_cons]
    by_cases ho : o = some "always"
    · refine ⟨.completed (reports d) 0 :: outcomes, ?_, ?_, ?_⟩
      · rw [ho, Rule.run, run_report h, ← reports_eq h]
        dsimp only
        rw [hrun]
      · rw [List.flatMap_cons, hdiag, if_pos ho]
        rfl
      · rw [List.foldr_cons, hfixed]
        rfl
    · refine ⟨.aborted (refusal o) :: outcomes, ?_, ?_, ?_⟩
      · rw [Rule.run, run_of_ne_always ho]
        dsimp only
        rw [hrun]
      · rw [List.flatMap_cons, hdiag, if_neg ho]
        rfl
      · rw [List.foldr_cons, hfixed]
        rfl

/-- Of the instances that fix, the first one that is accepted does all there is to do. -/
theorem runAll_fix {d : Document} (h : d.Numbered) (options : List (Option String)) :
    ∃ outcomes,
      (Linter.instances options).runAll .fix d
        = (if some "always" ∈ options then mended d else d, outcomes) ∧
      outcomes.flatMap (·.diagnostics) = (options.filter (· ≠ some "always")).map refusal ∧
      outcomes.foldr (fun o n => o.fixed + n) 0
        = if some "always" ∈ options then (reports d).length else 0 := by
  induction options generalizing d with
  | nil => exact ⟨[], rfl, rfl, rfl⟩
  | cons o os ih =>
    rw [Linter.instances_cons, Linter.runAll]
    by_cases ho : o = some "always"
    · -- What is left to the others is a document in which nothing is found.
      have hnone := findings_mended h
      obtain ⟨outcomes, hrun, hdiag, hfixed⟩ := ih (numbered_mended h)
      rw [mended_of_findings_eq_nil (numbered_mended h) hnone, ite_self] at hrun
      rw [length_reports (numbered_mended h), hnone, List.length_nil, ite_self] at hfixed
      refine ⟨.completed [] (reports d).length :: outcomes, ?_, ?_, ?_⟩
      · rw [ho, Rule.run, run_fix h, ← mended_eq h, ← length_reports h]
        dsimp only
        rw [hrun, if_pos List.mem_cons_self]
      · rw [List.flatMap_cons, hdiag, ho]
        rfl
      · rw [List.foldr_cons, hfixed, ho, if_pos List.mem_cons_self]
        rfl
    · obtain ⟨outcomes, hrun, hdiag, hfixed⟩ := ih h
      have hmem : some "always" ∈ o :: os ↔ some "always" ∈ os := by
        rw [List.mem_cons, or_iff_right (Ne.symm ho)]
      refine ⟨.aborted (refusal o) :: outcomes, ?_, ?_, ?_⟩
      · rw [Rule.run, run_of_ne_always ho]
        dsimp only
        rw [hrun]
        simp only [hmem]
      · rw [List.flatMap_cons, hdiag, List.filter_cons_of_pos (by simpa using ho), List.map_cons]
        rfl
      · rw [List.foldr_cons, hfixed]
        simp only [hmem, Outcome.fixed, Nat.zero_add]

theorem lintDocument_report {d : Document} (h : d.Numbered) (options : List (Option String)) :
    (Linter.instances options).lintDocument .report d
      = (d, {
          diagnostics := options.flatMap fun o =>
            if o = some "always" then reports d else [refusal o]
          fixed := 0
          output := none }) := by
  obtain ⟨outcomes, hrun, hdiag, hfixed⟩ := runAll_report h options
  unfold Linter.lintDocument
  rw [hrun]
  dsimp only
  rw [hdiag, hfixed]
  rfl

theorem lintDocument_fix {d : Document} (h : d.Numbered) (options : List (Option String)) :
    (Linter.instances options).lintDocument .fix d
      = if some "always" ∈ options then
          (mended d, {
            diagnostics := (options.filter (· ≠ some "always")).map refusal
            fixed := (reports d).length
            output := if 0 < (reports d).length then some (mended d).render else none })
        else
          (d, { diagnostics := options.map refusal, fixed := 0, output := none }) := by
  obtain ⟨outcomes, hrun, hdiag, hfixed⟩ := runAll_fix h options
  unfold Linter.lintDocument
  rw [hrun]
  dsimp only
  rw [hdiag, hfixed]
  by_cases hmem : some "always" ∈ options
  · simp [hmem]
  · have hall : options.filter (· ≠ some "always") = options := by
      rw [List.filter_eq_self]
      intro o ho
      exact decide_eq_true fun he => hmem (he ▸ ho)
    rw [hall]
    simp [hmem]

/-- A linter that runs the rule several times, on every document there is. Each instance says what
    it says alone when it reports; when they fix, they do together what one of them does. -/
theorem lintDocument_instances {d : Document} (h : d.Reachable) (options : List (Option String)) :
    (∀ o, (refusal o).kind = .invalidOption ∧ (refusal o).node = none ∧
      (refusal o).index = none ∧ (refusal o).position = none) ∧
    (Linter.instances options).lintDocument .report d
      = (d, {
          diagnostics := options.flatMap fun o =>
            if o = some "always" then reports d else [refusal o]
          fixed := 0
          output := none }) ∧
    (Linter.instances options).lintDocument .fix d
      = if some "always" ∈ options then
          (mended d, {
            diagnostics := (options.filter (· ≠ some "always")).map refusal
            fixed := (reports d).length
            output := if 0 < (reports d).length then some (mended d).render else none })
        else
          (d, { diagnostics := options.map refusal, fixed := 0, output := none }) :=
  have hd := numbered_of_reachable h
  ⟨fun _ => ⟨rfl, rfl, rfl, rfl⟩, lintDocument_report hd options, lintDocument_fix hd options⟩

/-- Two statements and a block, all on one line. -/
def rowSheet : Document :=
  ((({} : Document).append 0 (.atRule { name := ['a'], params := ['b'] }) {}
    ).append 0 (.atRule { name := ['c'], params := ['d'] }) {}
    ).append 0 (.styleRule ['e']) {}

theorem lintDocument_instances_rowSheet :
    rowSheet.Reachable ∧
    (Linter.instances [none, some "always", some "never", some "always", some "Always"]
      ).lintDocument .report rowSheet
      = (rowSheet, {
          diagnostics := [refusal none] ++ reports rowSheet ++ [refusal (some "never")]
            ++ reports rowSheet ++ [refusal (some "Always")] }) ∧
    (Linter.instances [none, some "always", some "never", some "always", some "Always"]
      ).lintDocument .fix rowSheet
      = (mended rowSheet, {
          diagnostics := [refusal none, refusal (some "never"), refusal (some "Always")]
          fixed := 2
          output := some (mended rowSheet).render }) := by
  have h : rowSheet.Reachable :=
    ((Document.Reachable.empty.append (by decide +kernel) _ _).append (by decide +kernel) _ _
      ).append (by decide +kernel) _ _
  have hlen : (reports rowSheet).length = 2 := by decide +kernel
  obtain ⟨_, hreport, hfix⟩ :=
    lintDocument_instances h [none, some "always", some "never", some "always", some "Always"]
  refine ⟨h, hreport.trans ?_, hfix.trans ?_⟩
  · simp
  · simp [hlen]

end NewlineAfterSemicolon

end SheetLint
