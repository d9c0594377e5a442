import SheetLint.Proofs.Rule.Idempotence
import SheetLint.Proofs.Rule.Instances

/-
  Linting a source. A source is linted when it can be read, and only then. A fixed text is given
  only where something was fixed, and it is never the source itself (`output_ne_source`). After the
  source was fixed, the linter that there is by default finds nothing any more
  (`lintSource_of_findings_eq_nil`).
-/

namespace SheetLint.NewlineAfterSemicolon

section Source

variable {l : Linter} {mode : Mode} {s : Text}

theorem lintSource_of_parse {d : Document} (h : parse s = .ok d) :
    l.lintSource mode s = .ok (l.lintDocument mode d).2 := by
  unfold Linter.lintSource
  rw [h]
  rfl

theorem lintSource_of_error {e : ParseError} (h : parse s = .error e) :
    l.lintSource mode s = .error e := by
  unfold Linter.lintSource
  rw [h]
  rfl

theorem lintSource_eq_ok {r : SourceReport} :
    l.lintSource mode s = .ok r ↔ ∃ d, parse s = .ok d ∧ (l.lintDocument mode d).2 = r := by
  cases h : parse s with
  | ok d => simp [lintSource_of_parse h]
  | error e => simp [lintSource_of_error h]

/-- Reporting gives no text. -/
theorem output_of_report {r : SourceReport} (h : l.lintSource .report s = .ok r) :
    r.output = none := by
  obtain ⟨d, _, rfl⟩ := lintSource_eq_ok.1 h
  rfl

/-- The text that fixing gives is not the source: the source has findings, and it has none. -/
theorem output_ne_source {r : SourceReport} (h : l.lintSource mode s = .ok r) :
    r.output ≠ some s := by
  intro hs
  obtain ⟨d, hd, rfl⟩ := lintSource_eq_ok.1 h
  have hnum := Document.numbered_of_parse hd
  cases mode with
  | report => rw [output_of_report h] at hs; cases hs
  | fix =>
    rw [l.eq_instances, lintDocument_fix hnum] at hs
    split at hs
    · dsimp only at hs
      split at hs
      · rename_i hpos
        rw [length_reports hnum] at hpos
        obtain ⟨e, he, hnone⟩ := exists_parse_fixed hd
        rw [← mended_eq hnum, Option.some.inj hs, hd] at he
        obtain rfl := Except.ok.inj he
        rw [hnone] at hpos
        exact absurd hpos (Nat.lt_irrefl 0)
      · cases hs
    · cases hs

end Source

/-! ## The default linter -/

/-- The linter of a configuration that says nothing about rules. -/
def defaultLinter : Linter := .instances [some "always"]

theorem linter_default : ({} : Config).linter = .ok defaultLinter := rfl

section Default

variable {s : Text} {d : Document} (h : parse s = .ok d)
include h

/-- Nothing is said about a source in which nothing is found. -/
theorem lintSource_of_findings_eq_nil (hnone : findings d = []) (mode : Mode) :
    defaultLinter.lintSource mode s = .ok {} := by
  have hnum := Document.numbered_of_parse h
  have hreports : reports d = [] := by rw [reports_eq hnum, hnone, List.map_nil]
  rw [lintSource_of_parse h]
  unfold defaultLinter
  cases mode with
  | report => rw [lintDocument_report hnum]; simp [hreports]
  | fix => rw [lintDocument_fix hnum]; simp [hreports]

/-- Fixing a source reports nothing, and leaves a text in which nothing is found: its own, or the
    text that it gives. -/
theorem lintSource_fix :
    ∃ r e, defaultLinter.lintSource .fix s = .ok r ∧ r.diagnostics = [] ∧
      parse (r.output.getD s) = .ok e ∧ findings e = [] := by
  have hnum := Document.numbered_of_parse h
  have hlen := length_reports hnum
  unfold defaultLinter
  rw [lintSource_of_parse h, lintDocument_fix hnum, if_pos List.mem_cons_self]
  by_cases hpos : 0 < (reports d).length
  · obtain ⟨e, he, hnone⟩ := exists_parse_fixed h
    refine ⟨_, e, rfl, rfl, ?_, hnone⟩
    rw [← mended_eq hnum] at he
    simpa [hpos] using he
  · refine ⟨_, d, rfl, rfl, ?_, ?_⟩
    · simpa [hpos] using h
    · exact List.length_eq_zero_iff.1 (by omega)

end Default

end SheetLint.NewlineAfterSemicolon
