import SheetLint.Proofs.Command.Account
import SheetLint.Proofs.Report.Json
import SheetLint.Proofs.Report.Lines

/-
  What a check prints. As JSON it is one object, with a result for each report, in their order, and
  with the sums over all of them, and each result has an object for each diagnostic
  (`Check.Account.read?_out`). As text without colors it is the entries of each report, in their
  order, and the line of the sums (`Check.Account.out_eq_entries`).
-/

namespace SheetLint

namespace Json

/-! ## Reports as objects -/

/-- The value of an entry of an object. -/
def lookup? (key : String) : Json → Option Json
  | object es => Sorted.lookup key.toList es
  | _ => none

/-- An object that says what a diagnostic says, and leaves out what it does not have. -/
structure IsDiagnostic (d : Diagnostic) (v : Json) : Prop where
  rule : v.lookup? "rule" = some (.ofString d.rule)
  kind : v.lookup? "kind" = some (.ofString d.kind.name)
  severity : v.lookup? "severity" = some (.ofString d.severity.name)
  message : v.lookup? "message" = some (.ofString d.message)
  line : v.lookup? "line" = d.position.map (.number ·.line)
  column : v.lookup? "column" = d.position.map (.number ·.column)
  index : v.lookup? "index" = d.index.map .number

/-- An object that says what the report of a file says. -/
structure IsResult (r : FileReport) (v : Json) : Prop where
  path : v.lookup? "path" = some (.string r.path)
  fixed : v.lookup? "fixed" = some (.number r.report.fixed)
  diagnostics : ∃ ds, v.lookup? "diagnostics" = some (.array ds) ∧
    List.Forall₂ IsDiagnostic r.report.diagnostics ds

/-- An object with sums. -/
structure IsSummary (t : Totals) (v : Json) : Prop where
  files : v.lookup? "total_files" = some (.number t.files)
  filesWithProblems : v.lookup? "files_with_problems" = some (.number t.filesWithProblems)
  problems : v.lookup? "problems" = some (.number t.problems)
  fixed : v.lookup? "fixed" = some (.number t.fixed)

/-- An object with a result for each report, in their order, and with the sums over all of them. -/
structure AreResults (rs : List FileReport) (v : Json) : Prop where
  results : ∃ vs, v.lookup? "results" = some (.array vs) ∧ List.Forall₂ IsResult rs vs
  summary : ∃ s, v.lookup? "summary" = some s ∧ IsSummary (.of rs) s

theorem isDiagnostic_toJson (d : Diagnostic) : IsDiagnostic d d.toJson := by
  obtain ⟨_, _, _, _, _, index, position⟩ := d
  cases index <;> cases position <;> constructor <;> rfl

theorem isResult_toJson (r : FileReport) : IsResult r r.toJson where
  path := rfl
  fixed := rfl
  diagnostics := by
    refine ⟨_, rfl, ?_⟩
    rw [List.forall₂_map_right_iff, List.forall₂_same]
    exact fun d _ => isDiagnostic_toJson d

theorem isSummary_toJson (t : Totals) : IsSummary t t.toJson := by
  constructor <;> rfl

/-- The JSON text of some reports is read as an object with their results and sums. -/
theorem read?_format (rs : List FileReport) :
    ∃ v, read? (Json.format rs) = some v ∧ AreResults rs v := by
  refine ⟨_, read?_write _ 0, ⟨_, rfl, ?_⟩, _, rfl, isSummary_toJson _⟩
  rw [List.forall₂_map_right_iff, List.forall₂_same]
  exact fun r _ => isResult_toJson r

end Json

/-! ## The output of a check -/

namespace Check

section Output

variable {g : General} {o : CheckOptions} {d : Disk} {l : Linter} {files : List Path}
  {reports : List FileReport} {c : Completion} (h : Account g o d l files reports c)
  (hquiet : g.quiet = false)
include h hquiet

/-- A check that prints JSON prints an object with the results and the sums of its reports. -/
theorem Account.read?_out (hjson : o.format = .json) :
    ∃ v, Json.read? c.out = some v ∧ Json.AreResults reports v := by
  rw [h.out, hquiet, hjson]
  exact Json.read?_format reports

/-- A check that prints text without colors prints the entries of its reports and their sums, with a
    line feed behind each. -/
theorem Account.out_eq_entries (htext : o.format = .text) (hcolors : g.color.isColored = false) :
    ∃ entries, List.Forall₂ (Plain.AreEntries g.verbose) reports entries ∧
      c.out = (entries.flatten ++ [Plain.lineText (Plain.summaryLine (.of reports))]).flatMap
        (· ++ ['\n']) := by
  refine ⟨_, Plain.forall₂_areEntries g.verbose reports, ?_⟩
  rw [h.out, hquiet, htext, hcolors]
  exact Plain.format_eq g.verbose reports

end Output

end Check

end SheetLint
