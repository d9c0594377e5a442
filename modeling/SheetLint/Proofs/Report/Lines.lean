import SheetLint.Config.Rules
import SheetLint.Proofs.Path.Below
import SheetLint.Proofs.Rule.Sources
import SheetLint.Report.Plain

/-
  Reports as lines. Without colors a report is a list of entries with a line feed behind each: one
  for each diagnostic, on request one for each file that was fixed and one for each file without
  diagnostics, and one for the sums (`format_eq`). An entry is one line of the text if it has no
  line feed of its own (`Text.split_lines_iff`). Paths have none, and neither does the message of a
  finding, but an option that is refused stands in its message as it is. So the entries are the
  lines when no option has a line feed (`entries_are_lines`), and an option that has one breaks the
  entry of its diagnostic (`options_break_lines`).
-/

namespace SheetLint

/-! ## Lines of a text -/

namespace Text

/-- Texts with a line feed behind each are the lines of what they make together if none of them has
    a line feed, and only then. What comes after the last line feed is empty. -/
theorem split_lines_iff {ts : List Text} :
    split '\n' (ts.flatMap (· ++ ['\n'])) = ts ++ [[]] ↔ ∀ t ∈ ts, '\n' ∉ t := by
  constructor
  · intro h t ht
    refine not_mem_of_mem_split (s := ts.flatMap (· ++ ['\n'])) ?_
    rw [h]
    exact List.mem_append_left _ ht
  · intro h
    induction ts with
    | nil => rfl
    | cons t ts ih =>
      obtain ⟨ht, hts⟩ := List.forall_mem_cons.1 h
      rw [List.flatMap_cons, List.append_assoc, List.singleton_append, split_append_cons,
        split_of_not_mem ht, ih hts]
      rfl

end Text

namespace Plain

/-! ## Entries without control characters -/

/-- The written form of a line without colors. -/
def lineText (l : Line) : Text := l.flatMap (·.text)

theorem renderLines_eq (ls : List Line) :
    renderLines false ls = (ls.map lineText).flatMap (· ++ ['\n']) := by
  unfold renderLines lineText
  simp only [Span.render_plain, List.flatMap_map]

/-- Whether a text has no control characters, that is, none before the space. -/
def IsPrintable (t : Text) : Prop := ∀ c ∈ t, ' ' ≤ c

instance : DecidablePred IsPrintable := fun t => inferInstanceAs (Decidable (∀ c ∈ t, ' ' ≤ c))

theorem isPrintable_append {s t : Text} :
    IsPrintable (s ++ t) ↔ IsPrintable s ∧ IsPrintable t := List.forall_mem_append

theorem IsPrintable.not_mem {t : Text} (ht : IsPrintable t) {c : Char} (hc : c < ' ') : c ∉ t :=
  fun hm => Char.not_le.2 hc (ht c hm)

theorem isPrintable_number (n : Nat) : IsPrintable (number n) := by
  intro c hc
  have hdigit : c.isDigit := Nat.isDigit_of_mem_toDigits (by decide) (by decide) hc
  simp only [Char.isDigit, ge_iff_le, Bool.and_eq_true, decide_eq_true_eq] at hdigit
  exact Char.le_def.2 (UInt32.le_trans (by decide) hdigit.1)

theorem isPrintable_position (p : Position) : IsPrintable p.text.toList := by
  have hdigits (n : Nat) : (toString n).toList = number n := String.toList_ofList
  have hcolon : IsPrintable (":" : String).toList := by decide
  simp only [Position.text, String.toList_append, hdigits, isPrintable_append]
  exact ⟨⟨isPrintable_number _, hcolon⟩, isPrintable_number _⟩

theorem isPrintable_severity (s : Severity) : IsPrintable (severity s).text := by
  cases s <;> decide

theorem isPrintable_summary (t : Totals) : IsPrintable (lineText (summaryLine t)) := by
  have hnumber := isPrintable_number
  have hfront : IsPrintable "Summary: ".toList := by decide
  have hchecked : IsPrintable " files checked, ".toList := by decide
  have hclean : IsPrintable "no problems".toList := by decide
  have hproblems : IsPrintable " problems in ".toList := by decide
  have hfiles : IsPrintable " files".toList := by decide
  have hcomma : IsPrintable ", ".toList := by decide
  have hfixed : IsPrintable " fixed".toList := by decide
  unfold lineText summaryLine
  split <;> split <;>
    simp only [Span.plain, Span.styled, List.flatMap_append, List.flatMap_cons, List.flatMap_nil,
      List.append_nil, isPrintable_append, and_self, *]

theorem prefix_summary (t : Totals) : "Summary: ".toList <+: lineText (summaryLine t) := by
  unfold lineText summaryLine
  rw [List.append_assoc, List.singleton_append, List.flatMap_cons, Span.plain, List.append_assoc,
    List.append_assoc]
  exact List.prefix_append _ _

section Control

variable {c : Char} (hc : c < ' ')
include hc

theorem control_not_mem_place {p : Path} (hp : c ∉ p) (d : Diagnostic) : c ∉ place p d := by
  unfold place
  split
  · rename_i pos _
    have hpos := (isPrintable_position pos).not_mem hc
    have hcolon : c ≠ ':' := fun h => absurd hc (h ▸ by decide)
    simp [hp, hpos, hcolon]
  · exact hp

/-- Only the message can bring a control character into the entry of a diagnostic. -/
theorem control_mem_diagnostic {p : Path} (hp : c ∉ p) (d : Diagnostic) :
    c ∈ lineText (diagnosticLine p d) ↔ c ∈ d.message.toList := by
  have hplace := control_not_mem_place hc hp d
  have hseverity := (isPrintable_severity d.severity).not_mem hc
  have hgap : c ∉ "  ".toList := IsPrintable.not_mem (by decide) hc
  simp only [lineText, diagnosticLine, Span.plain, List.flatMap_cons, List.flatMap_nil,
    List.append_nil, List.mem_append, hplace, hseverity, hgap, false_or]

/-- The entries of a file have no control characters when the messages have none. -/
theorem control_not_mem_fileLines_iff {verbose : Nat} {r : FileReport} (hp : c ∉ r.path) :
    (∀ l ∈ fileLines verbose r, c ∉ lineText l) ↔
      ∀ d ∈ r.report.diagnostics, c ∉ d.message.toList := by
  constructor
  · intro h d hd
    rw [← control_mem_diagnostic hc hp]
    refine h _ ?_
    exact List.mem_append_left _ (List.mem_append_left _ (List.mem_map_of_mem hd))
  · intro h l hl
    rcases List.mem_append.1 hl with hl | hl
    · rcases List.mem_append.1 hl with hl | hl
      · obtain ⟨d, hd, rfl⟩ := List.mem_map.1 hl
        rw [control_mem_diagnostic hc hp]
        exact h d hd
      · split at hl
        · rw [List.mem_singleton.1 hl]
          have hnumber := (isPrintable_number r.report.fixed).not_mem hc
          have hfixed : c ∉ ": fixed ".toList := IsPrintable.not_mem (by decide) hc
          simp only [lineText, fixedLine, Span.styled, List.flatMap_cons, List.flatMap_nil,
            List.append_nil, List.mem_append, hp, hnumber, hfixed, or_self, not_false_eq_true]
        · cases hl
    · split at hl
      · rw [List.mem_singleton.1 hl]
        have hok : c ∉ ": ok".toList := IsPrintable.not_mem (by decide) hc
        simp only [lineText, okLine, Span.styled, List.flatMap_cons, List.flatMap_nil,
          List.append_nil, List.mem_append, hp, hok, or_self, not_false_eq_true]
      · cases hl

/-- Only paths and messages can bring a control character into the entries. -/
theorem control_not_mem_lines_iff {verbose : Nat} {rs : List FileReport}
    (hp : ∀ r ∈ rs, c ∉ r.path) :
    (∀ l ∈ lines verbose rs, c ∉ lineText l) ↔
      ∀ r ∈ rs, ∀ d ∈ r.report.diagnostics, c ∉ d.message.toList := by
  have hsummary := (isPrintable_summary (.of rs)).not_mem hc
  rw [lines, List.forall_mem_append, List.forall_mem_singleton, and_iff_left hsummary]
  simp only [List.mem_flatMap, forall_exists_index, and_imp]
  constructor
  · intro h r hr
    rw [← control_not_mem_fileLines_iff hc (hp r hr)]
    exact fun l hl => h l r hr hl
  · intro h l r hr hl
    exact (control_not_mem_fileLines_iff hc (hp r hr)).2 (h r hr) l hl

end Control

/-! ## What the entries are -/

/-- The entries of a file: for each diagnostic one that starts with the path and ends with the
    message, on request one that says how much was fixed, and on request one that says that there
    are no diagnostics. -/
def AreEntries (verbose : Nat) (r : FileReport) (ts : List Text) : Prop :=
  ∃ ds,
    List.Forall₂ (fun (d : Diagnostic) t => ∃ m, t = r.path ++ m ++ d.message.toList)
      r.report.diagnostics ds ∧
    ts = ds
      ++ (if 1 ≤ verbose ∧ 0 < r.report.fixed then
          [r.path ++ ": fixed ".toList ++ number r.report.fixed] else [])
      ++ (if 2 ≤ verbose ∧ r.report.diagnostics = [] then [r.path ++ ": ok".toList] else [])

/-- The entry of a diagnostic starts with the path and ends with the message. -/
theorem exists_diagnostic_eq (p : Path) (d : Diagnostic) :
    ∃ m, lineText (diagnosticLine p d) = p ++ m ++ d.message.toList := by
  have hplace : ∃ m, place p d = p ++ m := by
    unfold place
    split
    · exact ⟨_, rfl⟩
    · exact ⟨[], (List.append_nil p).symm⟩
  obtain ⟨m, hm⟩ := hplace
  refine ⟨m ++ "  ".toList ++ (severity d.severity).text ++ "  ".toList, ?_⟩
  simp [lineText, diagnosticLine, Span.plain, hm]

theorem areEntries (verbose : Nat) (r : FileReport) :
    AreEntries verbose r ((fileLines verbose r).map lineText) := by
  refine ⟨r.report.diagnostics.map fun d => lineText (diagnosticLine r.path d), ?_, ?_⟩
  · rw [List.forall₂_map_right_iff, List.forall₂_same]
    exact fun d _ => exists_diagnostic_eq r.path d
  · have hfixed : lineText (fixedLine r) = r.path ++ ": fixed ".toList ++ number r.report.fixed :=
      List.append_nil _
    have hok : lineText (okLine r) = r.path ++ ": ok".toList := List.append_nil _
    unfold fileLines
    rw [List.map_append, List.map_append, List.map_map, ← hfixed, ← hok]
    congr 1
    · congr 1
      split <;> rfl
    · split <;> rfl

/-- Each report has its entries. -/
theorem forall₂_areEntries (verbose : Nat) (rs : List FileReport) :
    List.Forall₂ (AreEntries verbose) rs (rs.map fun r => (fileLines verbose r).map lineText) := by
  rw [List.forall₂_map_right_iff, List.forall₂_same]
  exact fun r _ => areEntries verbose r

/-- The entries of some reports, file by file. -/
theorem map_lineText_lines (verbose : Nat) (rs : List FileReport) :
    (lines verbose rs).map lineText
      = (rs.map fun r => (fileLines verbose r).map lineText).flatten
        ++ [lineText (summaryLine (.of rs))] := by
  rw [lines, List.map_append, List.map_flatMap, List.flatMap_def]
  rfl

/-- The text of some reports is their entries, with a line feed behind each. -/
theorem format_eq (verbose : Nat) (rs : List FileReport) :
    format false verbose rs
      = ((rs.map fun r => (fileLines verbose r).map lineText).flatten
          ++ [lineText (summaryLine (.of rs))]).flatMap (· ++ ['\n']) := by
  rw [format, renderLines_eq, map_lineText_lines]

/-- The entries of all files are lines when the messages have no line feeds. -/
theorem split_format_iff {verbose : Nat} {rs : List FileReport} (hp : ∀ r ∈ rs, '\n' ∉ r.path) :
    Text.split '\n' (format false verbose rs)
        = (rs.map fun r => (fileLines verbose r).map lineText).flatten
          ++ [lineText (summaryLine (.of rs)), []] ↔
      ∀ r ∈ rs, ∀ d ∈ r.report.diagnostics, '\n' ∉ d.message.toList := by
  have hend := List.append_cons (rs.map fun r => (fileLines verbose r).map lineText).flatten
    (lineText (summaryLine (.of rs))) [[]]
  rw [format_eq, hend, ← map_lineText_lines, Text.split_lines_iff, List.forall_mem_map]
  exact control_not_mem_lines_iff (by decide) hp

end Plain

/-! ## Messages of lint runs -/

namespace NewlineAfterSemicolon

theorem newline_not_mem_message : '\n' ∉ message.toList := by decide

theorem newline_not_mem_refusal {option : Option String}
    (h : ∀ v, option = some v → '\n' ∉ v.toList) : '\n' ∉ (refusal option).message.toList := by
  cases option with
  | none => decide
  | some v =>
    have hfront : '\n' ∉ "Invalid option value \"".toList := by decide
    have hmiddle : '\n' ∉ "\" for rule \"".toList := by decide
    have hname : '\n' ∉ name.toList := by decide
    have hend : '\n' ∉ "\"".toList := by decide
    simp only [refusal, String.toList_append, List.mem_append, not_or]
    exact ⟨⟨⟨⟨hfront, h v rfl⟩, hmiddle⟩, hname⟩, hend⟩

/-- A diagnostic of a run is a finding or the refusal of one of its options. -/
theorem message_of_lintSource {l : Linter} {mode : Mode} {s : Text} {r : SourceReport}
    (h : l.lintSource mode s = .ok r) {d : Diagnostic} (hd : d ∈ r.diagnostics) :
    d.message = message ∨ ∃ c ∈ l, d = refusal c.option := by
  obtain ⟨doc, hdoc, rfl⟩ := lintSource_eq_ok.1 h
  have hnum := Document.numbered_of_parse hdoc
  have hrefused {os : List (Option String)} (hos : os.Sublist (l.map (·.option)))
      (hd : d ∈ os.map refusal) : d.message = message ∨ ∃ c ∈ l, d = refusal c.option := by
    obtain ⟨o, ho, rfl⟩ := List.mem_map.1 hd
    obtain ⟨c, hc, rfl⟩ := List.mem_map.1 (hos.subset ho)
    exact Or.inr ⟨c, hc, rfl⟩
  rw [l.eq_instances] at hd
  cases mode with
  | report =>
    rw [lintDocument_report hnum] at hd
    obtain ⟨o, ho, hd⟩ := List.mem_flatMap.1 hd
    split at hd
    · rw [reports_eq hnum] at hd
      obtain ⟨f, _, rfl⟩ := List.mem_map.1 hd
      exact Or.inl rfl
    · exact hrefused (List.singleton_sublist.2 ho) (by simpa using hd)
  | fix =>
    rw [lintDocument_fix hnum] at hd
    split at hd
    · exact hrefused List.filter_sublist hd
    · exact hrefused (List.Sublist.refl _) hd

end NewlineAfterSemicolon

namespace Plain

open NewlineAfterSemicolon

/-- Whether no option of a linter has a line feed. -/
def OptionsOnOneLine (l : Linter) : Prop := ∀ c ∈ l, ∀ v, c.option = some v → '\n' ∉ v.toList

/-- The text of reports that lint runs gave is one entry for each diagnostic, those that are asked
    for and the sums, in the order of the reports, with a line feed behind each. The entries are the
    lines of the text if no message has a line feed, and only then; and no message has one if no
    option of the runs has one. -/
theorem entries_are_lines {runs : List Linter} {rs : List FileReport}
    (hpaths : ∀ r ∈ rs, '\n' ∉ r.path)
    (hruns : ∀ r ∈ rs, ∃ l ∈ runs, ∃ mode s, l.lintSource mode s = .ok r.report) (verbose : Nat) :
    ∃ entries summary,
      List.Forall₂ (AreEntries verbose) rs entries ∧ "Summary: ".toList <+: summary ∧
      format false verbose rs = (entries.flatten ++ [summary]).flatMap (· ++ ['\n']) ∧
      (Text.split '\n' (format false verbose rs) = entries.flatten ++ [summary, []] ↔
        ∀ r ∈ rs, ∀ d ∈ r.report.diagnostics, '\n' ∉ d.message.toList) ∧
      ((∀ l ∈ runs, OptionsOnOneLine l) →
        Text.split '\n' (format false verbose rs) = entries.flatten ++ [summary, []]) := by
  refine ⟨_, _, forall₂_areEntries verbose rs, prefix_summary _, format_eq verbose rs,
    split_format_iff hpaths, fun hoptions => (split_format_iff hpaths).2 fun r hr d hd => ?_⟩
  obtain ⟨l, hl, mode, s, hlint⟩ := hruns r hr
  rcases message_of_lintSource hlint hd with hmessage | ⟨c, hc, rfl⟩
  · rw [hmessage]
    exact newline_not_mem_message
  · exact newline_not_mem_refusal (hoptions l hl c hc)

theorem entries_are_lines_crowdedSheet :
    ∃ r : FileReport, r.path = "a.css".toList ∧
      defaultLinter.lintSource .report "@a b;@c d;".toList = .ok r.report ∧
      '\n' ∉ r.path ∧ OptionsOnOneLine defaultLinter ∧
      ∃ line summary, Text.split '\n' (format false 2 [r]) = [line, summary, []] ∧
        "Summary: ".toList <+: summary ∧ ∃ m, line = "a.css".toList ++ m ++ message.toList := by
  have hone : (defaultLinter.lintSource .report "@a b;@c d;".toList).toOption.map
      (fun r => (r.diagnostics.map (·.message), r.fixed)) = some ([message], 0) := by
    decide +kernel
  obtain ⟨report, hreport, hfields⟩ := Option.map_eq_some_iff.1 hone
  obtain ⟨hmessages, hfixed⟩ := Prod.mk.inj hfields
  have hlint : defaultLinter.lintSource .report "@a b;@c d;".toList = .ok report := by
    revert hreport
    cases defaultLinter.lintSource .report "@a b;@c d;".toList <;> simp [Except.toOption]
  have hpaths : ∀ r ∈ [FileReport.mk "a.css".toList report], '\n' ∉ r.path := by simp
  have hoptions : OptionsOnOneLine defaultLinter := by
    unfold OptionsOnOneLine
    decide +kernel
  obtain ⟨entries, summary, hentries, hsummary, -, -, hlines⟩ :=
    @entries_are_lines [defaultLinter] _ hpaths (by simpa using ⟨Mode.report, _, hlint⟩) 2
  obtain ⟨ts, _, hts, hnil, rfl⟩ := List.forall₂_cons_left_iff.1 hentries
  obtain rfl := List.forall₂_nil_left_iff.1 hnil
  obtain ⟨ds, hds, rfl⟩ := hts
  obtain ⟨d, hd, hmessage⟩ := List.map_eq_singleton_iff.1 hmessages
  simp only [hd] at hds
  obtain ⟨line, _, ⟨m, hm⟩, hnil, rfl⟩ := List.forall₂_cons_left_iff.1 hds
  obtain rfl := List.forall₂_nil_left_iff.1 hnil
  refine ⟨⟨"a.css".toList, report⟩, rfl, hlint, hpaths _ List.mem_cons_self, hoptions, line,
    summary, ?_, hsummary, m, ?_⟩
  · rw [hlines (by simpa using hoptions)]
    simp [hfixed, hd]
  · rw [hm, hmessage]

/-- A configuration whose option for the rule has a line feed. -/
def brokenOption : Config where
  rules := [(NewlineAfterSemicolon.name, .string "al\nways")]

/-- The option is refused in one diagnostic, whose entry is two lines of the text. -/
theorem options_break_lines :
    ∃ l report, brokenOption.linter = .ok l ∧
      l.lintSource .report "a\x7b\x7d".toList = .ok report ∧
      report.diagnostics.length = 1 ∧
      Text.split '\n' (format false 0 [⟨"a.css".toList, report⟩])
        = ["a.css  error  Invalid option value \"al".toList,
          "ways\" for rule \"at-rule-semicolon-newline-after\"".toList,
          "Summary: 1 files checked, 1 problems in 1 files".toList, []] := by
  refine ⟨.instances [some "al\nways"], { diagnostics := [refusal (some "al\nways")] }, rfl, ?_,
    rfl, rfl⟩
  decide +kernel

end Plain

end SheetLint
