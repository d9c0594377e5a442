import SheetLint.Proofs.Command.Plan
import SheetLint.Proofs.Command.Writing
import SheetLint.Proofs.Rule.Sources

/-
  The account of a check. Files are linted each for itself: a file is reported as its own text is,
  or there is one failure about it (`Linted`). The reports say which files are changed and what they
  hold then, what is given out, and, with the failures, how the check ends (`Account`). A check that
  starts always gets that far (`run_accounts`).
-/

namespace SheetLint

open NewlineAfterSemicolon (lintSource_of_parse lintSource_of_error output_of_report
  output_ne_source)

namespace Check

/-! ## Each file for itself -/

/-- Whether a path names a file that holds a stylesheet. -/
def IsSheet (d : Disk) (p : Path) : Prop := ∃ s doc, d.read? p = some s ∧ parse s = .ok doc

/-- The reports and the failures that linting files gives, in the order of the files. -/
inductive Linted (l : Linter) (mode : Mode) (d : Disk) :
    List Path → List FileReport → List Failure → Prop
  | nil : Linted l mode d [] [] []
  /-- A file that holds a stylesheet has the report of its text. -/
  | sheet {p : Path} {s : Text} {doc : Document} {report : SourceReport} {ps : List Path}
      {rs : List FileReport} {fs : List Failure} :
      d.read? p = some s → parse s = .ok doc → l.lintSource mode s = .ok report →
      Linted l mode d ps rs fs → Linted l mode d (p :: ps) ({ path := p, report } :: rs) fs
  /-- A file that holds a text that is no stylesheet fails. -/
  | unparsable {p : Path} {s : Text} {e : ParseError} {ps : List Path} {rs : List FileReport}
      {fs : List Failure} :
      d.read? p = some s → parse s = .error e →
      Linted l mode d ps rs fs → Linted l mode d (p :: ps) rs (.parse p e :: fs)
  /-- A file that holds no text fails. -/
  | unreadable {p : Path} {ps : List Path} {rs : List FileReport} {fs : List Failure} :
      d.read? p = none →
      Linted l mode d ps rs fs → Linted l mode d (p :: ps) rs (.fileRead p :: fs)

/-- The reports that linting some files gave. -/
def reportsOf (l : Linter) (mode : Mode) (d : Disk) (ps : List Path) : List FileReport :=
  (ps.map (lintFile l mode d)).filterMap report?

/-- The failures that linting some files gave. -/
def failuresOf (l : Linter) (mode : Mode) (d : Disk) (ps : List Path) : List Failure :=
  (ps.map (lintFile l mode d)).filterMap failure?

theorem linted (l : Linter) (mode : Mode) (d : Disk) (ps : List Path) :
    Linted l mode d ps (reportsOf l mode d ps) (failuresOf l mode d ps) := by
  induction ps with
  | nil => exact .nil
  | cons p ps ih =>
    unfold reportsOf failuresOf
    rw [List.map_cons, List.filterMap_cons, List.filterMap_cons]
    unfold lintFile
    cases hs : d.read? p with
    | none => exact .unreadable hs ih
    | some s =>
      cases hdoc : parse s with
      | error e =>
        dsimp only
        rw [lintSource_of_error hdoc]
        exact .unparsable hs hdoc ih
      | ok doc =>
        dsimp only
        rw [lintSource_of_parse hdoc]
        exact .sheet hs hdoc (lintSource_of_parse hdoc) ih

section Linted

variable {l : Linter} {mode : Mode} {d : Disk} {ps : List Path} {rs : List FileReport}
  {fs : List Failure} (h : Linted l mode d ps rs fs)
include h

namespace Linted

/-- A report is that of one of the files. -/
theorem of_mem {r : FileReport} (hr : r ∈ rs) :
    r.path ∈ ps ∧ ∃ s, d.read? r.path = some s ∧ l.lintSource mode s = .ok r.report := by
  induction h with
  | nil => cases hr
  | sheet hs _ hlint _ ih =>
    rcases List.mem_cons.1 hr with rfl | hr
    · exact ⟨List.mem_cons_self, _, hs, hlint⟩
    · exact (ih hr).imp_left (List.mem_cons_of_mem _)
  | unparsable _ _ _ ih => exact (ih hr).imp_left (List.mem_cons_of_mem _)
  | unreadable _ _ ih => exact (ih hr).imp_left (List.mem_cons_of_mem _)

/-- A file that holds a stylesheet has the report of its text. -/
theorem mem_of_read? {p : Path} {s : Text} {report : SourceReport} (hp : p ∈ ps)
    (hs : d.read? p = some s) (hlint : l.lintSource mode s = .ok report) :
    { path := p, report } ∈ rs := by
  induction h with
  | nil => cases hp
  | sheet hs' _ hlint' _ ih =>
    rcases List.mem_cons.1 hp with rfl | hp
    · rw [hs, Option.some.injEq] at hs'
      rw [← hs', hlint, Except.ok.injEq] at hlint'
      rw [hlint']
      exact List.mem_cons_self
    · exact List.mem_cons_of_mem _ (ih hp)
  | unparsable hs' he _ ih =>
    rcases List.mem_cons.1 hp with rfl | hp
    · rw [hs, Option.some.injEq] at hs'
      rw [hs', lintSource_of_error he] at hlint
      cases hlint
    · exact ih hp
  | unreadable hs' _ ih =>
    rcases List.mem_cons.1 hp with rfl | hp
    · rw [hs] at hs'
      cases hs'
    · exact ih hp

/-- The files of the reports hold the texts that were linted. -/
theorem exists_place {r : FileReport} (hr : r ∈ rs) :
    ∃ s ns, d.locate? r.path = some ns ∧ d.tree.contentAt? ns = some (.text s) ∧
      l.lintSource mode s = .ok r.report := by
  obtain ⟨_, s, hs, hlint⟩ := h.of_mem hr
  obtain ⟨ns, hloc, hc⟩ := Disk.read?_eq_some.1 hs
  exact ⟨s, ns, hloc, hc, hlint⟩

theorem writable : Writable rs d := by
  refine ⟨?_, ?_⟩
  · intro r hr
    obtain ⟨s, ns, hloc, hc, _⟩ := h.exists_place hr
    exact ⟨ns, .text s, hloc, hc⟩
  · intro r hr r' hr' hloc
    obtain ⟨_, s, hs, hlint⟩ := h.of_mem hr
    obtain ⟨_, s', hs', hlint'⟩ := h.of_mem hr'
    -- One place holds one text, and the report is a function of the text.
    rw [Disk.read?_eq, hloc, ← Disk.read?_eq, hs', Option.some.injEq] at hs
    subst hs
    rw [hlint, Except.ok.injEq] at hlint'
    rw [hlint']

/-- Nothing fails when every file holds a stylesheet, and only then. -/
theorem failures_eq_nil : fs = [] ↔ ∀ p ∈ ps, IsSheet d p := by
  unfold IsSheet
  induction h with
  | nil => simp
  | sheet hs hdoc _ _ ih => simp [ih, hs, hdoc]
  | unparsable hs he _ _ => simp [hs, he]
  | unreadable hs _ _ => simp [hs]

end Linted

end Linted

/-! ## Writing back -/

theorem writeFixes_of_output_eq_none {d : Disk} {rs : List FileReport}
    (h : ∀ r ∈ rs, r.report.output = none) : writeFixes d rs = (d, none) := by
  induction rs with
  | nil => rfl
  | cons r rs ih =>
    rw [writeFixes, h r List.mem_cons_self]
    exact ih fun r' hr' => h r' (List.mem_cons_of_mem r hr')

/-- The files with a fixed text change, and no others. -/
theorem Written.contentAt?_ne_iff {l : Linter} {mode : Mode} {d e : Disk} {ps : List Path}
    {rs : List FileReport} {fs : List Failure} (h : Linted l mode d ps rs fs)
    (hw : Written rs d e) (ns : List Text) :
    e.tree.contentAt? ns ≠ d.tree.contentAt? ns ↔
      ∃ r ∈ rs, r.report.output ≠ none ∧ d.locate? r.path = some ns := by
  refine ⟨?_, ?_⟩
  · intro hne
    by_contra hnone
    refine hne (hw.kept ns fun r hr hloc => ?_)
    by_contra ho
    exact hnone ⟨r, hr, ho, hloc⟩
  · rintro ⟨r, hr, ho, hloc⟩ he
    obtain ⟨s, ns', hloc', hc, hlint⟩ := h.exists_place hr
    rw [hloc, Option.some.injEq] at hloc'
    subst hloc'
    obtain ⟨s', hs'⟩ := Option.ne_none_iff_exists'.1 ho
    rw [hw.changed r hr s' ns hs' hloc, hc] at he
    refine output_ne_source hlint ?_
    rw [hs']
    cases he
    rfl

theorem Written.read?_eq {d e : Disk} {rs : List FileReport} (hd : Writable rs d)
    (h : Written rs d e) {r : FileReport} (hr : r ∈ rs) {s : Text}
    (hs : r.report.output = some s) : e.read? r.path = some s := by
  obtain ⟨ns, _, hloc, _⟩ := hd.there r hr
  exact Disk.read?_eq_some.2
    ⟨ns, (h.layout.locate?_eq _).trans hloc, h.changed r hr s ns hs hloc⟩

/-! ## How a check ends -/

section Status

variable {rs : List FileReport} {fs : List Failure}

/-- Whether a report says something of a kind. -/
def Mentions (rs : List FileReport) (kind : DiagnosticKind) : Prop :=
  ∃ r ∈ rs, ∃ x ∈ r.report.diagnostics, x.kind = kind

theorem any_hasInvalidOptions :
    rs.any (·.report.hasInvalidOptions) = true ↔ Mentions rs .invalidOption := by
  simp [Mentions, SourceReport.hasInvalidOptions, Diagnostic.isInvalidOption]

theorem any_hasViolations : rs.any (·.report.hasViolations) = true ↔ Mentions rs .violation := by
  have hkind (x : Diagnostic) : (!x.isInvalidOption) = true ↔ x.kind = .violation := by
    unfold Diagnostic.isInvalidOption
    cases x.kind <;> decide
  simp only [Mentions, SourceReport.hasViolations, List.any_eq_true, hkind]

theorem problems_eq_zero :
    (Totals.of rs).problems = 0 ↔ ∀ r ∈ rs, r.report.diagnostics = [] := by
  unfold Totals.of
  dsimp only
  induction rs with
  | nil => simp
  | cons r rs ih =>
    rw [List.foldr_cons, Nat.add_eq_zero_iff, ih, List.length_eq_zero_iff, List.forall_mem_cons]

theorem fixed_eq_zero : (Totals.of rs).fixed = 0 ↔ ∀ r ∈ rs, r.report.fixed = 0 := by
  unfold Totals.of
  dsimp only
  induction rs with
  | nil => simp
  | cons r rs ih => rw [List.foldr_cons, Nat.add_eq_zero_iff, ih, List.forall_mem_cons]

theorem not_mentions (h : ∀ r ∈ rs, r.report.diagnostics = []) (kind : DiagnosticKind) :
    ¬Mentions rs kind := by
  rintro ⟨r, hr, x, hx, _⟩
  rw [h r hr] at hx
  cases hx

/-- There are no problems when the reports say nothing of either kind. -/
theorem problems_eq_zero_iff_not_mentions :
    (Totals.of rs).problems = 0 ↔ ¬Mentions rs .invalidOption ∧ ¬Mentions rs .violation := by
  rw [problems_eq_zero]
  refine ⟨?_, ?_⟩
  · intro h
    exact ⟨not_mentions h _, not_mentions h _⟩
  · rintro ⟨hinvalid, hviolation⟩ r hr
    rw [List.eq_nil_iff_forall_not_mem]
    intro x hx
    cases hk : x.kind with
    | violation => exact hviolation ⟨r, hr, x, hx, hk⟩
    | invalidOption => exact hinvalid ⟨r, hr, x, hx, hk⟩

theorem status_eq_failure : status rs fs = .failure ↔ fs ≠ [] ∨ Mentions rs .invalidOption := by
  rw [← any_hasInvalidOptions]
  unfold status
  cases fs <;> cases rs.any (·.report.hasInvalidOptions) <;>
    cases rs.any (·.report.hasViolations) <;> simp

theorem status_eq_violations :
    status rs fs = .violations ↔
      ¬(fs ≠ [] ∨ Mentions rs .invalidOption) ∧ Mentions rs .violation := by
  rw [← any_hasInvalidOptions, ← any_hasViolations]
  unfold status
  cases fs <;> cases rs.any (·.report.hasInvalidOptions) <;>
    cases rs.any (·.report.hasViolations) <;> simp

theorem status_eq_success :
    status rs fs = .success ↔ fs = [] ∧ (Totals.of rs).problems = 0 := by
  rw [problems_eq_zero_iff_not_mentions, ← any_hasInvalidOptions, ← any_hasViolations]
  unfold status
  cases fs <;> cases rs.any (·.report.hasInvalidOptions) <;>
    cases rs.any (·.report.hasViolations) <;> simp

end Status

/-! ## The whole check -/

/-- What a check leaves behind that linted some files and gives its reports to the output. -/
structure Account (g : General) (o : CheckOptions) (d : Disk) (l : Linter) (files : List Path)
    (reports : List FileReport) (c : Completion) : Prop where
  /-- Every file has its report or its failure. -/
  linted : Linted l o.mode d files reports c.failures
  out : c.out = if g.quiet then [] else o.format.write g.color.isColored g.verbose reports
  /-- Reporting changes nothing. -/
  reporting : o.mode = .report → c.disk = d
  /-- Without a fixed text nothing changes. -/
  untouched : (∀ r ∈ reports, r.report.output = none) → c.disk = d
  /-- No file or directory comes or goes. -/
  layout : d.SameLayout c.disk
  /-- The files with a fixed text change, and no others. -/
  changed : ∀ ns, c.disk.tree.contentAt? ns ≠ d.tree.contentAt? ns ↔
    ∃ r ∈ reports, r.report.output ≠ none ∧ d.locate? r.path = some ns
  /-- They hold that text. -/
  holds : ∀ r ∈ reports, ∀ s, r.report.output = some s → c.disk.read? r.path = some s
  failure : c.status.code = 2 ↔ c.failures ≠ [] ∨ Mentions reports .invalidOption
  violations : c.status.code = 1 ↔
    ¬(c.failures ≠ [] ∨ Mentions reports .invalidOption) ∧ Mentions reports .violation
  success : c.status.code = 0 ↔ c.failures = [] ∧ (Totals.of reports).problems = 0

/-- Statuses have different numbers. -/
theorem code_inj (st st' : Status) : st.code = st'.code ↔ st = st' := by
  cases st <;> cases st' <;> decide

section Plan

variable {g : General} {o : CheckOptions} {d : Disk} {l : Linter} {files : List Path}
  (h : plan g o d = .ok (l, files)) (ho : o.output = none)
include h ho

theorem run_of_plan {e : Disk} (he : writeFixes d (reportsOf l o.mode d files) = (e, none)) :
    run g o d = {
      disk := e
      out := if g.quiet then []
        else o.format.write g.color.isColored g.verbose (reportsOf l o.mode d files)
      failures := failuresOf l o.mode d files
      status := status (reportsOf l o.mode d files) (failuresOf l o.mode d files) } := by
  unfold reportsOf at he
  unfold run
  rw [h]
  dsimp only
  rw [he]
  dsimp only
  unfold deliver
  rw [ho]
  rfl

/-- What every write of a fixed text keeps, the check keeps. -/
theorem run_keeps {P : Disk → Prop} (hd : P d)
    (hstep : ∀ r ∈ reportsOf l o.mode d files, ∀ s ns, r.report.output = some s →
      d.locate? r.path = some ns → ∀ e u, d.SameLayout e → P e →
      e.tree.write? (.text s) ns = some u → P { e with tree := u }) : P (run g o d).disk := by
  obtain ⟨e, he, _, hP⟩ := exists_writeFixes (linted l o.mode d files).writable hd hstep
  rw [run_of_plan h ho he]
  exact hP

/-- The account of a check from its plan on. -/
theorem account_of_plan :
    Account g o d l files (reportsOf l o.mode d files) (run g o d) := by
  have hlinted := linted l o.mode d files
  obtain ⟨e, he, hwritten, -⟩ :=
    exists_writeFixes (P := fun _ => True) hlinted.writable trivial (by intros; trivial)
  have hsame (hnone : ∀ r ∈ reportsOf l o.mode d files, r.report.output = none) : e = d := by
    rw [writeFixes_of_output_eq_none hnone, Prod.mk.injEq] at he
    exact he.1.symm
  rw [run_of_plan h ho he]
  refine {
    linted := hlinted
    out := rfl
    reporting := fun hmode => hsame fun r hr => ?_
    untouched := hsame
    layout := hwritten.layout
    changed := hwritten.contentAt?_ne_iff hlinted
    holds := fun r hr s hs => hwritten.read?_eq hlinted.writable hr hs
    failure := (code_inj _ .failure).trans status_eq_failure
    violations := (code_inj _ .violations).trans status_eq_violations
    success := (code_inj _ .success).trans status_eq_success }
  obtain ⟨_, s, _, hlint⟩ := hlinted.of_mem hr
  rw [hmode] at hlint
  exact output_of_report hlint

end Plan

section Account

variable {g : General} {o : CheckOptions} {d : Disk} {l : Linter} {files : List Path}
  {reports : List FileReport} {c : Completion} (h : Account g o d l files reports c)
include h

/-- A path whose file has no fixed text reads as it did. -/
theorem Account.read?_eq {p : Path}
    (hp : ∀ r ∈ reports, d.locate? r.path = d.locate? p → r.report.output = none) :
    c.disk.read? p = d.read? p := by
  rw [Disk.read?_eq, Disk.read?_eq, h.layout.locate?_eq]
  cases hloc : d.locate? p with
  | none => rfl
  | some ns =>
    rw [Option.bind_some, Option.bind_some]
    congr 1
    by_contra hne
    obtain ⟨r, hr, ho, hloc'⟩ := (h.changed ns).1 hne
    exact ho (hp r hr (hloc'.trans hloc.symm))

/-- A check that says nothing about its files ends well unless one of them failed. -/
theorem Account.status_eq (hnone : ∀ r ∈ reports, r.report.diagnostics = []) :
    c.status = if c.failures.isEmpty then .success else .failure := by
  cases hf : c.failures with
  | nil => exact (code_inj _ .success).1 (h.success.2 ⟨hf, problems_eq_zero.2 hnone⟩)
  | cons f fs =>
    refine (code_inj _ .failure).1 (h.failure.2 (Or.inl ?_))
    rw [hf]
    exact List.cons_ne_nil f fs

end Account

/-- A check whose configuration can be used, whose patterns can be read and whose paths are there
    gives an account of all the files that it selects. -/
theorem run_accounts {g : General} {o : CheckOptions} {d : Disk} {c : Config}
    (hc : config g o d = .ok c)
    (hexclude : ∀ p ∈ c.scope.exclude ++ o.exclude, (Glob.parse? p.toList).isSome)
    (hpaths : ∀ p ∈ o.paths, (d.look? p).isSome) (ho : o.output = none) :
    ∃ l s files reports, c.linter = .ok l ∧ Selection.ofScope (narrow o c.scope) = .ok s ∧
      s.collect d o.paths = .ok files ∧ Account g o d l files reports (run g o d) := by
  obtain ⟨l, s, files, hl, hs, hfiles, hplan⟩ := exists_plan hc hexclude hpaths
  exact ⟨l, s, files, _, hl, hs, hfiles, account_of_plan hplan ho⟩

/-- A directory with a sheet that needs fixing, one that does not, one that is no sheet, a file that
    is no text, and a directory to leave out. -/
def mixedDisk : Disk where
  tree := .dir [
    ("a.css".toList, .file (.text "@a b;c\x7b\x7d".toList)),
    ("b.css".toList, .file (.text "@a b;\nc\x7b\x7d".toList)),
    ("c.css".toList, .file (.text "\x7d".toList)),
    ("d.css".toList, .file (.binary [])),
    ("vendor".toList, .dir [("e.css".toList, .file (.text "@a b;c\x7b\x7d".toList))])]

/-- A check that fixes all but what is in that directory. -/
def mixedCheck : CheckOptions := { mode := .fix, exclude := ["**/vendor/**"] }

/-- The pattern of what it leaves out. -/
def vendorPattern : List Glob.Token := (Glob.parse? "**/vendor/**".toList).get (by decide +kernel)

/-- The selection of that check. -/
def mixedSelection : Selection where
  filter := { extensions := ["css"], exclude := [vendorPattern] }
  gitignore := true

theorem run_accounts_mixedDisk :
    config {} mixedCheck mixedDisk = .ok {} ∧
    (∀ p ∈ mixedCheck.exclude, (Glob.parse? p.toList).isSome) ∧
    (∀ p ∈ mixedCheck.paths, (mixedDisk.look? p).isSome) ∧ mixedCheck.output = none ∧
    ∃ l reports, ({} : Config).linter = .ok l ∧
      Account {} mixedCheck mixedDisk l
        (["./a.css", "./b.css", "./c.css", "./d.css"].map String.toList) reports
        (run {} mixedCheck mixedDisk) ∧
      (run {} mixedCheck mixedDisk).status.code = 2 := by
  have hc : config {} mixedCheck mixedDisk = .ok {} := rfl
  have hexclude : ∀ p ∈ mixedCheck.exclude, (Glob.parse? p.toList).isSome := by decide +kernel
  have hpaths : ∀ p ∈ mixedCheck.paths, (mixedDisk.look? p).isSome := by decide +kernel
  obtain ⟨l, s, files, reports, hl, hs, hfiles, h⟩ := run_accounts hc hexclude hpaths rfl
  have hparse : Glob.parse? "**/vendor/**".toList = some vendorPattern := (Option.some_get _).symm
  have hselection : Selection.ofScope (narrow mixedCheck {}) = .ok mixedSelection := by
    simp only [Selection.ofScope, Filter.ofPatterns, narrow, mixedCheck, List.nil_append,
      Filter.readPatterns, hparse]
    rfl
  rw [hs, Except.ok.injEq] at hselection
  subst hselection
  have hfound : mixedCheck.paths.map (mixedSelection.found mixedDisk)
      = [["./a.css", "./b.css", "./c.css", "./d.css"].map String.toList] := by
    show [List.mergeSort _ _] = _
    rw [List.mergeSort_of_pairwise (by decide +kernel)]
    decide +kernel
  rw [Selection.collect_eq hpaths, hfound, List.mergeSort_of_pairwise (by decide +kernel)] at hfiles
  have hfiles : ["./a.css", "./b.css", "./c.css", "./d.css"].map String.toList = files :=
    Except.ok.inj hfiles
  rw [← hfiles] at h
  have hfail : (run {} mixedCheck mixedDisk).failures ≠ [] := by
    intro hnil
    obtain ⟨t, _, ht, _⟩ := h.linted.failures_eq_nil.1 hnil "./d.css".toList (by decide)
    have hnone : mixedDisk.read? "./d.css".toList = none := by decide +kernel
    rw [hnone] at ht
    cases ht
  exact ⟨hc, hexclude, hpaths, rfl, l, reports, hl, h, h.failure.2 (Or.inl hfail)⟩

end Check

end SheetLint
