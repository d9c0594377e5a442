import SheetLint.Proofs.Command.Account
import SheetLint.Proofs.Files.Stability

/-
  Fixing converges. After the files of some directories were fixed, the same files are found there,
  since only sheets are written and none of them is an ignore file (`scan_fixed`); the files that hold
  a stylesheet are the same, and nothing is found in them (`clean_of_fixed`). So any check that
  follows has empty reports, changes nothing, and ends as the first one did (`run_after_fix`).
-/

namespace SheetLint.Check

open NewlineAfterSemicolon (findings defaultLinter linter_default lintSource_eq_ok lintSource_fix
  lintSource_of_findings_eq_nil)

/-! ## Checks without configuration -/

/-- What a check is told that is told nothing but its directories and its mode. -/
def plainCheck (dirs : List Path) (mode : Mode) : CheckOptions := { paths := dirs, mode }

/-- What a check is told that passes over configuration files. -/
def unconfigured (g : General) : General := { g with noConfig := true }

/-- The selection of the default configuration. -/
def defaultSelection : Selection where
  filter := { extensions := ["css"], exclude := [] }
  gitignore := true

section Plain

variable {g : General} {dirs : List Path} {d : Disk}

/-- A check without configuration starts when its directories are there. -/
theorem plan_plain (g : General) (mode : Mode) (h : ∀ p ∈ dirs, (d.look? p).isSome) :
    ∃ files, defaultSelection.collect d dirs = .ok files ∧
      plan (unconfigured g) (plainCheck dirs mode) d = .ok (defaultLinter, files) := by
  have hc : config (unconfigured g) (plainCheck dirs mode) d = .ok {} := rfl
  have hexclude : ∀ p ∈ ([] : List String), (Glob.parse? p.toList).isSome := by
    intro p hp
    cases hp
  obtain ⟨l, s, files, hl, hs, hfiles, hplan⟩ := exists_plan hc hexclude h
  rw [linter_default, Except.ok.injEq] at hl
  have hselection : Selection.ofScope (narrow (plainCheck dirs mode) {}) = .ok defaultSelection :=
    rfl
  rw [hselection, Except.ok.injEq] at hs
  subst hl hs
  exact ⟨files, hfiles, hplan⟩

/-- The plan of a check without configuration depends on what its directories select only. -/
theorem plan_plain_congr {e : Disk} {files : List Path} {mode mode' : Mode}
    (h : plan (unconfigured g) (plainCheck dirs mode) d = .ok (defaultLinter, files))
    (hd : ∀ p ∈ dirs, (d.look? p).isSome) (he : ∀ p ∈ dirs, (e.look? p).isSome)
    (hscan : ∀ p ∈ dirs, defaultSelection.scan e p = defaultSelection.scan d p) :
    plan (unconfigured g) (plainCheck dirs mode') e = .ok (defaultLinter, files) := by
  obtain ⟨files₁, hfiles₁, hplan₁⟩ := plan_plain g mode hd
  obtain ⟨files₂, hfiles₂, hplan₂⟩ := plan_plain g mode' he
  have hfound : dirs.map (defaultSelection.found e) = dirs.map (defaultSelection.found d) := by
    refine List.map_congr_left fun p hp => ?_
    unfold Selection.found
    rw [hscan p hp]
  rw [Selection.collect_eq he, hfound, ← Selection.collect_eq hd, hfiles₁, Except.ok.injEq]
    at hfiles₂
  rw [h, Except.ok.injEq, Prod.mk.injEq] at hplan₁
  rw [hplan₂, ← hfiles₂, hplan₁.2]

end Plain

/-! ## What was fixed -/

section Fixed

variable {g : General} {o : CheckOptions} {d : Disk} {files : List Path}
  {reports : List FileReport} {c : Completion} (h : Account g o d defaultLinter files reports c)
  (ho : o.mode = .fix)
include h ho

/-- Fixing says nothing. -/
theorem diagnostics_of_fixed : ∀ r ∈ reports, r.report.diagnostics = [] := by
  intro r hr
  obtain ⟨_, s, _, hlint⟩ := h.linted.of_mem hr
  rw [ho] at hlint
  obtain ⟨doc, hdoc, _⟩ := lintSource_eq_ok.1 hlint
  obtain ⟨report, _, hreport, hnone, _⟩ := lintSource_fix hdoc
  rw [Except.ok.inj (hlint.symm.trans hreport)]
  exact hnone

/-- A sheet holds its fixed text, or its own where there is none. -/
theorem read?_of_fixed {p : Path} (hp : p ∈ files) {s : Text} {report : SourceReport}
    (hs : d.read? p = some s) (hlint : defaultLinter.lintSource .fix s = .ok report) :
    c.disk.read? p = some (report.output.getD s) := by
  have hmem := h.linted.mem_of_read? hp hs (by rw [ho]; exact hlint)
  cases hout : report.output with
  | none =>
    rw [h.read?_eq, hs, Option.getD_none]
    intro r hr hloc
    exact (h.linted.writable.same r hr _ hmem hloc).trans hout
  | some t => exact h.holds _ hmem t hout

/-- After a fix the same files hold a stylesheet, and nothing is found in them. -/
theorem clean_of_fixed {p : Path} (hp : p ∈ files) :
    (IsSheet c.disk p ↔ IsSheet d p) ∧
      ∀ s doc, c.disk.read? p = some s → parse s = .ok doc → findings doc = [] := by
  by_cases hsheet : IsSheet d p
  · obtain ⟨s, doc, hs, hdoc⟩ := hsheet
    obtain ⟨report, doc', hlint, _, hdoc', hnone⟩ := lintSource_fix hdoc
    have hread := read?_of_fixed h ho hp hs hlint
    refine ⟨⟨fun _ => ⟨s, doc, hs, hdoc⟩, fun _ => ⟨_, doc', hread, hdoc'⟩⟩, ?_⟩
    intro t doc'' ht hdoc''
    rw [hread, Option.some.injEq] at ht
    rw [← ht, hdoc', Except.ok.injEq] at hdoc''
    rw [← hdoc'']
    exact hnone
  · have hread : c.disk.read? p = d.read? p := by
      refine h.read?_eq fun r hr hloc => ?_
      obtain ⟨_, s, hs, hlint⟩ := h.linted.of_mem hr
      obtain ⟨doc, hdoc, _⟩ := lintSource_eq_ok.1 hlint
      rw [Disk.read?_eq, hloc, ← Disk.read?_eq] at hs
      exact absurd ⟨s, doc, hs, hdoc⟩ hsheet
    refine ⟨?_, ?_⟩
    · unfold IsSheet
      rw [hread]
    · intro s doc hs hdoc
      rw [hread] at hs
      exact absurd ⟨s, doc, hs, hdoc⟩ hsheet

end Fixed

/-- Where nothing is found in the sheets, all reports are empty. -/
theorem report_eq_of_clean {g : General} {o : CheckOptions} {d : Disk} {files : List Path}
    {reports : List FileReport} {c : Completion} (h : Account g o d defaultLinter files reports c)
    (hclean : ∀ p ∈ files, ∀ s doc, d.read? p = some s → parse s = .ok doc → findings doc = []) :
    ∀ r ∈ reports, r.report = {} := by
  intro r hr
  obtain ⟨hp, s, hs, hlint⟩ := h.linted.of_mem hr
  obtain ⟨doc, hdoc, _⟩ := lintSource_eq_ok.1 hlint
  have hempty := lintSource_of_findings_eq_nil hdoc (hclean r.path hp s doc hs hdoc) o.mode
  exact Except.ok.inj (hlint.symm.trans hempty)

/-! ## The files that are selected -/

section Selected

variable {g : General} {dirs : List Path} {d : Disk} {files : List Path}
  (hd : d.tree.Ordered) (hdirs : ∀ p ∈ dirs, ∃ es, d.look? p = some (.dir es))
include hdirs

theorem isSome_look? : ∀ p ∈ dirs, (d.look? p).isSome := by
  intro p hp
  obtain ⟨es, hes⟩ := hdirs p hp
  rw [hes]
  rfl

include hd

/-- Fixing what directories select keeps what they select. -/
theorem scan_fixed (h : plan (unconfigured g) (plainCheck dirs .fix) d = .ok (defaultLinter, files)) :
    ∀ p ∈ dirs, defaultSelection.scan (run (unconfigured g) (plainCheck dirs .fix) d).disk p
      = defaultSelection.scan d p := by
  have hlinted := linted defaultLinter .fix d files
  have hselected : ∀ p ∈ files, ∃ root ∈ dirs, p ∈ defaultSelection.found d root := by
    obtain ⟨files', hfiles', hplan⟩ := plan_plain g .fix (isSome_look? hdirs)
    rw [h, Except.ok.injEq, Prod.mk.injEq] at hplan
    rw [hplan.2]
    exact fun p hp => Selection.mem_collect (isSome_look? hdirs) hfiles' hp
  refine (run_keeps (P := fun e => e.tree.Ordered ∧
    ∀ p ∈ dirs, defaultSelection.scan e p = defaultSelection.scan d p) h rfl
    ⟨hd, fun _ _ => rfl⟩ ?_).2
  intro r hr s ns hs hloc e u hlayout ⟨hordered, hscan⟩ hu
  obtain ⟨t, ns', hloc', hc, _⟩ := hlinted.exists_place hr
  rw [hloc, Option.some.injEq] at hloc'
  subst hloc'
  obtain ⟨root, hroot, hfound⟩ := hselected r.path (hlinted.of_mem hr).1
  obtain ⟨es, hes⟩ := hdirs root hroot
  have hname := Selection.not_mem_ignoreNames_of_found (s := defaultSelection) (by decide) hes
    hfound hloc hc
  have hc' := hlayout.files ns
  rw [hc] at hc'
  obtain ⟨c', hc'⟩ := Option.isSome_iff_exists.1 hc'
  refine ⟨hordered.write? hu, fun p hp => ?_⟩
  obtain ⟨es', hes'⟩ := hlayout.exists_dir (hdirs p hp)
  rw [Selection.scan_write? rfl hordered hes' hc' hu hname, hscan p hp]

/-- Whatever check follows a fix, it selects the same files, its reports are empty, it changes
    nothing and it ends as the fix did. -/
theorem run_after_fix (mode : Mode)
    (h : plan (unconfigured g) (plainCheck dirs .fix) d = .ok (defaultLinter, files)) {e : Disk}
    (he : e = (run (unconfigured g) (plainCheck dirs .fix) d).disk) :
    plan (unconfigured g) (plainCheck dirs mode) e = .ok (defaultLinter, files) ∧
    ∃ reports, Account (unconfigured g) (plainCheck dirs mode) e defaultLinter files reports
        (run (unconfigured g) (plainCheck dirs mode) e) ∧
      (∀ r ∈ reports, r.report = {}) ∧
      (run (unconfigured g) (plainCheck dirs mode) e).disk = e ∧
      (run (unconfigured g) (plainCheck dirs mode) e).status
        = (run (unconfigured g) (plainCheck dirs .fix) d).status := by
  have hfirst := account_of_plan h rfl
  have hdirs' : ∀ p ∈ dirs, ∃ es, e.look? p = some (.dir es) := by
    rw [he]
    exact fun p hp => hfirst.layout.exists_dir (hdirs p hp)
  have hplan : plan (unconfigured g) (plainCheck dirs mode) e = .ok (defaultLinter, files) := by
    refine plan_plain_congr h (isSome_look? hdirs) (isSome_look? hdirs') ?_
    rw [he]
    exact scan_fixed hd hdirs h
  have hagain := account_of_plan hplan rfl
  have hempty := report_eq_of_clean hagain (by
    rw [he]
    exact fun p hp => (clean_of_fixed hfirst rfl hp).2)
  have hsilent : ∀ r ∈ reportsOf defaultLinter mode e files, r.report.diagnostics = [] := by
    intro r hr
    rw [hempty r hr]
  -- Both checks fail for the files without a stylesheet, and these are the same.
  have hfailures : (run (unconfigured g) (plainCheck dirs mode) e).failures = [] ↔
      (run (unconfigured g) (plainCheck dirs .fix) d).failures = [] := by
    rw [hagain.linted.failures_eq_nil, hfirst.linted.failures_eq_nil]
    refine forall₂_congr fun p hp => ?_
    rw [he]
    exact (clean_of_fixed hfirst rfl hp).1
  refine ⟨hplan, _, hagain, hempty, hagain.untouched ?_, ?_⟩
  · intro r hr
    rw [hempty r hr]
  · rw [hagain.status_eq hsilent, hfirst.status_eq (diagnostics_of_fixed hfirst rfl)]
    simp only [List.isEmpty_iff, hfailures]

end Selected

/-- Fixing the files of directories twice is fixing them once, and nothing is left to report: of
    three checks in a row that do not read a configuration, two that fix and one that reports, the
    second changes nothing, and the third finds the same files and nothing in them. All end alike:
    well, unless a file cannot be read as a stylesheet. -/
theorem fix_converges (g : General) {dirs : List Path} {d : Disk} (hd : d.tree.Ordered)
    (hdirs : ∀ p ∈ dirs, ∃ es, d.look? p = some (.dir es)) :
    let first := run (unconfigured g) (plainCheck dirs .fix) d
    let second := run (unconfigured g) (plainCheck dirs .fix) first.disk
    let third := run (unconfigured g) (plainCheck dirs .report) second.disk
    ∃ files reports₁ reports₂ reports₃,
      plan (unconfigured g) (plainCheck dirs .fix) d = .ok (defaultLinter, files) ∧
      Account (unconfigured g) (plainCheck dirs .fix) d defaultLinter files reports₁ first ∧
      Account (unconfigured g) (plainCheck dirs .fix) first.disk defaultLinter files reports₂
        second ∧
      second.disk = first.disk ∧ (Totals.of reports₂).fixed = 0 ∧
      plan (unconfigured g) (plainCheck dirs .report) second.disk = .ok (defaultLinter, files) ∧
      Account (unconfigured g) (plainCheck dirs .report) second.disk defaultLinter files reports₃
        third ∧
      (∀ r ∈ reports₃, r.report.diagnostics = []) ∧
      second.status = first.status ∧ third.status = first.status ∧
      (first.status.code = 0 ∨ first.status.code = 2) ∧
      (first.status.code = 2 ↔ ∃ p ∈ files, ¬IsSheet d p) := by
  obtain ⟨files, _, hplan⟩ := plan_plain g .fix (isSome_look? hdirs)
  have hfirst := account_of_plan hplan rfl
  obtain ⟨_, reports₂, hsecond, hempty₂, hdisk, hstatus₂⟩ := run_after_fix hd hdirs .fix hplan rfl
  obtain ⟨hplan₃, reports₃, hthird, hempty₃, _, hstatus₃⟩ :=
    run_after_fix hd hdirs .report hplan hdisk
  have hfixed : (Totals.of reports₂).fixed = 0 := fixed_eq_zero.2 fun r hr => by
    rw [hempty₂ r hr]
  have hstatus := hfirst.status_eq (diagnostics_of_fixed hfirst rfl)
  refine ⟨files, _, reports₂, reports₃, hplan, hfirst, hsecond, hdisk, hfixed, hplan₃, hthird,
    fun r hr => by rw [hempty₃ r hr], hstatus₂, hstatus₃, ?_, ?_⟩
  · rw [hstatus]
    split
    · exact Or.inl rfl
    · exact Or.inr rfl
  · have hcode := hfirst.failure
    rw [or_iff_left (not_mentions (diagnostics_of_fixed hfirst rfl) _), Ne,
      hfirst.linted.failures_eq_nil] at hcode
    rw [hcode]
    simp only [not_forall, exists_prop]

/-- An ignore file that ignores nothing, a sheet that needs fixing, and in a directory of its own a
    file that is no sheet. -/
def unfixedDisk : Disk where
  tree := ((FileTree.empty.withFile [".gitignore".toList] (.text "# none\n".toList)
    ).withFile ["a.css".toList] (.text "@a b;c\x7b\x7d".toList)
    ).withFile ["sub".toList, "b.css".toList] (.text "\x7d".toList)

/-- The directories of that disk, the inner one twice. -/
def bothDirs : List Path := [".", "sub"].map String.toList

theorem fix_converges_unfixedDisk :
    unfixedDisk.tree.Ordered ∧ (∀ p ∈ bothDirs, ∃ es, unfixedDisk.look? p = some (.dir es)) ∧
    let first := run (unconfigured {}) (plainCheck bothDirs .fix) unfixedDisk
    let second := run (unconfigured {}) (plainCheck bothDirs .fix) first.disk
    let third := run (unconfigured {}) (plainCheck bothDirs .report) second.disk
    plan (unconfigured {}) (plainCheck bothDirs .fix) unfixedDisk
      = .ok (defaultLinter, ["./a.css", "./sub/b.css", "sub/b.css"].map String.toList) ∧
    plan (unconfigured {}) (plainCheck bothDirs .report) second.disk
      = .ok (defaultLinter, ["./a.css", "./sub/b.css", "sub/b.css"].map String.toList) ∧
    second.disk = first.disk ∧
    first.status.code = 2 ∧ second.status = first.status ∧ third.status = first.status := by
  have hd : unfixedDisk.tree.Ordered :=
    ((FileTree.Ordered.empty.withFile _ _).withFile _ _).withFile _ _
  have hdirs : ∀ p ∈ bothDirs, ∃ es, unfixedDisk.look? p = some (.dir es) := by
    intro p hp
    rcases List.mem_pair.1 hp with rfl | rfl
    · exact ⟨_, rfl⟩
    · exact ⟨_, rfl⟩
  obtain ⟨files, _, _, _, hplan, _, _, hdisk, _, hplan₃, _, _, hstatus₂, hstatus₃, _, hcode⟩ :=
    fix_converges {} hd hdirs
  have hsome := isSome_look? hdirs
  have hfound : bothDirs.map (defaultSelection.found unfixedDisk)
      = [["./a.css", "./sub/b.css"].map String.toList, ["sub/b.css".toList]] := by
    show [List.mergeSort _ _, List.mergeSort _ _] = _
    rw [List.mergeSort_of_pairwise (by decide +kernel),
      List.mergeSort_of_pairwise (by decide +kernel)]
    decide +kernel
  obtain ⟨files', hcollect, hselected⟩ := plan_plain {} .fix hsome
  rw [Selection.collect_eq hsome, hfound, List.mergeSort_of_pairwise (by decide +kernel)] at hcollect
  have hcollect : ["./a.css", "./sub/b.css", "sub/b.css"].map String.toList = files' :=
    Except.ok.inj hcollect
  rw [← hcollect] at hselected
  rw [hselected, Except.ok.injEq, Prod.mk.injEq] at hplan
  rw [← hplan.2] at hplan₃ hcode
  have hnot : ¬IsSheet unfixedDisk "sub/b.css".toList := by
    rintro ⟨s, doc, hs, hdoc⟩
    have hread : unfixedDisk.read? "sub/b.css".toList = some "\x7d".toList := by decide +kernel
    have hfails : (parse "\x7d".toList).toBool = false := by decide +kernel
    rw [hread, Option.some.injEq] at hs
    rw [hs, hdoc] at hfails
    cases hfails
  exact ⟨hd, hdirs, hselected, hplan₃, hdisk, hcode.2 ⟨_, by simp, hnot⟩, hstatus₂, hstatus₃⟩

end SheetLint.Check
