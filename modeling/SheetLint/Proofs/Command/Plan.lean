import SheetLint.Command.Check
import SheetLint.Proofs.Files.Collection

/-
  What it takes for a check to start. A configuration that was loaded has known names of rules only,
  and a rule is found by each of them, so a linter can be made of it (`exists_linter_of_config`);
  patterns that can be read make a filter; and paths that are there select files. Nothing else can
  fail before the first file is linted (`exists_plan`).
-/

namespace SheetLint

namespace Config

/-- Rules that exist make a linter, whatever their options are. -/
theorem exists_checks {es : List (String × Toml.Value)}
    (h : ∀ e ∈ es, (Rule.ofName? e.1).isSome) : ∃ l, checks es = .ok l := by
  induction es with
  | nil => exact ⟨[], rfl⟩
  | cons e es ih =>
    obtain ⟨name, v⟩ := e
    obtain ⟨l, hl⟩ := ih fun e he => h e (List.mem_cons_of_mem _ he)
    obtain ⟨rule, hrule⟩ := Option.isSome_iff_exists.1 (h (name, v) List.mem_cons_self)
    obtain ⟨c, hc⟩ : ∃ c, check? name v = .ok c := by
      unfold check?
      cases Setting.ofValue v with
      | disabled => exact ⟨none, rfl⟩
      | enabled option => exact ⟨some { rule, option }, by simp only [hrule]⟩
    refine ⟨c.toList ++ l, ?_⟩
    rw [checks, hc, hl]
    rfl

theorem exists_linter {c : Config} (h : c.fault? = none) : ∃ l, c.linter = .ok l := by
  refine exists_checks ?_
  unfold fault? at h
  rw [Option.or_eq_none_iff, Option.or_eq_none_iff, Option.or_eq_none_iff] at h
  obtain ⟨⟨⟨_, hrules⟩, _⟩, _⟩ := h
  unfold ruleFault? at hrules
  rw [Option.map_eq_none_iff, List.find?_eq_none] at hrules
  intro e he
  have hknown := hrules e he
  rw [Bool.not_eq_true, Bool.not_eq_false'] at hknown
  rwa [Rule.isSome_ofName?]

theorem validate_eq_ok {c c' : Config} : c.validate = .ok c' ↔ c.fault? = none ∧ c' = c := by
  unfold validate
  cases c.fault? <;> simp [eq_comm]

/-- A configuration that was loaded has no fault. -/
theorem fault?_of_load {files : FileView} {p : Path} {c : Config} (h : load files p = .ok c) :
    c.fault? = none := by
  unfold load at h
  split at h
  · unfold ofText at h
    split at h
    · obtain ⟨hfault, rfl⟩ := validate_eq_ok.1 h
      exact hfault
    · cases h
  · cases h

theorem fault?_default : ({} : Config).fault? = none := by decide +kernel

/-- The default configuration has none either. -/
theorem fault?_of_discover {files : FileView} {cwd : Option Path} {c : Config}
    (h : discover files cwd = .ok c) : c.fault? = none := by
  unfold discover at h
  split at h
  · exact fault?_of_load h
  · rw [← Except.ok.inj h]
    exact fault?_default

end Config

/-- Patterns that can be read one by one can be read together. -/
theorem Filter.exists_readPatterns {ps : List String}
    (h : ∀ p ∈ ps, (Glob.parse? p.toList).isSome) : ∃ ts, readPatterns ps = .ok ts := by
  induction ps with
  | nil => exact ⟨[], rfl⟩
  | cons p ps ih =>
    obtain ⟨ts, hts⟩ := ih fun q hq => h q (List.mem_cons_of_mem p hq)
    obtain ⟨t, ht⟩ := Option.isSome_iff_exists.1 (h p List.mem_cons_self)
    refine ⟨t :: ts, ?_⟩
    rw [readPatterns, ht, hts]
    rfl

theorem Selection.exists_ofScope {s : Scope}
    (h : ∀ p ∈ s.exclude, (Glob.parse? p.toList).isSome) : ∃ t, ofScope s = .ok t := by
  obtain ⟨ts, hts⟩ := Filter.exists_readPatterns h
  refine ⟨⟨⟨s.extensions, ts⟩, s.gitignore⟩, ?_⟩
  unfold ofScope Filter.ofPatterns
  rw [hts]
  rfl

namespace Check

variable {g : General} {o : CheckOptions} {d : Disk} {c : Config}

theorem exists_linter_of_config (h : config g o d = .ok c) : ∃ l, c.linter = .ok l := by
  refine Config.exists_linter ?_
  unfold config at h
  split at h
  · rw [← Except.ok.inj h]
    exact Config.fault?_default
  · split at h
    · exact Config.fault?_of_load h
    · exact Config.fault?_of_discover h

/-- A check starts when its configuration can be used, its patterns can be read and its paths are
    there. -/
theorem exists_plan (hc : config g o d = .ok c)
    (hexclude : ∀ p ∈ c.scope.exclude ++ o.exclude, (Glob.parse? p.toList).isSome)
    (hpaths : ∀ p ∈ o.paths, (d.look? p).isSome) :
    ∃ l s files, c.linter = .ok l ∧ Selection.ofScope (narrow o c.scope) = .ok s ∧
      s.collect d o.paths = .ok files ∧ plan g o d = .ok (l, files) := by
  obtain ⟨l, hl⟩ := exists_linter_of_config hc
  obtain ⟨s, hs⟩ := Selection.exists_ofScope (s := narrow o c.scope) hexclude
  have hfiles := Selection.collect_eq (s := s) hpaths
  refine ⟨l, s, _, hl, hs, hfiles, ?_⟩
  unfold plan
  rw [hc]
  simp only [bind, Except.bind, hs, hfiles, hl]
  rfl

end Check

end SheetLint
