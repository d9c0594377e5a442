import SheetLint.Proofs.Command.Plan
import SheetLint.Proofs.Config.Options
import SheetLint.Proofs.Path.Ancestors

/-
  Configurations that were loaded. Of the configuration files around a working directory only the
  nearest is looked at: what it holds decides, even if that is no configuration, and what else there
  is does not matter (`nearest_file_decides`). A configuration that comes out of this has no fault,
  so its patterns can be read, and a linter is made of it that runs one check for every rule that is
  not turned off (`loaded_config_is_usable`).
-/

namespace SheetLint

namespace Config

variable {files : FileView} {c : Config}

/-! ## What a loaded configuration is good for -/

/-- Whether a value turns a rule off. -/
def isOff : Toml.Value → Bool
  | .boolean b => !b
  | _ => false

theorem isOff_iff {v : Toml.Value} : isOff v ↔ v = .boolean false := by
  unfold isOff
  split <;> simp_all

theorem check?_eq_ok {name : String} {v : Toml.Value} {check : Option Check}
    (h : check? name v = .ok check) :
    check.toList.map (·.rule.name) = if isOff v then [] else [name] := by
  unfold check? at h
  split at h
  · rename_i hoff
    rw [if_pos (isOff_iff.2 (Setting.ofValue_eq_disabled.1 hoff)), ← Except.ok.inj h]
    rfl
  · rename_i option hon
    have hv : ¬isOff v := by
      rw [isOff_iff, ← Setting.ofValue_eq_disabled, hon]
      simp
    rw [if_neg hv]
    split at h
    · rename_i rule hrule
      rw [← Except.ok.inj h, ← Rule.name_of_ofName? hrule]
      rfl
    · cases h

/-- A linter has one check for each rule that is not turned off, in the order of the names. -/
theorem names_of_checks {es : List (String × Toml.Value)} {l : Linter} (h : checks es = .ok l) :
    l.map (·.rule.name) = (es.filter fun e => !isOff e.2).map (·.1) := by
  induction es generalizing l with
  | nil =>
    rw [checks, Except.ok.injEq] at h
    rw [← h]
    rfl
  | cons e es ih =>
    obtain ⟨name, v⟩ := e
    rw [checks] at h
    cases hcheck : check? name v with
    | error f => rw [hcheck] at h; cases h
    | ok check =>
      cases hrest : checks es with
      | error f => rw [hcheck, hrest] at h; cases h
      | ok rest =>
        rw [hcheck, hrest] at h
        obtain rfl := Except.ok.inj h
        rw [List.map_append, check?_eq_ok hcheck, ih hrest]
        cases hv : isOff v <;> simp [hv]

theorem exists_patterns {c : Config} (h : c.fault? = none) :
    ∃ patterns, Filter.readPatterns c.scope.exclude = .ok patterns := by
  refine Filter.exists_readPatterns ?_
  unfold fault? at h
  rw [Option.or_eq_none_iff] at h
  have hpatterns := h.2
  unfold patternFault? at hpatterns
  rw [Option.map_eq_none_iff, List.find?_eq_none] at hpatterns
  intro p hp
  have hsome := hpatterns p hp
  rwa [Bool.not_eq_true, Option.isNone_eq_false_iff] at hsome

/-- A configuration that was found or loaded from a path can be used: it has no fault, its patterns
    are read, and its linter has one check for each rule whose value is not `false`. -/
theorem loaded_config_is_usable
    (h : (∃ cwd, discover files cwd = .ok c) ∨ ∃ p, load files p = .ok c) :
    c.validate = .ok c ∧
    (∃ patterns, Filter.ofPatterns c.scope.extensions c.scope.exclude
      = .ok { extensions := c.scope.extensions, exclude := patterns }) ∧
    ∃ l, c.linter = .ok l ∧
      l.map (·.rule.name) = (c.rules.filter fun e => !isOff e.2).map (·.1) ∧
      l.length = c.rules.countP fun e => !isOff e.2 := by
  have hfault : c.fault? = none := by
    rcases h with ⟨cwd, h⟩ | ⟨p, h⟩
    · exact fault?_of_discover h
    · exact fault?_of_load h
  obtain ⟨patterns, hpatterns⟩ := exists_patterns hfault
  obtain ⟨l, hl⟩ := exists_linter hfault
  have hnames := names_of_checks hl
  refine ⟨validate_eq_ok.2 ⟨hfault, rfl⟩, ⟨patterns, ?_⟩, l, hl, hnames, ?_⟩
  · unfold Filter.ofPatterns
    rw [hpatterns]
    rfl
  · have hlength := congrArg List.length hnames
    rwa [List.length_map, List.length_map, ← List.countP_eq_length_filter] at hlength

/-- A configuration file that leaves out a directory and runs the rule without an option. -/
def vendorFiles : FileView := .ofList
  [("/p/.semi-guard.toml".toList,
    "[scanner]\nexclude = [\"**/vendor/**\"]\n[rules]\nat-rule-semicolon-newline-after = true\n".toList)]

theorem loaded_config_is_usable_vendorFiles :
    ∃ c, discover vendorFiles (some "/p/q".toList) = .ok c ∧
      c.scope.exclude = ["**/vendor/**"] ∧ c.validate = .ok c ∧
      (∃ f, Filter.ofPatterns c.scope.extensions c.scope.exclude = .ok f) ∧
      ∃ l, c.linter = .ok l ∧ l.length = 1 := by
  have hfields : (discover vendorFiles (some "/p/q".toList)).toOption.map
      (fun c => (c.scope.exclude, c.rules.countP fun e => !isOff e.2))
      = some (["**/vendor/**"], 1) := by decide +kernel
  obtain ⟨c, hc, hboth⟩ := Option.map_eq_some_iff.1 hfields
  obtain ⟨hexclude, hcount⟩ := Prod.mk.inj hboth
  have hdiscover : discover vendorFiles (some "/p/q".toList) = .ok c := by
    revert hc
    cases discover vendorFiles (some "/p/q".toList) <;> simp [Except.toOption]
  obtain ⟨hvalidate, ⟨patterns, hpatterns⟩, l, hl, -, hlength⟩ :=
    loaded_config_is_usable (Or.inl ⟨_, hdiscover⟩)
  exact ⟨c, hdiscover, hexclude, hvalidate, ⟨_, hpatterns⟩, l, hl, hlength.trans hcount⟩

/-! ## The nearest file -/

section Nearest

variable {cwd dir : Path} {nearer farther : List Path}

/-- A directory that leads to the working directory has a configuration file, and none of the
    directories between has one. -/
structure IsNearest (files : FileView) (cwd dir : Path) : Prop where
  exists_split : ∃ nearer farther, cwd.ancestors = nearer ++ dir :: farther ∧
    ∀ d ∈ nearer, files.has (d.join fileName) = false
  has_file : files.has (dir.join fileName)

theorem IsNearest.nearest?_eq (h : IsNearest files cwd dir) :
    nearest? files cwd = some (dir.join fileName) := by
  obtain ⟨nearer, farther, hsplit, hnearer⟩ := h.exists_split
  unfold nearest?
  rw [hsplit, List.map_append, List.map_cons, List.find?_append, List.find?_cons_of_pos h.has_file,
    Option.or_eq_right_of_none]
  rw [List.find?_eq_none]
  intro p hp
  obtain ⟨d, hd, rfl⟩ := List.mem_map.1 hp
  simp [hnearer d hd]

theorem IsNearest.discover_eq (h : IsNearest files cwd dir) :
    discover files (some cwd) = load files (dir.join fileName) := by
  unfold discover
  rw [Option.bind_some, h.nearest?_eq]

theorem discover_of_none (h : ∀ d ∈ cwd.ancestors, files.has (d.join fileName) = false) :
    discover files (some cwd) = .ok {} := by
  have hnone : nearest? files cwd = none := by
    unfold nearest?
    rw [List.find?_eq_none]
    intro p hp
    obtain ⟨d, hd, rfl⟩ := List.mem_map.1 hp
    simp [h d hd]
  unfold discover
  rw [Option.bind_some, hnone]

theorem load_congr {other : FileView} {p : Path} (h : other.read? p = files.read? p) :
    load other p = load files p := by
  unfold load
  rw [h]

end Nearest

/-- The configuration for a working directory is that of the nearest file, with its failure if it
    cannot be read, is not TOML or has a fault, and the default one where there is no file or the
    working directory is unknown. The directories are asked from the working directory outwards. Two
    views of files with the same nearest file and the same text in it give the same. -/
theorem nearest_file_decides (files : FileView) :
    discover files none = .ok {} ∧
    ∀ cwd : Path,
      cwd.ancestors.map Path.components
        = (if cwd.head? = some '/' then cwd.components.inits.tail
          else cwd.components.inits).reverse ∧
      ((∀ d ∈ cwd.ancestors, files.has (d.join fileName) = false) →
        discover files (some cwd) = .ok {}) ∧
      ∀ dir, IsNearest files cwd dir →
        discover files (some cwd) = load files (dir.join fileName) ∧
        ∀ other : FileView, IsNearest other cwd dir →
          other.read? (dir.join fileName) = files.read? (dir.join fileName) →
          discover other (some cwd) = discover files (some cwd) := by
  refine ⟨rfl, fun cwd => ⟨Path.components_ancestors cwd, discover_of_none, fun dir hdir => ?_⟩⟩
  refine ⟨hdir.discover_eq, fun other hother hread => ?_⟩
  rw [hother.discover_eq, hdir.discover_eq, load_congr hread]

/-- A file that is no configuration, in a directory below one with a file that is. -/
def nestedFiles : FileView := .ofList
  [("/.semi-guard.toml".toList, "version = \"1\"\n".toList),
    ("/p/.semi-guard.toml".toList, "version =\n".toList)]

/-- The same file in the directory, and no other. -/
def loneFile : FileView := .ofList [("/p/.semi-guard.toml".toList, "version =\n".toList)]

theorem nearest_file_decides_nestedFiles :
    IsNearest nestedFiles "/p/q".toList "/p".toList ∧
    IsNearest loneFile "/p/q".toList "/p".toList ∧
    loneFile.read? "/p/.semi-guard.toml".toList = nestedFiles.read? "/p/.semi-guard.toml".toList ∧
    discover nestedFiles (some "/p/q".toList) = .error .toml ∧
    discover loneFile (some "/p/q".toList) = .error .toml := by
  have hsplit : Path.ancestors "/p/q".toList = ["/p/q".toList] ++ "/p".toList :: ["/".toList] := by
    decide +kernel
  have hnested : IsNearest nestedFiles "/p/q".toList "/p".toList :=
    ⟨⟨_, _, hsplit, by decide +kernel⟩, by decide +kernel⟩
  have hlone : IsNearest loneFile "/p/q".toList "/p".toList :=
    ⟨⟨_, _, hsplit, by decide +kernel⟩, by decide +kernel⟩
  have hpath : Path.join "/p".toList fileName = "/p/.semi-guard.toml".toList := by decide +kernel
  have hread : loneFile.read? "/p/.semi-guard.toml".toList
      = nestedFiles.read? "/p/.semi-guard.toml".toList := by decide +kernel
  have htext : nestedFiles.read? "/p/.semi-guard.toml".toList = some "version =\n".toList := by
    decide +kernel
  have hnone : Toml.read "version =\n".toList = none :=
    Option.isNone_iff_eq_none.1 (by decide +kernel)
  obtain ⟨_, hall⟩ := nearest_file_decides nestedFiles
  obtain ⟨_, _, hdecides⟩ := hall "/p/q".toList
  obtain ⟨hload, hother⟩ := hdecides "/p".toList hnested
  have herror : discover nestedFiles (some "/p/q".toList) = .error .toml := by
    rw [hload, hpath, load, htext]
    dsimp only
    rw [ofText, hnone]
    rfl
  rw [hpath] at hother
  exact ⟨hnested, hlone, hread, herror, (hother loneFile hlone hread).trans herror⟩

end Config

end SheetLint
