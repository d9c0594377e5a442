import SheetLint.Proofs.Files.Completeness
import SheetLint.Proofs.Glob.Matching

/-
  What exclude patterns exclude. Patterns are held against the paths of files only, as these were
  come upon. So the files of a directory are left out with it by a pattern that ends open
  (`open_patterns_exclude_directories`), but not by every pattern that matches the directory
  (`directories_are_not_skipped`). And a file is left out alike when it is named and when it is
  found in the working directory if the patterns float (`floating_patterns_exclude_alike`), but not
  in general: its path is without `./` in the one case and with it in the other
  (`patterns_miss_found_files`).
-/

namespace SheetLint

namespace Path

variable {p q : Path} {n : Text} {ns : List Text}

theorem getLast?_segments_join (p : Path) (hn : IsName n) :
    (p.join n).segments.getLast? = some n := by
  by_cases hp : p = []
  · rw [hp]
    exact congrArg List.getLast? (segments_of_isName hn)
  · obtain ⟨ss, _, hjoin, _⟩ := segments_join hp hn.2.2.2
    rw [hjoin, List.getLast?_concat]

/-- The last part of a path below a directory is a name. -/
theorem exists_getLast?_segments_below (p : Path) (hne : ns ≠ []) (hns : ∀ n ∈ ns, IsName n) :
    ∃ n, IsName n ∧ (p.below ns).segments.getLast? = some n := by
  obtain ⟨ms, n, rfl⟩ := List.eq_nil_or_concat ns |>.resolve_left hne
  rw [List.concat_eq_append] at *
  have hn := hns n (List.mem_append_right ms List.mem_cons_self)
  rw [below_append]
  exact ⟨n, hn, getLast?_segments_join (p.below ms) hn⟩

/-- The extension of a path below a directory is that of its last name. -/
theorem extension?_below (p q : Path) (hne : ns ≠ []) (hns : ∀ n ∈ ns, IsName n) :
    (p.below ns).extension? = (q.below ns).extension? := by
  have hmap : ns.map Component.normal ≠ [] := fun h => hne (List.map_eq_nil_iff.1 h)
  unfold extension? fileName?
  rw [components_below hns, components_below hns, List.getLast?_append_of_ne_nil _ hmap,
    List.getLast?_append_of_ne_nil _ hmap]

/-- Names joined to the path of the working directory are the names with `./` in front. -/
theorem below_current (hne : ns ≠ []) (hns : ∀ n ∈ ns, IsName n) :
    below ['.'] ns = '.' :: '/' :: below [] ns := by
  have hfront (ms : List Text) (p : Path) (hp : p ≠ []) :
      below ('.' :: '/' :: p) ms = '.' :: '/' :: below p ms := by
    induction ms generalizing p with
    | nil => rfl
    | cons m ms ih =>
      obtain ⟨c, p, rfl⟩ := List.exists_cons_of_ne_nil hp
      have hjoin : join ('.' :: '/' :: c :: p) m = '.' :: '/' :: join (c :: p) m := by
        unfold join
        rw [List.getLast?_cons_cons, List.getLast?_cons_cons]
        simp only [List.cons_ne_nil, false_or]
        split <;> rfl
      have hne : join (c :: p) m ≠ [] := by
        unfold join
        split <;> exact List.cons_ne_nil _ _
      rw [below_cons, below_cons, hjoin, ih _ hne]
  cases ns with
  | nil => exact absurd rfl hne
  | cons n ns => exact hfront ns n (hns n List.mem_cons_self).1

end Path

namespace Disk

open SheetLint.Path (IsName)

/-- Names lead on from the working directory. -/
theorem locate?_names {d : Disk} {ns : List Text} {t : FileTree} (hne : ns ≠ [])
    (hns : ∀ n ∈ ns, IsName n) (h : d.tree.at? (d.cwd ++ ns) = some t) :
    d.locate? (Path.below [] ns) = some (d.cwd ++ ns) := by
  cases ns with
  | nil => exact absurd rfl hne
  | cons n ns =>
    obtain ⟨hn, hrest⟩ := List.forall_mem_cons.1 hns
    have hstart : d.start n = d.cwd := if_neg fun hn' => hn.2.2.2 (List.mem_of_head? hn')
    have hfirst : d.locate? n = follow d.tree d.cwd [n] := by
      rw [locate?, if_neg hn.1, hstart, Path.segments_of_isName hn]
    have hall : follow d.tree d.cwd (n :: ns) = some (d.cwd ++ n :: ns) :=
      follow_names hns (by rw [h]; rfl)
    show d.locate? (Path.below n ns) = _
    rw [locate?_below d hn.1 hrest, hfirst, ← follow_append]
    exact hall

end Disk

namespace Filter

/-- Below a directory a path is matched as a whole. -/
theorem isMatch_below {ns : List Text} (p : Path) (hne : ns ≠ []) (hns : ∀ n ∈ ns, Path.IsName n)
    (ts : List Glob.Token) :
    isMatch ts (p.below ns) = Glob.matchesAll false ts (Glob.bytesOf (p.below ns)) := by
  obtain ⟨n, hn, hlast⟩ := Path.exists_getLast?_segments_below p hne hns
  have hup : (some n == some ['.', '.']) = false := by simpa using hn.2.2.1
  rw [isMatch, hlast, hup, Bool.false_and, Bool.not_false, Bool.and_true]

/-- A pattern that ends open matches with a directory what is below it. -/
theorem isMatch_below_of_isOpenEnded {ts : List Glob.Token} (hopen : Glob.isOpenEnded ts)
    {p : Path} {dirs ns ms : List Text} (h : isMatch ts (p.below dirs)) (hne : ms ≠ [])
    (hms : ∀ m ∈ ms, Path.IsName m) (heq : p.below ms = p.below (dirs ++ ns)) :
    isMatch ts (p.below ms) := by
  obtain ⟨rest, hrest⟩ := Path.prefix_below (p.below dirs) ns
  have hbytes : Glob.bytesOf (p.below dirs ++ rest)
      = Glob.bytesOf (p.below dirs) ++ Glob.bytesOf rest := List.flatMap_append
  rw [isMatch_below p hne hms, heq, Path.below_append, ← hrest, hbytes]
  exact Glob.matchesAll_append hopen (Bool.and_eq_true_iff.1 h).1 _

/-- A floating pattern matches a path with `./` in front where it matches the path. -/
theorem isMatch_current {ts : List Glob.Token} (hfloats : Glob.floats ts) {ns : List Text}
    (hne : ns ≠ []) (hns : ∀ n ∈ ns, Path.IsName n) :
    isMatch ts (Path.below ['.'] ns) = isMatch ts (Path.below [] ns) := by
  rw [isMatch_below _ hne hns, isMatch_below _ hne hns, Path.below_current hne hns,
    Bool.eq_iff_iff]
  exact Glob.matchesAll_dotSlash hfloats (Glob.bytesOf (Path.below [] ns))

theorem isExcluded_iff {f : Filter} {p : Path} :
    f.isExcluded p ↔ ∃ ts ∈ f.exclude, isMatch ts p := List.any_eq_true

theorem includes_iff {f : Filter} {p : Path} :
    f.includes p ↔ f.hasExtension p ∧ ¬f.isExcluded p := by
  rw [includes, Bool.and_eq_true, Bool.not_eq_true', Bool.not_eq_true]

end Filter

namespace Selection

variable {f : Filter} {d : Disk}

/-! ## Directories that match a pattern -/

/-- Of a directory that a pattern matches, the files are left out that a pattern matches themselves.
    If the pattern ends open, these are all the files below the directory, whether ignored files
    are left out as well or not. -/
theorem open_patterns_exclude_directories (hd : d.tree.Ordered) (hnames : d.tree.Named)
    {root : Path} {es : List (Text × FileTree)} (hroot : d.look? root = some (.dir es))
    {dirs : List Text} {ts : List Glob.Token} (hts : ts ∈ f.exclude)
    (hmatch : Filter.isMatch ts (root.below dirs)) :
    (∃ ps, (filtered f false).scan d root = .ok ps ∧
      ∀ ns c, (FileTree.dir es).at? (dirs ++ ns) = some (.file c) →
        (root.below (dirs ++ ns) ∈ ps ↔ f.hasExtension (root.below (dirs ++ ns)) ∧
          ∀ us ∈ f.exclude, ¬Filter.isMatch us (root.below (dirs ++ ns)))) ∧
    (Glob.isOpenEnded ts → ∀ gitignore, ∃ ps, (filtered f gitignore).scan d root = .ok ps ∧
      ∀ ns, root.below (dirs ++ ns) ∉ ps) := by
  obtain ⟨ht, hin⟩ := sound_of_look? hd hnames hroot
  refine ⟨⟨_, scan_dir hroot, fun ns c hfile => ?_⟩, fun hopen gitignore =>
    ⟨_, scan_dir hroot, fun ns hmem => ?_⟩⟩
  · rw [(scanned_dir ht hin f root).mem_iff]
    have hincludes : f.includes (root.below (dirs ++ ns)) ↔ _ := Filter.includes_iff
    rw [Filter.isExcluded_iff] at hincludes
    push Not at hincludes
    rw [← hincludes]
    exact ⟨fun ⟨_, _, _, _, h⟩ => h, fun h => ⟨_, c, hfile, rfl, h⟩⟩
  · obtain ⟨ms, c, hfile, heq⟩ := exists_of_mem_listed ht hmem
    have hincludes : f.includes (root.below (dirs ++ ns)) := (mem_listed.1 hmem).2
    have hne : ms ≠ [] := by
      rintro rfl
      cases hfile
    rw [heq] at hincludes
    refine (Filter.includes_iff.1 hincludes).2 (Filter.isExcluded_iff.2 ⟨ts, hts, ?_⟩)
    exact Filter.isMatch_below_of_isOpenEnded hopen hmatch hne (hin.of_at? ht hfile) heq.symm

/-- A directory in the working directory, with a sheet. -/
def vendorDisk : Disk where
  tree := FileTree.empty.withFile ["vendor".toList, "a.css".toList] (.text [])

/-- The filter of sheets that leaves out what a pattern matches. -/
def excluding (ts : List Glob.Token) : Filter := { extensions := ["css"], exclude := [ts] }

/-- A pattern that matches the directory and ends open. -/
def openVendor : List Glob.Token := (Glob.parse? "**/vendor*".toList).get (by decide +kernel)

/-- A pattern that matches the directory alone. -/
def bareVendor : List Glob.Token := (Glob.parse? "**/vendor".toList).get (by decide +kernel)

/-- A pattern that is the path of the sheet. -/
def vendorSheet : List Glob.Token := (Glob.parse? "vendor/a.css".toList).get (by decide +kernel)

theorem open_patterns_exclude_directories_vendorDisk :
    Glob.parse? "**/vendor*".toList = some openVendor ∧
    vendorDisk.tree.Ordered ∧ vendorDisk.tree.Named ∧
    vendorDisk.look? ['.'] = some vendorDisk.tree ∧
    openVendor ∈ (excluding openVendor).exclude ∧
    Filter.isMatch openVendor (Path.below ['.'] ["vendor".toList]) ∧
    Glob.isOpenEnded openVendor ∧
    ∃ ps, (filtered (excluding openVendor) true).scan vendorDisk ['.'] = .ok ps ∧
      Path.below ['.'] ["vendor".toList, "a.css".toList] ∉ ps := by
  have hd : vendorDisk.tree.Ordered := FileTree.Ordered.empty.withFile _ _
  have hnames : vendorDisk.tree.Named := by decide +kernel
  have hmem : openVendor ∈ (excluding openVendor).exclude := List.mem_singleton_self _
  have hmatch : Filter.isMatch openVendor (Path.below ['.'] ["vendor".toList]) := by
    decide +kernel
  have hopen : Glob.isOpenEnded openVendor := by decide +kernel
  obtain ⟨ps, hps, hout⟩ :=
    (open_patterns_exclude_directories hd hnames rfl hmem hmatch).2 hopen true
  exact ⟨(Option.some_get _).symm, hd, hnames, rfl, hmem, hmatch, hopen, ps, hps,
    hout ["a.css".toList]⟩

/-- The sheet is found unless a pattern excludes it. -/
theorem scan_vendorDisk {ts : List Glob.Token}
    (h : (excluding ts).includes "./vendor/a.css".toList) :
    (filtered (excluding ts) false).scan vendorDisk ['.'] = .ok ["./vendor/a.css".toList] := by
  have hunder : vendorDisk.tree.pathsUnder ['.'] = ["./vendor/a.css".toList] := by decide +kernel
  have hroot : vendorDisk.look? ['.'] = some vendorDisk.tree := rfl
  have hin : (filtered (excluding ts) false).filter.includes "./vendor/a.css".toList := h
  unfold scan
  rw [hroot]
  show Except.ok (((vendorDisk.tree.pathsUnder ['.']).filter _).mergeSort _) = _
  rw [hunder, List.filter_cons_of_pos hin]
  exact congrArg Except.ok (List.mergeSort_singleton _)

/-- A directory is matched by a pattern, and its file is listed all the same. -/
theorem directories_are_not_skipped :
    Glob.parse? "**/vendor".toList = some bareVendor ∧
    Filter.isMatch bareVendor "./vendor".toList ∧
    (vendorDisk.look? "./vendor".toList).any FileTree.isDir ∧
    (filtered (excluding bareVendor) false).scan vendorDisk ['.']
      = .ok ["./vendor/a.css".toList] := by
  have hmatch : Filter.isMatch bareVendor "./vendor".toList := by decide +kernel
  have hdir : (vendorDisk.look? "./vendor".toList).any FileTree.isDir := by decide +kernel
  have hincludes : (excluding bareVendor).includes "./vendor/a.css".toList := by decide +kernel
  exact ⟨(Option.some_get _).symm, hmatch, hdir, scan_vendorDisk hincludes⟩

/-! ## Files that are found or named -/

/-- No path of a list leads to a place. -/
def LeavesOut (d : Disk) (ps : List Path) (place : List Text) : Prop :=
  ∀ p ∈ ps, d.locate? p ≠ some place

/-- A scan of a directory leaves a file out when its filter does not include the path of the file
    under the directory. -/
theorem leavesOut_listed_iff (hd : d.tree.Ordered) (hnames : d.tree.Named) {root : Path}
    {here : List Text} {t : FileTree} (hloc : d.locate? root = some here)
    (hat : d.tree.at? here = some t) {ns : List Text} {c : Content}
    (hfile : t.at? ns = some (.file c)) :
    LeavesOut d ((filtered f false).listed root t) (here ++ ns) ↔ ¬f.includes (root.below ns) := by
  have ht : t.Ordered := hd.at? hat
  have hin : t.Named := hnames.below hd hat
  have hlisted := scanned_dir ht hin f root
  have hplace {ms : List Text} {c' : Content} (h : t.at? ms = some (.file c')) :
      d.locate? (root.below ms) = some (here ++ ms) :=
    (Disk.locate?_below_of_at? hloc hat (hin.of_at? ht h) h).1
  constructor
  · intro hout hincludes
    exact hout _ ((hlisted.mem_iff _).2 ⟨ns, c, hfile, rfl, hincludes⟩) (hplace hfile)
  · intro hincludes p hp hlocp
    obtain ⟨ms, c', hms, rfl, hincludes'⟩ := (hlisted.mem_iff p).1 hp
    rw [hplace hms, Option.some.injEq, List.append_cancel_left_eq] at hlocp
    exact hincludes (hlocp ▸ hincludes')

theorem locate?_current {es : List (Text × FileTree)} (hcwd : d.tree.at? d.cwd = some (.dir es)) :
    d.locate? ['.'] = some d.cwd := by
  have hsegments : Path.segments ['.'] = [['.']] := by decide
  rw [Disk.locate?, if_neg (List.cons_ne_nil _ _), hsegments, Disk.follow, Disk.follow]
  simp [Disk.isDirAt, Disk.start, hcwd, FileTree.isDir]

/-- A scan of the working directory leaves a file with the right extension out when a pattern
    matches its path with `./` in front. A scan of the file leaves it out when a pattern matches
    its path. If all patterns float, the one leaves it out when the other does. -/
theorem floating_patterns_exclude_alike (hd : d.tree.Ordered) (hnames : d.tree.Named)
    {ns : List Text} {c : Content} (hne : ns ≠ [])
    (hfile : d.tree.at? (d.cwd ++ ns) = some (.file c))
    (hext : f.hasExtension (Path.below [] ns)) :
    ∃ ps qs, (filtered f false).scan d ['.'] = .ok ps ∧
      (filtered f false).scan d (Path.below [] ns) = .ok qs ∧
      (LeavesOut d ps (d.cwd ++ ns) ↔ f.isExcluded ('.' :: '/' :: Path.below [] ns)) ∧
      (qs = [] ↔ f.isExcluded (Path.below [] ns)) ∧
      ((∀ ts ∈ f.exclude, Glob.floats ts) → (LeavesOut d ps (d.cwd ++ ns) ↔ qs = [])) := by
  have hns : ∀ n ∈ ns, Path.IsName n :=
    fun n hn => hnames.of_at? hd hfile n (List.mem_append_right d.cwd hn)
  obtain ⟨es, hcwd, hin⟩ := FileTree.exists_dir_of_at?_append hne hfile
  have hloc := locate?_current hcwd
  have hroot : d.look? ['.'] = some (.dir es) := by
    rw [Disk.look?, hloc]
    exact hcwd
  have hnear : d.look? (Path.below [] ns) = some (.file c) := by
    rw [Disk.look?, Disk.locate?_names hne hns hfile]
    exact hfile
  have hfound : LeavesOut d ((filtered f false).listed ['.'] (.dir es)) (d.cwd ++ ns) ↔
      f.isExcluded (Path.below ['.'] ns) := by
    have hext' : f.hasExtension (Path.below ['.'] ns) := by
      unfold Filter.hasExtension at *
      rwa [Path.extension?_below ['.'] [] hne hns]
    rw [leavesOut_listed_iff hd hnames hloc hcwd hin, Filter.includes_iff]
    simp [hext']
  have hnamed : (if f.isExcluded (Path.below [] ns) then [] else [Path.below [] ns]) = [] ↔
      f.isExcluded (Path.below [] ns) := by
    split <;> simp [*]
  refine ⟨_, _, scan_dir hroot, scan_file hnear false, ?_, hnamed, fun hfloats => ?_⟩
  · rw [hfound, Path.below_current hne hns]
  · rw [hfound, hnamed, Filter.isExcluded_iff, Filter.isExcluded_iff]
    refine exists_congr fun ts => and_congr_right fun hts => ?_
    rw [Filter.isMatch_current (hfloats ts hts) hne hns]

theorem floating_patterns_exclude_alike_vendorDisk :
    vendorDisk.tree.Ordered ∧ vendorDisk.tree.Named ∧
    vendorDisk.tree.at? ["vendor".toList, "a.css".toList] = some (.file (.text [])) ∧
    (excluding openVendor).hasExtension "vendor/a.css".toList ∧
    (∀ ts ∈ (excluding openVendor).exclude, Glob.floats ts) ∧
    ∃ ps, (filtered (excluding openVendor) false).scan vendorDisk ['.'] = .ok ps ∧
      LeavesOut vendorDisk ps ["vendor".toList, "a.css".toList] ∧
      (filtered (excluding openVendor) false).scan vendorDisk "vendor/a.css".toList = .ok [] := by
  have hd : vendorDisk.tree.Ordered := FileTree.Ordered.empty.withFile _ _
  have hnames : vendorDisk.tree.Named := by decide +kernel
  have hfile : vendorDisk.tree.at? (vendorDisk.cwd ++ ["vendor".toList, "a.css".toList])
      = some (.file (.text [])) := rfl
  have hpath : Path.below [] ["vendor".toList, "a.css".toList] = "vendor/a.css".toList := by
    decide +kernel
  have hext : (excluding openVendor).hasExtension "vendor/a.css".toList := by decide +kernel
  have hfloats : ∀ ts ∈ (excluding openVendor).exclude, Glob.floats ts := by decide +kernel
  have hmatch : (excluding openVendor).isExcluded "vendor/a.css".toList := by decide +kernel
  obtain ⟨ps, qs, hps, hqs, -, hnamed, halike⟩ :=
    floating_patterns_exclude_alike hd hnames (List.cons_ne_nil _ _) hfile
      (by rw [hpath]; exact hext)
  rw [hpath] at hnamed hqs
  obtain rfl := hnamed.2 hmatch
  exact ⟨hd, hnames, hfile, hext, hfloats, ps, hps, (halike hfloats).2 rfl, hqs⟩

/-- The path of a file as a pattern leaves it out when it is named, but not when it is found. -/
theorem patterns_miss_found_files :
    Glob.parse? "vendor/a.css".toList = some vendorSheet ∧
    (excluding vendorSheet).hasExtension "vendor/a.css".toList ∧
    (filtered (excluding vendorSheet) false).scan vendorDisk "vendor/a.css".toList = .ok [] ∧
    (filtered (excluding vendorSheet) false).scan vendorDisk ['.']
      = .ok ["./vendor/a.css".toList] ∧
    vendorDisk.locate? "./vendor/a.css".toList = vendorDisk.locate? "vendor/a.css".toList := by
  have hext : (excluding vendorSheet).hasExtension "vendor/a.css".toList := by decide +kernel
  have hfile : vendorDisk.look? "vendor/a.css".toList = some (.file (.text [])) := by rfl
  have hmatch : (excluding vendorSheet).isExcluded "vendor/a.css".toList := by decide +kernel
  have hincludes : (excluding vendorSheet).includes "./vendor/a.css".toList := by decide +kernel
  refine ⟨(Option.some_get _).symm, hext, ?_, scan_vendorDisk hincludes, by decide +kernel⟩
  rw [scan_file hfile, if_pos hmatch]

end Selection

end SheetLint
