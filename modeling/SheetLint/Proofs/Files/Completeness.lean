import SheetLint.Proofs.Files.Collection
import SheetLint.Proofs.Files.Listing

/-
  Which files are selected. A scan of a directory gives the files below it that the filter includes,
  all of them and each once, in the order of paths (`scanned_dir`); with ignored files left out it
  gives some of these (`sublist_ignoring`). What several paths select is everything that their scans
  give, in order, with one spelling for each list of components (`collected`). So neither the order
  of the paths nor repetitions among them make a difference (`Collected.map_components_eq`). Main
  statement: `selection_is_complete`.
-/

namespace SheetLint.Selection

/-- What a scan of a directory gives: the files below it that a filter includes, with the path of
    the directory in front, each before the next. -/
structure Scanned (f : Filter) (root : Path) (t : FileTree) (ps : List Path) : Prop where
  inOrder : ps.Pairwise Path.Before
  mem_iff : ∀ p, p ∈ ps ↔ ∃ ns c, t.at? ns = some (.file c) ∧ p = root.below ns ∧ f.includes p

/-- What some paths select together: what their scans give, each path before the next, so one
    spelling of each. -/
structure Collected (s : Selection) (d : Disk) (roots files : List Path) : Prop where
  inOrder : files.Pairwise Path.Before
  found : ∀ p ∈ files, ∃ root ∈ roots, ∃ ps, s.scan d root = .ok ps ∧ p ∈ ps
  complete : ∀ root ∈ roots, ∀ ps, s.scan d root = .ok ps →
    ∀ p ∈ ps, ∃ q ∈ files, q.components = p.components

/-- A selection that leaves ignored files out, or not. -/
def filtered (f : Filter) (gitignore : Bool) : Selection := { filter := f, gitignore }

variable {s : Selection} {f : Filter} {d : Disk} {root : Path}

/-! ## One path -/

/-- What a path leads to is in order and has names that entries can have, as the whole tree. -/
theorem sound_of_look? (hd : d.tree.Ordered) (hnames : d.tree.Named) {t : FileTree}
    (hroot : d.look? root = some t) : t.Ordered ∧ t.Named := by
  obtain ⟨here, _, hat⟩ := Option.bind_eq_some_iff.1 hroot
  exact ⟨hd.at? hat, hnames.below hd hat⟩

/-- The paths of the files under a directory that are not ignored, if that counts. -/
def under (s : Selection) (root : Path) (t : FileTree) : List Path :=
  if s.gitignore then t.visibleUnder [] root else t.pathsUnder root

theorem under_sublist (s : Selection) (root : Path) (t : FileTree) :
    (s.under root t).Sublist (t.pathsUnder root) := by
  unfold under
  split
  · exact t.visibleUnder_sublist [] root
  · exact List.Sublist.refl _

/-- The files that a scan of a directory gives. -/
def listed (s : Selection) (root : Path) (t : FileTree) : List Path :=
  ((s.under root t).filter s.filter.includes).mergeSort Path.le

theorem scan_dir {es : List (Text × FileTree)} (hroot : d.look? root = some (.dir es)) :
    s.scan d root = .ok (s.listed root (.dir es)) := by
  unfold scan
  rw [hroot]
  rfl

theorem scan_file {c : Content} (hroot : d.look? root = some (.file c)) (gitignore : Bool) :
    (filtered f gitignore).scan d root = .ok (if f.isExcluded root then [] else [root]) := by
  unfold scan
  rw [hroot]
  rfl

theorem mem_listed {t : FileTree} {p : Path} :
    p ∈ s.listed root t ↔ p ∈ s.under root t ∧ s.filter.includes p := by
  rw [listed, List.mem_mergeSort, List.mem_filter]

/-- What is listed are paths of files below the directory. -/
theorem exists_of_mem_listed {t : FileTree} (ht : t.Ordered) {p : Path} (hp : p ∈ s.listed root t) :
    ∃ ns c, t.at? ns = some (.file c) ∧ p = root.below ns :=
  (FileTree.mem_pathsUnder ht).1 ((s.under_sublist root t).subset (mem_listed.1 hp).1)

section Listed

variable {t : FileTree} (ht : t.Ordered) (hnames : t.Named)
include ht hnames

theorem inOrder_listed (s : Selection) (root : Path) :
    (s.listed root t).Pairwise Path.Before := by
  refine Path.pairwise_before_sort ((FileTree.pairwise_pathsUnder ht hnames root).sublist ?_)
  exact List.filter_sublist.trans (s.under_sublist root t)

theorem scanned_dir (f : Filter) (root : Path) :
    Scanned f root t ((filtered f false).listed root t) := by
  refine ⟨inOrder_listed ht hnames _ root, fun p => ?_⟩
  rw [mem_listed]
  show p ∈ t.pathsUnder root ∧ f.includes p ↔ _
  rw [FileTree.mem_pathsUnder ht]
  constructor
  · rintro ⟨⟨ns, c, hat, hp⟩, hincludes⟩
    exact ⟨ns, c, hat, hp, hincludes⟩
  · rintro ⟨ns, c, hat, hp, hincludes⟩
    exact ⟨⟨ns, c, hat, hp⟩, hincludes⟩

/-- Leaving ignored files out keeps the others in their order. -/
theorem sublist_ignoring (f : Filter) (root : Path) :
    ((filtered f true).listed root t).Sublist ((filtered f false).listed root t) := by
  refine Path.sublist_of_subset (inOrder_listed ht hnames _ root)
    (inOrder_listed ht hnames _ root) fun p hp => ?_
  obtain ⟨hunder, hincludes⟩ := mem_listed.1 hp
  exact mem_listed.2 ⟨((filtered f true).under_sublist root t).subset hunder, hincludes⟩

end Listed

/-- What a scan gives are paths of files, with the path that was scanned in front. -/
theorem below_of_scan (hd : d.tree.Ordered) (hnames : d.tree.Named) {ps : List Path}
    (h : s.scan d root = .ok ps) {p : Path} (hp : p ∈ ps) :
    ∃ ns c, (∀ n ∈ ns, Path.IsName n) ∧ p = root.below ns ∧ d.look? p = some (.file c) := by
  cases hroot : d.look? root with
  | none =>
    unfold scan at h
    rw [hroot] at h
    cases h
  | some t =>
    obtain ⟨here, hloc, hat⟩ := Option.bind_eq_some_iff.1 hroot
    obtain ⟨ht, hin⟩ := sound_of_look? hd hnames hroot
    cases t with
    | file c =>
      obtain rfl := Except.ok.inj ((scan_file hroot s.gitignore).symm.trans h)
      split at hp
      · cases hp
      · rw [List.mem_singleton] at hp
        exact ⟨[], c, fun _ hn => (List.not_mem_nil hn).elim, hp, hp ▸ hroot⟩
    | dir es =>
      obtain rfl := Except.ok.inj ((scan_dir hroot).symm.trans h)
      obtain ⟨ns, c, hfile, rfl⟩ := exists_of_mem_listed ht hp
      have hns := hin.of_at? ht hfile
      obtain ⟨hbelow, hc⟩ := Disk.locate?_below_of_at? hloc hat hns hfile
      exact ⟨ns, c, hns, rfl, Option.bind_eq_some_iff.2 ⟨_, hbelow, hc⟩⟩

/-! ## Several paths -/

section Several

variable {roots roots' files files' : List Path}

theorem collected (h : ∀ root ∈ roots, (d.look? root).isSome) :
    ∃ files, s.collect d roots = .ok files ∧ Collected s d roots files := by
  refine ⟨_, collect_eq h, Path.pairwise_eraseReps (Path.pairwise_sort _), ?_, ?_⟩
  · intro p hp
    obtain ⟨root, hroot, hp⟩ := mem_collect h (collect_eq h) hp
    exact ⟨root, hroot, _, scan_eq (h root hroot), hp⟩
  · intro root hroot ps hps p hp
    rw [scan_eq (h root hroot), Except.ok.injEq] at hps
    refine Path.exists_same_of_mem _ p ?_
    rw [List.mem_mergeSort, List.mem_flatten]
    exact ⟨ps, List.mem_map.2 ⟨root, hroot, hps⟩, hp⟩

namespace Collected

/-- What is selected, spelling apart. -/
theorem mem_components (h : Collected s d roots files) {cs : List Path.Component} :
    cs ∈ files.map Path.components ↔
      ∃ root ∈ roots, ∃ ps, s.scan d root = .ok ps ∧ cs ∈ ps.map Path.components := by
  simp only [List.mem_map]
  constructor
  · rintro ⟨p, hp, rfl⟩
    obtain ⟨root, hroot, ps, hscan, hp⟩ := h.found p hp
    exact ⟨root, hroot, ps, hscan, p, hp, rfl⟩
  · rintro ⟨root, hroot, ps, hscan, p, hp, rfl⟩
    exact h.complete root hroot ps hscan p hp

/-- The same paths in another order, or repeated, select the same. -/
theorem map_components_eq (h : Collected s d roots files) (h' : Collected s d roots' files')
    (hroots : ∀ root, root ∈ roots' ↔ root ∈ roots) :
    files'.map Path.components = files.map Path.components := by
  refine Path.map_components_eq h'.inOrder h.inOrder fun cs => ?_
  rw [h.mem_components, h'.mem_components]
  simp only [hroots]

end Collected

end Several

/-- A scan of a directory gives, in order and each once, exactly the files below it that the filter
    includes, and some of them in the same order when ignored files are left out. A scan of a file
    gives the file, whatever its extension, unless it is excluded. What several paths select is in
    order and is all that their scans give, however the paths are ordered or repeated. -/
theorem selection_is_complete (hd : d.tree.Ordered) (hnames : d.tree.Named) (f : Filter) :
    (∀ root es, d.look? root = some (.dir es) → ∃ ps vs,
      (filtered f false).scan d root = .ok ps ∧ Scanned f root (.dir es) ps ∧
      (filtered f true).scan d root = .ok vs ∧ vs.Sublist ps) ∧
    (∀ gitignore root c, d.look? root = some (.file c) →
      (filtered f gitignore).scan d root = .ok (if f.isExcluded root then [] else [root])) ∧
    (∀ gitignore roots, (∀ root ∈ roots, (d.look? root).isSome) → ∃ files,
      (filtered f gitignore).collect d roots = .ok files ∧
      Collected (filtered f gitignore) d roots files ∧
      ∀ roots', (∀ root, root ∈ roots' ↔ root ∈ roots) → ∃ files',
        (filtered f gitignore).collect d roots' = .ok files' ∧
        files'.map Path.components = files.map Path.components) := by
  refine ⟨?_, ?_, ?_⟩
  · intro root es hroot
    obtain ⟨ht, hin⟩ := sound_of_look? hd hnames hroot
    exact ⟨_, _, scan_dir hroot, scanned_dir ht hin f root, scan_dir hroot,
      sublist_ignoring ht hin f root⟩
  · intro gitignore root c hroot
    exact scan_file hroot gitignore
  · intro gitignore roots hroots
    obtain ⟨files, hfiles, h⟩ := collected (s := filtered f gitignore) hroots
    refine ⟨files, hfiles, h, fun roots' hsame => ?_⟩
    obtain ⟨files', hfiles', h'⟩ := collected (s := filtered f gitignore)
      fun root hroot => hroots root ((hsame root).1 hroot)
    exact ⟨files', hfiles', h.map_components_eq h' hsame⟩

/-- The filter of the extension of sheets. -/
def cssFilter : Filter := { extensions := ["css"], exclude := [] }

/-- A directory and a file whose names start alike, so that bytes and components order the paths
    differently, a file with another extension, and a rule that ignores the directory. -/
def siblingDisk : Disk where
  tree := (((FileTree.empty.withFile ["z-a.css".toList] (.text [])
    ).withFile ["z".toList, "a.css".toList] (.text [])
    ).withFile ["z".toList, "n.txt".toList] (.text [])
    ).withFile [".gitignore".toList] (.text "z/\n".toList)

theorem selection_is_complete_siblingDisk :
    siblingDisk.tree.Ordered ∧ siblingDisk.tree.Named ∧
    (filtered cssFilter false).scan siblingDisk ".".toList
      = .ok (["./z/a.css", "./z-a.css"].map String.toList) ∧
    Scanned cssFilter ".".toList siblingDisk.tree (["./z/a.css", "./z-a.css"].map String.toList) ∧
    (filtered cssFilter true).scan siblingDisk ".".toList = .ok ["./z-a.css".toList] ∧
    (filtered cssFilter false).scan siblingDisk "z/n.txt".toList = .ok ["z/n.txt".toList] ∧
    ∃ files files',
      (filtered cssFilter false).collect siblingDisk ([".", "z/a.css"].map String.toList)
        = .ok files ∧
      Collected (filtered cssFilter false) siblingDisk ([".", "z/a.css"].map String.toList) files ∧
      (filtered cssFilter false).collect siblingDisk
        (["z/a.css", ".", "z/a.css"].map String.toList) = .ok files' ∧
      files'.map Path.components = files.map Path.components := by
  have hd : siblingDisk.tree.Ordered :=
    (((FileTree.Ordered.empty.withFile _ _).withFile _ _).withFile _ _).withFile _ _
  have hnames : siblingDisk.tree.Named := by decide +kernel
  obtain ⟨hdir, hfile, hseveral⟩ := selection_is_complete hd hnames cssFilter
  have hroot : siblingDisk.look? ".".toList = some siblingDisk.tree := rfl
  obtain ⟨ps, _, hps, hscanned, _⟩ := hdir ".".toList _ hroot
  have hall : (filtered cssFilter false).scan siblingDisk ".".toList
      = .ok (["./z/a.css", "./z-a.css"].map String.toList) := by
    show Except.ok (List.mergeSort _ _) = _
    rw [List.mergeSort_of_pairwise (by decide +kernel)]
    exact congrArg Except.ok (by decide +kernel)
  have hsome : (filtered cssFilter true).scan siblingDisk ".".toList
      = .ok ["./z-a.css".toList] := by
    show Except.ok (List.mergeSort _ _) = _
    rw [List.mergeSort_of_pairwise (by decide +kernel)]
    exact congrArg Except.ok (by decide +kernel)
  obtain rfl := Except.ok.inj (hps.symm.trans hall)
  obtain ⟨files, hfiles, hcollected, hsame⟩ := hseveral false ([".", "z/a.css"].map String.toList)
    (by decide +kernel)
  obtain ⟨files', hfiles', heq⟩ := hsame (["z/a.css", ".", "z/a.css"].map String.toList)
    (by simp [or_comm])
  exact ⟨hd, hnames, hall, hscanned, hsome, hfile false "z/n.txt".toList (.text []) rfl,
    files, files', hfiles, hcollected, hfiles', heq⟩

end SheetLint.Selection
