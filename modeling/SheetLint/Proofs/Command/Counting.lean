import Mathlib.Data.List.Dedup
import SheetLint.Proofs.Command.Account
import SheetLint.Proofs.Files.Completeness

/-
  How often a file is checked. Paths are told apart by their components, and files by the names that
  lead to them. The two agree on paths that go down from one start by names alone
  (`Disk.components_eq_of_locate?`), and what is found below a path goes on by names. So when all
  paths of a check start alike, each file is listed, reported and counted once
  (`Selection.files_are_counted_once`). Paths that start differently may reach one file under two
  spellings, and then it counts twice (`Selection.files_are_counted_twice`).
-/

namespace SheetLint

/-! ## Paths that start alike -/

namespace Path

/-- A path goes on from some first components by names alone. -/
def Down (start : List Component) (p : Path) : Prop :=
  ∃ ns : List Text, p.components = start ++ ns.map .normal

theorem Down.below {start : List Component} {p : Path} (h : p.Down start) {ns : List Text}
    (hns : ∀ n ∈ ns, IsName n) : (p.below ns).Down start := by
  obtain ⟨ms, hms⟩ := h
  refine ⟨ms ++ ns, ?_⟩
  rw [components_below hns, hms, List.map_append, List.append_assoc]

end Path

namespace Disk

theorem foldl_move_names (here ns : List Text) :
    (ns.map Path.Component.normal).foldl move here = here ++ ns := by
  induction ns generalizing here with
  | nil => exact (List.append_nil here).symm
  | cons n ns ih =>
    rw [List.map_cons, List.foldl_cons, ih, move, List.append_assoc]
    rfl

/-- Paths that go down from one start and lead to one place have the same components. -/
theorem components_eq_of_locate? {d : Disk} {start : List Path.Component} {p q : Path}
    {names : List Text} (hp : p.Down start) (hq : q.Down start)
    (hlocp : d.locate? p = some names) (hlocq : d.locate? q = some names) :
    p.components = q.components := by
  have hplace : d.place p = d.place q :=
    (place_of_locate? hlocp).symm.trans (place_of_locate? hlocq)
  obtain ⟨ns, hns⟩ := hp
  obtain ⟨ms, hms⟩ := hq
  unfold place at hplace
  rw [hns, hms, List.foldl_append, List.foldl_append, foldl_move_names, foldl_move_names]
    at hplace
  rw [hns, hms, List.append_cancel_left hplace]

end Disk

/-! ## Files and reports -/

namespace Selection

variable {s : Selection} {d : Disk} {roots files : List Path} {start : List Path.Component}

namespace Collected

variable (hd : d.tree.Ordered) (hnames : d.tree.Named) (h : Collected s d roots files)
include hd hnames h

theorem exists_below {p : Path} (hp : p ∈ files) :
    ∃ root ∈ roots, ∃ ns c, (∀ n ∈ ns, Path.IsName n) ∧ p = root.below ns ∧
      d.look? p = some (.file c) := by
  obtain ⟨root, hroot, ps, hscan, hp⟩ := h.found p hp
  exact ⟨root, hroot, below_of_scan hd hnames hscan hp⟩

theorem exists_file {p : Path} (hp : p ∈ files) : ∃ c, d.look? p = some (.file c) := by
  obtain ⟨_, _, _, c, _, _, hc⟩ := h.exists_below hd hnames hp
  exact ⟨c, hc⟩

theorem eq_of_locate? {p q : Path} (hp : p ∈ files) (hq : q ∈ files) (hpdown : p.Down start)
    (hqdown : q.Down start) (hloc : d.locate? p = d.locate? q) : p = q := by
  obtain ⟨c, hc⟩ := h.exists_file hd hnames hp
  obtain ⟨names, hlocp, _⟩ := Option.bind_eq_some_iff.1 hc
  have hsame := Disk.components_eq_of_locate? hpdown hqdown hlocp (hloc ▸ hlocp)
  exact List.inj_on_of_nodup_map (Path.nodup_components h.inOrder) hp hq hsame

/-- No file that one of the paths leads to is lost. -/
theorem mem_places {root : Path} (hroot : root ∈ roots) {ps : List Path}
    (hscan : s.scan d root = .ok ps) {p : Path} (hp : p ∈ ps) :
    d.locate? p ∈ files.map d.locate? := by
  obtain ⟨q, hq, hsame⟩ := h.complete root hroot ps hscan p hp
  obtain ⟨_, hcq⟩ := h.exists_file hd hnames hq
  obtain ⟨_, _, _, _, hcp⟩ := below_of_scan hd hnames hscan hp
  obtain ⟨names, hlocq, _⟩ := Option.bind_eq_some_iff.1 hcq
  obtain ⟨names', hlocp, _⟩ := Option.bind_eq_some_iff.1 hcp
  have hplace : names = names' := by
    rw [Disk.place_of_locate? hlocq, Disk.place_of_locate? hlocp, Disk.place, Disk.place, hsame]
  rw [hlocp, ← hplace, ← hlocq]
  exact List.mem_map_of_mem hq

/-- Below paths that start alike no two files are one. -/
theorem nodup_places (hdown : ∀ root ∈ roots, root.Down start) :
    (files.map d.locate?).Nodup := by
  have hall : ∀ p ∈ files, p.Down start := by
    intro p hp
    obtain ⟨root, hroot, ns, _, hns, rfl, _⟩ := h.exists_below hd hnames hp
    exact (hdown root hroot).below hns
  refine h.inOrder.nodup.map_on fun p hp q hq hloc => ?_
  exact h.eq_of_locate? hd hnames hp hq (hall p hp) (hall q hq) hloc

end Collected

end Selection

namespace Check

/-- The files that are reported are some of those that were linted, in the same order. -/
theorem Linted.sublist {l : Linter} {mode : Mode} {d : Disk} {ps : List Path}
    {rs : List FileReport} {fs : List Failure} (h : Linted l mode d ps rs fs) :
    (rs.map (·.path)).Sublist ps := by
  induction h with
  | nil => exact List.Sublist.refl _
  | sheet _ _ _ _ ih => exact ih.cons_cons _
  | unparsable _ _ _ ih => exact ih.cons _
  | unreadable _ _ ih => exact ih.cons _

/-- The places of the files that are reported. -/
def reportedPlaces (l : Linter) (mode : Mode) (d : Disk) (ps : List Path) :
    List (Option (List Text)) :=
  (reportsOf l mode d ps).map fun r => d.locate? r.path

/-- Files in different places have one report each at most. -/
theorem nodup_reportedPlaces {d : Disk} {ps : List Path} (h : (ps.map d.locate?).Nodup)
    (l : Linter) (mode : Mode) : (reportedPlaces l mode d ps).Nodup := by
  refine List.Nodup.sublist ?_ h
  have hsub := (linted l mode d ps).sublist.map d.locate?
  rwa [List.map_map] at hsub

end Check

namespace Selection

open Check (reportsOf reportedPlaces nodup_reportedPlaces)

variable {d : Disk} {roots : List Path}

/-- All files that the scans give are listed, and two listed paths that lead to one file and start
    alike are one path. If all paths of a check start alike, its files are listed once each, have
    one report at most, and the sum of the files is the number of files that are reported. -/
theorem files_are_counted_once (hd : d.tree.Ordered) (hnames : d.tree.Named)
    (hroots : ∀ root ∈ roots, (d.look? root).isSome) (s : Selection) :
    ∃ files, s.collect d roots = .ok files ∧
      (∀ p ∈ files, ∃ c, d.look? p = some (.file c)) ∧
      (∀ root ∈ roots, ∀ ps, s.scan d root = .ok ps →
        ∀ p ∈ ps, d.locate? p ∈ files.map d.locate?) ∧
      (∀ p ∈ files, ∀ q ∈ files, ∀ start, p.Down start → q.Down start →
        d.locate? p = d.locate? q → p = q) ∧
      ∀ start, (∀ root ∈ roots, root.Down start) →
        (files.map d.locate?).Nodup ∧
        ∀ l mode, (reportedPlaces l mode d files).Nodup ∧
          (Totals.of (reportsOf l mode d files)).files
            = (reportedPlaces l mode d files).dedup.length := by
  obtain ⟨files, hfiles, h⟩ := collected (s := s) hroots
  refine ⟨files, hfiles, fun p hp => h.exists_file hd hnames hp, ?_, ?_, fun start hdown => ?_⟩
  · intro root hroot ps hscan p hp
    exact h.mem_places hd hnames hroot hscan hp
  · intro p hp q hq start hpdown hqdown hloc
    exact h.eq_of_locate? hd hnames hp hq hpdown hqdown hloc
  · have hplaces := h.nodup_places hd hnames hdown
    refine ⟨hplaces, fun l mode => ?_⟩
    have hreported := nodup_reportedPlaces hplaces l mode
    refine ⟨hreported, ?_⟩
    rw [hreported.dedup, reportedPlaces, List.length_map]
    rfl

/-- A sheet in the working directory. -/
def sheetDisk : Disk where
  tree := FileTree.empty.withFile ["main.css".toList] (.text "a\x7b\x7d".toList)

/-- The working directory and the sheet, with `./` in front. -/
def startingAlike : List Path := [".", "./main.css"].map String.toList

/-- The working directory and the sheet by its name. -/
def startingOtherwise : List Path := [".", "main.css"].map String.toList

theorem files_are_counted_once_sheetDisk :
    sheetDisk.tree.Ordered ∧ sheetDisk.tree.Named ∧
    (∀ root ∈ startingAlike, (sheetDisk.look? root).isSome) ∧
    (∀ root ∈ startingAlike, root.Down [.current]) ∧
    (filtered cssFilter false).collect sheetDisk startingAlike = .ok ["./main.css".toList] ∧
    (["./main.css".toList].map sheetDisk.locate?).Nodup ∧
    (Totals.of (reportsOf [] .report sheetDisk ["./main.css".toList])).files = 1 := by
  have hd : sheetDisk.tree.Ordered := FileTree.Ordered.empty.withFile _ _
  have hnames : sheetDisk.tree.Named := by decide +kernel
  have hroots : ∀ root ∈ startingAlike, (sheetDisk.look? root).isSome := by decide +kernel
  have hdown : ∀ root ∈ startingAlike, root.Down [.current] := by
    intro root hroot
    rcases List.mem_pair.1 hroot with rfl | rfl
    · exact ⟨[], by decide +kernel⟩
    · exact ⟨["main.css".toList], by decide +kernel⟩
  obtain ⟨files, hfiles, -, -, -, honce⟩ :=
    files_are_counted_once hd hnames hroots (filtered cssFilter false)
  have hfound : startingAlike.map ((filtered cssFilter false).found sheetDisk)
      = [["./main.css".toList], ["./main.css".toList]] := by
    show [List.mergeSort _ _, _] = _
    rw [List.mergeSort_of_pairwise (by decide +kernel)]
    decide +kernel
  have hone : files = ["./main.css".toList] := by
    rw [collect_eq hroots, hfound, List.mergeSort_of_pairwise (by decide +kernel)] at hfiles
    exact (Except.ok.inj hfiles).symm.trans (by decide +kernel)
  rw [hone] at hfiles honce
  obtain ⟨hplaces, hreports⟩ := honce [.current] hdown
  exact ⟨hd, hnames, hroots, hdown, hfiles, hplaces,
    (hreports [] .report).2.trans (by decide +kernel)⟩

/-- A sheet that is found in the working directory and named as well counts as two files. -/
theorem files_are_counted_twice :
    (∀ root ∈ startingOtherwise, (sheetDisk.look? root).isSome) ∧
    (filtered cssFilter false).collect sheetDisk startingOtherwise
      = .ok (["./main.css", "main.css"].map String.toList) ∧
    sheetDisk.locate? "./main.css".toList = sheetDisk.locate? "main.css".toList ∧
    (Totals.of (reportsOf [] .report sheetDisk
      (["./main.css", "main.css"].map String.toList))).files = 2 := by
  have hroots : ∀ root ∈ startingOtherwise, (sheetDisk.look? root).isSome := by decide +kernel
  have hfound : startingOtherwise.map ((filtered cssFilter false).found sheetDisk)
      = [["./main.css".toList], ["main.css".toList]] := by
    show [List.mergeSort _ _, _] = _
    rw [List.mergeSort_of_pairwise (by decide +kernel)]
    decide +kernel
  refine ⟨hroots, ?_, by decide +kernel, by decide +kernel⟩
  rw [collect_eq hroots, hfound, List.mergeSort_of_pairwise (by decide +kernel)]
  exact congrArg Except.ok (by decide +kernel)

end Selection

end SheetLint
