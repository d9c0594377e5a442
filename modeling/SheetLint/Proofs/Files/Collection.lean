import SheetLint.Files.Selection
import SheetLint.Proofs.Path.Order

/-
  The files that several paths select. Where every path is there, the list of files is given
  (`collect_eq`), and each of its files was found under one of the paths (`mem_collect`).
-/

namespace SheetLint

theorem mapM_of_ok {α β ε : Type} {f : α → Except ε β} {g : α → β} {xs : List α}
    (h : ∀ x ∈ xs, f x = .ok (g x)) : xs.mapM f = .ok (xs.map g) := by
  induction xs with
  | nil => rfl
  | cons x xs ih =>
    rw [List.mapM_cons, h x List.mem_cons_self, ih fun y hy => h y (List.mem_cons_of_mem x hy)]
    rfl

namespace Selection

variable (s : Selection) (d : Disk)

/-- The files that one path selects. A path that is not there selects none. -/
def found (root : Path) : List Path := (s.scan d root).toOption.getD []

variable {s d}

theorem scan_eq {root : Path} (h : (d.look? root).isSome) :
    s.scan d root = .ok (s.found d root) := by
  unfold found scan
  cases hr : d.look? root with
  | none => rw [hr] at h; cases h
  | some t => cases t <;> rfl

theorem collect_eq {roots : List Path} (h : ∀ root ∈ roots, (d.look? root).isSome) :
    s.collect d roots
      = .ok (((roots.map (s.found d)).flatten.mergeSort Path.le).eraseRepsBy Path.same) := by
  unfold collect
  rw [mapM_of_ok fun root hroot => scan_eq (h root hroot)]
  rfl

theorem mem_collect {roots files : List Path} (h : ∀ root ∈ roots, (d.look? root).isSome)
    (hfiles : s.collect d roots = .ok files) {p : Path} (hp : p ∈ files) :
    ∃ root ∈ roots, p ∈ s.found d root := by
  rw [collect_eq h] at hfiles
  obtain rfl := Except.ok.inj hfiles
  have hp := mem_of_mem_eraseRepsBy hp
  rw [List.mem_mergeSort, List.mem_flatten] at hp
  obtain ⟨ps, hps, hp⟩ := hp
  obtain ⟨root, hroot, rfl⟩ := List.mem_map.1 hps
  exact ⟨root, hroot, hp⟩

/-- Under a directory only files are found that the filter includes. -/
theorem includes_of_mem_found {root : Path} {es : List (Text × FileTree)}
    (hroot : d.look? root = some (.dir es)) {p : Path} (hp : p ∈ s.found d root) :
    s.filter.includes p := by
  unfold found scan at hp
  rw [hroot] at hp
  have hp : p ∈ List.mergeSort _ Path.le := hp
  rw [List.mem_mergeSort] at hp
  exact (List.mem_filter.1 hp).2

end Selection

end SheetLint
