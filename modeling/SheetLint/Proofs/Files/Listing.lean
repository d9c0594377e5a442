import SheetLint.Proofs.Files.Stability
import SheetLint.Proofs.Path.Below

/-
  The files of a tree, and the paths of them. The files that a walk through a tree of directories
  gives are what names lead to, each once (`mem_files`, `nodup_files`). Their paths under the path
  of a directory are that path with the names joined to it (`pathsUnder_eq`), so no two of these
  paths have the same components (`pairwise_pathsUnder`); the paths that are not ignored are some of
  them, in the same order (`visibleUnder_sublist`).
-/

namespace SheetLint

open Sorted (lookup)

theorem Sorted.lookup_of_mem {α : Type} {es : List (Text × α)} {n : Text} {v : α}
    (h : InOrder es) (hmem : (n, v) ∈ es) : lookup n es = some v := by
  induction es with
  | nil => cases hmem
  | cons e es ih =>
    obtain ⟨hhead, htail⟩ := List.pairwise_cons.1 h
    rw [lookup_cons]
    rcases List.mem_cons.1 hmem with rfl | hmem
    · rw [if_pos rfl]
    · have hne : e.1 ≠ n := by
        rintro rfl
        exact List.lt_irrefl e.1 (hhead (e.1, v) hmem)
      rw [if_neg hne, ih htail hmem]

namespace FileTree

/-- Induction over a tree: a directory after what is in it. -/
theorem byEntries {P : FileTree → Prop} (hfile : ∀ c, P (file c))
    (hdir : ∀ es, (∀ e ∈ es, P e.2) → P (dir es)) (t : FileTree) : P t :=
  @FileTree.rec P (fun es => ∀ e ∈ es, P e.2) (fun e => P e.2) hfile hdir
    (fun _ he => (List.not_mem_nil he).elim) (fun _ _ h hs => List.forall_mem_cons.2 ⟨h, hs⟩)
    (fun _ _ h => h) t

/-! ## Files -/

theorem mem_filesOf {es : List (Text × FileTree)} {n : Text} {ns : List Text} {c : Content} :
    (n :: ns, c) ∈ filesOf es ↔ ∃ t, (n, t) ∈ es ∧ (ns, c) ∈ t.files := by
  induction es with
  | nil => simp [filesOf]
  | cons e es ih =>
    obtain ⟨m, t⟩ := e
    rw [filesOf, List.mem_append, ih]
    constructor
    · rintro (h | ⟨u, hu, h⟩)
      · obtain ⟨⟨ms, c'⟩, hmem, heq⟩ := List.mem_map.1 h
        simp only [Prod.mk.injEq, List.cons.injEq] at heq
        obtain ⟨⟨rfl, rfl⟩, rfl⟩ := heq
        exact ⟨t, List.mem_cons_self, hmem⟩
      · exact ⟨u, List.mem_cons_of_mem _ hu, h⟩
    · rintro ⟨u, hu, h⟩
      rcases List.mem_cons.1 hu with heq | hu
      · simp only [Prod.mk.injEq] at heq
        obtain ⟨rfl, rfl⟩ := heq
        exact Or.inl (List.mem_map.2 ⟨(ns, c), h, rfl⟩)
      · exact Or.inr ⟨u, hu, h⟩

theorem not_mem_filesOf_nil (es : List (Text × FileTree)) (c : Content) :
    ([], c) ∉ filesOf es := by
  induction es with
  | nil => exact List.not_mem_nil
  | cons e es ih =>
    obtain ⟨m, t⟩ := e
    rw [filesOf, List.mem_append]
    rintro (h | h)
    · obtain ⟨_, _, heq⟩ := List.mem_map.1 h
      cases heq
    · exact ih h

/-- The files of a tree are those that names lead to. -/
theorem mem_files {t : FileTree} (h : t.Ordered) {ns : List Text} {c : Content} :
    (ns, c) ∈ t.files ↔ t.at? ns = some (file c) := by
  induction ns generalizing t with
  | nil =>
    rw [at?_nil, Option.some.injEq]
    cases t with
    | file c' => simp [files, eq_comm]
    | dir es => simp [files, not_mem_filesOf_nil]
  | cons n ns ih =>
    cases t with
    | file c' => simp [files, at?_file_cons]
    | dir es =>
      rw [files, mem_filesOf, at?_cons, Option.bind_eq_some_iff]
      constructor
      · rintro ⟨u, hu, hfile⟩
        have hlookup := Sorted.lookup_of_mem h.entries.1 hu
        exact ⟨u, hlookup, (ih (h.of_lookup hlookup)).1 hfile⟩
      · rintro ⟨u, hu, hfile⟩
        exact ⟨u, Sorted.mem_of_lookup hu, (ih (h.of_lookup hu)).2 hfile⟩

/-- No two files of a tree have the same names. -/
theorem nodup_files {t : FileTree} (h : t.Ordered) : (t.files.map (·.1)).Nodup := by
  induction t using byEntries with
  | hfile c => simp [files]
  | hdir es ih =>
    rw [files]
    obtain ⟨hes, hin⟩ := h.entries
    rw [entries] at hes hin
    clear h
    induction es with
    | nil => simp [filesOf]
    | cons e es ihes =>
      obtain ⟨n, t⟩ := e
      obtain ⟨hhead, htail⟩ := List.pairwise_cons.1 hes
      rw [filesOf, List.map_append, List.map_map]
      refine List.nodup_append.2 ⟨?_, ?_, ?_⟩
      · have ht := ih (n, t) List.mem_cons_self (hin _ List.mem_cons_self)
        have hcons := ht.map (f := (n :: ·)) fun _ _ heq => (List.cons.inj heq).2
        rwa [List.map_map] at hcons
      · exact ihes (fun f hf => ih f (List.mem_cons_of_mem _ hf)) htail
          fun f hf => hin f (List.mem_cons_of_mem _ hf)
      · -- The names of later entries start otherwise.
        rintro _ hns ms hms rfl
        obtain ⟨ns, _, rfl⟩ := List.mem_map.1 hns
        obtain ⟨⟨_, c'⟩, hmem, heq⟩ := List.mem_map.1 hms
        dsimp only at heq
        subst heq
        obtain ⟨u, hu, _⟩ := mem_filesOf.1 hmem
        exact List.lt_irrefl n (hhead _ hu)

/-- The names that lead to the files of a tree can be names of entries. -/
def Named (t : FileTree) : Prop := ∀ f ∈ t.files, ∀ n ∈ f.1, Path.IsName n

instance : DecidablePred Named := fun _ => inferInstanceAs (Decidable (∀ _ ∈ _, ∀ _ ∈ _, _))

theorem Named.of_at? {t : FileTree} (hnames : t.Named) (h : t.Ordered) {ns : List Text}
    {c : Content} (hat : t.at? ns = some (file c)) : ∀ n ∈ ns, Path.IsName n :=
  hnames _ ((mem_files h).2 hat)

/-- The names of files below a place are some of those of the whole tree. -/
theorem Named.below {t u : FileTree} (hnames : t.Named) (h : t.Ordered) {ns : List Text}
    (hat : t.at? ns = some u) : u.Named := by
  rintro ⟨ms, c⟩ hmem n hn
  have hfile : t.at? (ns ++ ms) = some (file c) := by
    rw [at?_append, hat, Option.bind_some]
    exact (mem_files (h.at? hat)).1 hmem
  exact hnames.of_at? h hfile n (List.mem_append_right ns hn)

/-! ## Paths of files -/

/-- The paths under a directory are its path with the names of the files joined to it. -/
theorem pathsUnder_eq (t : FileTree) (p : Path) :
    t.pathsUnder p = t.files.map fun f => p.below f.1 := by
  induction t using byEntries generalizing p with
  | hfile c =>
    rw [pathsUnder, files]
    rfl
  | hdir es ih =>
    rw [pathsUnder, files]
    induction es with
    | nil => rfl
    | cons e es ihes =>
      obtain ⟨n, t⟩ := e
      rw [pathsIn, filesOf, List.map_append, List.map_map,
        ihes fun f hf => ih f (List.mem_cons_of_mem _ hf), ih (n, t) List.mem_cons_self]
      rfl

theorem mem_pathsUnder {t : FileTree} (h : t.Ordered) {p q : Path} :
    q ∈ t.pathsUnder p ↔ ∃ ns c, t.at? ns = some (file c) ∧ q = p.below ns := by
  rw [pathsUnder_eq, List.mem_map]
  constructor
  · rintro ⟨⟨ns, c⟩, hmem, rfl⟩
    exact ⟨ns, c, (mem_files h).1 hmem, rfl⟩
  · rintro ⟨ns, c, hat, rfl⟩
    exact ⟨(ns, c), (mem_files h).2 hat, rfl⟩

/-- The paths of different files have different components. -/
theorem pairwise_pathsUnder {t : FileTree} (h : t.Ordered) (hnames : t.Named) (p : Path) :
    (t.pathsUnder p).Pairwise (·.components ≠ ·.components) := by
  rw [pathsUnder_eq, List.pairwise_map]
  refine List.Pairwise.imp_of_mem ?_ (List.pairwise_map.1 (nodup_files h))
  intro f g hf hg hne heq
  exact hne (Path.below_inj (hnames f hf) (hnames g hg) heq)

/-- The paths that are not ignored are some of all paths. -/
theorem visibleUnder_sublist (t : FileTree) (levels : List IgnoreLevel) (p : Path) :
    (t.visibleUnder levels p).Sublist (t.pathsUnder p) := by
  induction t using byEntries generalizing levels p with
  | hfile c =>
    rw [visibleUnder, pathsUnder]
  | hdir es ih =>
    rw [visibleUnder, pathsUnder]
    generalize IgnoreLevel.ofDir p (dir es) :: levels = levels
    induction es with
    | nil => exact List.Sublist.refl _
    | cons e es ihes =>
      obtain ⟨n, t⟩ := e
      rw [visibleIn, pathsIn]
      refine List.Sublist.append ?_ (ihes fun f hf => ih f (List.mem_cons_of_mem _ hf))
      split
      · exact List.nil_sublist _
      · exact ih (n, t) List.mem_cons_self levels _

end FileTree

end SheetLint
