import SheetLint.Files.Disk

/-
  Files in their places. Writing into a file that is there succeeds and changes what is found at
  the names that lead to the file and nowhere else (`at?_write?`). All files and directories stay
  where they are, so every path leads to the same place as before (`SameLayout.locate?_eq`).
-/

namespace SheetLint

open Sorted (insert lookup)

namespace FileTree

theorem at?_nil (t : FileTree) : t.at? [] = some t := by rw [at?]

theorem at?_cons (t : FileTree) (n : Text) (ns : List Text) :
    t.at? (n :: ns) = (lookup n t.entries).bind (·.at? ns) := by rw [at?]

theorem at?_append (t : FileTree) (ns ms : List Text) :
    t.at? (ns ++ ms) = (t.at? ns).bind (·.at? ms) := by
  induction ns generalizing t with
  | nil => rw [List.nil_append, at?_nil, Option.bind_some]
  | cons n ns ih =>
    rw [List.cons_append, at?_cons, at?_cons, Option.bind_assoc]
    congr 1
    funext u
    exact ih u

/-- A file has nothing below it. -/
theorem at?_file_cons (c : Content) (n : Text) (ns : List Text) :
    (file c).at? (n :: ns) = none := by
  rw [at?_cons]
  rfl

/-- What the file holds that names lead to. -/
def contentAt? (t : FileTree) (names : List Text) : Option Content := (t.at? names).bind content?

theorem contentAt?_eq_some {t : FileTree} {names : List Text} {c : Content} :
    t.contentAt? names = some c ↔ t.at? names = some (file c) := by
  unfold contentAt?
  cases t.at? names with
  | none => simp
  | some u => cases u <;> simp [content?]

theorem contentAt?_cons_eq_some {t : FileTree} {n : Text} {ns : List Text} {c : Content}
    (h : t.contentAt? (n :: ns) = some c) :
    ∃ es u, t = dir es ∧ lookup n es = some u ∧ u.contentAt? ns = some c := by
  rw [contentAt?_eq_some] at h
  cases t with
  | file c => rw [at?_file_cons] at h; cases h
  | dir es =>
    rw [at?_cons, Option.bind_eq_some_iff] at h
    obtain ⟨u, hu, h⟩ := h
    exact ⟨es, u, rfl, hu, contentAt?_eq_some.2 h⟩

/-- Only a directory has something below it. -/
theorem isDir_of_at?_cons {t u : FileTree} {n : Text} {ns : List Text}
    (h : t.at? (n :: ns) = some u) : t.isDir := by
  cases t with
  | file c => rw [at?_file_cons] at h; cases h
  | dir es => rfl

/-- A directory has no content of its own. -/
theorem content?_of_isDir {t : FileTree} (h : t.isDir) : t.content? = none := by
  cases t with
  | file c => cases h
  | dir es => rfl

/-- What a write can be: of a file in its own place, or of something in a directory, where there was
    nothing or where the rest of the names leads on. -/
theorem write?_cases {t u : FileTree} {c : Content} {names : List Text}
    (h : t.write? c names = some u) :
    (∃ c', t = file c' ∧ u = file c) ∨
    ∃ n ns es v, names = n :: ns ∧ t = dir es ∧ u = dir (insert n v es) ∧
      (v = file c ∨ ∃ w, lookup n es = some w ∧ w.write? c ns = some v) := by
  cases t with
  | file c' =>
    cases names with
    | nil =>
      rw [write?, Option.some.injEq] at h
      exact Or.inl ⟨c', rfl, h.symm⟩
    | cons n ns => simp [write?] at h
  | dir es =>
    refine Or.inr ?_
    cases names with
    | nil => simp [write?] at h
    | cons n ns =>
      rw [write?] at h
      cases hn : lookup n es with
      | none =>
        rw [hn] at h
        dsimp only at h
        split at h
        · exact ⟨n, ns, es, file c, rfl, rfl, (Option.some.inj h).symm, Or.inl rfl⟩
        · cases h
      | some w =>
        rw [hn] at h
        obtain ⟨v, hv, hu⟩ := Option.map_eq_some_iff.1 h
        exact ⟨n, ns, es, v, rfl, rfl, hu.symm, Or.inr ⟨w, hn, hv⟩⟩

theorem isDir_of_write? {t u : FileTree} {c : Content} {names : List Text}
    (h : t.write? c names = some u) : u.isDir = t.isDir := by
  obtain ⟨c', rfl, rfl⟩ | ⟨n, ns, es, v, _, rfl, rfl, _⟩ := write?_cases h
  · rfl
  · rfl

theorem write?_cons {n : Text} {ns : List Text} {es : List (Text × FileTree)} {t : FileTree}
    (h : lookup n es = some t) (c : Content) :
    (dir es).write? c (n :: ns) = (t.write? c ns).map fun u => dir (insert n u es) := by
  rw [write?, h]

/-- A file that is there can be written. -/
theorem exists_write? {t : FileTree} {names : List Text} {c : Content}
    (h : t.contentAt? names = some c) (c' : Content) : ∃ u, t.write? c' names = some u := by
  induction names generalizing t with
  | nil =>
    rw [contentAt?_eq_some, at?_nil, Option.some.injEq] at h
    rw [h]
    exact ⟨file c', by rw [write?]⟩
  | cons n ns ih =>
    obtain ⟨es, u, rfl, hu, h⟩ := contentAt?_cons_eq_some h
    obtain ⟨v, hv⟩ := ih h
    exact ⟨dir (insert n v es), by rw [write?_cons hu, hv, Option.map_some]⟩

/-- What is found after a file was written: on the way to the file what was there, with the file
    written in it, and elsewhere what was there. -/
theorem at?_write? {t u : FileTree} {names : List Text} {c c' : Content}
    (h : t.contentAt? names = some c) (hu : t.write? c' names = some u) (ms : List Text) :
    u.at? ms
      = if ms <+: names then (t.at? ms).bind (·.write? c' (names.drop ms.length))
        else t.at? ms := by
  induction names generalizing t u ms with
  | nil =>
    rw [contentAt?_eq_some, at?_nil, Option.some.injEq] at h
    subst h
    rw [write?, Option.some.injEq] at hu
    subst hu
    cases ms with
    | nil =>
      rw [if_pos List.nil_prefix, at?_nil, at?_nil, Option.bind_some, List.drop_nil, write?]
    | cons m ms => rw [if_neg (by simp), at?_file_cons, at?_file_cons]
  | cons n ns ih =>
    obtain ⟨es, v, rfl, hv, hin⟩ := contentAt?_cons_eq_some h
    cases ms with
    | nil =>
      rw [if_pos List.nil_prefix, at?_nil, at?_nil, Option.bind_some]
      exact hu.symm
    | cons m ms =>
      rw [write?_cons hv] at hu
      obtain ⟨w, hw, rfl⟩ := Option.map_eq_some_iff.1 hu
      rw [at?_cons, at?_cons, entries, entries]
      by_cases hm : m = n
      · subst hm
        rw [Sorted.lookup_insert_self, hv, Option.bind_some, Option.bind_some, ih hin hw]
        simp only [List.prefix_cons_inj, List.length_cons, List.drop_succ_cons]
      · rw [Sorted.lookup_insert_of_ne hm, if_neg]
        rintro ⟨_, he⟩
        exact hm (List.cons.inj he).1

theorem contentAt?_of_isDirAt {t : FileTree} {names : List Text} (h : Disk.isDirAt t names) :
    t.contentAt? names = none := by
  obtain ⟨u, hu, hdir⟩ := (Option.any_eq_true _ _).1 h
  unfold contentAt?
  rw [hu, Option.bind_some, content?_of_isDir hdir]

/-- What is in a place is a directory or a file. -/
theorem isSome_at? (t : FileTree) (names : List Text) :
    (t.at? names).isSome = (Disk.isDirAt t names || (t.contentAt? names).isSome) := by
  unfold Disk.isDirAt contentAt?
  cases t.at? names with
  | none => rfl
  | some u => cases u <;> rfl

section Write

variable {t u : FileTree} {names : List Text} {c c' : Content} (h : t.contentAt? names = some c)
  (hu : t.write? c' names = some u)
include h hu

/-- What is found on the way to a file that was written. -/
theorem at?_write?_of_append {ms ns : List Text} (hn : names = ms ++ ns) :
    ∃ v w, t.at? ms = some v ∧ v.contentAt? ns = some c ∧ v.write? c' ns = some w ∧
      u.at? ms = some w := by
  have hat := contentAt?_eq_some.1 h
  rw [hn, at?_append, Option.bind_eq_some_iff] at hat
  obtain ⟨v, hv, hat⟩ := hat
  have hc := contentAt?_eq_some.2 hat
  obtain ⟨w, hw⟩ := exists_write? hc c'
  refine ⟨v, w, hv, hc, hw, ?_⟩
  rw [at?_write? h hu, if_pos ⟨ns, hn.symm⟩, hv, Option.bind_some, hn, List.drop_left]
  exact hw

/-- Directories stay where they are. -/
theorem isDirAt_write? (ms : List Text) : Disk.isDirAt u ms = Disk.isDirAt t ms := by
  unfold Disk.isDirAt
  by_cases hm : ms <+: names
  · obtain ⟨ns, hn⟩ := hm
    obtain ⟨v, w, hv, _, hw, hat⟩ := at?_write?_of_append h hu hn.symm
    rw [hat, hv]
    exact isDir_of_write? hw
  · rw [at?_write? h hu, if_neg hm]

/-- The file holds what was written, and the others hold what they held. -/
theorem contentAt?_write? (ms : List Text) :
    u.contentAt? ms = if ms = names then some c' else t.contentAt? ms := by
  by_cases hm : ms <+: names
  · obtain ⟨ns, hn⟩ := hm
    obtain ⟨v, w, hv, hc, hw, hat⟩ := at?_write?_of_append h hu hn.symm
    cases ns with
    | nil =>
      rw [List.append_nil] at hn
      rw [if_pos hn, contentAt?_eq_some, hat]
      rw [contentAt?_eq_some, at?_nil] at hc
      cases hc
      rw [write?] at hw
      exact hw.symm
    | cons n ns =>
      have hne : ms ≠ names := by
        intro he
        have hlen := congrArg List.length (hn.trans he.symm)
        simp at hlen
      have hdir : v.isDir := isDir_of_at?_cons (contentAt?_eq_some.1 hc)
      rw [if_neg hne, contentAt?, contentAt?, hat, hv]
      have hdir' : w.isDir := (isDir_of_write? hw).trans hdir
      rw [Option.bind_some, Option.bind_some, content?_of_isDir hdir, content?_of_isDir hdir']
  · have hne : ms ≠ names := by
      rintro rfl
      exact hm (List.prefix_refl ms)
    rw [if_neg hne, contentAt?, at?_write? h hu, if_neg hm, contentAt?]

end Write

end FileTree

namespace Disk

/-! ## Where paths lead -/

/-- The files and the directories of the second disk are where those of the first one are. -/
structure SameLayout (d e : Disk) : Prop where
  cwd : e.cwd = d.cwd
  dirs : ∀ ns, isDirAt e.tree ns = isDirAt d.tree ns
  files : ∀ ns, (e.tree.contentAt? ns).isSome = (d.tree.contentAt? ns).isSome

namespace SameLayout

variable {d e f : Disk}

theorem refl (d : Disk) : d.SameLayout d := ⟨rfl, fun _ => rfl, fun _ => rfl⟩

theorem trans (h : d.SameLayout e) (h' : e.SameLayout f) : d.SameLayout f :=
  ⟨h'.cwd.trans h.cwd, fun ns => (h'.dirs ns).trans (h.dirs ns),
    fun ns => (h'.files ns).trans (h.files ns)⟩

theorem follow_eq (h : d.SameLayout e) (here ss : List Text) :
    follow e.tree here ss = follow d.tree here ss := by
  induction ss generalizing here with
  | nil => rw [follow, follow]
  | cons s ss ih =>
    rw [follow, follow, h.dirs, FileTree.isSome_at?, FileTree.isSome_at?, h.dirs, h.files, ih, ih,
      ih]

/-- A path leads to the same place. -/
theorem locate?_eq (h : d.SameLayout e) (p : Path) : e.locate? p = d.locate? p := by
  unfold locate? start
  rw [h.cwd, h.follow_eq]

/-- A path of a directory is one still. -/
theorem exists_dir (h : d.SameLayout e) {p : Path}
    (hp : ∃ es, d.look? p = some (.dir es)) : ∃ es, e.look? p = some (.dir es) := by
  obtain ⟨es, hes⟩ := hp
  obtain ⟨ns, hloc, hat⟩ := Option.bind_eq_some_iff.1 hes
  have hdir := h.dirs ns
  unfold isDirAt at hdir
  rw [hat, Option.any_some, FileTree.isDir, Option.any_eq_true] at hdir
  obtain ⟨u, hu, hdir⟩ := hdir
  cases u with
  | file c => cases hdir
  | dir es' => exact ⟨es', Option.bind_eq_some_iff.2 ⟨ns, (h.locate?_eq p).trans hloc, hu⟩⟩

end SameLayout

theorem follow_append (t : FileTree) (here ss rs : List Text) :
    follow t here (ss ++ rs) = (follow t here ss).bind (follow t · rs) := by
  induction ss generalizing here with
  | nil => rw [List.nil_append, follow, Option.bind_some]
  | cons s ss ih =>
    rw [List.cons_append, follow, follow, ih, ih, ih]
    split
    · rfl
    · split
      · rfl
      · split
        · rfl
        · split <;> rfl

/-- The directory around a place is a directory. -/
theorem isDirAt_dropLast {t : FileTree} {ns : List Text} (h : isDirAt t ns) :
    isDirAt t ns.dropLast := by
  rcases List.eq_nil_or_concat ns with rfl | ⟨ms, n, rfl⟩
  · exact h
  · rw [List.concat_eq_append, List.dropLast_concat]
    rw [List.concat_eq_append, isDirAt, FileTree.at?_append] at h
    unfold isDirAt
    cases hm : t.at? ms with
    | none => rw [hm] at h; cases h
    | some u =>
      rw [hm, Option.bind_some] at h
      cases hn : u.at? [n] with
      | none => rw [hn] at h; cases h
      | some v => exact FileTree.isDir_of_at?_cons hn

/-- The last part of a path that leads to a file is the name of the file. -/
theorem follow_file {t : FileTree} {here names : List Text} {s : Text}
    (h : follow t here [s] = some names) (hfile : (t.contentAt? names).isSome) :
    ¬(s = [] ∨ s = ['.'] ∨ s = ['.', '.']) ∧ names = here ++ [s] := by
  have hnot {ns : List Text} (hns : isDirAt t ns) : ns ≠ names := by
    rintro rfl
    rw [FileTree.contentAt?_of_isDirAt hns] at hfile
    cases hfile
  rw [follow] at h
  split at h
  · cases h
  · rename_i hdir
    rw [Bool.not_eq_true, Bool.not_eq_false'] at hdir
    rw [follow, follow, follow] at h
    split at h
    · exact absurd (Option.some.inj h) (hnot hdir)
    · split at h
      · exact absurd (Option.some.inj h) (hnot (isDirAt_dropLast hdir))
      · rename_i hne hup
        rw [not_or] at hne
        split at h
        · exact ⟨by simp [hne, hup], (Option.some.inj h).symm⟩
        · cases h

/-- The parts of a path that leads to a file: those that lead to its directory, and its name. -/
theorem exists_segments_of_file {d : Disk} {p : Path} {names : List Text}
    (h : d.locate? p = some names) (hfile : (d.tree.contentAt? names).isSome) :
    ∃ ss s here, p.segments = ss ++ [s] ∧ follow d.tree (d.start p) ss = some here ∧
      ¬(s = [] ∨ s = ['.'] ∨ s = ['.', '.']) ∧ names = here ++ [s] := by
  unfold locate? at h
  split at h
  · cases h
  · have hne : p.segments ≠ [] := Text.split_ne_nil '/' p
    have hsplit := (List.dropLast_concat_getLast hne).symm
    rw [hsplit, follow_append, Option.bind_eq_some_iff] at h
    obtain ⟨here, hss, hs⟩ := h
    obtain ⟨hname, hnames⟩ := follow_file hs hfile
    exact ⟨_, _, here, hsplit, hss, hname, hnames⟩

/-! ## Reading and writing -/

theorem read?_eq (d : Disk) (p : Path) :
    d.read? p = ((d.locate? p).bind d.tree.contentAt?).bind (·.text?) := by
  unfold read? look? FileTree.contentAt?
  rw [Option.bind_assoc (d.locate? p)]

theorem read?_eq_some {d : Disk} {p : Path} {s : Text} :
    d.read? p = some s ↔
      ∃ names, d.locate? p = some names ∧ d.tree.contentAt? names = some (.text s) := by
  rw [read?_eq]
  cases d.locate? p with
  | none => simp
  | some names =>
    simp only [Option.bind_some, Option.some.injEq, exists_eq_left']
    cases hc : d.tree.contentAt? names with
    | none => simp
    | some c => cases c <;> simp [Content.text?]

/-- A path that leads to a file can be written to. -/
theorem write?_of_file {d : Disk} {p : Path} {names : List Text} {c : Content}
    (h : d.locate? p = some names) (hfile : d.tree.contentAt? names = some c) (s : Text) :
    ∃ u, d.tree.write? (.text s) names = some u ∧ d.write? p s = some { d with tree := u } := by
  obtain ⟨u, hu⟩ := FileTree.exists_write? hfile (.text s)
  obtain ⟨ss, name, here, hseg, hdir, hname, rfl⟩ :=
    exists_segments_of_file h (by rw [hfile]; rfl)
  refine ⟨u, hu, ?_⟩
  unfold write?
  simp only [hseg, List.getLast?_concat, List.dropLast_concat, Option.bind_eq_bind,
    Option.bind_some, hdir, hu]
  rw [if_neg hname]
  rfl

/-- What a write to a file that is there leaves: all files and directories in their places, and
    every other file with what it held. -/
theorem sameLayout_write? {d : Disk} {u : FileTree} {names : List Text} {c c' : Content}
    (hfile : d.tree.contentAt? names = some c) (hu : d.tree.write? c' names = some u) :
    d.SameLayout { d with tree := u } := by
  refine ⟨rfl, FileTree.isDirAt_write? hfile hu, ?_⟩
  intro ns
  rw [FileTree.contentAt?_write? hfile hu]
  split
  · rename_i hns
    rw [hns, hfile]
    rfl
  · rfl

end Disk

end SheetLint
