import SheetLint.Proofs.Files.Collection
import SheetLint.Proofs.Files.Places

/-
  Which files are found does not depend on what is in them, apart from ignore files. Writing a file
  that is there keeps every entry of a tree in order in its place (`exists_split_of_lookup`), so the
  same paths are visible afterwards, in the same order (`visibleUnder_write?`). No ignore file has an
  extension, so a file that is found by its extension is none of them (`not_mem_ignoreNames`).
-/

namespace SheetLint

open Sorted (insert lookup)

/-! ## Entries in order -/

namespace Sorted

variable {α : Type} {es : List (Text × α)} {n : Text} {v w : α}

/-- Names in order, each once. -/
def InOrder (es : List (Text × α)) : Prop := es.Pairwise (·.1 < ·.1)

theorem InOrder.insert (h : InOrder es) (n : Text) (v : α) : InOrder (insert n v es) :=
  pairwise_insert List.lt_trans
    (fun hlt hne => Decidable.byContradiction fun hle => hne (List.le_antisymm hle hlt)) h n v

/-- Where an entry stands, and that putting in another with its name takes its place. -/
theorem exists_split_of_lookup (h : InOrder es) (hn : lookup n es = some v) :
    ∃ before after, es = before ++ (n, v) :: after ∧
      ∀ w, insert n w es = before ++ (n, w) :: after := by
  induction es with
  | nil => cases hn
  | cons e es ih =>
    obtain ⟨hhead, htail⟩ := List.pairwise_cons.1 h
    obtain ⟨k, u⟩ := e
    rw [lookup_cons] at hn
    split at hn
    · rename_i heq
      dsimp only at heq hn
      subst heq
      rw [Option.some.injEq] at hn
      subst hn
      refine ⟨[], es, rfl, fun w => ?_⟩
      rw [Sorted.insert, if_neg (List.lt_irrefl k), if_pos rfl, List.nil_append]
    · rename_i hne
      obtain ⟨before, after, hes, hins⟩ := ih htail hn
      have hlt : k < n := hhead (n, v) (mem_of_lookup hn)
      refine ⟨(k, u) :: before, after, by rw [hes, List.cons_append], fun w => ?_⟩
      rw [Sorted.insert, if_neg (List.lt_asymm hlt), if_neg fun he => hne he.symm, hins,
        List.cons_append]

end Sorted

namespace FileTree

/-- Every directory of a tree has its entries in order. Every tree is like this that files were put
    into one by one (`withFile`), and writing keeps it (`write?`). -/
inductive Ordered : FileTree → Prop
  | file (c : Content) : Ordered (file c)
  | dir {es : List (Text × FileTree)} :
      Sorted.InOrder es → (∀ e ∈ es, Ordered e.2) → Ordered (dir es)

namespace Ordered

variable {t u : FileTree} {es : List (Text × FileTree)} {c : Content}

theorem empty : FileTree.empty.Ordered := .dir .nil fun _ he => (List.not_mem_nil he).elim

theorem entries (h : t.Ordered) : Sorted.InOrder t.entries ∧ ∀ e ∈ t.entries, e.2.Ordered := by
  cases h with
  | file c => exact ⟨.nil, fun _ he => (List.not_mem_nil he).elim⟩
  | dir hes hin => exact ⟨hes, hin⟩

theorem of_lookup (h : t.Ordered) {n : Text} (hn : lookup n t.entries = some u) : u.Ordered :=
  h.entries.2 (n, u) (Sorted.mem_of_lookup hn)

theorem insert (h : t.Ordered) (n : Text) (hu : u.Ordered) :
    (FileTree.dir (Sorted.insert n u t.entries)).Ordered := by
  refine .dir (h.entries.1.insert n u) fun e he => ?_
  rcases Sorted.mem_insert he with rfl | he
  · exact hu
  · exact h.entries.2 e he

theorem at? (h : t.Ordered) {ns : List Text} (hu : t.at? ns = some u) : u.Ordered := by
  induction ns generalizing t with
  | nil =>
    rw [at?_nil, Option.some.injEq] at hu
    rwa [← hu]
  | cons n ns ih =>
    rw [at?_cons, Option.bind_eq_some_iff] at hu
    obtain ⟨v, hv, hu⟩ := hu
    exact ih (h.of_lookup hv) hu

theorem write? (h : t.Ordered) {names : List Text} (hu : t.write? c names = some u) :
    u.Ordered := by
  induction names generalizing t u with
  | nil =>
    obtain ⟨c', rfl, rfl⟩ | ⟨n, ns, es, v, hnames, _⟩ := write?_cases hu
    · exact .file c
    · cases hnames
  | cons m ms ih =>
    obtain ⟨c', rfl, rfl⟩ | ⟨n, ns, es, v, hnames, rfl, rfl, hv⟩ := write?_cases hu
    · exact .file c
    · obtain ⟨rfl, rfl⟩ := List.cons.inj hnames
      refine h.insert m ?_
      obtain rfl | ⟨w, hw, hv⟩ := hv
      · exact .file c
      · exact ih (h.of_lookup hw) hv

/-- Putting something in a place keeps the order when what is put there is in order. -/
theorem plant {change : Option FileTree → FileTree}
    (hchange : ∀ t, (∀ u ∈ t, Ordered u) → (change t).Ordered) (names : List Text)
    {t : Option FileTree} (h : ∀ u ∈ t, Ordered u) : (FileTree.plant change names t).Ordered := by
  induction names generalizing t with
  | nil => exact hchange t h
  | cons n ns ih =>
    rw [FileTree.plant]
    cases t with
    | none =>
      exact empty.insert n (ih fun u hu => by cases hu)
    | some t =>
      have ht := h t rfl
      exact ht.insert n (ih fun u hu => ht.of_lookup hu)

theorem withFile (h : t.Ordered) (names : List Text) (c : Content) :
    (t.withFile names c).Ordered := by
  refine plant (fun _ _ => .file c) names fun u hu => ?_
  rwa [← Option.some.inj hu]

end Ordered

end FileTree

/-! ## What is visible -/

/-- The names of the files in which rules about ignored files are looked for. -/
def ignoreNames : List Text := [".ignore", ".gitignore", "exclude"].map String.toList

section Write

variable {t u : FileTree} {names : List Text} {c c' : Content} (h : t.contentAt? names = some c)
  (hu : t.write? c' names = some u) (hname : ∀ n ∈ names.getLast?, n ∉ ignoreNames)
include h hu hname

/-- Writing a file that is not an ignore file keeps the rules of a directory. -/
theorem IgnoreLevel.ofDir_write? (p : Path) : ofDir p u = ofDir p t := by
  have hrules (ns : List Text) (hns : ∀ n ∈ ns.getLast?, n ∈ ignoreNames) (hne : ns ≠ []) :
      rulesIn u ns = rulesIn t ns := by
    have hne' : ns ≠ names := by
      rintro rfl
      have hlast := List.getLast?_eq_some_getLast hne
      exact hname _ hlast (hns _ hlast)
    have hcontent := FileTree.contentAt?_write? h hu ns
    rw [if_neg hne'] at hcontent
    unfold FileTree.contentAt? at hcontent
    unfold rulesIn
    rw [hcontent]
  unfold ofDir
  rw [hrules [".ignore".toList] (by simp [ignoreNames]) (by simp),
    hrules [".gitignore".toList] (by simp [ignoreNames]) (by simp),
    hrules [".git".toList, "info".toList, "exclude".toList] (by simp [ignoreNames]) (by simp)]

end Write

theorem visibleIn_append (levels : List IgnoreLevel) (p : Path) (es fs : List (Text × FileTree)) :
    visibleIn levels p (es ++ fs) = visibleIn levels p es ++ visibleIn levels p fs := by
  induction es with
  | nil => rw [List.nil_append, visibleIn, List.nil_append]
  | cons e es ih =>
    obtain ⟨n, t⟩ := e
    rw [List.cons_append, visibleIn, visibleIn, ih, List.append_assoc]

/-- Writing a file that is not an ignore file keeps the paths that are visible. -/
theorem FileTree.visibleUnder_write? {t u : FileTree} {names : List Text} {c c' : Content}
    (ht : t.Ordered) (h : t.contentAt? names = some c) (hu : t.write? c' names = some u)
    (hname : ∀ n ∈ names.getLast?, n ∉ ignoreNames) (levels : List IgnoreLevel) (p : Path) :
    u.visibleUnder levels p = t.visibleUnder levels p := by
  induction names generalizing t u levels p with
  | nil =>
    rw [contentAt?_eq_some, at?_nil, Option.some.injEq] at h
    subst h
    rw [write?, Option.some.injEq] at hu
    rw [← hu, visibleUnder, visibleUnder]
  | cons n ns ih =>
    have hlevel := IgnoreLevel.ofDir_write? h hu hname p
    obtain ⟨es, v, rfl, hv, hin⟩ := contentAt?_cons_eq_some h
    rw [write?_cons hv] at hu
    obtain ⟨w, hw, rfl⟩ := Option.map_eq_some_iff.1 hu
    have hord : Sorted.InOrder es := ht.entries.1
    obtain ⟨before, after, hes, hins⟩ := Sorted.exists_split_of_lookup hord hv
    have hbelow := ih (ht.of_lookup hv) hin hw (fun m hm => hname m (by
      rw [List.getLast?_cons, hm]; rfl))
    rw [visibleUnder, visibleUnder, hlevel, hins, hes, visibleIn_append, visibleIn_append,
      visibleIn, visibleIn, isDir_of_write? hw, hbelow]

/-! ## What is found -/

namespace Path

/-- The last part of a path is its file name, if it is a name at all. -/
theorem fileName?_of_segments {p : Path} {ss : List Text} {s : Text} (h : p.segments = ss ++ [s])
    (hs : ¬(s = [] ∨ s = ['.'] ∨ s = ['.', '.'])) : p.fileName? = some s := by
  rw [not_or, not_or] at hs
  have hlast : Component.ofSegment? s = some (.normal s) := by
    simp [Component.ofSegment?, hs]
  have hcomponents : p.components.getLast? = some (.normal s) := by
    unfold components
    rw [h, List.filterMap_append, List.filterMap_cons, hlast]
    dsimp only
    split
    · simp [List.getLast?_cons]
    · split <;> simp [List.getLast?_cons]
  unfold fileName?
  rw [hcomponents]

/-- No ignore file has an extension. -/
theorem not_mem_ignoreNames {p : Path} {name e : Text} (hname : p.fileName? = some name)
    (he : p.extension? = some e) : name ∉ ignoreNames := by
  have hnone : ∀ n ∈ ignoreNames, (n.reverse.drop (n.reverse.takeWhile (· ≠ '.')).length).length ≤ 1
    := by decide
  intro hin
  have hlen := hnone name hin
  unfold extension? at he
  rw [hname] at he
  dsimp only [bind, Option.bind] at he
  split at he
  · rename_i heq
    rw [heq] at hlen
    simp at hlen
  · cases he

end Path

namespace Selection

/-- Writing a file that is not an ignore file keeps the files that are found in a directory. -/
theorem scan_write? {s : Selection} (hs : s.gitignore) {d : Disk} (hd : d.tree.Ordered)
    {root : Path} {es : List (Text × FileTree)} (hroot : d.look? root = some (.dir es))
    {u : FileTree} {names : List Text} {c c' : Content} (h : d.tree.contentAt? names = some c)
    (hu : d.tree.write? c' names = some u) (hname : ∀ n ∈ names.getLast?, n ∉ ignoreNames) :
    s.scan { d with tree := u } root = s.scan d root := by
  obtain ⟨here, hloc, hat⟩ := Option.bind_eq_some_iff.1 hroot
  obtain ⟨es', hat', hvisible⟩ : ∃ es', u.at? here = some (.dir es') ∧
      (FileTree.dir es').visibleUnder [] root = (FileTree.dir es).visibleUnder [] root := by
    by_cases hhere : here <+: names
    · obtain ⟨ns, hns⟩ := hhere
      obtain ⟨v, w, hv, hc, hw, hat'⟩ := FileTree.at?_write?_of_append h hu hns.symm
      rw [hat, Option.some.injEq] at hv
      subst hv
      have hvisible := FileTree.visibleUnder_write? (hd.at? hat) hc hw (fun n hn => hname n (by
        rw [← hns, List.getLast?_append, hn]; rfl)) [] root
      cases w with
      | file c => exact absurd (FileTree.isDir_of_write? hw) (by simp [FileTree.isDir])
      | dir es' => exact ⟨es', hat', hvisible⟩
    · exact ⟨es, by rw [FileTree.at?_write? h hu, if_neg hhere, hat], rfl⟩
  have hlook : Disk.look? { d with tree := u } root = some (.dir es') := by
    unfold Disk.look?
    rw [(Disk.sameLayout_write? h hu).locate?_eq, hloc]
    exact hat'
  unfold scan
  rw [hlook, hroot]
  dsimp only
  rw [if_pos hs, if_pos hs, hvisible]

/-- A file that is found in a directory by its extension is not an ignore file. -/
theorem not_mem_ignoreNames_of_found {s : Selection} (hs : s.filter.extensions ≠ []) {d : Disk}
    {root p : Path} {es : List (Text × FileTree)} (hroot : d.look? root = some (.dir es))
    (hp : p ∈ s.found d root) {names : List Text} {c : Content}
    (hloc : d.locate? p = some names) (hc : d.tree.contentAt? names = some c) :
    ∀ n ∈ names.getLast?, n ∉ ignoreNames := by
  obtain ⟨ss, name, here, hseg, _, hname, rfl⟩ :=
    Disk.exists_segments_of_file hloc (by rw [hc]; rfl)
  have hincludes := includes_of_mem_found hroot hp
  unfold Filter.includes Filter.hasExtension at hincludes
  rw [Bool.and_eq_true, Bool.or_eq_true, List.isEmpty_iff, Option.any_eq_true] at hincludes
  obtain ⟨hnil | ⟨e, he, _⟩, _⟩ := hincludes
  · exact absurd hnil hs
  · intro n hn
    rw [List.getLast?_concat, Option.mem_some_iff] at hn
    rw [← hn]
    exact Path.not_mem_ignoreNames (Path.fileName?_of_segments hseg hname) he

end Selection

end SheetLint
