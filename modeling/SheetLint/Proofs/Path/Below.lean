import Mathlib.Data.List.Basic
import SheetLint.Proofs.Files.Places

/-
  Paths of what is below a directory. A name that is joined to a path is one more component of it
  (`components_join`), whether the path ends in a separator or not, so the names that lead on from a
  directory can be read off the components (`below_inj`). Such a path leads where the names lead
  from the place of the directory (`locate?_below`), and the place of a path that leads anywhere is
  told by its components (`place_of_locate?`).
-/

namespace SheetLint

namespace Text

theorem split_of_not_mem {c : Char} {s : Text} (h : c ∉ s) : split c s = [s] := by
  induction s with
  | nil => rfl
  | cons b s ih =>
    rw [List.mem_cons, not_or] at h
    rw [split, if_neg (Ne.symm h.1), ih h.2]

/-- The parts of two texts with a separator between them are those of the one and of the other. -/
theorem split_append_cons (c : Char) (s t : Text) :
    split c (s ++ c :: t) = split c s ++ split c t := by
  induction s with
  | nil => simp [split]
  | cons b s ih =>
    rw [List.cons_append, split, split, ih]
    split
    · rfl
    · cases hs : split c s with
      | nil => exact absurd hs (split_ne_nil c s)
      | cons u us => rfl

/-- No part of a text has the separator. -/
theorem not_mem_of_mem_split {c : Char} {s t : Text} (h : t ∈ split c s) : c ∉ t := by
  induction s generalizing t with
  | nil =>
    rw [List.mem_singleton.1 h]
    exact List.not_mem_nil
  | cons b s ih =>
    rw [split] at h
    split at h
    · rcases List.mem_cons.1 h with rfl | h
      · exact List.not_mem_nil
      · exact ih h
    · rename_i hb
      cases hs : split c s with
      | nil => exact absurd hs (split_ne_nil c s)
      | cons u us =>
        rw [hs] at h ih
        rcases List.mem_cons.1 h with rfl | h
        · rw [List.mem_cons, not_or]
          exact ⟨Ne.symm hb, ih List.mem_cons_self⟩
        · exact ih (List.mem_cons_of_mem u h)

end Text

namespace Path

variable {p q : Path} {n : Text}

/-- A name that an entry of a directory can have. -/
def IsName (n : Text) : Prop := n ≠ [] ∧ n ≠ ['.'] ∧ n ≠ ['.', '.'] ∧ '/' ∉ n

instance : DecidablePred IsName := fun _ => inferInstanceAs (Decidable (_ ∧ _))

/-- The path of what names lead to from a directory. -/
def below (p : Path) (ns : List Text) : Path := ns.foldl join p

theorem below_cons (p : Path) (n : Text) (ns : List Text) :
    p.below (n :: ns) = (p.join n).below ns := rfl

theorem below_append (p : Path) (ns ms : List Text) :
    p.below (ns ++ ms) = (p.below ns).below ms := List.foldl_append

/-! ## Names joined to a path -/

theorem segments_of_isName (hn : IsName n) : segments n = [n] := Text.split_of_not_mem hn.2.2.2

theorem ofSegment?_of_isName (hn : IsName n) : Component.ofSegment? n = some (.normal n) := by
  rw [Component.ofSegment?, if_neg (not_or.2 ⟨hn.1, hn.2.1⟩), if_neg hn.2.2.1]

theorem join_ne_nil (hn : IsName n) : p.join n ≠ [] := by
  unfold join
  split <;> simp [hn.1]

/-- A part is one more part of the path that it is joined to, in place of an empty one after a
    separator at the end. -/
theorem segments_join (hp : p ≠ []) (hn : '/' ∉ n) :
    ∃ ss, ss ≠ [] ∧ (p.join n).segments = ss ++ [n] ∧
      (p.segments = ss ∨ p.segments = ss ++ [[]]) := by
  unfold join
  split
  · rename_i h
    obtain ⟨q, rfl⟩ := List.getLast?_eq_some_iff.1 (h.resolve_left hp)
    refine ⟨segments q, Text.split_ne_nil '/' q, ?_, Or.inr (Text.split_append_cons '/' q [])⟩
    rw [List.append_assoc, List.singleton_append]
    exact (Text.split_append_cons '/' q n).trans (by rw [Text.split_of_not_mem hn]; rfl)
  · refine ⟨segments p, Text.split_ne_nil '/' p, ?_, Or.inl rfl⟩
    exact (Text.split_append_cons '/' p n).trans (by rw [Text.split_of_not_mem hn]; rfl)

theorem head?_join (hp : p ≠ []) (n : Text) : (p.join n).head? = p.head? := by
  unfold join
  split
  · exact List.head?_append_of_ne_nil p hp
  · exact List.head?_append_of_ne_nil p hp

theorem components_of_ofSegment? {c : Component} (hn : '/' ∉ n)
    (hc : Component.ofSegment? n = some c) : components n = [c] := by
  have hroot : n.head? ≠ some '/' := fun h => hn (List.mem_of_head? h)
  have hcurrent : ¬[n].head? = some ['.'] := by
    intro h
    obtain rfl := Option.some.inj h
    cases hc
  unfold components
  rw [if_neg hroot, segments, Text.split_of_not_mem hn, if_neg hcurrent, List.filterMap_cons, hc]
  rfl

/-- A part that stands for a component is one more component of the path that it is joined to. -/
theorem components_join_of_ofSegment? {c : Component} (p : Path) (hn : '/' ∉ n)
    (hc : Component.ofSegment? n = some c) : (p.join n).components = p.components ++ [c] := by
  by_cases hp : p = []
  · rw [hp]
    exact components_of_ofSegment? hn hc
  · obtain ⟨ss, hss, hjoin, hpath⟩ := segments_join hp hn
    have hhead : (p.join n).segments.head? = p.segments.head? := by
      rw [hjoin, List.head?_append_of_ne_nil ss hss]
      rcases hpath with hpath | hpath
      · rw [hpath]
      · rw [hpath, List.head?_append_of_ne_nil ss hss]
    have hrest : (p.join n).segments.filterMap Component.ofSegment?
        = p.segments.filterMap Component.ofSegment? ++ [c] := by
      rw [hjoin, List.filterMap_append, List.filterMap_cons, hc]
      rcases hpath with hpath | hpath
      · rw [hpath]
        rfl
      · rw [hpath, List.filterMap_append]
        simp [Component.ofSegment?]
    unfold components
    rw [head?_join hp, hhead, hrest]
    split
    · rfl
    · split <;> rfl

/-- A name is one more component of the path that it is joined to. -/
theorem components_join (p : Path) (hn : IsName n) :
    (p.join n).components = p.components ++ [.normal n] :=
  components_join_of_ofSegment? p hn.2.2.2 (ofSegment?_of_isName hn)

theorem components_below {ns : List Text} (hns : ∀ n ∈ ns, IsName n) (p : Path) :
    (p.below ns).components = p.components ++ ns.map .normal := by
  induction ns generalizing p with
  | nil => exact (List.append_nil _).symm
  | cons n ns ih =>
    obtain ⟨hn, hns⟩ := List.forall_mem_cons.1 hns
    rw [below_cons, ih hns, components_join p hn, List.append_assoc]
    rfl

/-- The names that lead on from a directory can be told from the path. -/
theorem below_inj {ns ms : List Text} (hns : ∀ n ∈ ns, IsName n) (hms : ∀ m ∈ ms, IsName m)
    (h : (p.below ns).components = (p.below ms).components) : ns = ms := by
  rw [components_below hns, components_below hms] at h
  exact (List.map_inj_right fun _ _ => Component.normal.inj).1 (List.append_cancel_left h)

/-- A path below a directory starts with the path of the directory. -/
theorem prefix_below (p : Path) (ns : List Text) : p <+: p.below ns := by
  induction ns generalizing p with
  | nil => exact List.prefix_refl p
  | cons n ns ih =>
    refine List.IsPrefix.trans ?_ (ih (p.join n))
    unfold join
    split <;> exact List.prefix_append p _

end Path

/-! ## Where they lead -/

/-- Names lead on from a directory. -/
theorem FileTree.exists_dir_of_at?_append {t u : FileTree} {ns ms : List Text} (hne : ms ≠ [])
    (h : t.at? (ns ++ ms) = some u) :
    ∃ es, t.at? ns = some (dir es) ∧ (dir es).at? ms = some u := by
  rw [at?_append, Option.bind_eq_some_iff] at h
  obtain ⟨v, hv, hu⟩ := h
  cases v with
  | dir es => exact ⟨es, hv, hu⟩
  | file c =>
    obtain ⟨m, ms, rfl⟩ := List.exists_cons_of_ne_nil hne
    rw [at?_file_cons] at hu
    cases hu

namespace Disk

open SheetLint.Path (IsName)

variable {d : Disk} {t u : FileTree} {p : Path} {n : Text} {here names ns : List Text}

/-- A name leads on from a directory only. -/
theorem isDirAt_of_follow (h : follow t here [n] = some names) : isDirAt t here := by
  rw [follow] at h
  split at h
  · cases h
  · rename_i hdir
    rwa [Bool.not_eq_true, Bool.not_eq_false'] at hdir

theorem follow_empty (t : FileTree) (here : List Text) :
    follow t here [[]] = if isDirAt t here then some here else none := by
  rw [follow, follow]
  cases isDirAt t here <;> rfl

/-- Names lead where they lead in the tree. -/
theorem follow_names (hns : ∀ n ∈ ns, IsName n) (h : (t.at? (here ++ ns)).isSome) :
    follow t here ns = some (here ++ ns) := by
  induction ns generalizing here with
  | nil => rw [follow, List.append_nil]
  | cons n ns ih =>
    obtain ⟨⟨hempty, hdot, hup, _⟩, hns⟩ := List.forall_mem_cons.1 hns
    rw [List.append_cons] at h
    have hnext : (t.at? (here ++ [n])).isSome := by
      rw [FileTree.at?_append] at h
      exact Option.isSome_of_isSome_bind h
    have hdir : isDirAt t here := by
      obtain ⟨u, hu⟩ := Option.isSome_iff_exists.1 hnext
      obtain ⟨es, hes, _⟩ := FileTree.exists_dir_of_at?_append (List.cons_ne_nil n []) hu
      rw [isDirAt, hes]
      rfl
    rw [follow, hdir, if_neg (by simp), if_neg (not_or.2 ⟨hempty, hdot⟩), if_neg hup,
      if_pos hnext, ih hns h, List.append_cons here n ns]

/-- A name that is joined to a path leads on from where the path leads. -/
theorem locate?_join (d : Disk) (hp : p ≠ []) (hn : IsName n) :
    d.locate? (p.join n) = (d.locate? p).bind (follow d.tree · [n]) := by
  obtain ⟨ss, _, hjoin, hpath⟩ := Path.segments_join hp hn.2.2.2
  have hstart : d.start (p.join n) = d.start p := by
    unfold start
    rw [Path.head?_join hp]
  unfold locate?
  rw [if_neg (Path.join_ne_nil hn), if_neg hp, hstart, hjoin, follow_append]
  rcases hpath with hpath | hpath
  · rw [hpath]
  · rw [hpath, follow_append, Option.bind_assoc]
    congr 1
    funext here
    rw [follow_empty]
    by_cases hdir : isDirAt d.tree here
    · rw [if_pos hdir, Option.bind_some]
    · rw [if_neg hdir, Option.bind_none, Option.eq_none_iff_forall_ne_some]
      exact fun names h => hdir (isDirAt_of_follow h)

/-- A path below a directory leads where the names lead from there. -/
theorem locate?_below (d : Disk) (hp : p ≠ []) (hns : ∀ n ∈ ns, IsName n) :
    d.locate? (p.below ns) = (d.locate? p).bind (follow d.tree · ns) := by
  induction ns generalizing p with
  | nil =>
    have hrefl : (fun here => follow d.tree here []) = some := by
      funext here
      rw [follow]
    rw [hrefl, Option.bind_fun_some]
    rfl
  | cons n ns ih =>
    obtain ⟨hn, hns⟩ := List.forall_mem_cons.1 hns
    rw [Path.below_cons, ih (Path.join_ne_nil hn) hns, locate?_join d hp hn, Option.bind_assoc]
    congr 1
    funext here
    rw [← follow_append, List.singleton_append]

theorem ne_nil_of_locate? (h : d.locate? p = some here) : p ≠ [] := by
  rintro rfl
  rw [locate?, if_pos rfl] at h
  cases h

/-- What a path below a directory names. -/
theorem locate?_below_of_at? (hloc : d.locate? p = some here) (ht : d.tree.at? here = some t)
    (hns : ∀ n ∈ ns, IsName n) (hu : t.at? ns = some u) :
    d.locate? (p.below ns) = some (here ++ ns) ∧ d.tree.at? (here ++ ns) = some u := by
  have hat : d.tree.at? (here ++ ns) = some u := by
    rw [FileTree.at?_append, ht, Option.bind_some, hu]
  refine ⟨?_, hat⟩
  rw [locate?_below d (ne_nil_of_locate? hloc) hns, hloc, Option.bind_some,
    follow_names hns (by rw [hat]; rfl)]

/-- Where a component leads from a place, whatever is there. -/
def move (here : List Text) : Path.Component → List Text
  | .root => []
  | .current => here
  | .parent => here.dropLast
  | .normal s => here ++ [s]

/-- Where a path leads by its components, whatever is there. -/
def place (d : Disk) (p : Path) : List Text := p.components.foldl move d.cwd

theorem follow_eq_foldl {ss : List Text} (h : follow t here ss = some names) :
    names = (ss.filterMap Path.Component.ofSegment?).foldl move here := by
  induction ss generalizing here with
  | nil =>
    rw [follow, Option.some.injEq] at h
    exact h.symm
  | cons s ss ih =>
    rw [follow] at h
    rw [List.filterMap_cons, Path.Component.ofSegment?]
    split at h
    · cases h
    · split at h
      · rename_i hs
        rw [if_pos hs]
        exact ih h
      · rename_i hs
        rw [if_neg hs]
        split at h
        · rename_i hup
          rw [if_pos hup]
          exact ih h
        · rename_i hup
          rw [if_neg hup]
          split at h
          · exact ih h
          · cases h

/-- A path that leads somewhere leads where its components do. -/
theorem place_of_locate? (h : d.locate? p = some names) : names = d.place p := by
  rw [locate?, if_neg (ne_nil_of_locate? h)] at h
  have hnames := follow_eq_foldl h
  unfold start at hnames
  unfold place Path.components
  split at hnames
  · rename_i hroot
    rw [if_pos hroot]
    exact hnames
  · rename_i hroot
    rw [if_neg hroot]
    split <;> exact hnames

end Disk

end SheetLint
