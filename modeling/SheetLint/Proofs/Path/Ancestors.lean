import Mathlib.Data.List.Infix
import SheetLint.Proofs.Path.Below

/-
  The directories that lead to a directory. A path starts at the root, at the working directory as
  `.`, or at neither, and what follows are steps up or down; the path of such components has those
  components again (`components_ofComponents`). So the directories that lead to a path have the
  first components of the path, one less each time, down to the root or to none at all
  (`components_ancestors`).
-/

namespace SheetLint.Path

variable {p : Path}

/-- A component that can stand behind others: a step up, or down to a name. -/
def Component.IsStep (c : Component) : Prop := c = .parent ∨ ∃ n, c = .normal n ∧ IsName n

/-- What a path can start with. -/
def IsStart (cs : List Component) : Prop := cs = [] ∨ cs = [.root] ∨ cs = [.current]

theorem isStep_of_ofSegment? {s : Text} {c : Component} (hs : '/' ∉ s)
    (hc : Component.ofSegment? s = some c) : c.IsStep := by
  unfold Component.ofSegment? at hc
  split at hc
  · cases hc
  · rename_i hne
    obtain ⟨hnil, hdot⟩ := not_or.1 hne
    split at hc
    · exact Or.inl (Option.some.inj hc).symm
    · rename_i hup
      exact Or.inr ⟨s, (Option.some.inj hc).symm, hnil, hdot, hup, hs⟩

theorem not_mem_of_mem_segments {s : Text} (h : s ∈ p.segments) : '/' ∉ s :=
  Text.not_mem_of_mem_split h

/-- The components of a path are a start and steps. -/
theorem exists_start_steps (p : Path) :
    ∃ start steps, p.components = start ++ steps ∧ IsStart start ∧
      (start = [.root] ↔ p.head? = some '/') ∧ ∀ c ∈ steps, c.IsStep := by
  have hsteps : ∀ c ∈ p.segments.filterMap Component.ofSegment?, c.IsStep := by
    intro c hc
    obtain ⟨s, hs, hc⟩ := List.mem_filterMap.1 hc
    exact isStep_of_ofSegment? (not_mem_of_mem_segments hs) hc
  unfold components
  split
  · rename_i hroot
    exact ⟨[.root], _, rfl, Or.inr (Or.inl rfl), by simp [hroot], hsteps⟩
  · rename_i hroot
    split
    · exact ⟨[.current], _, rfl, Or.inr (Or.inr rfl), by simp [hroot], hsteps⟩
    · exact ⟨[], _, rfl, Or.inl rfl, by simp [hroot], hsteps⟩

/-- The path of components of a path has these components. -/
theorem components_ofComponents {start steps : List Component} (hstart : IsStart start)
    (hsteps : ∀ c ∈ steps, c.IsStep) :
    (ofComponents (start ++ steps)).components = start ++ steps := by
  induction steps using List.reverseRecOn with
  | nil => rcases hstart with rfl | rfl | rfl <;> rfl
  | append_singleton steps c ih =>
    obtain ⟨hsteps, hc⟩ := List.forall_mem_append.1 hsteps
    have ih := ih hsteps
    rw [← List.append_assoc]
    conv => rhs; rw [← ih]
    unfold ofComponents at ih ⊢
    rw [List.foldl_append]
    rcases hc c (List.mem_singleton_self c) with rfl | ⟨n, rfl, hn⟩
    · exact components_join_of_ofSegment? _ (by decide) rfl
    · exact components_join _ hn

theorem go_cons_of_isStep {c : Component} (hc : c.IsStep) (cs : List Component) :
    ancestors.go (c :: cs) = ofComponents (c :: cs).reverse :: ancestors.go cs := by
  rcases hc with rfl | ⟨n, rfl, -⟩ <;> rfl

/-- The directories that lead to a path have its first components, one less each time. The last of
    them is the root, or has no components. -/
theorem components_ancestors (p : Path) :
    p.ancestors.map components
      = (if p.head? = some '/' then p.components.inits.tail else p.components.inits).reverse := by
  obtain ⟨start, steps, hp, hstart, hroot, hsteps⟩ := exists_start_steps p
  rw [ancestors, hp]
  simp only [← hroot]
  clear hp hroot
  induction steps using List.reverseRecOn with
  | nil => rcases hstart with rfl | rfl | rfl <;> rfl
  | append_singleton steps c ih =>
    have hall := components_ofComponents hstart hsteps
    have ih := ih fun c hc => hsteps c (List.mem_append_left _ hc)
    have hstep : c.IsStep := hsteps c (List.mem_append_right _ (List.mem_singleton_self c))
    have hinits : ((start ++ steps) ++ [c]).inits
        = (start ++ steps).inits ++ [(start ++ steps) ++ [c]] := by
      rw [List.inits_append]
      rfl
    have hne : (start ++ steps).inits ≠ [] := by
      cases start ++ steps <;> simp
    have hlast : (c :: (start ++ steps).reverse).reverse = start ++ (steps ++ [c]) := by simp
    rw [← List.append_assoc, hinits, List.reverse_concat, go_cons_of_isStep hstep, List.map_cons,
      ih, hlast, hall, List.tail_append_of_ne_nil hne, ← List.reverse_concat, List.append_assoc]
    split <;> rfl

end SheetLint.Path
