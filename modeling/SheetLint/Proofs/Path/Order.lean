import Mathlib.Data.List.Sort
import SheetLint.Path

/-
  The order of paths. Components are ordered by kind and then by name, and lists of them like words
  (`upTo_trans`, `upTo_total`, `eq_of_upTo`). So paths with the same components stand next to each
  other in a sorted list, and erasing repetitions leaves a list in which each path comes before
  those behind it (`pairwise_eraseReps`) and which lacks nothing but other spellings of its paths
  (`exists_same_of_mem`).
-/

namespace SheetLint

/-! ## Erasing repetitions -/

section Repetitions

variable {α : Type} {r : α → α → Bool}

theorem eraseRepsBy_loop (a : α) (as acc : List α) :
    List.eraseRepsBy.loop r a as acc = acc.reverse ++ (a :: as).eraseRepsBy r := by
  have hloop (as acc : List α) (a : α) :
      List.eraseRepsBy.loop r a as acc = acc.reverse ++ List.eraseRepsBy.loop r a as [] := by
    induction as generalizing a acc with
    | nil => simp [List.eraseRepsBy.loop]
    | cons b as ih =>
      rw [List.eraseRepsBy.loop, List.eraseRepsBy.loop]
      cases r a b with
      | true => exact ih acc a
      | false => rw [ih (a :: acc), ih [a]]; simp
  exact hloop as acc a

/-- Of two neighbours that count as one the first is kept. -/
theorem eraseRepsBy_cons_cons (a b : α) (as : List α) :
    (a :: b :: as).eraseRepsBy r
      = if r a b then (a :: as).eraseRepsBy r else a :: (b :: as).eraseRepsBy r := by
  rw [List.eraseRepsBy, List.eraseRepsBy.loop]
  cases r a b with
  | true => rfl
  | false => exact eraseRepsBy_loop b as [a]

/-- Erasing repetitions only leaves elements out. -/
theorem mem_of_mem_eraseRepsBy {l : List α} {x : α} (h : x ∈ l.eraseRepsBy r) : x ∈ l := by
  cases l with
  | nil => cases h
  | cons a l =>
    induction l generalizing a with
    | nil => exact h
    | cons b l ih =>
      rw [eraseRepsBy_cons_cons] at h
      split at h
      · rcases List.mem_cons.1 (ih a h) with rfl | h
        · exact List.mem_cons_self
        · exact List.mem_cons_of_mem a (List.mem_cons_of_mem b h)
      · rcases List.mem_cons.1 h with rfl | h
        · exact List.mem_cons_self
        · exact List.mem_cons_of_mem a (ih b h)

end Repetitions

namespace Path

/-! ## Components in order -/

namespace Component

/-- The name of a component that has one. -/
def name : Component → Text
  | normal s => s
  | _ => []

theorem eq_of_rank_of_name {c d : Component} (hrank : c.rank = d.rank) (hname : c.name = d.name) :
    c = d := by
  cases c <;> cases d <;> simp_all [rank, name]

theorem before_iff {c d : Component} :
    c.before d ↔ c.rank < d.rank ∨ c.rank = d.rank ∧ c.name < d.name := by
  cases c <;> cases d <;> simp [before, rank, name]

theorem not_before_self (c : Component) : ¬c.before c := by
  rw [before_iff]
  rintro (h | ⟨_, h⟩)
  · exact Nat.lt_irrefl _ h
  · exact List.lt_irrefl _ h

theorem before_trans {c d e : Component} (h : c.before d) (h' : d.before e) : c.before e := by
  rw [before_iff] at *
  rcases h with h | ⟨h, hname⟩
  · rcases h' with h' | ⟨h', _⟩
    · exact Or.inl (Nat.lt_trans h h')
    · exact Or.inl (h' ▸ h)
  · rcases h' with h' | ⟨h', hname'⟩
    · exact Or.inl (h ▸ h')
    · exact Or.inr ⟨h.trans h', List.lt_trans hname hname'⟩

theorem before_or_eq_or_before (c d : Component) : c.before d ∨ c = d ∨ d.before c := by
  rw [before_iff, before_iff]
  rcases Nat.lt_trichotomy c.rank d.rank with h | h | h
  · exact Or.inl (Or.inl h)
  · by_cases hlt : c.name < d.name
    · exact Or.inl (Or.inr ⟨h, hlt⟩)
    · by_cases hgt : d.name < c.name
      · exact Or.inr (Or.inr (Or.inr ⟨h.symm, hgt⟩))
      · exact Or.inr (Or.inl (eq_of_rank_of_name h (List.le_antisymm hgt hlt)))
  · exact Or.inr (Or.inr (Or.inl h))

end Component

theorem upTo_cons {c d : Component} {cs ds : List Component} :
    upTo (c :: cs) (d :: ds) ↔ c.before d ∨ c = d ∧ upTo cs ds := by
  rw [upTo, Bool.or_eq_true, Bool.and_eq_true, beq_iff_eq]

theorem upTo_trans {as bs cs : List Component} (h : upTo as bs) (h' : upTo bs cs) :
    upTo as cs := by
  induction as generalizing bs cs with
  | nil => rw [upTo]
  | cons a as ih =>
    cases bs with
    | nil => simp [upTo] at h
    | cons b bs =>
      cases cs with
      | nil => simp [upTo] at h'
      | cons c cs =>
        rw [upTo_cons] at *
        rcases h with h | ⟨rfl, h⟩
        · rcases h' with h' | ⟨rfl, _⟩
          · exact Or.inl (Component.before_trans h h')
          · exact Or.inl h
        · rcases h' with h' | ⟨rfl, h'⟩
          · exact Or.inl h'
          · exact Or.inr ⟨rfl, ih h h'⟩

theorem upTo_total (as bs : List Component) : upTo as bs ∨ upTo bs as := by
  induction as generalizing bs with
  | nil => exact Or.inl (by rw [upTo])
  | cons a as ih =>
    cases bs with
    | nil => exact Or.inr (by rw [upTo])
    | cons b bs =>
      rw [upTo_cons, upTo_cons]
      rcases Component.before_or_eq_or_before a b with h | rfl | h
      · exact Or.inl (Or.inl h)
      · exact (ih bs).imp (fun h => Or.inr ⟨rfl, h⟩) fun h => Or.inr ⟨rfl, h⟩
      · exact Or.inr (Or.inl h)

theorem upTo_refl (as : List Component) : upTo as as := or_self_iff.1 (upTo_total as as)

theorem eq_of_upTo {as bs : List Component} (h : upTo as bs) (h' : upTo bs as) : as = bs := by
  induction as generalizing bs with
  | nil =>
    cases bs with
    | nil => rfl
    | cons b bs => simp [upTo] at h'
  | cons a as ih =>
    cases bs with
    | nil => simp [upTo] at h
    | cons b bs =>
      rw [upTo_cons] at *
      rcases h with h | ⟨rfl, h⟩
      · rcases h' with h' | ⟨rfl, _⟩
        · exact absurd (Component.before_trans h h') (Component.not_before_self a)
        · exact absurd h (Component.not_before_self b)
      · rcases h' with h' | ⟨_, h'⟩
        · exact absurd h' (Component.not_before_self a)
        · rw [ih h h']

/-- A list of components comes before another. -/
def Precedes (as bs : List Component) : Prop := upTo as bs ∧ as ≠ bs

instance : Std.Irrefl Precedes := ⟨fun _ h => h.2 rfl⟩

instance : Std.Antisymm Precedes := ⟨fun _ _ h h' => eq_of_upTo h.1 h'.1⟩

/-! ## Paths in order -/

/-- A path comes before another. Two spellings with the same components do not. -/
def Before (p q : Path) : Prop := Precedes p.components q.components

instance : Std.Irrefl Before := ⟨fun p => Std.Irrefl.irrefl p.components⟩

instance : Std.Antisymm Before :=
  ⟨fun _ _ h h' => absurd (eq_of_upTo h.1 h'.1) h.2⟩

theorem same_iff {p q : Path} : p.same q ↔ p.components = q.components := by
  rw [same, beq_iff_eq]

theorem le_trans {p q r : Path} (h : p.le q) (h' : q.le r) : p.le r := upTo_trans h h'

theorem le_total (p q : Path) : p.le q || q.le p := by
  rw [Bool.or_eq_true]
  exact upTo_total p.components q.components

theorem pairwise_sort (ps : List Path) : (ps.mergeSort le).Pairwise (·.le ·) :=
  @List.pairwise_mergeSort Path le (fun _ _ _ => le_trans) le_total ps

/-- Sorting puts paths with different components one before the other. -/
theorem pairwise_before_sort {ps : List Path} (h : ps.Pairwise (·.components ≠ ·.components)) :
    (ps.mergeSort le).Pairwise Before :=
  (pairwise_sort ps).and ((List.mergeSort_perm ps le).symm.pairwise h Ne.symm)

/-- Of a sorted list, erasing repetitions leaves paths that come one before the other. -/
theorem pairwise_eraseReps {ps : List Path} (h : ps.Pairwise (·.le ·)) :
    (ps.eraseRepsBy same).Pairwise Before := by
  cases ps with
  | nil => exact .nil
  | cons p ps =>
    induction ps generalizing p with
    | nil => exact List.pairwise_singleton _ _
    | cons q ps ih =>
      obtain ⟨hp, hq⟩ := List.pairwise_cons.1 h
      rw [eraseRepsBy_cons_cons]
      split
      · refine ih p (List.pairwise_cons.2 ⟨fun x hx => ?_, (List.pairwise_cons.1 hq).2⟩)
        exact hp x (List.mem_cons_of_mem q hx)
      · rename_i hne
        refine List.pairwise_cons.2 ⟨fun x hx => ?_, ih q hq⟩
        have hx := mem_of_mem_eraseRepsBy hx
        refine ⟨hp x hx, fun hsame => hne ?_⟩
        -- What stands between two paths with the same components has these too.
        have hqx : q.le x := by
          rcases List.mem_cons.1 hx with rfl | hx
          · exact upTo_refl x.components
          · exact (List.pairwise_cons.1 hq).1 x hx
        unfold le at hqx
        rw [← hsame] at hqx
        exact same_iff.2 (eq_of_upTo (hp q List.mem_cons_self) hqx)

/-- Erasing repetitions leaves a spelling of each path. -/
theorem exists_same_of_mem (ps : List Path) :
    ∀ p ∈ ps, ∃ q ∈ ps.eraseRepsBy same, q.components = p.components := by
  cases ps with
  | nil => exact fun _ hp => (List.not_mem_nil hp).elim
  | cons q ps =>
    induction ps generalizing q with
    | nil => exact fun p hp => ⟨p, hp, rfl⟩
    | cons r ps ih =>
      intro p hp
      rw [eraseRepsBy_cons_cons]
      split
      · rename_i hqr
        obtain ⟨x, hx, hxq⟩ := ih q q List.mem_cons_self
        rcases List.mem_cons.1 hp with rfl | hp
        · exact ⟨x, hx, hxq⟩
        · rcases List.mem_cons.1 hp with rfl | hp
          · exact ⟨x, hx, hxq.trans (same_iff.1 hqr)⟩
          · exact ih q p (List.mem_cons_of_mem q hp)
      · rcases List.mem_cons.1 hp with rfl | hp
        · exact ⟨p, List.mem_cons_self, rfl⟩
        · obtain ⟨x, hx, hxp⟩ := ih r p hp
          exact ⟨x, List.mem_cons_of_mem q hx, hxp⟩

section Lists

variable {ps qs : List Path} (hps : ps.Pairwise Before) (hqs : qs.Pairwise Before)
include hps

/-- A list in order has one spelling of each path. -/
theorem nodup_components : (ps.map components).Nodup := List.pairwise_map.2 (hps.imp And.right)

include hqs

/-- Some of the paths of a list in order are in the order of the list. -/
theorem sublist_of_subset (h : ps ⊆ qs) : ps.Sublist qs :=
  List.sublist_of_subperm_of_pairwise (List.subperm_of_subset hps.nodup h) hps hqs

/-- Two lists in order that hold the same paths, perhaps spelled otherwise, hold them in the same
    places. -/
theorem map_components_eq (h : ∀ cs, cs ∈ ps.map components ↔ cs ∈ qs.map components) :
    ps.map components = qs.map components :=
  List.Pairwise.eq_of_mem_iff (List.pairwise_map.2 hps) (List.pairwise_map.2 hqs) h

end Lists

end Path

end SheetLint
