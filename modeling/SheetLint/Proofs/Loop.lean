/-
  Loops that may fail. A step of a loop gives the state to go on with, or the result that the loop
  returns. It gives nothing where it touches what is not there. `loop_eq_some_iff`: a loop has a
  result when its steps lead to it, so a loop with a result neither fails nor goes on for ever.
-/

namespace SheetLint

section Loop

variable {σ α : Type} {step : σ → Option (σ ⊕ α)}

/-- The steps from a state on lead to a result. -/
inductive Returns (step : σ → Option (σ ⊕ α)) : σ → α → Prop
  | now {s : σ} {a : α} (h : step s = some (.inr a)) : Returns step s a
  | later {s t : σ} {a : α} (h : step s = some (.inl t)) (ht : Returns step t a) :
      Returns step s a

theorem Returns.unique {s : σ} {a b : α} (ha : Returns step s a) (hb : Returns step s b) :
    a = b := by
  induction ha with
  | now h =>
    cases hb with
    | now h' => rw [h] at h'; cases h'; rfl
    | later h' _ => rw [h] at h'; cases h'
  | later h _ ih =>
    cases hb with
    | now h' => rw [h] at h'; cases h'
    | later h' ht => rw [h] at h'; cases h'; exact ih ht

open Classical in
/-- Makes one step after the other until there is a result. There is none if a step gives nothing,
    or if there is always a state to go on with. -/
noncomputable def loop (step : σ → Option (σ ⊕ α)) (s : σ) : Option α :=
  if h : ∃ a, Returns step s a then some h.choose else none

theorem loop_eq_some_iff {s : σ} {a : α} : loop step s = some a ↔ Returns step s a := by
  unfold loop
  split
  · rename_i h
    rw [Option.some.injEq]
    constructor
    · rintro rfl
      exact h.choose_spec
    · exact h.choose_spec.unique
  · rename_i h
    exact ⟨nofun, fun ha => absurd ⟨a, ha⟩ h⟩

theorem loop_of_inr {s : σ} {a : α} (h : step s = some (.inr a)) : loop step s = some a :=
  loop_eq_some_iff.2 (.now h)

theorem loop_of_inl {s t : σ} (h : step s = some (.inl t)) : loop step s = loop step t := by
  refine Option.ext fun a => ?_
  rw [loop_eq_some_iff, loop_eq_some_iff]
  constructor
  · intro hs
    cases hs with
    | now h' => rw [h] at h'; cases h'
    | later h' ht => rw [h] at h'; cases h'; exact ht
  · exact .later h

/-- Going on from place to place, as long as the steps do. -/
theorem loop_pass (state : Nat → σ) (i : Nat) {n : Nat}
    (h : ∀ k < n, step (state (i + k)) = some (.inl (state (i + k + 1)))) :
    loop step (state i) = loop step (state (i + n)) := by
  induction n with
  | zero => rfl
  | succ n ih =>
    rw [ih fun k hk => h k (Nat.lt_succ_of_lt hk)]
    exact loop_of_inl (h n (Nat.lt_succ_self n))

end Loop

end SheetLint
