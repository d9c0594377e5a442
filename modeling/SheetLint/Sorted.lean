/-
  Lists of entries that are sorted by key, each key once. Two such lists with the same entries are
  the same list.
-/

namespace SheetLint.Sorted

variable {κ α : Type} [LT κ] [DecidableLT κ] [DecidableEq κ]

/-- Puts an entry in its place, or in the place of the entry with the same key. -/
def insert (key : κ) (v : α) : List (κ × α) → List (κ × α)
  | [] => [(key, v)]
  | (k, w) :: es =>
    if key < k then (key, v) :: (k, w) :: es
    else if key = k then (key, v) :: es
    else (k, w) :: insert key v es

/-- The value of a key. -/
def lookup (key : κ) (es : List (κ × α)) : Option α := (es.find? (·.1 = key)).map (·.2)

/-- The entries of a list, put in order. Of two entries with one key the later counts. -/
def ofList (es : List (κ × α)) : List (κ × α) := es.foldl (fun t (k, v) => insert k v t) []

theorem lookup_insert_self (key : κ) (v : α) (es : List (κ × α)) :
    lookup key (insert key v es) = some v := by
  induction es with
  | nil => simp [insert, lookup]
  | cons e es ih =>
    obtain ⟨k, w⟩ := e
    unfold insert
    split
    · simp [lookup]
    · split
      · simp [lookup]
      · rename_i h
        have : k ≠ key := fun h' => h h'.symm
        simpa [lookup, this] using ih

theorem lookup_insert_of_ne {key other : κ} (h : other ≠ key) (v : α) (es : List (κ × α)) :
    lookup other (insert key v es) = lookup other es := by
  induction es with
  | nil => simp [insert, lookup, h.symm]
  | cons e es ih =>
    obtain ⟨k, w⟩ := e
    unfold insert
    split
    · simp [lookup, h.symm]
    · split
      · rename_i hk
        subst hk
        simp [lookup, h.symm]
      · simp only [lookup, List.find?_cons]
        split
        · rfl
        · exact ih

variable {es : List (κ × α)} {key : κ} {v : α}

section

omit [LT κ] [DecidableLT κ]

theorem lookup_cons (e : κ × α) :
    lookup key (e :: es) = if e.1 = key then some e.2 else lookup key es := by
  unfold lookup
  rw [List.find?_cons]
  by_cases h : e.1 = key <;> simp [h]

theorem mem_of_lookup (h : lookup key es = some v) : (key, v) ∈ es := by
  induction es with
  | nil => cases h
  | cons e es ih =>
    rw [lookup_cons] at h
    split at h
    · rename_i hkey
      rw [← hkey, ← Option.some.inj h]
      exact List.mem_cons_self
    · exact List.mem_cons_of_mem e (ih h)

theorem lookup_eq_none_iff : lookup key es = none ↔ ∀ e ∈ es, e.1 ≠ key := by
  simp [lookup]

/-- A key that stands once is looked up with the value of its entry. -/
theorem lookup_eq_some_iff (h : es.Pairwise (·.1 ≠ ·.1)) :
    lookup key es = some v ↔ (key, v) ∈ es := by
  refine ⟨mem_of_lookup, fun hmem => ?_⟩
  induction es with
  | nil => exact absurd hmem List.not_mem_nil
  | cons e es ih =>
    obtain ⟨hhead, htail⟩ := List.pairwise_cons.1 h
    rw [lookup_cons]
    rcases List.mem_cons.1 hmem with rfl | hmem
    · exact if_pos rfl
    · rw [if_neg (hhead _ hmem), ih htail hmem]

end

theorem mem_insert {e : κ × α} (h : e ∈ insert key v es) : e = (key, v) ∨ e ∈ es := by
  induction es with
  | nil => exact Or.inl (List.mem_singleton.1 h)
  | cons f es ih =>
    rw [insert] at h
    split at h
    · exact List.mem_cons.1 h
    · split at h
      · exact (List.mem_cons.1 h).imp_right (List.mem_cons_of_mem f)
      · rcases List.mem_cons.1 h with rfl | h
        · exact Or.inr List.mem_cons_self
        · exact (ih h).imp_right (List.mem_cons_of_mem f)

/-- An entry with a new key takes no other's place. -/
theorem mem_insert_iff (hkey : ∀ e ∈ es, e.1 ≠ key) {e : κ × α} :
    e ∈ insert key v es ↔ e = (key, v) ∨ e ∈ es := by
  induction es with
  | nil => simp [insert]
  | cons f es ih =>
    obtain ⟨hf, hes⟩ := List.forall_mem_cons.1 hkey
    rw [insert]
    split
    · exact List.mem_cons
    · rw [if_neg hf.symm, List.mem_cons, ih hes, List.mem_cons]
      exact or_left_comm

/-- Putting an entry in its place keeps the keys in order. -/
theorem pairwise_insert (htrans : ∀ {a b c : κ}, a < b → b < c → a < c)
    (htotal : ∀ {a b : κ}, ¬a < b → a ≠ b → b < a) (h : es.Pairwise (·.1 < ·.1)) (key : κ) (v : α) :
    (insert key v es).Pairwise (·.1 < ·.1) := by
  induction es with
  | nil => exact List.pairwise_singleton _ _
  | cons e es ih =>
    obtain ⟨hhead, htail⟩ := List.pairwise_cons.1 h
    rw [insert]
    split
    · rename_i hlt
      refine List.pairwise_cons.2 ⟨fun f hf => ?_, h⟩
      rcases List.mem_cons.1 hf with rfl | hf
      · exact hlt
      · exact htrans hlt (hhead f hf)
    · split
      · rename_i heq
        refine List.pairwise_cons.2 ⟨fun f hf => ?_, htail⟩
        rw [heq]
        exact hhead f hf
      · rename_i hlt hne
        refine List.pairwise_cons.2 ⟨fun f hf => ?_, ih htail⟩
        rcases mem_insert hf with rfl | hf
        · exact htotal hlt hne
        · exact hhead f hf

end SheetLint.Sorted
