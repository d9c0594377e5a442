import SheetLint.Toml.Document

/-
  Tables with their entries in order. Two tables in order with the same entries are the same
  (`InOrder.eq_of_mem_iff`), so what is known of a table that was put together is which entries are
  in it (`Holds`). Putting an entry with a new key into a table adds just this entry
  (`Holds.insert`).
-/

namespace SheetLint.Toml

open Sorted (insert lookup)

section

variable {α : Type} {es fs : List (String × α)} {k : String} {v w : α}

/-- Entries sorted by key, each key once. -/
def InOrder (es : List (String × α)) : Prop := es.Pairwise (·.1 < ·.1)

/-- Entries with different keys. -/
def DistinctKeys (es : List (String × α)) : Prop := es.Pairwise (·.1 ≠ ·.1)

theorem InOrder.distinctKeys (h : InOrder es) : DistinctKeys es := by
  refine List.Pairwise.imp ?_ h
  intro e f hlt heq
  rw [heq] at hlt
  exact String.lt_irrefl f.1 hlt

theorem DistinctKeys.nodup (h : DistinctKeys es) : es.Nodup := by
  refine List.Pairwise.imp ?_ h
  rintro e f hne rfl
  exact hne rfl

theorem InOrder.insert (h : InOrder es) (k : String) (v : α) : InOrder (insert k v es) :=
  Sorted.pairwise_insert String.lt_trans
    (fun hlt hne => Std.lt_of_le_of_ne (String.not_lt.1 hlt) hne.symm) h k v

theorem InOrder.eq_of_mem_iff (hes : InOrder es) (hfs : InOrder fs)
    (h : ∀ e, e ∈ es ↔ e ∈ fs) : es = fs := by
  have hperm : es.Perm fs :=
    (List.perm_ext_iff_of_nodup hes.distinctKeys.nodup hfs.distinctKeys.nodup).2 h
  exact hperm.eq_of_pairwise (fun _ _ _ _ hlt hgt => absurd hgt (String.lt_asymm hlt)) hes hfs

theorem insert_insert (k : String) (v w : α) (es : List (String × α)) :
    insert k v (insert k w es) = insert k v es := by
  induction es with
  | nil => simp [Sorted.insert]
  | cons e es ih =>
    by_cases hlt : k < e.1
    · simp [Sorted.insert, hlt]
    · by_cases heq : k = e.1
      · simp [Sorted.insert, heq]
      · simp [Sorted.insert, hlt, heq, ih]

theorem insert_map {β : Type} (f : α → β) (k : String) (v : α) (es : List (String × α)) :
    insert k (f v) (es.map fun e => (e.1, f e.2)) = (insert k v es).map fun e => (e.1, f e.2) := by
  induction es with
  | nil => rfl
  | cons e es ih =>
    rw [List.map_cons, Sorted.insert, Sorted.insert, ih]
    split
    · rfl
    · split <;> rfl

end

/-! ## Tables that are put together -/

theorem toTable_eq_map (fs : List (String × Item)) :
    toTable fs = fs.map fun e => (e.1, e.2.toValue) := by
  induction fs with
  | nil => rfl
  | cons e fs ih => rw [toTable, ih, List.map_cons]

theorem toTable_insert (k : String) (i : Item) (fs : List (String × Item)) :
    toTable (insert k i fs) = insert k i.toValue (toTable fs) := by
  rw [toTable_eq_map, toTable_eq_map, insert_map Item.toValue]

theorem lookup_toTable_eq_none {k : String} {fs : List (String × Item)} :
    lookup k (toTable fs) = none ↔ lookup k fs = none := by
  rw [Sorted.lookup_eq_none_iff, Sorted.lookup_eq_none_iff, toTable_eq_map, List.forall_mem_map]

/-- What was put together has its entries in order, and they are those of a list. -/
structure Holds (fs : List (String × Item)) (es : Table) : Prop where
  inOrder : InOrder (toTable fs)
  mem_iff : ∀ e, e ∈ toTable fs ↔ e ∈ es

namespace Holds

variable {fs : List (String × Item)} {es es' : Table} {k : String}

theorem nil : Holds [] [] := ⟨List.Pairwise.nil, fun _ => Iff.rfl⟩

theorem congr (h : Holds fs es) (hmem : ∀ e, e ∈ es ↔ e ∈ es') : Holds fs es' :=
  ⟨h.inOrder, fun e => (h.mem_iff e).trans (hmem e)⟩

theorem lookup_eq_none (h : Holds fs es) (hk : ∀ e ∈ es, e.1 ≠ k) : lookup k fs = none := by
  rw [← lookup_toTable_eq_none, Sorted.lookup_eq_none_iff]
  exact fun e he => hk e ((h.mem_iff e).1 he)

/-- An item under a new key is one more entry. -/
theorem insert (h : Holds fs es) (hk : ∀ e ∈ es, e.1 ≠ k) (i : Item) :
    Holds (insert k i fs) (es ++ [(k, i.toValue)]) := by
  have hk' : ∀ e ∈ toTable fs, e.1 ≠ k := fun e he => hk e ((h.mem_iff e).1 he)
  constructor
  · rw [toTable_insert]
    exact h.inOrder.insert k i.toValue
  · intro e
    rw [toTable_insert, Sorted.mem_insert_iff hk', h.mem_iff, List.mem_append,
      List.mem_singleton, or_comm]

/-- The next of some entries with different keys goes under a new key. -/
theorem next {e : String × Value} {rest : Table} (h : Holds fs es)
    (hkeys : DistinctKeys (es ++ e :: rest)) :
    lookup e.1 fs = none ∧ Holds (Sorted.insert e.1 (.value e.2) fs) (es ++ [e]) := by
  have hnew : ∀ f ∈ es, f.1 ≠ e.1 := fun f hf =>
    (List.pairwise_append.1 hkeys).2.2 f hf e List.mem_cons_self
  exact ⟨h.lookup_eq_none hnew, h.insert hnew (.value e.2)⟩

theorem eq (h : Holds fs es) (hes : InOrder es) : toTable fs = es :=
  h.inOrder.eq_of_mem_iff hes h.mem_iff

theorem unique {gs : List (String × Item)} (h : Holds fs es) (h' : Holds gs es) :
    toTable fs = toTable gs :=
  h.inOrder.eq_of_mem_iff h'.inOrder fun e => (h.mem_iff e).trans (h'.mem_iff e).symm

theorem lookup_eq (h : Holds fs es) (hes : DistinctKeys es) (k : String) :
    lookup k (toTable fs) = lookup k es := by
  ext v
  rw [Sorted.lookup_eq_some_iff h.inOrder.distinctKeys, Sorted.lookup_eq_some_iff hes, h.mem_iff]

end Holds

theorem addEntry_singleton {k : String} {o : Origin} {fs : List (String × Item)}
    (hk : lookup k fs = none) (v : Value) :
    addEntry [k] v (o, fs) = some (o, insert k (.value v) fs) := by
  simp [addEntry, alter, hk]

end SheetLint.Toml
