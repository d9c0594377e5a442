import SheetLint.Proofs.Arena.Links

/-
  Documents as tables. The table of a document has one row for each node, and the number of the
  node is the place of its row. A row holds the numbers of the children and that of the parent, so
  the links are there twice. `table_appendAt` and `table_change` say that adding a row and entering
  its number at the parent is adding a node, and changing a row is changing a node in place. An
  operation on a table gives nothing where it would touch a row that is not there.
-/

namespace SheetLint

/-- The rows of a document, each at the place of its number. -/
abbrev Table := List Document.Content

namespace Table

/-- Changes a row. -/
def change? (t : Table) (id : Nat) (change : Document.Content → Document.Content) :
    Option Table :=
  if id < t.length then some (t.modify id change) else none

/-- Adds a row and enters it as the last child of another. -/
def append? (t : Table) (parent : Nat) (kind : Kind) (trivia : Trivia) (offset : Option Nat) :
    Option Table :=
  let row : Document.Content := { kind, trivia, offset, children := [], parent := some parent }
  change? (t ++ [row]) parent fun c => { c with children := c.children ++ [t.length] }

end Table

namespace Document

/-- The table of a document. -/
def table (d : Document) : Table := (List.range d.size).filterMap d.content?

section Ordered

variable {d : Document} (h : d.Ordered)
include h

theorem exists_mem_nodes {i : Nat} (hi : i < d.size) : ∃ n ∈ d.nodes, n.id = i :=
  List.mem_map.1 (h.mem_ids i hi)

theorem map_some_table : d.table.map some = (List.range d.size).map d.content? := by
  have hall : ∀ i ∈ List.range d.size, ∃ c, d.content? i = some c := by
    intro i hi
    obtain ⟨n, hn, rfl⟩ := exists_mem_nodes h (List.mem_range.1 hi)
    exact ⟨_, content?_of_mem h.toNumbered hn⟩
  rw [table]
  generalize List.range d.size = is at hall
  induction is with
  | nil => rfl
  | cons i is ih =>
    obtain ⟨c, hc⟩ := hall i List.mem_cons_self
    rw [List.filterMap_cons, hc, List.map_cons, List.map_cons, hc,
      ih fun j hj => hall j (List.mem_cons_of_mem _ hj)]

theorem length_table : d.table.length = d.size := by
  have := congrArg List.length (map_some_table h)
  rwa [List.length_map, List.length_map, List.length_range] at this

/-- The row at the place of a number is what the document holds about the node. -/
theorem getElem?_table (i : Nat) : d.table[i]? = d.content? i := by
  by_cases hi : i < d.size
  · have := congrArg (·[i]?) (map_some_table h)
    simp only [List.getElem?_map, List.getElem?_range hi, Option.map_some] at this
    obtain ⟨c, hc, he⟩ := Option.map_eq_some_iff.1 this
    rw [hc, he]
  · have hout : d.table.length ≤ i := by
      rw [length_table h]
      omega
    rw [List.getElem?_eq_none hout, content?_of_not_mem fun hm => hi (h.lt_size i hm)]

theorem row_of_mem {n : Node} (hn : n ∈ d.nodes) :
    d.table[n.id]? = some {
      kind := n.kind, trivia := n.trivia, offset := n.offset
      children := n.childIds, parent := d.parent? n.id } :=
  (getElem?_table h n.id).trans (content?_of_mem h.toNumbered hn)

/-- A row is that of a node. -/
theorem exists_of_row {i : Nat} {c : Content} (hc : d.table[i]? = some c) :
    ∃ n ∈ d.nodes, n.id = i ∧ c.kind = n.kind ∧ c.children = n.childIds
      ∧ c.parent = d.parent? n.id := by
  have hi : i < d.size := by
    rw [← length_table h]
    exact (List.getElem?_eq_some_iff.1 hc).1
  obtain ⟨n, hn, rfl⟩ := exists_mem_nodes h hi
  rw [row_of_mem h hn, Option.some.injEq] at hc
  exact ⟨n, hn, rfl, by rw [← hc], by rw [← hc], by rw [← hc]⟩

/-- The table of a document is known from its rows. -/
theorem eq_table {t : Table} (ht : ∀ i, t[i]? = d.content? i) : t = d.table :=
  List.ext_getElem? fun i => (ht i).trans (getElem?_table h i).symm

/-- Adding a node is adding its row and entering its number at the parent. -/
theorem table_appendAt {parent : Nat} (hp : parent ∈ d.ids) (kind : Kind) (trivia : Trivia)
    (offset : Option Nat) :
    d.table.append? parent kind trivia offset
      = some (d.appendAt parent kind trivia offset).table := by
  have hlt := h.lt_size parent hp
  have hlen := length_table h
  rw [Table.append?, Table.change?, if_pos (by rw [List.length_append, hlen]; omega),
    Option.some.injEq]
  refine eq_table (h.appendAt hp kind trivia offset) fun i => ?_
  rw [List.getElem?_modify, content?_appendAt h.toNumbered hp, ← getElem?_table h, hlen]
  rcases Nat.lt_trichotomy i d.size with hi | hi | hi
  · rw [if_neg (by omega), List.getElem?_append_left (by omega)]
    simp only [eq_comm]
    rfl
  · rw [if_pos hi, hi, List.getElem?_append_right (by omega), hlen, Nat.sub_self]
    simp [Nat.ne_of_lt hlt]
  · rw [if_neg (by omega), List.getElem?_eq_none (by simp; omega),
      List.getElem?_eq_none (by omega)]
    rfl

/-- Changing a node in place is changing its row. -/
theorem table_change {id : Nat} (hi : id ∈ d.ids) (kind : Kind → Kind)
    (write : Trivia → Trivia) :
    d.table.change? id (fun c => { c with kind := kind c.kind, trivia := write c.trivia })
      = some (d.update id fun n => { n with kind := kind n.kind, trivia := write n.trivia }).table :=
    by
  have hc : InPlace fun n => { n with kind := kind n.kind, trivia := write n.trivia } :=
    ⟨fun _ => rfl, fun _ _ => rfl⟩
  rw [Table.change?, if_pos (by rw [length_table h]; exact h.lt_size id hi), Option.some.injEq]
  refine eq_table (h.updateWhere hc) fun i => ?_
  rw [List.getElem?_modify, content?_change, getElem?_table h]
  simp only [beq_iff_eq, eq_comm (a := i)]
  rfl

end Ordered

end Document

end SheetLint
