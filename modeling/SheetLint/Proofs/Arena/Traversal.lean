import SheetLint.Proofs.Arena.Table
import SheetLint.Proofs.Loop
import SheetLint.Proofs.Rule.Agreement

/-
  Walking over a document by the links of its table. The next sibling is sought in the row of the
  parent, the descendants are gathered with a stack, and comments are passed over one by one. In a
  table with rows missing or links that disagree each of these walks may fail or never end.
  `links_and_walks_of_reachable`: in the table of a document that was read, built, changed and
  fixed in any order the links agree, and the walks end at what the document holds.
-/

namespace SheetLint

namespace Table

/-! ## Walks over a table -/

/-- The sibling after a node. There is none for the last child and for the root. -/
def next? (t : Table) (id : Nat) : Option (Option Nat) := do
  match (← t[id]?).parent with
  | none => some none
  | some parent =>
    let siblings := (← t[parent]?).children
    match siblings.idxOf? id with
    | none => some none
    | some index => some siblings[index + 1]?

/-- Takes the next node from the stack and puts its children there instead, the first on top. -/
def descend (t : Table) : List Nat × List Nat → Option ((List Nat × List Nat) ⊕ List Nat)
  | (out, []) => some (.inr out)
  | (out, id :: stack) => do
    let children := (← t[id]?).children
    some (.inl (out ++ [id], children ++ stack))

/-- The nodes below a node. -/
noncomputable def descendants? (t : Table) (id : Nat) : Option (List Nat) := do
  loop t.descend ([], (← t[id]?).children)

/-- Whether a row is that of an at-rule. -/
def isAtRule? (t : Table) (id : Nat) : Option Bool := do
  some (← t[id]?).kind.isAtRule

/-- The at-rules below the root. -/
noncomputable def atRules? (t : Table) : Option (List Nat) := do
  (← t.descendants? 0).filterM t.isAtRule?

/-- Passes over a node if it is a comment. -/
def passComment (t : Table) : Option Nat → Option (Option Nat ⊕ Option Nat)
  | none => some (.inr none)
  | some id => do
    if !(← t[id]?).kind.isComment then some (.inr (some id)) else some (.inl (← t.next? id))

/-- The first node that is no comment, from a given one on. -/
noncomputable def firstNonComment? (t : Table) (start : Option Nat) : Option (Option Nat) :=
  loop t.passComment start

end Table

theorem idxOf?_append_cons {i : Nat} {as : List Nat} (h : i ∉ as) (bs : List Nat) :
    (as ++ i :: bs).idxOf? i = some as.length := by
  induction as with
  | nil => rw [List.nil_append, List.idxOf?_cons, if_pos (beq_self_eq_true i)]; rfl
  | cons a as ih =>
    rw [List.mem_cons, not_or] at h
    rw [List.cons_append, List.idxOf?_cons, if_neg (by simpa using fun e => h.1 e.symm), ih h.2]
    rfl

theorem filterM_of_some {α : Type} {key : α → Nat} {f : Nat → Option Bool} {p : α → Bool}
    {l : List α} (h : ∀ a ∈ l, f (key a) = some (p a)) :
    (l.map key).filterM f = some ((l.filter p).map key) := by
  have haux (l : List α) (h : ∀ a ∈ l, f (key a) = some (p a)) (acc : List Nat) :
      (l.map key).filterAuxM f acc = some (((l.filter p).map key).reverse ++ acc) := by
    induction l generalizing acc with
    | nil => rfl
    | cons a l ih =>
      rw [List.map_cons, List.filterAuxM, h a List.mem_cons_self, Option.bind_eq_bind,
        Option.bind_some, ih fun b hb => h b (List.mem_cons_of_mem _ hb), List.filter_cons]
      cases p a <;> simp
  rw [List.filterM, haux l h]
  simp

namespace Document

section Ordered

variable {d : Document} (h : d.Ordered)
include h

/-! ## Siblings -/

theorem next?_of_child {p n : Node} (hp : p ∈ d.nodes) {as bs : List Node}
    (hc : p.children = as ++ n :: bs) : d.table.next? n.id = some (bs.head?.map (·.id)) := by
  have hids : p.childIds = as.map (·.id) ++ n.id :: bs.map (·.id) := by
    rw [Node.childIds, hc, List.map_append, List.map_cons]
  have hmem : n ∈ p.children := by
    rw [hc]
    exact List.mem_append_right _ List.mem_cons_self
  have hn := mem_nodes_of_child hp hmem
  have hparent : d.parent? n.id = some p.id :=
    (parent?_eq_some_iff h.toNumbered).2 ⟨p, hp, rfl, List.mem_map_of_mem hmem⟩
  have hindex : p.childIds.idxOf? n.id = some as.length := by
    have hnd := nodup_childIds h.toNumbered hp
    rw [hids, List.nodup_append] at hnd
    rw [hids, idxOf?_append_cons (fun hi => hnd.2.2 _ hi _ List.mem_cons_self rfl),
      List.length_map]
  have hafter : p.childIds[as.length + 1]? = bs.head?.map (·.id) := by
    rw [hids, List.getElem?_append_right (by simp), List.length_map, Nat.add_sub_cancel_left,
      List.getElem?_cons_succ, ← List.head?_eq_getElem?, List.head?_map]
  rw [Table.next?, row_of_mem h hn, hparent]
  simp only [Option.bind_eq_bind, Option.bind_some, row_of_mem h hp, hindex, hafter]

theorem next?_root : d.table.next? d.root.id = some none := by
  rw [Table.next?, row_of_mem h d.root_mem_nodes, parent?_root h.toNumbered]
  rfl

theorem following_root : d.following d.root.id = [] := by
  have hnone : (sitesIn d.root.children).find? (·.node.id == d.root.id) = none := by
    rw [List.find?_eq_none]
    intro s hs he
    have hi : s.node.id ∈ idsIn d.root.children := by
      rw [← map_id_sitesIn]
      exact List.mem_map_of_mem hs
    have hnd := h.nodup
    rw [ids_eq, List.nodup_cons] at hnd
    exact hnd.1 (beq_iff_eq.1 he ▸ hi)
  rw [following_eq, hnone]
  rfl

/-- A node is the root, or stands somewhere among the children of a node. -/
theorem eq_root_or_child {n : Node} (hn : n ∈ d.nodes) :
    n = d.root ∨ ∃ p ∈ d.nodes, ∃ as bs, p.children = as ++ n :: bs := by
  by_cases hr : n.id = d.root.id
  · exact Or.inl (eq_of_id_eq h.toNumbered hn d.root_mem_nodes hr)
  · obtain ⟨p, hp, hi⟩ := exists_mem_childIds (List.mem_map_of_mem hn) hr
    obtain ⟨m, hm, he⟩ := List.mem_map.1 hi
    have heq := eq_of_id_eq h.toNumbered (mem_nodes_of_child hp hm) hn he
    rw [heq] at hm
    exact Or.inr ⟨p, hp, List.append_of_mem hm⟩

/-- The next sibling that the links lead to is the one that the document has. -/
theorem next?_table {n : Node} (hn : n ∈ d.nodes) :
    d.table.next? n.id = some ((d.next? n.id).map (·.id)) := by
  rw [next?]
  rcases eq_root_or_child h hn with rfl | ⟨p, hp, as, bs, hc⟩
  · rw [next?_root h, following_root h]
    rfl
  · rw [next?_of_child h hp hc, following_of_child h.toNumbered hp hc]

/-! ## Descendants -/

theorem loop_descend (ns : List Node) (hns : ∀ m ∈ preorder ns, m ∈ d.nodes)
    (out stack : List Nat) :
    loop d.table.descend (out, ns.map (·.id) ++ stack)
      = loop d.table.descend (out ++ idsIn ns, stack) := by
  induction ns using forestInduction generalizing out stack with
  | nil => rw [List.map_nil, List.nil_append, idsIn_nil, List.append_nil]
  | cons n ns below after =>
    simp only [mem_preorder_cons] at hns
    have hstep : d.table.descend (out, n.id :: (ns.map (·.id) ++ stack))
        = some (.inl (out ++ [n.id], n.childIds ++ (ns.map (·.id) ++ stack))) := by
      simp only [Table.descend, Option.bind_eq_bind, row_of_mem h (hns n (Or.inl rfl)),
        Option.bind_some]
    rw [List.map_cons, List.cons_append, loop_of_inl hstep, Node.childIds,
      below (fun m hm => hns m (Or.inr (Or.inl hm))),
      after (fun m hm => hns m (Or.inr (Or.inr hm))), idsIn_cons]
    simp only [List.append_assoc, List.cons_append, List.nil_append]

/-- The stack gathers the descendants of a node in pre-order. -/
theorem descendants?_table {n : Node} (hn : n ∈ d.nodes) :
    d.table.descendants? n.id = some (n.descendants.map (·.id)) := by
  have hns : ∀ m ∈ preorder n.children, m ∈ d.nodes := by
    intro m hm
    rw [nodes_eq_preorder] at hn ⊢
    exact mem_preorder_children hn hm
  have hend : d.table.descend ([] ++ idsIn n.children, []) = some (.inr (idsIn n.children)) := rfl
  have hloop := loop_descend h n.children hns [] []
  rw [List.append_nil, loop_of_inr hend] at hloop
  rw [Table.descendants?, row_of_mem h hn, Node.descendants_eq]
  exact hloop

theorem isAtRule?_table {n : Node} (hn : n ∈ d.nodes) :
    d.table.isAtRule? n.id = some n.kind.isAtRule := by
  rw [Table.isAtRule?, row_of_mem h hn]
  rfl

theorem atRules?_table : d.table.atRules? = some (d.atRules.map (·.id)) := by
  have hall : ∀ n ∈ d.root.descendants, d.table.isAtRule? n.id = some n.kind.isAtRule := by
    intro n hn
    exact isAtRule?_table h (List.mem_cons_of_mem _ hn)
  have hroot := descendants?_table h d.root_mem_nodes
  rw [h.root_id] at hroot
  rw [Table.atRules?, hroot, atRules]
  exact filterM_of_some hall

/-! ## Comments -/

theorem firstNonComment?_of_children {p : Node} (hp : p ∈ d.nodes) {as ns : List Node}
    (hc : p.children = as ++ ns) :
    d.table.firstNonComment? (ns.head?.map (·.id))
      = some ((SheetLint.firstNonComment? ns).map (·.id)) := by
  induction ns generalizing as with
  | nil => exact loop_of_inr rfl
  | cons n ns ih =>
    have hmem : n ∈ p.children := by
      rw [hc]
      exact List.mem_append_right _ List.mem_cons_self
    have hrow := row_of_mem h (mem_nodes_of_child hp hmem)
    rw [SheetLint.firstNonComment?, List.find?_cons, Table.firstNonComment?]
    cases hk : n.kind.isComment with
    | false =>
      refine loop_of_inr ?_
      simp [Table.passComment, hrow, hk]
    | true =>
      have hstep : d.table.passComment (some n.id) = some (.inl (ns.head?.map (·.id))) := by
        simp [Table.passComment, hrow, hk, next?_of_child h hp hc]
      have hrest : p.children = (as ++ [n]) ++ ns := by
        rw [hc, List.append_assoc, List.singleton_append]
      exact (loop_of_inl hstep).trans (ih hrest)

/-- The first node that is no comment, from a node on. -/
theorem firstNonComment?_table {n : Node} (hn : n ∈ d.nodes) :
    d.table.firstNonComment? (some n.id)
      = some ((SheetLint.firstNonComment? (n :: d.following n.id)).map (·.id)) := by
  rcases eq_root_or_child h hn with rfl | ⟨p, hp, as, bs, hc⟩
  · have hrow := row_of_mem h d.root_mem_nodes
    rw [following_root h, SheetLint.firstNonComment?, List.find?_cons, List.find?_nil,
      Table.firstNonComment?]
    cases hk : d.root.kind.isComment with
    | false =>
      refine loop_of_inr ?_
      simp [Table.passComment, hrow, hk]
    | true =>
      have hstep : d.table.passComment (some d.root.id) = some (.inl none) := by
        simp [Table.passComment, hrow, hk, next?_root h]
      exact (loop_of_inl hstep).trans (loop_of_inr rfl)
  · rw [following_of_child h.toNumbered hp hc]
    exact firstNonComment?_of_children h hp hc

end Ordered

end Document

/-! ## Links and walks -/

namespace Table

/-- A row at its place in a table. -/
def Row (t : Table) (i : Nat) (c : Document.Content) : Prop := t[i]? = some c

/-- The links of a table agree with each other. -/
structure Linked (t : Table) : Prop where
  /-- A list of children increases, from a number greater than that of the parent on. -/
  increasing : ∀ ⦃i c⦄, t.Row i c → (i :: c.children).Pairwise (· < ·)
  /-- A child has a row. -/
  present : ∀ ⦃i c⦄, t.Row i c → ∀ j ∈ c.children, j < t.length
  /-- The root has no parent. -/
  root : ∃ c, t.Row 0 c ∧ c.parent = none
  /-- Any other node is in the list of its parent, once, and in no other list. -/
  child : ∀ ⦃i c⦄, t.Row i c → 0 < i → ∃ p cp, c.parent = some p ∧ t.Row p cp ∧
    cp.children.count i = 1 ∧ ∀ ⦃q cq⦄, t.Row q cq → i ∈ cq.children → q = p

/-- The numbers of some nodes without those of comments. -/
def nonComments (t : Table) (ids : List Nat) : List Nat :=
  ids.filter fun i => t[i]?.any (!·.kind.isComment)

/-- The numbers of at-rules among those of some nodes. -/
def atRulesAmong (t : Table) (ids : List Nat) : List Nat :=
  ids.filter fun i => t[i]?.any (·.kind.isAtRule)

/-- The walks over a table come to their ends. -/
structure Walked (t : Table) : Prop where
  next_root : t.next? 0 = some none
  /-- The sibling after a child is the next in the list of its parent. -/
  next_child : ∀ ⦃p c as i bs⦄, t.Row p c → c.children = as ++ i :: bs →
    t.next? i = some bs.head?
  /-- All numbers but that of the root are below the root, each of them once. -/
  below_root : ∃ ids, t.descendants? 0 = some ids ∧ ids.Perm (List.range' 1 (t.length - 1))
  /-- Below a node are its children, each followed by what is below it. -/
  below : ∀ ⦃i c⦄, t.Row i c → ∃ ids : Nat → List Nat,
    (∀ j ∈ c.children, t.descendants? j = some (ids j)) ∧
      t.descendants? i = some (c.children.flatMap fun j => j :: ids j)
  /-- The at-rules are among the descendants of the root, in their order. -/
  atRules : ∃ ids, t.descendants? 0 = some ids ∧ t.atRules? = some (t.atRulesAmong ids)
  nonComment_none : t.firstNonComment? none = some none
  nonComment_root : t.firstNonComment? (some 0) = some (t.nonComments [0]).head?
  /-- A child and its later siblings are looked at in their order. -/
  nonComment_child : ∀ ⦃p c as i bs⦄, t.Row p c → c.children = as ++ i :: bs →
    t.firstNonComment? (some i) = some (t.nonComments (i :: bs)).head?

end Table

namespace Document

/-- A document is what its table says: the rows, the walks and the changes are the same. -/
structure Tabled (d : Document) : Prop where
  rows : ∀ i, d.table[i]? = d.content? i
  next : ∀ n ∈ d.nodes, d.table.next? n.id = some ((d.next? n.id).map (·.id))
  descendants : ∀ n ∈ d.nodes, d.table.descendants? n.id = some (n.descendants.map (·.id))
  atRules : d.table.atRules? = some (d.atRules.map (·.id))
  firstNonComment : ∀ n ∈ d.nodes, d.table.firstNonComment? (some n.id)
    = some ((SheetLint.firstNonComment? (n :: d.following n.id)).map (·.id))
  append : ∀ p ∈ d.ids, ∀ kind trivia,
    d.table.append? p kind trivia none = some (d.append p kind trivia).table
  change : ∀ i ∈ d.ids, ∀ (kind : Kind → Kind) (write : Trivia → Trivia),
    d.table.change? i (fun c => { c with kind := kind c.kind, trivia := write c.trivia })
      = some (d.update i fun n => { n with kind := kind n.kind, trivia := write n.trivia }).table

/-- A place in a list of children is that of a node of the document. -/
theorem exists_of_split {d : Document} {p : Node} (hp : p ∈ d.nodes) {as bs : List Nat} {i : Nat}
    (hc : p.childIds = as ++ i :: bs) :
    ∃ ms n ns, p.children = ms ++ n :: ns ∧ n.id = i ∧ ns.map (·.id) = bs ∧
      ∀ m ∈ n :: ns, m ∈ d.nodes := by
  obtain ⟨ms, ks, hcs, _, hks⟩ := List.map_eq_append_iff.1 hc
  obtain ⟨n, ns, rfl, hi, hbs⟩ := List.map_eq_cons_iff.1 hks
  refine ⟨ms, n, ns, hcs, hi, hbs, fun m hm => mem_nodes_of_child hp ?_⟩
  rw [hcs]
  exact List.mem_append_right _ hm

section Ordered

variable {d : Document} (h : d.Ordered)
include h

theorem linked_table : d.table.Linked where
  increasing := by
    intro i c hc
    obtain ⟨n, hn, rfl, _, hch, _⟩ := exists_of_row h hc
    rw [hch]
    exact h.increasing n hn
  present := by
    intro i c hc j hj
    obtain ⟨n, hn, rfl, _, hch, _⟩ := exists_of_row h hc
    rw [length_table h]
    exact h.lt_size j (mem_ids_of_child hn (hch ▸ hj))
  root := by
    have hrow := row_of_mem h d.root_mem_nodes
    rw [h.root_id] at hrow
    refine ⟨_, hrow, ?_⟩
    rw [← h.root_id]
    exact parent?_root h.toNumbered
  child := by
    intro i c hc hi
    obtain ⟨n, hn, rfl, _, _, hpar⟩ := exists_of_row h hc
    have hr : n.id ≠ d.root.id := by
      rw [h.root_id]
      omega
    obtain ⟨p, hp, hnp⟩ := exists_mem_childIds (List.mem_map_of_mem hn) hr
    refine ⟨p.id, _, hpar.trans ((parent?_eq_some_iff h.toNumbered).2 ⟨p, hp, rfl, hnp⟩),
      row_of_mem h hp, List.count_eq_one_of_mem (nodup_childIds h.toNumbered hp) hnp, ?_⟩
    intro q cq hq hmem
    obtain ⟨m, hm, rfl, _, hch, _⟩ := exists_of_row h hq
    rw [eq_of_mem_childIds h.toNumbered hm hp (hch ▸ hmem) hnp]

theorem nonComments_table {ns : List Node} (hns : ∀ n ∈ ns, n ∈ d.nodes) :
    (d.table.nonComments (ns.map (·.id))).head?
      = (SheetLint.firstNonComment? ns).map (·.id) := by
  have hall : ∀ n ∈ ns, ((fun i => d.table[i]?.any (!·.kind.isComment)) ∘ (·.id)) n
      = !n.kind.isComment := by
    intro n hn
    rw [Function.comp_apply, row_of_mem h (hns n hn)]
    rfl
  rw [Table.nonComments, List.filter_map, List.filter_congr hall, List.head?_map,
    List.head?_filter, SheetLint.firstNonComment?]

/-- The numbers of all nodes but the root. -/
theorem perm_descendants :
    (d.root.descendants.map (·.id)).Perm (List.range' 1 (d.table.length - 1)) := by
  have hnd := h.nodup
  rw [ids, nodes, List.map_cons, List.nodup_cons, h.root_id] at hnd
  refine (List.perm_ext_iff_of_nodup hnd.2 List.nodup_range').2 fun i => ?_
  rw [List.mem_range'_1, length_table h]
  constructor
  · intro hi
    have hlt := h.lt_size i (List.mem_cons_of_mem _ hi)
    have hne : i ≠ 0 := fun he => hnd.1 (he ▸ hi)
    omega
  · intro hi
    have hmem := h.mem_ids i (by omega)
    rw [ids, nodes, List.map_cons, List.mem_cons, h.root_id] at hmem
    exact hmem.resolve_left (by omega)

/-- The walk below a node is put together from the walks below its children. -/
theorem descendants?_children {n : Node} (hn : n ∈ d.nodes) :
    ∃ ids : Nat → List Nat, (∀ j ∈ n.childIds, d.table.descendants? j = some (ids j)) ∧
      d.table.descendants? n.id = some (n.childIds.flatMap fun j => j :: ids j) := by
  refine ⟨fun j => (d.node? j).elim [] (·.descendants.map (·.id)), ?_, ?_⟩
  · intro j hj
    obtain ⟨m, hm, rfl⟩ := List.mem_map.1 hj
    have hmem := mem_nodes_of_child hn hm
    simp only [descendants?_table h hmem, node?_of_mem h.toNumbered hmem, Option.elim_some]
  · rw [descendants?_table h hn, Node.descendants_eq, preorder_eq_flatMap, List.map_flatMap,
      Node.childIds, List.flatMap_map, Option.some.injEq]
    refine List.flatMap_congr fun m hm => ?_
    simp only [List.map_cons]
    rw [node?_of_mem h.toNumbered (mem_nodes_of_child hn hm), Option.elim_some]

theorem walked_table : d.table.Walked where
  next_root := by
    rw [← h.root_id]
    exact next?_root h
  next_child := by
    intro p c as i bs hrow hc
    obtain ⟨n, hn, rfl, _, hch, _⟩ := exists_of_row h hrow
    obtain ⟨ms, m, ns, hcs, rfl, rfl, _⟩ := exists_of_split hn (hch ▸ hc)
    rw [next?_of_child h hn hcs, List.head?_map]
  below_root := by
    have hroot := descendants?_table h d.root_mem_nodes
    rw [h.root_id] at hroot
    exact ⟨_, hroot, perm_descendants h⟩
  below := by
    intro i c hrow
    obtain ⟨n, hn, rfl, _, hch, _⟩ := exists_of_row h hrow
    rw [hch]
    exact descendants?_children h hn
  atRules := by
    have hroot := descendants?_table h d.root_mem_nodes
    rw [h.root_id] at hroot
    refine ⟨_, hroot, ?_⟩
    have hall : ∀ n ∈ d.root.descendants,
        ((fun i => d.table[i]?.any (·.kind.isAtRule)) ∘ (·.id)) n = n.kind.isAtRule := by
      intro n hn
      rw [Function.comp_apply, row_of_mem h (List.mem_cons_of_mem _ hn)]
      rfl
    rw [atRules?_table h, atRules, Table.atRulesAmong, List.filter_map, List.filter_congr hall]
  nonComment_none := loop_of_inr rfl
  nonComment_root := by
    have hmem : ∀ n ∈ [d.root], n ∈ d.nodes := by
      intro n hn
      rw [List.mem_singleton.1 hn]
      exact d.root_mem_nodes
    have hroot := nonComments_table h hmem
    rw [List.map_singleton, h.root_id] at hroot
    rw [hroot, ← h.root_id, firstNonComment?_table h d.root_mem_nodes, following_root h]
  nonComment_child := by
    intro p c as i bs hrow hc
    obtain ⟨n, hn, rfl, _, hch, _⟩ := exists_of_row h hrow
    obtain ⟨ms, m, ns, hcs, rfl, rfl, hms⟩ := exists_of_split hn (hch ▸ hc)
    rw [← List.map_cons, nonComments_table h hms]
    exact firstNonComment?_of_children h hn hcs

theorem tabled_of_ordered : d.Tabled where
  rows := getElem?_table h
  next _ := next?_table h
  descendants _ := descendants?_table h
  atRules := atRules?_table h
  firstNonComment _ := firstNonComment?_table h
  append _ hp kind trivia := table_appendAt h hp kind trivia none
  change _ hi kind write := table_change h hi kind write

end Ordered

/-- Every document that was read, built node by node, changed in place and run through rules has
    links that agree with each other, and each walk along them comes to its end, at what the
    document holds. -/
theorem links_and_walks_of_reachable {d : Document} (h : d.Reachable) :
    d.table.Linked ∧ d.table.Walked ∧ d.Tabled := by
  have ho := NewlineAfterSemicolon.ordered_of_reachable h
  exact ⟨linked_table ho, walked_table ho, tabled_of_ordered ho⟩

/-- A document in which nodes were added in another order than they stand in. -/
def grownSheet : Document :=
  let rule := Kind.styleRule "a".toList
  let import' := Kind.atRule { name := "import".toList, params := "b".toList }
  let d := (({} : Document).append 0 rule {}).append 0 (.comment "c".toList) {}
  ((d.append 1 import' {}).append 0 import' {}).append 1 (.declaration [] []) {}

theorem links_and_walks_of_reachable_grownSheet :
    (grownSheet.ids = [0, 1, 3, 5, 2, 4] ∧ grownSheet.Reachable) ∧
      grownSheet.table.Linked ∧ grownSheet.table.Walked ∧ grownSheet.Tabled := by
  have h : grownSheet.Reachable :=
    ((((Reachable.empty.append (by decide) _ _).append (by decide) _ _).append (by decide) _
      _).append (by decide) _ _).append (by decide) _ _
  exact ⟨⟨by decide, h⟩, links_and_walks_of_reachable h⟩

end Document

end SheetLint
