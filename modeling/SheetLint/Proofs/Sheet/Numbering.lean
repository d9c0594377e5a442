import Mathlib.Data.List.Nodup
import SheetLint.Proofs.Sheet.Reading

/-
  Documents whose nodes have numbers of their own. A document that was read is numbered in
  pre-order, and both adding a node and changing one in place keep the numbers apart. Where they
  are apart, a number leads to its node and to the siblings after it, and a change in place shows
  in what the document holds about the nodes that it selects and nowhere else
  (`content?_updateWhere`).
-/

namespace SheetLint

theorem find?_key_eq {α : Type} {key : α → Nat} {l : List α} (h : (l.map key).Nodup) {x : α}
    (hx : x ∈ l) : l.find? (key · == key x) = some x := by
  induction l with
  | nil => exact absurd hx List.not_mem_nil
  | cons y l ih =>
    rw [List.map_cons, List.nodup_cons] at h
    rw [List.find?_cons]
    rcases List.mem_cons.1 hx with rfl | hx
    · rw [beq_self_eq_true]
    · have hne : (key y == key x) = false := by
        rw [beq_eq_false_iff_ne]
        intro he
        exact h.1 (he ▸ List.mem_map_of_mem hx)
      rw [hne]
      exact ih h.2 hx

namespace Document

theorem nodes_eq (d : Document) : d.nodes = d.root :: preorder d.root.children := by
  rw [nodes, Node.descendants_eq]

/-- The numbers of the nodes of a document, in pre-order. -/
def ids (d : Document) : List Nat := d.nodes.map (·.id)

theorem ids_eq (d : Document) : d.ids = d.root.id :: idsIn d.root.children := by
  rw [ids, nodes_eq, List.map_cons, idsIn]

/-- No two nodes have the same number, and new numbers are still free. -/
structure Numbered (d : Document) : Prop where
  nodup : d.ids.Nodup
  lt_size : ∀ i ∈ d.ids, i < d.size

theorem Numbered.nodup_children {d : Document} (h : d.Numbered) :
    (idsIn d.root.children).Nodup := by
  have := h.nodup
  rw [ids_eq, List.nodup_cons] at this
  exact this.2

theorem node?_of_mem {d : Document} (h : d.Numbered) {n : Node} (hn : n ∈ d.nodes) :
    d.node? n.id = some n := find?_key_eq h.nodup hn

theorem mem_of_node? {d : Document} {id : Nat} {n : Node} (h : d.node? id = some n) :
    n ∈ d.nodes ∧ n.id = id := by
  refine ⟨List.mem_of_find?_eq_some h, ?_⟩
  have := List.find?_some h
  rwa [beq_iff_eq] at this

theorem following_eq (d : Document) (id : Nat) :
    d.following id
      = (((sitesIn d.root.children).find? (·.node.id == id)).map Site.following).getD [] := by
  rw [following, ← followingIn?_eq]
  cases hr : d.root with
  | mk i k t o cs => rw [Node.following?]

theorem node?_of_site {d : Document} (h : d.Numbered) {s : Site}
    (hs : s ∈ sitesIn d.root.children) : d.node? s.node.id = some s.node := by
  refine node?_of_mem h ?_
  rw [nodes_eq, ← map_node_sitesIn]
  exact List.mem_cons_of_mem _ (List.mem_map_of_mem hs)

theorem following_of_site {d : Document} (h : d.Numbered) {s : Site}
    (hs : s ∈ sitesIn d.root.children) : d.following s.node.id = s.following := by
  have hn : ((sitesIn d.root.children).map (·.node.id)).Nodup := by
    rw [map_id_sitesIn]
    exact h.nodup_children
  have hfind : (sitesIn d.root.children).find? (·.node.id == s.node.id) = some s :=
    find?_key_eq hn hs
  rw [following_eq, hfind]
  rfl

/-! ## Changes in place -/

theorem updateWhere_of_none {selected : Nat → Bool} (h : ∀ i, selected i = false)
    (change : Node → Node) (d : Document) : d.updateWhere selected change = d := by
  have := @updateAll_of_unselected selected change [d.root] fun i _ => h i
  rw [updateAll_cons, List.cons.injEq] at this
  rw [updateWhere, this.1]

theorem updateWhere_updateWhere {selected other : Nat → Bool} {change : Node → Node}
    (h : InPlace change) (hd : ∀ i, selected i → other i = false) (d : Document) :
    (d.updateWhere selected change).updateWhere other change
      = d.updateWhere (fun i => selected i || other i) change := by
  have := h.updateAll_updateAll hd [d.root]
  rw [updateAll_cons, updateAll_cons, updateAll_cons, List.cons.injEq] at this
  rw [updateWhere, updateWhere, updateWhere, this.1]

section Update

variable {selected : Nat → Bool} {change : Node → Node} (h : InPlace change) (d : Document)
include h

theorem nodes_updateWhere :
    (d.updateWhere selected change).nodes = d.nodes.map (·.updateWhere selected change) := by
  rw [nodes_eq, nodes_eq, List.map_cons, updateWhere, h.children_updateWhere, h.preorder_updateAll]

theorem ids_updateWhere : (d.updateWhere selected change).ids = d.ids := by
  rw [ids_eq, ids_eq, updateWhere, h.children_updateWhere, h.idsIn_updateAll, h.id_updateWhere]

theorem Numbered.updateWhere {d : Document} (hd : d.Numbered) :
    (d.updateWhere selected change).Numbered := by
  refine ⟨?_, ?_⟩
  · rw [ids_updateWhere h]
    exact hd.nodup
  · rw [ids_updateWhere h]
    exact hd.lt_size

theorem node?_updateWhere (id : Nat) :
    (d.updateWhere selected change).node? id
      = (d.node? id).map (·.updateWhere selected change) := by
  rw [node?, node?, nodes_updateWhere h, List.find?_map]
  congr 2
  funext n
  simp only [Function.comp_apply, h.id_updateWhere]

theorem following_updateWhere (id : Nat) :
    (d.updateWhere selected change).following id
      = updateAll selected change (d.following id) := by
  rw [following_eq, following_eq, updateWhere, h.children_updateWhere, h.sitesIn_updateAll,
    List.find?_map]
  simp only [Function.comp_def, h.id_updateWhere]
  cases List.find? (fun s => s.node.id == id) (sitesIn d.root.children) with
  | none => exact updateAll_nil.symm
  | some s => rfl

end Update

/-! ## What a document holds about each node -/

/-- What a document holds about one node: all but the nodes around it, of which it holds the
    numbers. -/
structure Content where
  kind : Kind
  trivia : Trivia
  offset : Option Nat
  children : List Nat
  parent : Option Nat
deriving DecidableEq, Repr

/-- What a document holds about the node with a given number. -/
def content? (d : Document) (id : Nat) : Option Content :=
  (d.node? id).map fun n => {
    kind := n.kind, trivia := n.trivia, offset := n.offset
    children := n.children.map (·.id), parent := d.parent? id }

theorem parentIn?_updateAll {selected : Nat → Bool} {change : Node → Node} (h : InPlace change)
    (id : Nat) (ns : List Node) :
    parentIn? id (updateAll selected change ns) = parentIn? id ns := by
  have hany (ns : List Node) :
      (updateAll selected change ns).any (·.id == id) = ns.any (·.id == id) := by
    rw [updateAll_eq_map, List.any_map]
    congr 1
    funext n
    simp only [Function.comp_apply, h.id_updateWhere]
  have hnode (n : Node) : n.parent? id
      = if n.children.any (·.id == id) then some n.id else parentIn? id n.children := by
    cases n; rw [Node.parent?]
  induction ns using forestInduction with
  | nil => rw [updateAll_nil]
  | cons n ns below after =>
    rw [updateAll_cons, parentIn?, parentIn?, after, hnode, hnode n, h.children_updateWhere, hany,
      below, h.id_updateWhere]

theorem map_id_updateAll {selected : Nat → Bool} {change : Node → Node} (h : InPlace change)
    (ns : List Node) : (updateAll selected change ns).map (·.id) = ns.map (·.id) := by
  rw [updateAll_eq_map, List.map_map]
  congr 1
  funext m
  exact h.id_updateWhere m

theorem parent?_updateWhere {selected : Nat → Bool} {change : Node → Node} (h : InPlace change)
    (d : Document) (id : Nat) : (d.updateWhere selected change).parent? id = d.parent? id := by
  have hone (n : Node) : n.parent? id = parentIn? id [n] := by
    rw [parentIn?, parentIn?, Option.or_none]
  rw [parent?, parent?, hone, hone d.root, ← parentIn?_updateAll h id [d.root], updateAll_cons,
    updateAll_nil]
  rfl

/-- The number of a node, where it is in the tree and where it stands in the source are kept by a
    change that only makes the node say something else or writes it in another way. -/
theorem content?_change (selected : Nat → Bool) (kind : Kind → Kind) (write : Trivia → Trivia)
    (d : Document) (id : Nat) :
    (d.updateWhere selected fun n =>
        { n with kind := kind n.kind, trivia := write n.trivia }).content? id
      = (d.content? id).map fun e =>
          if selected id then { e with kind := kind e.kind, trivia := write e.trivia } else e := by
  have h : InPlace fun n : Node => { n with kind := kind n.kind, trivia := write n.trivia } :=
    ⟨fun _ => rfl, fun _ _ => rfl⟩
  unfold content?
  rw [node?_updateWhere h, parent?_updateWhere h, Option.map_map, Option.map_map]
  cases hn : d.node? id with
  | none => rfl
  | some n =>
    obtain ⟨_, rfl⟩ := mem_of_node? hn
    simp only [Option.map_some, Function.comp_apply, h.updateWhere_eq, map_id_updateAll h]
    split <;> rfl

theorem content?_updateWhere {selected : Nat → Bool} {write : Trivia → Trivia} (d : Document)
    (id : Nat) :
    (d.updateWhere selected fun n => { n with trivia := write n.trivia }).content? id
      = (d.content? id).map fun e =>
          if selected id then { e with trivia := write e.trivia } else e :=
  content?_change selected (fun k => k) write d id

/-! ## Numbers of new nodes -/

theorem count_idsIn_append (i : Nat) (child : Node) (parent : Nat) (ns : List Node) :
    (idsIn (updateAll (· == parent) child.withChild ns)).count i
      = (idsIn ns).count i + (idsIn ns).count parent * (idsIn [child]).count i := by
  induction ns using forestInduction with
  | nil => simp
  | cons n ns below after =>
    rw [updateAll_cons, idsIn_cons, idsIn_cons, Node.updateWhere_eq]
    split
    · rename_i hp
      rw [beq_iff_eq] at hp
      simp only [Node.withChild, idsIn_append, List.count_cons, List.count_append, below, after, hp,
        beq_self_eq_true, if_true, Nat.add_mul, Nat.one_mul]
      omega
    · rename_i hp
      rw [beq_iff_eq] at hp
      simp only [List.count_cons, List.count_append, below, after, beq_iff_eq, hp, if_false,
        Nat.add_mul]
      omega

/-- The node that is added next. -/
def added (d : Document) (kind : Kind) (trivia : Trivia) (offset : Option Nat) : Node :=
  { id := d.size, kind, trivia, offset }

/-- Adds a node that may have a place in the source as the last child of another. -/
def appendAt (d : Document) (parent : Nat) (kind : Kind) (trivia : Trivia)
    (offset : Option Nat) : Document :=
  { d.update parent (d.added kind trivia offset).withChild with size := d.size + 1 }

theorem count_ids_appendAt (d : Document) (parent : Nat) (kind : Kind) (trivia : Trivia)
    (offset : Option Nat) (i : Nat) :
    (d.appendAt parent kind trivia offset).ids.count i
      = d.ids.count i + d.ids.count parent * [d.size].count i := by
  have hone (n : Node) : idsIn [n] = n.id :: idsIn n.children := by
    rw [idsIn_cons, idsIn_nil, List.append_nil]
  have := count_idsIn_append i (d.added kind trivia offset) parent [d.root]
  rw [updateAll_cons, updateAll_nil, hone, hone d.root, ← ids_eq, hone, added, idsIn_nil] at this
  rw [← this, ids_eq]
  rfl

theorem Numbered.appendAt {d : Document} (h : d.Numbered) (parent : Nat) (kind : Kind)
    (trivia : Trivia) (offset : Option Nat) : (d.appendAt parent kind trivia offset).Numbered := by
  have hcount := count_ids_appendAt d parent kind trivia offset
  have hfree : d.ids.count d.size = 0 := by
    rw [List.count_eq_zero]
    intro hm
    exact absurd (h.lt_size _ hm) (Nat.lt_irrefl _)
  refine ⟨?_, ?_⟩
  · rw [List.nodup_iff_count_le_one]
    intro i
    have hold := List.nodup_iff_count_le_one.1 h.nodup i
    have hparent := List.nodup_iff_count_le_one.1 h.nodup parent
    rw [hcount]
    by_cases hi : i = d.size
    · rw [hi, hfree, List.count_singleton_self]
      omega
    · rw [List.count_singleton, if_neg (by simpa using fun e => hi e.symm)]
      omega
  · intro i hi
    have hpos : 0 < (d.appendAt parent kind trivia offset).ids.count i := List.count_pos_iff.2 hi
    rw [hcount] at hpos
    show i < d.size + 1
    by_cases hd : i ∈ d.ids
    · have := h.lt_size i hd
      omega
    · rw [List.count_eq_zero.2 hd] at hpos
      by_cases he : i = d.size
      · omega
      · rw [List.count_singleton, if_neg (by simpa using fun e => he e.symm)] at hpos
        omega

theorem idsIn_settleAll (closed : Bool) (start number : Nat) (ns : List Node) :
    idsIn (settleAll closed start number ns) = List.range' number (preorder ns).length := by
  induction ns using forestInduction generalizing closed start number with
  | nil => rw [settleAll_nil, idsIn_nil, preorder_nil]; rfl
  | cons n ns below after =>
    have hid : (n.settle start number).id = number := by rw [Node.settle_eq]
    rw [settleAll_cons, idsIn_cons, hid, Node.children_settle, below, after, preorder_cons,
      List.length_cons, List.length_append, List.range'_succ, ← List.range'_append_1]

/-- The nodes of a document that was read are numbered one after the other, the root first. -/
theorem ids_of_parse {s : Text} {d : Document} (h : parse s = .ok d) :
    d.ids = List.range d.size := by
  obtain ⟨closed, ns, after, _, _, rfl⟩ := parse_eq_ok_iff.1 h
  rw [ids_eq]
  simp only [sheetOf, idsIn_settleAll]
  rw [List.range_eq_range', Nat.add_comm, List.range'_succ]

theorem numbered_of_parse {s : Text} {d : Document} (h : parse s = .ok d) : d.Numbered := by
  refine ⟨?_, ?_⟩
  · rw [ids_of_parse h]
    exact List.nodup_range
  · intro i hi
    rw [ids_of_parse h] at hi
    exact List.mem_range.1 hi

end Document

end SheetLint
