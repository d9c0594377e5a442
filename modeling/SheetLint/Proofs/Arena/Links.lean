import Mathlib.Data.List.Pairwise
import SheetLint.Proofs.Sheet.Numbering

/-
  How the nodes of a document hang together. Every node but the root is the child of exactly one
  node, and that node is its parent (`parent?_eq_some_iff`). In a document that was read or built
  node by node the numbers of all nodes run from 0 up, the root is 0, and the children of a node
  stand in the order of their numbers, which are greater than its own (`Ordered`). Adding a node
  and changing nodes in place keep that, and `content?_appendAt` and `content?_change` say what the
  document then holds about each node.
-/

namespace SheetLint

/-- The numbers of the children of a node. -/
def Node.childIds (n : Node) : List Nat := n.children.map (·.id)

/-- The nodes of a forest are its trees and the children of its nodes. -/
theorem idsIn_perm (ns : List Node) :
    (idsIn ns).Perm (ns.map (·.id) ++ (preorder ns).flatMap Node.childIds) := by
  rw [List.perm_iff_count]
  intro i
  induction ns using forestInduction with
  | nil => simp
  | cons n ns below after =>
    rw [idsIn_cons, preorder_cons, List.map_cons, List.flatMap_cons, List.flatMap_append,
      Node.childIds]
    simp only [List.count_cons, List.count_append, List.cons_append, below, after]
    omega

theorem parentIn?_eq (id : Nat) (ns : List Node) :
    parentIn? id ns
      = ((preorder ns).find? fun n => n.children.any (·.id == id)).map (·.id) := by
  have hnode (n : Node) : n.parent? id
      = if n.children.any (·.id == id) then some n.id else parentIn? id n.children := by
    cases n; rw [Node.parent?]
  induction ns using forestInduction with
  | nil => rw [parentIn?, preorder_nil]; rfl
  | cons n ns below after =>
    rw [parentIn?, hnode, below, after, preorder_cons, List.find?_cons, List.find?_append]
    cases n.children.any (·.id == id) with
    | true => simp
    | false => simp [Option.map_or]

/-- A child and the siblings after it are at a site of the forest that its parent is in. -/
theorem site_of_child {ns : List Node} {p : Node} (hp : p ∈ preorder ns) {as bs : List Node}
    {n : Node} (h : p.children = as ++ n :: bs) : ⟨n, bs⟩ ∈ sitesIn ns := by
  induction ns using forestInduction with
  | nil => rw [preorder_nil] at hp; exact absurd hp List.not_mem_nil
  | cons m ns below after =>
    rw [mem_sitesIn_cons]
    rcases mem_preorder_cons.1 hp with rfl | hp | hp
    · exact Or.inr (Or.inl (h ▸ mem_sitesIn_append as bs n))
    · exact Or.inr (Or.inl (below hp))
    · exact Or.inr (Or.inr (after hp))

theorem preorder_singleton (n : Node) : preorder [n] = n :: preorder n.children := by
  rw [preorder_cons, preorder_nil, List.append_nil]

theorem preorder_eq_flatMap (ns : List Node) :
    preorder ns = ns.flatMap fun n => n :: n.descendants := by
  induction ns with
  | nil => rw [preorder_nil, List.flatMap_nil]
  | cons n ns ih => rw [preorder, ih, List.flatMap_cons, List.cons_append]

theorem mem_preorder_children {ns : List Node} {p m : Node} (hp : p ∈ preorder ns)
    (hm : m ∈ preorder p.children) : m ∈ preorder ns := by
  induction ns using forestInduction with
  | nil => rw [preorder_nil] at hp; exact absurd hp List.not_mem_nil
  | cons n ns below after =>
    rw [mem_preorder_cons]
    rcases mem_preorder_cons.1 hp with rfl | hp | hp
    · exact Or.inr (Or.inl hm)
    · exact Or.inr (Or.inl (below hp))
    · exact Or.inr (Or.inr (after hp))

theorem sublist_preorder (ns : List Node) : ns.Sublist (preorder ns) := by
  induction ns with
  | nil => rw [preorder_nil]
  | cons n ns ih =>
    rw [preorder_cons]
    exact (ih.trans (List.sublist_append_right _ _)).cons_cons n

theorem sublist_preorder_of_mem {ns : List Node} {n : Node} (h : n ∈ preorder ns) :
    (n :: preorder n.children).Sublist (preorder ns) := by
  induction ns using forestInduction with
  | nil => rw [preorder_nil] at h; exact absurd h List.not_mem_nil
  | cons m ns below after =>
    rw [preorder_cons]
    rcases mem_preorder_cons.1 h with rfl | h | h
    · exact (List.sublist_append_left _ _).cons_cons n
    · exact ((below h).trans (List.sublist_append_left _ _)).cons m
    · exact ((after h).trans (List.sublist_append_right _ _)).cons m

namespace Document

theorem nodes_eq_preorder (d : Document) : d.nodes = preorder [d.root] := by
  rw [nodes_eq, preorder_singleton]

theorem root_mem_nodes (d : Document) : d.root ∈ d.nodes := by
  rw [nodes_eq]
  exact List.mem_cons_self

theorem mem_nodes_of_child {d : Document} {p n : Node} (hp : p ∈ d.nodes) (hn : n ∈ p.children) :
    n ∈ d.nodes := by
  rw [nodes_eq_preorder] at hp ⊢
  exact mem_preorder_children hp (mem_preorder_of_mem hn)

/-- The nodes of a document are its root and the children of its nodes. -/
theorem ids_perm (d : Document) : d.ids.Perm (d.root.id :: d.nodes.flatMap Node.childIds) := by
  have := idsIn_perm [d.root]
  rwa [idsIn, ← nodes_eq_preorder] at this

theorem mem_ids_of_child {d : Document} {p : Node} (hp : p ∈ d.nodes) {i : Nat}
    (hi : i ∈ p.childIds) : i ∈ d.ids := by
  obtain ⟨n, hn, rfl⟩ := List.mem_map.1 hi
  exact List.mem_map_of_mem (mem_nodes_of_child hp hn)

theorem exists_mem_childIds {d : Document} {i : Nat} (hi : i ∈ d.ids) (hr : i ≠ d.root.id) :
    ∃ p ∈ d.nodes, i ∈ p.childIds := by
  rw [d.ids_perm.mem_iff, List.mem_cons] at hi
  exact List.mem_flatMap.1 (hi.resolve_left hr)

theorem content?_of_not_mem {d : Document} {i : Nat} (hi : i ∉ d.ids) : d.content? i = none := by
  rw [content?, Option.map_eq_none_iff, node?, List.find?_eq_none]
  intro n hn he
  exact hi (List.mem_map.2 ⟨n, hn, beq_iff_eq.1 he⟩)

section Numbered

variable {d : Document} (h : d.Numbered)
include h

theorem nodup_links : (d.root.id :: d.nodes.flatMap Node.childIds).Nodup :=
  d.ids_perm.nodup_iff.1 h.nodup

theorem root_not_mem_childIds {p : Node} (hp : p ∈ d.nodes) : d.root.id ∉ p.childIds :=
  fun hi => (List.nodup_cons.1 (nodup_links h)).1 (List.mem_flatMap.2 ⟨p, hp, hi⟩)

theorem nodup_childIds {p : Node} (hp : p ∈ d.nodes) : p.childIds.Nodup :=
  (List.nodup_flatMap.1 (List.nodup_cons.1 (nodup_links h)).2).1 p hp

/-- No two nodes have a child in common. -/
theorem eq_of_mem_childIds {p q : Node} (hp : p ∈ d.nodes) (hq : q ∈ d.nodes) {i : Nat}
    (hip : i ∈ p.childIds) (hiq : i ∈ q.childIds) : p = q := by
  have hdisj := (List.nodup_flatMap.1 (List.nodup_cons.1 (nodup_links h)).2).2
  have : Std.Symm (Function.onFun List.Disjoint Node.childIds) := ⟨fun _ _ hab _ hb ha => hab ha hb⟩
  by_contra hne
  exact hdisj.forall hp hq hne hip hiq

/-- A node with a given number is the only one. -/
theorem eq_of_id_eq {m n : Node} (hm : m ∈ d.nodes) (hn : n ∈ d.nodes) (he : m.id = n.id) :
    m = n := by
  have hfind := node?_of_mem h hm
  rw [he, node?_of_mem h hn, Option.some.injEq] at hfind
  exact hfind.symm

theorem parent?_eq_some_iff {i j : Nat} :
    d.parent? i = some j ↔ ∃ p ∈ d.nodes, p.id = j ∧ i ∈ p.childIds := by
  have hany (n : Node) : (n.children.any (·.id == i)) = true ↔ i ∈ n.childIds := by
    simp [Node.childIds]
  have heq : d.parent? i = (d.nodes.find? fun n => n.children.any (·.id == i)).map (·.id) := by
    rw [nodes_eq_preorder, ← parentIn?_eq, parentIn?, parentIn?, Option.or_none, parent?]
  rw [heq, Option.map_eq_some_iff]
  constructor
  · rintro ⟨p, hp, rfl⟩
    have hi := List.find?_some hp
    exact ⟨p, List.mem_of_find?_eq_some hp, rfl, (hany p).1 hi⟩
  · rintro ⟨p, hp, rfl, hi⟩
    cases hf : d.nodes.find? fun n => n.children.any (·.id == i) with
    | none => exact absurd ((hany p).2 hi) (by simpa using List.find?_eq_none.1 hf p hp)
    | some q =>
      have hq := List.find?_some hf
      have he := eq_of_mem_childIds h hp (List.mem_of_find?_eq_some hf) hi ((hany q).1 hq)
      exact ⟨q, rfl, by rw [he]⟩

theorem parent?_root : d.parent? d.root.id = none := by
  rw [Option.eq_none_iff_forall_ne_some]
  intro j hj
  obtain ⟨p, hp, _, hi⟩ := (parent?_eq_some_iff h).1 hj
  exact root_not_mem_childIds h hp hi

/-- What a document holds about one of its nodes. -/
theorem content?_of_mem {n : Node} (hn : n ∈ d.nodes) :
    d.content? n.id = some {
      kind := n.kind, trivia := n.trivia, offset := n.offset
      children := n.childIds, parent := d.parent? n.id } := by
  rw [content?, node?_of_mem h hn]
  rfl

/-- The siblings after a child are those that stand behind it in the list of its parent. -/
theorem following_of_child {p n : Node} (hp : p ∈ d.nodes) {as bs : List Node}
    (hc : p.children = as ++ n :: bs) : d.following n.id = bs := by
  have hs : (⟨n, bs⟩ : Site) ∈ sitesIn d.root.children := by
    rw [nodes_eq, List.mem_cons] at hp
    rcases hp with rfl | hp
    · rw [hc]
      exact mem_sitesIn_append as bs n
    · exact site_of_child hp hc
  exact following_of_site h hs

end Numbered

/-! ## New nodes -/

section AppendAt

variable {d : Document} (h : d.Numbered) {parent : Nat} (hp : parent ∈ d.ids) (kind : Kind)
  (trivia : Trivia) (offset : Option Nat)

theorem mem_nodes_appendAt (d : Document) (parent : Nat) {m : Node} :
    m ∈ (d.appendAt parent kind trivia offset).nodes
      ↔ (∃ n ∈ d.nodes,
          m = n.updateWhere (· == parent) (d.added kind trivia offset).withChild)
        ∨ (m = d.added kind trivia offset ∧ parent ∈ d.ids) := by
  have hmem := @mem_preorder_withChild (· == parent) (d.added kind trivia offset) rfl [d.root] m
  rw [updateAll_cons, updateAll_nil, ← nodes_eq_preorder] at hmem
  have hids : (∃ n ∈ d.nodes, (n.id == parent) = true) ↔ parent ∈ d.ids := by
    simp [ids]
  rw [← hids, ← hmem, nodes_eq_preorder]
  rfl

theorem childIds_withChild (child n : Node) :
    (n.updateWhere (· == parent) child.withChild).childIds
      = n.childIds ++ if n.id = parent then [child.id] else [] := by
  have hids (ns : List Node) : (updateAll (· == parent) child.withChild ns).map (·.id)
      = ns.map (·.id) := by
    rw [updateAll_eq_map, List.map_map]
    congr 1
    funext m
    exact m.id_updateWhere_withChild child
  rw [Node.childIds, n.updateWhere_withChild child, List.map_append, hids, Node.childIds]
  simp only [beq_iff_eq]
  split <;> rfl

include h

theorem parent?_appendAt {i : Nat} (hi : i ≠ d.size) :
    (d.appendAt parent kind trivia offset).parent? i = d.parent? i := by
  have h' := h.appendAt parent kind trivia offset
  have hsub (n : Node) (hn : n ∈ d.nodes) (hin : i ∈ n.childIds) :
      (d.appendAt parent kind trivia offset).parent? i = some n.id := by
    refine (parent?_eq_some_iff h').2
      ⟨_, (mem_nodes_appendAt kind trivia offset d parent).2 (Or.inl ⟨n, hn, rfl⟩), ?_, ?_⟩
    · exact n.id_updateWhere_withChild _
    · rw [childIds_withChild]
      exact List.mem_append_left _ hin
  cases hq : d.parent? i with
  | some q =>
    obtain ⟨n, hn, rfl, hin⟩ := (parent?_eq_some_iff h).1 hq
    exact hsub n hn hin
  | none =>
    rw [Option.eq_none_iff_forall_ne_some]
    intro q hq'
    obtain ⟨m, hm, _, him⟩ := (parent?_eq_some_iff h').1 hq'
    rcases (mem_nodes_appendAt kind trivia offset d parent).1 hm with ⟨n, hn, rfl⟩ | ⟨rfl, _⟩
    · rw [childIds_withChild, List.mem_append] at him
      rcases him with him | him
      · rw [(parent?_eq_some_iff h).2 ⟨n, hn, rfl, him⟩] at hq
        exact absurd hq (Option.some_ne_none _)
      · split at him
        · exact hi (List.mem_singleton.1 him)
        · exact absurd him List.not_mem_nil
    · exact absurd him List.not_mem_nil

include hp

/-- What a document holds about each node after one more was added. -/
theorem content?_appendAt (i : Nat) :
    (d.appendAt parent kind trivia offset).content? i
      = if i = d.size then some { kind, trivia, offset, children := [], parent := some parent }
        else (d.content? i).map fun c =>
          if i = parent then { c with children := c.children ++ [d.size] } else c := by
  have h' := h.appendAt parent kind trivia offset
  have hnode {n : Node} (hn : n ∈ d.nodes) :
      n.updateWhere (· == parent) (d.added kind trivia offset).withChild
        ∈ (d.appendAt parent kind trivia offset).nodes :=
    (mem_nodes_appendAt kind trivia offset d parent).2 (Or.inl ⟨n, hn, rfl⟩)
  split
  · rename_i hi
    obtain ⟨p, hpn, rfl⟩ := List.mem_map.1 hp
    have hchild := (mem_nodes_appendAt (m := d.added kind trivia offset) kind trivia offset d
      p.id).2 (Or.inr ⟨rfl, hp⟩)
    have hparent : (d.appendAt p.id kind trivia offset).parent? d.size = some p.id := by
      refine (parent?_eq_some_iff h').2 ⟨_, hnode hpn, ?_, ?_⟩
      · exact p.id_updateWhere_withChild _
      · rw [childIds_withChild, if_pos rfl]
        exact List.mem_append_right _ (List.mem_singleton_self _)
    have := content?_of_mem h' hchild
    rw [hi]
    refine this.trans ?_
    rw [added, hparent]
    rfl
  · rename_i hi
    by_cases hid : i ∈ d.ids
    · obtain ⟨n, hn, rfl⟩ := List.mem_map.1 hid
      have hat := content?_of_mem h' (hnode hn)
      rw [childIds_withChild, n.updateWhere_withChild, parent?_appendAt h kind trivia offset hi]
        at hat
      rw [hat, content?_of_mem h hn]
      split <;> simp_all [added]
    · rw [content?_of_not_mem hid, content?_of_not_mem, Option.map_none]
      intro hi'
      rw [← List.count_pos_iff, count_ids_appendAt, List.count_eq_zero.2 hid,
        List.count_singleton, if_neg (by simpa using fun e => hi e.symm)] at hi'
      omega

end AppendAt

/-! ## Documents whose numbers run from 0 up -/

/-- The numbers of the nodes run from 0, which is that of the root, up to the size of the document,
    and increase from a node to its children and from one child to the next. -/
structure Ordered (d : Document) : Prop extends Numbered d where
  root_id : d.root.id = 0
  mem_ids : ∀ i < d.size, i ∈ d.ids
  increasing : ∀ n ∈ d.nodes, (n.id :: n.childIds).Pairwise (· < ·)

theorem ordered_empty : Ordered {} where
  nodup := by decide +kernel
  lt_size := by decide +kernel
  root_id := rfl
  mem_ids := by decide +kernel
  increasing := by
    intro n hn
    rw [nodes_eq, preorder_nil, List.mem_singleton] at hn
    rw [hn]
    exact List.pairwise_singleton _ _

theorem ordered_of_parse {s : Text} {d : Document} (h : parse s = .ok d) : d.Ordered where
  toNumbered := numbered_of_parse h
  root_id := by
    obtain ⟨_, _, _, _, _, rfl⟩ := parse_eq_ok_iff.1 h
    rfl
  mem_ids := by
    intro i hi
    rw [ids_of_parse h]
    exact List.mem_range.2 hi
  increasing := by
    intro n hn
    rw [nodes_eq_preorder] at hn
    have hsub : (n.id :: n.childIds).Sublist d.ids := by
      rw [ids, nodes_eq_preorder]
      exact (((sublist_preorder n.children).cons_cons n).trans (sublist_preorder_of_mem hn)).map _
    rw [ids_of_parse h] at hsub
    exact List.pairwise_lt_range.sublist hsub

theorem Ordered.appendAt {d : Document} (h : d.Ordered) {parent : Nat} (hp : parent ∈ d.ids)
    (kind : Kind) (trivia : Trivia) (offset : Option Nat) :
    (d.appendAt parent kind trivia offset).Ordered where
  toNumbered := h.toNumbered.appendAt parent kind trivia offset
  root_id := by
    rw [← h.root_id]
    exact d.root.id_updateWhere_withChild _
  mem_ids := by
    intro i hi
    rw [← List.count_pos_iff, count_ids_appendAt]
    rcases Nat.lt_succ_iff_lt_or_eq.1 hi with hi | rfl
    · have := List.count_pos_iff.2 (h.mem_ids i hi)
      omega
    · have := List.count_pos_iff.2 hp
      rw [List.count_singleton_self]
      omega
  increasing := by
    intro m hm
    rcases (mem_nodes_appendAt kind trivia offset d parent).1 hm with ⟨n, hn, rfl⟩ | ⟨rfl, _⟩
    · rw [childIds_withChild, n.id_updateWhere_withChild, ← List.cons_append]
      refine List.pairwise_append.2 ⟨h.increasing n hn, by split <;> simp, ?_⟩
      intro i hi j hj
      have hi' : i ∈ d.ids := by
        rcases List.mem_cons.1 hi with rfl | hi
        · exact List.mem_map_of_mem hn
        · exact mem_ids_of_child hn hi
      split at hj
      · rw [List.mem_singleton.1 hj]
        exact h.lt_size i hi'
      · exact absurd hj List.not_mem_nil
    · exact List.pairwise_singleton _ _

theorem Ordered.updateWhere {selected : Nat → Bool} {change : Node → Node} (hc : InPlace change)
    {d : Document} (h : d.Ordered) : (d.updateWhere selected change).Ordered where
  toNumbered := h.toNumbered.updateWhere hc
  root_id := by
    rw [← h.root_id]
    exact hc.id_updateWhere d.root
  mem_ids := by
    rw [ids_updateWhere hc]
    exact h.mem_ids
  increasing := by
    intro m hm
    rw [nodes_updateWhere hc] at hm
    obtain ⟨n, hn, rfl⟩ := List.mem_map.1 hm
    rw [Node.childIds, hc.id_updateWhere, hc.children_updateWhere, map_id_updateAll hc]
    exact h.increasing n hn

end Document

end SheetLint
