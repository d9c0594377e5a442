import SheetLint.Sheet.Document

/-
  Forests: lists of siblings with all that is below them. What is proved of every forest is proved
  by one induction, over the children of the first tree and over its siblings. A site is a node with
  the siblings after it; the sites of a forest are the nodes of its pre-order, and what is found by
  a number is found among them (`followingIn?_eq`). A change that keeps numbers and children keeps
  the sites but for what it changes (`sitesIn_updateAll`).
-/

namespace SheetLint

/-- Induction over forests: the children of the first node are a forest, and so are its siblings. -/
@[elab_as_elim]
theorem forestInduction {P : List Node → Prop} (nil : P [])
    (cons : ∀ n ns, P n.children → P ns → P (n :: ns)) (ns : List Node) : P ns :=
  @Node.rec_1 (fun n => P n.children) P (fun _ _ _ _ _ below => below) nil cons ns

/-! ## Nodes and their numbers -/

@[simp] theorem preorder_nil : preorder [] = [] := by rw [preorder]

theorem preorder_cons (n : Node) (ns : List Node) :
    preorder (n :: ns) = n :: (preorder n.children ++ preorder ns) := by
  rw [preorder, Node.descendants_eq]

theorem mem_preorder_cons {m n : Node} {ns : List Node} :
    m ∈ preorder (n :: ns) ↔ m = n ∨ m ∈ preorder n.children ∨ m ∈ preorder ns := by
  rw [preorder_cons, List.mem_cons, List.mem_append]

theorem mem_preorder_of_mem {n : Node} {ns : List Node} (h : n ∈ ns) : n ∈ preorder ns := by
  induction ns with
  | nil => exact absurd h List.not_mem_nil
  | cons m ns ih =>
    rw [mem_preorder_cons]
    rcases List.mem_cons.1 h with h | h
    · exact Or.inl h
    · exact Or.inr (Or.inr (ih h))

/-- The numbers of the nodes of a forest, in pre-order. -/
def idsIn (ns : List Node) : List Nat := (preorder ns).map (·.id)

@[simp] theorem idsIn_nil : idsIn [] = [] := by rw [idsIn, preorder_nil, List.map_nil]

theorem idsIn_cons (n : Node) (ns : List Node) :
    idsIn (n :: ns) = n.id :: (idsIn n.children ++ idsIn ns) := by
  rw [idsIn, preorder_cons, List.map_cons, List.map_append]
  rfl

theorem idsIn_append (ns ms : List Node) : idsIn (ns ++ ms) = idsIn ns ++ idsIn ms := by
  rw [idsIn, preorder_append, List.map_append]
  rfl

theorem id_mem_idsIn {n : Node} {ns : List Node} (h : n ∈ ns) : n.id ∈ idsIn ns :=
  List.mem_map_of_mem (mem_preorder_of_mem h)

theorem nodup_idsIn_cons {n : Node} {ns : List Node} :
    (idsIn (n :: ns)).Nodup ↔ (n.id ∉ idsIn n.children ∧ n.id ∉ idsIn ns) ∧
      (idsIn n.children).Nodup ∧ (idsIn ns).Nodup ∧ ∀ i ∈ idsIn n.children, i ∉ idsIn ns := by
  rw [idsIn_cons, List.nodup_cons, List.mem_append, not_or, List.nodup_append]
  refine and_congr_right fun _ => and_congr_right fun _ => and_congr_right fun _ => ?_
  constructor
  · intro h i hi hn
    exact h i hi i hn rfl
  · intro h i hi j hj he
    rw [he] at hi
    exact h j hi hj

theorem mem_idsIn_of_children {ns : List Node} {m : Node} (hm : m ∈ preorder ns) {i : Nat}
    (hi : i ∈ idsIn m.children) : i ∈ idsIn ns := by
  induction ns using forestInduction with
  | nil => rw [preorder_nil] at hm; exact absurd hm List.not_mem_nil
  | cons n ns below after =>
    rw [idsIn_cons, List.mem_cons, List.mem_append]
    rcases mem_preorder_cons.1 hm with rfl | hm | hm
    · exact Or.inr (Or.inl hi)
    · exact Or.inr (Or.inl (below hm))
    · exact Or.inr (Or.inr (after hm))

theorem nodup_idsIn_children {ns : List Node} (hd : (idsIn ns).Nodup) {m : Node}
    (hm : m ∈ preorder ns) : (idsIn m.children).Nodup := by
  induction ns using forestInduction with
  | nil => rw [preorder_nil] at hm; exact absurd hm List.not_mem_nil
  | cons n ns below after =>
    obtain ⟨_, hc, hs, _⟩ := nodup_idsIn_cons.1 hd
    rcases mem_preorder_cons.1 hm with rfl | hm | hm
    · exact hc
    · exact below hc hm
    · exact after hs hm

/-- A node of the list itself is below none of the forest. -/
theorem id_not_mem_idsIn_children {ns : List Node} (hd : (idsIn ns).Nodup) {k m : Node}
    (hk : k ∈ ns) (hm : m ∈ preorder ns) : k.id ∉ idsIn m.children := by
  induction ns with
  | nil => exact absurd hk List.not_mem_nil
  | cons n ns ih =>
    obtain ⟨⟨hnc, hns⟩, _, hs, hdisj⟩ := nodup_idsIn_cons.1 hd
    intro hi
    rcases List.mem_cons.1 hk with rfl | hkn
    · rcases mem_preorder_cons.1 hm with rfl | hm | hm
      · exact hnc hi
      · exact hnc (mem_idsIn_of_children hm hi)
      · exact hns (mem_idsIn_of_children hm hi)
    · rcases mem_preorder_cons.1 hm with rfl | hm | hm
      · exact hdisj _ hi (id_mem_idsIn hkn)
      · exact hdisj _ (mem_idsIn_of_children hm hi) (id_mem_idsIn hkn)
      · exact ih hs hkn hm hi

/-! ## Sites -/

/-- A node and the siblings that follow it. -/
structure Site where
  node : Node
  following : List Node

mutual

/-- The nodes below a node, each with the siblings that follow it, in pre-order. -/
def Node.sites : Node → List Site
  | ⟨_, _, _, _, children⟩ => sitesIn children

/-- The nodes of a forest, each with the siblings that follow it, in pre-order. -/
def sitesIn : List Node → List Site
  | [] => []
  | n :: ns => ⟨n, ns⟩ :: (n.sites ++ sitesIn ns)

end

@[simp] theorem sitesIn_nil : sitesIn [] = [] := by rw [sitesIn]

theorem sitesIn_cons (n : Node) (ns : List Node) :
    sitesIn (n :: ns) = ⟨n, ns⟩ :: (sitesIn n.children ++ sitesIn ns) := by
  cases n; rw [sitesIn, Node.sites]

theorem mem_sitesIn_cons {s : Site} {n : Node} {ns : List Node} :
    s ∈ sitesIn (n :: ns) ↔ s = ⟨n, ns⟩ ∨ s ∈ sitesIn n.children ∨ s ∈ sitesIn ns := by
  rw [sitesIn_cons, List.mem_cons, List.mem_append]

theorem map_node_sitesIn (ns : List Node) : (sitesIn ns).map Site.node = preorder ns := by
  induction ns using forestInduction with
  | nil => rw [sitesIn_nil, preorder_nil, List.map_nil]
  | cons n ns below after =>
    rw [sitesIn_cons, preorder_cons, List.map_cons, List.map_append, below, after]

theorem map_id_sitesIn (ns : List Node) : (sitesIn ns).map (·.node.id) = idsIn ns := by
  rw [idsIn, ← map_node_sitesIn, List.map_map]
  rfl

theorem mem_sitesIn_append (ms fs : List Node) (m : Node) : ⟨m, fs⟩ ∈ sitesIn (ms ++ m :: fs) := by
  induction ms with
  | nil => rw [List.nil_append, mem_sitesIn_cons]; exact Or.inl rfl
  | cons k ms ih => rw [List.cons_append, mem_sitesIn_cons]; exact Or.inr (Or.inr ih)

/-- Siblings that follow a node are at a site of their own. -/
theorem site_of_following {s : Site} {ns : List Node} (hs : s ∈ sitesIn ns) {ms fs : List Node}
    {m : Node} (h : s.following = ms ++ m :: fs) : ⟨m, fs⟩ ∈ sitesIn ns := by
  induction ns using forestInduction with
  | nil => rw [sitesIn_nil] at hs; exact absurd hs List.not_mem_nil
  | cons n ns below after =>
    rw [mem_sitesIn_cons] at hs ⊢
    rcases hs with rfl | hs | hs
    · have hns : ns = ms ++ m :: fs := h
      rw [hns]
      exact Or.inr (Or.inr (mem_sitesIn_append ms fs m))
    · exact Or.inr (Or.inl (below hs))
    · exact Or.inr (Or.inr (after hs))

theorem followingIn?_eq (id : Nat) (ns : List Node) :
    followingIn? id ns = ((sitesIn ns).find? (·.node.id == id)).map Site.following := by
  induction ns using forestInduction with
  | nil => rw [followingIn?, sitesIn_nil]; rfl
  | cons n ns below after =>
    have hn : n.following? id = followingIn? id n.children := by cases n; rw [Node.following?]
    rw [followingIn?, sitesIn_cons, List.find?_cons]
    by_cases h : n.id = id
    · simp [h]
    · have hne : (n.id == id) = false := beq_eq_false_iff_ne.2 h
      rw [if_neg h, hn, below, after, List.find?_append]
      simp only [hne, Option.map_or]

/-! ## Changes in place -/

/-- A change to what a node says and to how it is written, but not to its number, and neither to
    what is below it nor by what is below it. -/
structure InPlace (change : Node → Node) : Prop where
  id : ∀ n, (change n).id = n.id
  withChildren : ∀ n cs, change { n with children := cs } = { change n with children := cs }

section Update

variable {selected : Nat → Bool} {change : Node → Node}

theorem Node.updateWhere_eq (n : Node) :
    n.updateWhere selected change
      = if selected n.id then
          change { n with children := updateAll selected change n.children }
        else { n with children := updateAll selected change n.children } := by
  cases n; rw [updateWhere]

@[simp] theorem updateAll_nil : updateAll selected change [] = [] := by rw [updateAll]

theorem updateAll_cons (n : Node) (ns : List Node) :
    updateAll selected change (n :: ns)
      = n.updateWhere selected change :: updateAll selected change ns := by rw [updateAll]

theorem updateAll_eq_map (ns : List Node) :
    updateAll selected change ns = ns.map (·.updateWhere selected change) := by
  induction ns with
  | nil => rw [updateAll_nil, List.map_nil]
  | cons n ns ih => rw [updateAll_cons, List.map_cons, ih]

theorem isEmpty_updateAll (ns : List Node) :
    (updateAll selected change ns).isEmpty = ns.isEmpty := by
  rw [updateAll_eq_map, List.isEmpty_map]

theorem updateAll_of_unselected {ns : List Node} (h : ∀ i ∈ idsIn ns, selected i = false) :
    updateAll selected change ns = ns := by
  induction ns using forestInduction with
  | nil => rw [updateAll_nil]
  | cons n ns below after =>
    rw [idsIn_cons, List.forall_mem_cons, List.forall_mem_append] at h
    obtain ⟨hn, hc, hs⟩ := h
    rw [updateAll_cons, Node.updateWhere_eq, below hc, after hs, hn]
    cases n
    rfl

theorem Node.updateWhere_of_below {n : Node} (h : ∀ i ∈ idsIn n.children, selected i = false) :
    n.updateWhere selected change = if selected n.id then change n else n := by
  rw [Node.updateWhere_eq, updateAll_of_unselected h]
  cases n
  rfl

variable (h : InPlace change)
include h

/-- The node itself is changed if it is selected, and so are the nodes below it. -/
theorem InPlace.updateWhere_eq (n : Node) :
    n.updateWhere selected change
      = { (if selected n.id then change n else n) with
          children := updateAll selected change n.children } := by
  rw [Node.updateWhere_eq, h.withChildren]
  split <;> rfl

theorem InPlace.id_updateWhere (n : Node) : (n.updateWhere selected change).id = n.id := by
  rw [h.updateWhere_eq]
  split
  · exact h.id n
  · rfl

theorem InPlace.children_updateWhere (n : Node) :
    (n.updateWhere selected change).children = updateAll selected change n.children := by
  rw [h.updateWhere_eq]

theorem InPlace.idsIn_updateAll (ns : List Node) :
    idsIn (updateAll selected change ns) = idsIn ns := by
  induction ns using forestInduction with
  | nil => rw [updateAll_nil]
  | cons n ns below after =>
    rw [updateAll_cons, idsIn_cons, idsIn_cons, h.id_updateWhere, h.children_updateWhere, below,
      after]

theorem InPlace.preorder_updateAll (ns : List Node) :
    preorder (updateAll selected change ns)
      = (preorder ns).map (·.updateWhere selected change) := by
  induction ns using forestInduction with
  | nil => rw [updateAll_nil, preorder_nil, List.map_nil]
  | cons n ns below after =>
    rw [updateAll_cons, preorder_cons, preorder_cons, h.children_updateWhere, below, after,
      List.map_cons, List.map_append]

/-- The site after a change of the nodes with the selected numbers. -/
theorem InPlace.sitesIn_updateAll (ns : List Node) :
    sitesIn (updateAll selected change ns)
      = (sitesIn ns).map fun s =>
          ⟨s.node.updateWhere selected change, updateAll selected change s.following⟩ := by
  induction ns using forestInduction with
  | nil => rw [updateAll_nil, sitesIn_nil, List.map_nil]
  | cons n ns below after =>
    rw [updateAll_cons, sitesIn_cons, sitesIn_cons, h.children_updateWhere, below, after,
      List.map_cons, List.map_append]

/-- Changing some nodes and then others is changing all of them, if none is changed twice. -/
theorem InPlace.updateAll_updateAll {other : Nat → Bool}
    (hd : ∀ i, selected i → other i = false) (ns : List Node) :
    updateAll other change (updateAll selected change ns)
      = updateAll (fun i => selected i || other i) change ns := by
  induction ns using forestInduction with
  | nil => rw [updateAll_nil, updateAll_nil, updateAll_nil]
  | cons n ns below after =>
    rw [updateAll_cons, updateAll_cons, updateAll_cons, after, h.updateWhere_eq,
      h.children_updateWhere, below, h.id_updateWhere, h.updateWhere_eq, h.updateWhere_eq n]
    by_cases hs : selected n.id
    · simp [hs, hd _ hs]
    · by_cases ho : other n.id
      · simp [hs, ho, h.withChildren]
      · simp [hs, ho]

end Update

/-! ## New children -/

/-- A node with one more child, the last one. -/
def Node.withChild (child n : Node) : Node := { n with children := n.children ++ [child] }

section Child

variable {selected : Nat → Bool} {child : Node}

theorem Node.updateWhere_withChild (n : Node) (child : Node) :
    n.updateWhere selected child.withChild
      = { n with
          children := updateAll selected child.withChild n.children
            ++ if selected n.id then [child] else [] } := by
  rw [Node.updateWhere_eq]
  split
  · rfl
  · rw [List.append_nil]

@[simp] theorem Node.id_updateWhere_withChild (n : Node) (child : Node) :
    (n.updateWhere selected child.withChild).id = n.id := by
  rw [n.updateWhere_withChild]

theorem mem_preorder_withChild (hc : child.children = []) {ns : List Node} {m : Node} :
    m ∈ preorder (updateAll selected child.withChild ns)
      ↔ (∃ n ∈ preorder ns, m = n.updateWhere selected child.withChild)
        ∨ (m = child ∧ ∃ n ∈ preorder ns, selected n.id) := by
  induction ns using forestInduction with
  | nil => simp
  | cons n ns below after =>
    have hchild (n : Node) : m ∈ preorder (if selected n.id then [child] else [])
        ↔ m = child ∧ selected n.id := by
      split
      · rename_i hs
        simp [preorder_cons, hc, hs]
      · rename_i hs
        simp [hs]
    have hn : (n.updateWhere selected child.withChild).children
        = updateAll selected child.withChild n.children
          ++ if selected n.id then [child] else [] := by
      rw [n.updateWhere_withChild child]
    rw [updateAll_cons, mem_preorder_cons, hn, preorder_append, List.mem_append, hchild, below,
      after]
    simp only [mem_preorder_cons, or_and_right, exists_or, exists_eq_left]
    grind

end Child

/-! ## Changes of every node -/

section Everywhere

variable (change : Node → Node)

/-- Makes a change to every node of a forest, to what is below a node before the node itself. -/
def everywhere (ns : List Node) : List Node := updateAll (fun _ => true) change ns

/-- Makes a change to a node and to every node below it. -/
def Node.everywhere (n : Node) : Node := n.updateWhere (fun _ => true) change

theorem Node.everywhere_eq (n : Node) :
    n.everywhere change
      = change { n with children := SheetLint.everywhere change n.children } := by
  rw [Node.everywhere, Node.updateWhere_eq, if_pos rfl]
  rfl

@[simp] theorem everywhere_nil : everywhere change [] = [] := updateAll_nil

theorem everywhere_cons (n : Node) (ns : List Node) :
    everywhere change (n :: ns)
      = n.everywhere change :: everywhere change ns := by
  rw [everywhere, updateAll_cons]
  rfl

@[simp] theorem isEmpty_everywhere (ns : List Node) :
    (everywhere change ns).isEmpty = ns.isEmpty := isEmpty_updateAll ns

variable {change} in
theorem InPlace.length_preorder_everywhere (h : InPlace change) (ns : List Node) :
    (preorder (everywhere change ns)).length = (preorder ns).length := by
  rw [everywhere, h.preorder_updateAll, List.length_map]

end Everywhere

section Commute

variable {change other change' : Node → Node} (h : InPlace change) (ho : InPlace other)
  (h' : InPlace change') (hcomm : ∀ n, change' (other n) = other (change n))
include h ho h' hcomm

theorem Node.updateWhere_everywhere_of (selected : Nat → Bool) (n : Node)
    (hc : updateAll selected change' (SheetLint.everywhere other n.children)
      = SheetLint.everywhere other (updateAll selected change n.children)) :
    (n.everywhere other).updateWhere selected change'
      = (n.updateWhere selected change).everywhere other := by
  rw [Node.everywhere_eq, ho.withChildren, h'.updateWhere_eq, h'.withChildren, hc, ho.id,
    h.updateWhere_eq, Node.everywhere_eq, ho.withChildren, ho.withChildren]
  split
  · rw [hcomm]
  · rfl

/-- A change of every node and a change of some nodes, in either order. -/
theorem updateAll_everywhere (selected : Nat → Bool) (ns : List Node) :
    updateAll selected change' (everywhere other ns)
      = everywhere other (updateAll selected change ns) := by
  induction ns using forestInduction with
  | nil => rw [everywhere_nil, updateAll_nil, updateAll_nil, everywhere_nil]
  | cons n ns below after =>
    rw [everywhere_cons, updateAll_cons, updateAll_cons, everywhere_cons, after,
      Node.updateWhere_everywhere_of h ho h' hcomm selected n below]

theorem Node.updateWhere_everywhere (selected : Nat → Bool) (n : Node) :
    (n.everywhere other).updateWhere selected change'
      = (n.updateWhere selected change).everywhere other :=
  Node.updateWhere_everywhere_of h ho h' hcomm selected n
    (updateAll_everywhere h ho h' hcomm selected n.children)

end Commute

end SheetLint
