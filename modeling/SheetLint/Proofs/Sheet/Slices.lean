import Mathlib.Data.List.Induction
import SheetLint.Proofs.Sheet.Numbering
import SheetLint.Proofs.Sheet.Placement

/-
  How the nodes of a sheet lie side by side in its source. Siblings that stand in a text stand right
  after each other, each after the semicolon of the one before it if that is a statement, and the
  children of a block stand right after its brace (`Stands.tail`, `Stands.children`). So every node
  that was read is a slice of the source, with what is before it in front and its semicolon behind,
  and nothing lies between two slices (`sliced_of_parse`).
-/

namespace SheetLint

/-! ## Forests that stand in a text -/

/-- The text `front` leads to a forest in a text, and the forest is settled there. -/
structure Stands (s front : Text) (closed : Bool) (ns : List Node) : Prop where
  text : ∃ back, s = front ++ renderAll closed ns ++ back
  settled : ∃ number, Settled closed (Text.bytes front) number ns

section Stands

variable {s front : Text} {closed : Bool} {n : Node} {ns : List Node}
  (h : Stands s front closed (n :: ns))
include h

/-- The first node stands after what is before it, and its semicolon comes next if it has one. -/
theorem Stands.between :
    ∃ back, n.Between s (front ++ n.trivia.before)
      ((if n.kind.isStatement && (closed || !ns.isEmpty) then [';'] else []) ++ back) := by
  obtain ⟨⟨back, hs⟩, number, hset⟩ := h
  refine ⟨renderAll closed ns ++ back, ?_, ?_⟩
  · rw [hs, renderAll_cons, Node.raw]
    simp
  · rw [hset.offset, Text.bytes_append]

/-- The siblings after the first node stand right after its text. -/
theorem Stands.tail : Stands s (front ++ n.span (closed || !ns.isEmpty)) closed ns := by
  obtain ⟨⟨back, hs⟩, number, hset⟩ := h
  have htail := hset.tail
  rw [← Text.bytes_append] at htail
  refine ⟨⟨back, ?_⟩, _, htail⟩
  rw [hs, renderAll_cons_span]
  simp

/-- The children of a block stand right after its brace. -/
theorem Stands.children (hb : n.kind.hasBlock) (hr : n.kind ≠ .root) :
    Stands s (front ++ n.trivia.before ++ n.kind.head n.trivia ++ ['{']) n.trivia.semicolon
      n.children := by
  obtain ⟨⟨back, hs⟩, number, hset⟩ := h
  refine ⟨⟨n.trivia.after ++ '}' :: renderAll closed ns ++ back, ?_⟩, number + 1, ?_⟩
  · rw [hs, renderAll_cons, Node.raw, Node.render_of_hasBlock hb hr,
      Kind.not_isStatement_of_hasBlock hb]
    simp
  · have hbrace : '{'.utf8Size = 1 := by decide
    have hchildren := hset.children
    have hbytes : Text.bytes (front ++ n.trivia.before ++ n.kind.head n.trivia ++ ['{'])
        = Text.bytes front + Text.bytes n.trivia.before + Text.bytes (n.kind.head n.trivia)
          + 1 := by
      simp only [Text.bytes_append, Text.bytes_cons, Text.bytes_nil, hbrace]
    rw [← hbytes] at hchildren
    exact hchildren

end Stands

/-! ## Slices -/

/-- The text `front` leads to the inside of a node: to the start of the sheet, or past the brace
    that opens a block. -/
def Node.LeadsInto (p : Node) (s front : Text) : Prop :=
  p.kind = .root ∧ front = [] ∨
    ∃ before back, p.Between s before back ∧ front = before ++ p.kind.head p.trivia ++ ['{']

/-- The text `front` leads past a node that a sibling follows, and past its semicolon if it is a
    statement. -/
def Node.LeadsPast (m : Node) (s front : Text) : Prop :=
  ∃ before back, m.Between s before back ∧
    front = before ++ m.render ++ (if m.kind.isStatement then [';'] else [])

/-- The part of the source between `front` and `back` is a child of `p` with what is before it. The
    siblings `earlier` come before it and the siblings `later` after it. -/
structure Node.Slice (n : Node) (s : Text) (p : Node) (earlier later : List Node)
    (front back : Text) : Prop where
  between : n.Between s (front ++ n.trivia.before) back
  /-- The semicolon of a statement comes right after it. -/
  semicolon : n.kind.isStatement → later ≠ [] ∨ p.trivia.semicolon → ∃ rest, back = ';' :: rest
  /-- Nothing is between the brace of a block and its first child. -/
  first : earlier = [] → p.LeadsInto s front
  /-- Nothing is between a child and the one before it. -/
  next : ∀ m, earlier.getLast? = some m → m.LeadsPast s front

/-- A later sibling stands right after the one before it. -/
theorem Stands.drop {s front : Text} {closed : Bool} {earlier later : List Node} {n : Node}
    (h : Stands s front closed (earlier ++ n :: later)) :
    ∃ start, Stands s start closed (n :: later) ∧ (earlier = [] → start = front) ∧
      ∀ m, earlier.getLast? = some m → m.LeadsPast s start := by
  induction earlier using List.reverseRecOn generalizing n later with
  | nil => exact ⟨front, h, fun _ => rfl, fun m hm => by cases hm⟩
  | append_singleton earlier k ih =>
    rw [List.append_assoc, List.singleton_append] at h
    obtain ⟨start, hstart, _, _⟩ := ih h
    obtain ⟨back, hk⟩ := hstart.between
    refine ⟨_, hstart.tail, fun he => by simp at he, ?_⟩
    intro m hm
    rw [List.getLast?_concat] at hm
    obtain rfl := Option.some.inj hm
    refine ⟨_, _, hk, ?_⟩
    simp [Node.span, Node.raw]

theorem Stands.slice {s front : Text} {p : Node} {earlier later : List Node} {n : Node}
    (hp : p.LeadsInto s front) (h : Stands s front p.trivia.semicolon (earlier ++ n :: later)) :
    ∃ start back, n.Slice s p earlier later start back := by
  obtain ⟨start, hstart, hfirst, hnext⟩ := h.drop
  obtain ⟨back, hn⟩ := hstart.between
  refine ⟨start, _, hn, ?_, ?_, hnext⟩
  · intro hst hended
    have hflag : (p.trivia.semicolon || !later.isEmpty) = true := by
      rcases hended with hne | hc
      · simp [hne]
      · rw [hc, Bool.true_or]
    rw [hst, hflag]
    exact ⟨back, rfl⟩
  · intro he
    rw [hfirst he]
    exact hp

/-- The children of each block of a forest stand right after the brace of the block. -/
theorem Stands.exists_leadsInto {s front : Text} {closed : Bool} {ns : List Node}
    (h : Stands s front closed ns) (hs : ShapedIn ns) {p : Node} (hp : p ∈ preorder ns)
    (hb : p.kind.hasBlock) :
    ∃ start, p.LeadsInto s start ∧ Stands s start p.trivia.semicolon p.children := by
  induction ns using forestInduction generalizing front closed with
  | nil => rw [preorder_nil] at hp; exact absurd hp List.not_mem_nil
  | cons n ns below after =>
    obtain ⟨hn, hc, hs⟩ := shapedIn_cons.1 hs
    rcases mem_preorder_cons.1 hp with rfl | hp | hp
    · obtain ⟨back, hplace⟩ := h.between
      exact ⟨_, Or.inr ⟨_, _, hplace, rfl⟩, h.children hb hn.notRoot⟩
    · exact below (h.children (hn.hasBlock_of_mem hp) hn.notRoot) hc hp
    · exact after h.tail hs hp

/-- Every node below another is the child of a node. -/
theorem exists_parent {n r : Node} (h : n ∈ r.descendants) :
    ∃ p ∈ r :: r.descendants, n ∈ p.children := by
  have hforest {ns : List Node} (hn : n ∈ preorder ns) :
      n ∈ ns ∨ ∃ p ∈ preorder ns, n ∈ p.children := by
    induction ns using forestInduction with
    | nil => rw [preorder_nil] at hn; exact absurd hn List.not_mem_nil
    | cons m ns below after =>
      simp only [mem_preorder_cons]
      rcases mem_preorder_cons.1 hn with rfl | hn | hn
      · exact Or.inl List.mem_cons_self
      · rcases below hn with hm | ⟨p, hp, hnp⟩
        · exact Or.inr ⟨m, Or.inl rfl, hm⟩
        · exact Or.inr ⟨p, Or.inr (Or.inl hp), hnp⟩
      · rcases after hn with hm | ⟨p, hp, hnp⟩
        · exact Or.inl (List.mem_cons_of_mem _ hm)
        · exact Or.inr ⟨p, Or.inr (Or.inr hp), hnp⟩
  rw [Node.descendants_eq] at h ⊢
  rcases hforest h with hn | ⟨p, hp, hn⟩
  · exact ⟨r, List.mem_cons_self, hn⟩
  · exact ⟨p, List.mem_cons_of_mem _ hp, hn⟩

/-! ## Sheets that were read -/

section Parse

variable {s : Text} {d : Document} (h : parse s = .ok d)
include h

theorem stands_of_parse : Stands s [] d.root.trivia.semicolon d.root.children := by
  obtain ⟨_, hs, _⟩ := readable_of_parse h
  refine ⟨⟨d.root.trivia.after, ?_⟩, 1, settled_of_parse h⟩
  rw [List.nil_append]
  exact hs

theorem kind_root_of_parse : d.root.kind = .root := by
  obtain ⟨_, _, hd⟩ := readable_of_parse h
  rw [hd]
  rfl

theorem slice_of_parse {p : Node} (hp : p ∈ d.nodes) {earlier later : List Node} {n : Node}
    (hc : p.children = earlier ++ n :: later) :
    ∃ front back, n.Slice s p earlier later front back := by
  obtain ⟨hread, _, _⟩ := readable_of_parse h
  rw [Document.nodes_eq] at hp
  rcases List.mem_cons.1 hp with rfl | hp
  · have hroot := stands_of_parse h
    rw [hc] at hroot
    exact hroot.slice (Or.inl ⟨kind_root_of_parse h, rfl⟩)
  · -- Only a block has children.
    have hb : p.kind.hasBlock := by
      apply (hread.shaped p hp).hasBlock_of_mem (m := n)
      apply mem_preorder_of_mem
      rw [hc]
      exact List.mem_append_right _ List.mem_cons_self
    obtain ⟨start, hstart, hstands⟩ := (stands_of_parse h).exists_leadsInto hread.shaped hp hb
    rw [hc] at hstands
    exact hstands.slice hstart

/-- Nodes with greater numbers start later in the source. -/
theorem precedes_of_id_lt {m n : Node} (hm : m ∈ d.root.descendants) (hn : n ∈ d.root.descendants)
    (hlt : m.id < n.id) : m.Precedes n := by
  have hids : (preorder d.root.children).Pairwise fun m n => m.id < n.id := by
    have hall := Document.ids_of_parse h
    rw [Document.ids_eq] at hall
    have hrange : (d.root.id :: idsIn d.root.children).Pairwise (· < ·) := by
      rw [hall]
      exact List.pairwise_lt_range
    exact List.pairwise_map.1 (List.pairwise_cons.1 hrange).2
  have hforward : (preorder d.root.children).Pairwise fun m n => m.id < n.id → m.Precedes n := by
    refine (pairwise_precedes_of_parse h).imp ?_
    intro m n hp _
    exact hp
  have hbackward : (preorder d.root.children).Pairwise fun m n => n.id < m.id → n.Precedes m :=
    hids.imp fun hmn hnm => by omega
  have hself : ∀ x ∈ preorder d.root.children, x.id < x.id → x.Precedes x :=
    fun x _ hx => by omega
  rw [Node.descendants_eq] at hm hn
  exact hforward.forall_of_forall_of_flip hself hbackward hm hn hlt

end Parse

/-- The nodes of a document are slices of a text, numbered in their order. -/
structure Document.Sliced (s : Text) (d : Document) : Prop where
  /-- Each node below the root is the child of a node. -/
  parent : ∀ n ∈ d.root.descendants, ∃ p ∈ d.nodes, n ∈ p.children
  /-- Each child is a slice, right after the one before it or after the brace of its parent. -/
  slice : ∀ p ∈ d.nodes, ∀ earlier n later, p.children = earlier ++ n :: later →
    ∃ front back, n.Slice s p earlier later front back
  /-- Numbers are given out in pre-order. -/
  numbers : d.nodes.map (·.id) = List.range d.size
  /-- Offsets increase with the numbers. -/
  increasing : ∀ m ∈ d.root.descendants, ∀ n ∈ d.root.descendants, m.id < n.id → m.Precedes n

/-- Every node of a sheet is a slice of the source, and the slices leave nothing out between
    them. -/
theorem sliced_of_parse {s : Text} {d : Document} (h : parse s = .ok d) : d.Sliced s where
  parent := fun _ hn => exists_parent hn
  slice := fun _ hp _ _ _ hc => slice_of_parse h hp hc
  numbers := Document.ids_of_parse h
  increasing := fun _ hm _ hn hlt => precedes_of_id_lt h hm hn hlt

/-- A sheet with a stray semicolon, a comment, nested blocks, characters of two bytes, and a last
    statement that no semicolon ends. -/
def slicedSheet : Text := ";@a é;/*b*/ é \x7b c:d;\n@e \x7b f:g \x7d;\x7d@h i".toList

theorem sliced_of_parse_slicedSheet :
    ∃ d, parse slicedSheet = .ok d ∧ d.Sliced slicedSheet ∧
      d.nodes.map (·.offset)
        = [some 0, some 1, some 7, some 13, some 18, some 23, some 28, some 35] := by
  have hoffsets : (parse slicedSheet).toOption.map (fun d => d.nodes.map (·.offset))
      = some [some 0, some 1, some 7, some 13, some 18, some 23, some 28, some 35] := by
    decide +kernel
  cases hd : parse slicedSheet with
  | error e =>
    rw [hd] at hoffsets
    cases hoffsets
  | ok d =>
    rw [hd] at hoffsets
    exact ⟨d, rfl, sliced_of_parse hd, Option.some.inj hoffsets⟩

end SheetLint
