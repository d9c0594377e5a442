import Mathlib.Data.List.Sort
import SheetLint.Proofs.Rule.Agreement
import SheetLint.Proofs.Rule.Exactness
import SheetLint.Proofs.Rule.Idempotence

/-
  What fixing does to the text of a sheet: newlines are put in at the places that were reported, and
  the rest of the text stays as it is (`fix_inserts_only_newlines`). A newline before a node shows
  in the text at the place where the node's own text starts, and at no other
  (`inserted_updateAll`); nodes that a newline is missing before are found in the order of their
  numbers, which is the order of their places (`pairwise_lackingIn`, `place_lt_of_precedes`).
-/

namespace SheetLint

/-! ## Texts with something put in -/

/-- A text that starts at a byte offset, and what putting another text in at some offsets, one after
    the other, makes of it. -/
inductive Inserted (w : Text) : Nat → List Nat → Text → Text → Prop
  | rest (i : Nat) (s : Text) : Inserted w i [] s s
  | put {i : Nat} (a : Text) {places : List Nat} {s t : Text}
      (h : Inserted w (i + Text.bytes a) places s t) :
      Inserted w i ((i + Text.bytes a) :: places) (a ++ s) (a ++ w ++ t)

namespace Inserted

variable {w : Text} {i : Nat} {ps qs : List Nat} {s s' t t' : Text}

theorem append_left (a : Text) (h : Inserted w (i + Text.bytes a) ps s t) :
    Inserted w i ps (a ++ s) (a ++ t) := by
  cases h with
  | rest => exact rest i (a ++ s)
  | put b h =>
    rw [Nat.add_assoc, ← Text.bytes_append] at h ⊢
    simpa using put (a ++ b) h

theorem append (h : Inserted w i ps s t) (h' : Inserted w (i + Text.bytes s) qs s' t') :
    Inserted w i (ps ++ qs) (s ++ s') (t ++ t') := by
  induction h with
  | rest i s => exact append_left s h'
  | put a _ ih =>
    rw [Text.bytes_append, ← Nat.add_assoc] at h'
    simpa using put a (ih h')

theorem append_right (h : Inserted w i ps s t) (b : Text) : Inserted w i ps (s ++ b) (t ++ b) := by
  simpa using h.append (rest _ b)

end Inserted

/-- Whether a carriage return stands before a line feed somewhere decides about the newline. -/
theorem hasCrLf_iff (s : Text) : Text.hasCrLf s ↔ crLf <:+: s := by
  fun_induction Text.hasCrLf s with
  | case1 s => exact iff_of_true rfl (List.prefix_append crLf s).isInfix
  | case2 c s h ih =>
    rw [ih, List.infix_cons_iff]
    refine ⟨Or.inr, ?_⟩
    rintro (⟨t, ht⟩ | h')
    · exact (h t (List.cons.inj ht).1.symm (List.cons.inj ht).2.symm).elim
    · exact h'
  | case3 => simp [crLf]

/-! ## Places of nodes -/

/-- The byte offset at which what stands before a node starts. -/
def Node.place? (n : Node) : Option Nat := n.offset.map (· - Text.bytes n.trivia.before)

theorem Settled.place?_eq {closed : Bool} {start number : Nat} {n : Node} {ns : List Node}
    (h : Settled closed start number (n :: ns)) : n.place? = some start := by
  rw [Node.place?, h.offset, Option.map_some, Nat.add_sub_cancel]

/-- The places of the selected nodes of a forest, in pre-order. -/
def placesIn (selected : Nat → Bool) (ns : List Node) : List Nat :=
  ((preorder ns).filter (selected ·.id)).filterMap Node.place?

@[simp] theorem placesIn_nil (selected : Nat → Bool) : placesIn selected [] = [] := by
  rw [placesIn, preorder_nil]
  rfl

theorem placesIn_cons (selected : Nat → Bool) (n : Node) (ns : List Node) :
    placesIn selected (n :: ns)
      = (if selected n.id then n.place?.toList else [])
        ++ (placesIn selected n.children ++ placesIn selected ns) := by
  rw [placesIn, preorder_cons, List.filter_cons, List.filter_append]
  split
  · rw [List.filterMap_cons, List.filterMap_append]
    cases n.place? <;> rfl
  · rw [List.filterMap_append]
    rfl

/-- The place of the node with a given number. -/
def Document.place? (d : Document) (id : Nat) : Option Nat := (d.node? id).bind Node.place?

/-! ## The order of places -/

/-- The numbers of the nodes of a forest increase from one to the next. -/
def Ordered (ns : List Node) : Prop := (idsIn ns).Pairwise (· < ·)

theorem ordered_cons {n : Node} {ns : List Node} (h : Ordered (n :: ns)) :
    ((∀ i ∈ idsIn n.children, n.id < i) ∧ ∀ i ∈ idsIn ns, n.id < i) ∧ Ordered n.children ∧
      Ordered ns ∧ ∀ i ∈ idsIn n.children, ∀ j ∈ idsIn ns, i < j := by
  rw [Ordered, idsIn_cons, List.pairwise_cons, List.pairwise_append] at h
  obtain ⟨hn, hc, hs, hcs⟩ := h
  exact ⟨⟨fun i hi => hn i (List.mem_append_left _ hi),
    fun i hi => hn i (List.mem_append_right _ hi)⟩, hc, hs, hcs⟩

section Parse

variable {s : Text} {d : Document} (h : parse s = .ok d)
include h

/-- What stands before a node stands before it in the source. -/
theorem between_of_mem {n : Node} (hn : n ∈ preorder d.root.children) :
    ∃ front back, n.Between s (front ++ n.trivia.before) back ∧
      n.place? = some (Text.bytes front) := by
  rw [← map_node_sitesIn] at hn
  obtain ⟨σ, hσ, rfl⟩ := List.mem_map.1 hn
  obtain ⟨hread, hs, _⟩ := readable_of_parse h
  obtain ⟨c, front, back, htext, hoffset⟩ :=
    exists_span_of_site (settled_of_parse h) hread.shaped hσ
  rw [Nat.zero_add] at hoffset
  refine ⟨front,
    (if σ.node.kind.isStatement && (c || !σ.following.isEmpty) then [';'] else [])
      ++ renderAll c σ.following ++ back ++ d.root.trivia.after, ⟨?_, ?_⟩, ?_⟩
  · rw [hs, htext, Node.span, Node.raw]
    simp only [List.append_assoc]
  · rw [hoffset, Text.bytes_append]
  · rw [Node.place?, hoffset, Option.map_some, Nat.add_sub_cancel]

/-- A node that starts after another one has its place after it: only blanks and semicolons stand
    before a node, and with none of them does a node start. -/
theorem place_lt_of_precedes {m n : Node} (hm : m ∈ preorder d.root.children)
    (hn : n ∈ preorder d.root.children) (hmn : m.Precedes n) :
    ∃ p q, m.place? = some p ∧ n.place? = some q ∧ p < q := by
  obtain ⟨front, back, hb, hp⟩ := between_of_mem h hm
  obtain ⟨front', back', hb', hp'⟩ := between_of_mem h hn
  obtain ⟨i, j, hi, hj, hij⟩ := hmn
  rw [hb.offset, Option.some.injEq] at hi
  rw [hb'.offset, Option.some.injEq] at hj
  refine ⟨_, _, hp, hp', ?_⟩
  by_contra hle
  -- Else the first character of `m` would stand among what stands before `n`.
  have htext := hb'.text.symm.trans hb.text
  rw [List.append_assoc, List.append_assoc, List.append_assoc] at htext
  obtain ⟨u, hu, hrest⟩ := Text.exists_of_append_eq htext
    (by rw [Text.bytes_append]; omega)
  rw [hu, Text.bytes_append] at hi
  rw [Text.bytes_append] at hj
  obtain ⟨v, hv, hrest⟩ := Text.exists_of_append_eq hrest.symm (by omega)
  obtain ⟨c, t, hc, hcf⟩ := (written_of_parse h hm).start
  rw [hc] at hrest
  cases v with
  | nil =>
    rw [hv, List.append_nil] at hj
    omega
  | cons b v =>
    obtain rfl : c = b := (List.cons.inj hrest).1
    have hfiller := (written_of_parse h hn).before c (by rw [hv]; simp)
    rw [hcf] at hfiller
    cases hfiller

theorem ordered_of_parse : Ordered d.root.children := by
  have hids := Document.ids_of_parse h
  rw [Document.ids_eq] at hids
  have hsorted : (d.root.id :: idsIn d.root.children).Pairwise (· < ·) := by
    rw [hids]
    exact List.pairwise_lt_range
  exact (List.pairwise_cons.1 hsorted).2

end Parse

namespace NewlineAfterSemicolon

/-! ## Newlines in a forest -/

theorem span_updateWhere (newline : Text) (selected : Nat → Bool) (n : Node) (ended : Bool) :
    (n.updateWhere selected (putNewline newline)).span ended
      = (if selected n.id then newline else [])
        ++ { n with children := updateAll selected (putNewline newline) n.children }.span ended := by
  have hc := inPlace_putNewline newline
  rw [Node.span, Node.span, kind_updateWhere, ← List.append_assoc, hc.updateWhere_eq]
  congr 1
  split
  · exact raw_putNewline newline { n with children := _ }
  · rfl

/-- The text of a forest, after newlines were put before some of its nodes. -/
theorem inserted_updateAll (newline : Text) (selected : Nat → Bool) {closed : Bool}
    {start number : Nat} {ns : List Node} (h : Settled closed start number ns) (hs : ShapedIn ns) :
    Inserted newline start (placesIn selected ns) (renderAll closed ns)
      (renderAll closed (updateAll selected (putNewline newline) ns)) := by
  induction ns using forestInduction generalizing closed start number with
  | nil => rw [updateAll_nil, placesIn_nil]; exact .rest _ _
  | cons n ns below after =>
    obtain ⟨hn, hc, hs⟩ := shapedIn_cons.1 hs
    have hplace := h.place?_eq
    have hafter := after h.tail hs
    rw [updateAll_cons, renderAll_cons_span, renderAll_cons_span, isEmpty_updateAll,
      span_updateWhere, placesIn_cons, hplace]
    generalize (closed || !ns.isEmpty) = ended at hafter ⊢
    -- Inside the node, newlines are put in between its braces.
    have hinside : Inserted newline start (placesIn selected n.children) (n.span ended)
        ({ n with children := updateAll selected (putNewline newline) n.children }.span ended) := by
      by_cases hb : n.kind.hasBlock
      · have hbrace : '{'.utf8Size = 1 := by decide
        have hchildren : Settled n.trivia.semicolon
            (start + Text.bytes (n.trivia.before ++ n.kind.head n.trivia ++ ['{'])) (number + 1)
            n.children := by
          simpa [hbrace, Nat.add_assoc] using h.children
        rw [span_of_hasBlock hb hn.notRoot, @span_of_hasBlock { n with children := _ } hb hn.notRoot]
        exact ((below hchildren hc).append_right _).append_left _
      · rw [Bool.not_eq_true] at hb
        rw [span_of_not_hasBlock hb, @span_of_not_hasBlock { n with children := _ } hb, hn.leaf hb,
          placesIn_nil]
        exact .rest _ _
    have hboth := hinside.append hafter
    split
    · simpa using Inserted.put (i := start) [] hboth
    · exact hboth

theorem head_lt_lackingIn {n : Node} {ns : List Node} (h : Ordered (n :: ns)) {i : Nat}
    (hi : i ∈ lackingIn (n :: ns)) : n.id < i := by
  obtain ⟨⟨hc, hs⟩, _⟩ := ordered_cons h
  rcases mem_lackingIn_cons.1 hi with ⟨f, hf, rfl⟩ | hi | hi
  · exact hs _ (mem_idsIn_of_finding? hf)
  · exact hc i (mem_idsIn_of_mem_lackingIn hi)
  · exact hs i (mem_idsIn_of_mem_lackingIn hi)

/-- What is found among siblings is about nodes after the first of them that is no comment. -/
theorem first_lt_lackingIn {ns : List Node} (h : Ordered ns) (hs : ShapedIn ns) {m : Node}
    (hm : firstNonComment? ns = some m) {i : Nat} (hi : i ∈ lackingIn ns) : m.id < i := by
  induction ns with
  | nil => cases hm
  | cons n ns ih =>
    rw [firstNonComment?, List.find?_cons] at hm
    cases hn : n.kind.isComment with
    | false =>
      rw [hn] at hm
      obtain rfl : n = m := Option.some.inj hm
      exact head_lt_lackingIn h hi
    | true =>
      rw [hn] at hm
      obtain ⟨hshaped, _, hs⟩ := shapedIn_cons.1 hs
      obtain ⟨_, _, hns, _⟩ := ordered_cons h
      rw [lackingIn_cons, finding?_of_isComment hn,
        hshaped.leaf (Kind.not_hasBlock_of_isComment hn), lackingIn_nil] at hi
      exact ih hns hs hm hi

/-- Findings come in the order of the nodes that they are about: a statement has nothing below it,
    and what follows it is found after the node that is looked at for it. -/
theorem pairwise_lackingIn {ns : List Node} (h : Ordered ns) (hs : ShapedIn ns) :
    (lackingIn ns).Pairwise (· < ·) := by
  induction ns using forestInduction with
  | nil => rw [lackingIn_nil]; exact List.Pairwise.nil
  | cons n ns below after =>
    obtain ⟨_, hc, hns, hcs⟩ := ordered_cons h
    obtain ⟨hn, hsc, hsn⟩ := shapedIn_cons.1 hs
    rw [lackingIn_cons]
    cases hf : finding? n ns with
    | none =>
      rw [Option.toList_none, List.map_nil, List.nil_append]
      refine List.pairwise_append.2 ⟨below hc hsc, after hns hsn, ?_⟩
      intro i hi j hj
      exact hcs i (mem_idsIn_of_mem_lackingIn hi) j (mem_idsIn_of_mem_lackingIn hj)
    | some f =>
      obtain ⟨_, he, hfirst, _⟩ := finding?_eq_some.1 hf
      rw [hn.leaf (isStatement_of_isEligible he).2, lackingIn_nil]
      refine List.pairwise_cons.2 ⟨?_, after hns hsn⟩
      intro i hi
      exact first_lt_lackingIn hns hsn hfirst hi

/-! ## The fixed text -/

section Parse

variable {s : Text} {d : Document} (h : parse s = .ok d)
include h

/-- The nodes that a newline is missing before, in pre-order, are the ones that findings are about,
    in the order of the findings. -/
theorem map_id_filter_lacking :
    ((preorder d.root.children).filter (fun n => decide (n.id ∈ lacking d))).map (·.id)
      = lacking d := by
  obtain ⟨hread, _⟩ := readable_of_parse h
  have hordered := ordered_of_parse h
  have hids : ((preorder d.root.children).filter (fun n => decide (n.id ∈ lacking d))).map (·.id)
      = (idsIn d.root.children).filter fun i => decide (i ∈ lacking d) := by
    rw [idsIn, List.filter_map]
    rfl
  rw [hids]
  refine (hordered.filter _).eq_of_mem_iff (pairwise_lackingIn hordered hread.shaped) ?_
  intro i
  rw [List.mem_filter, decide_eq_true_eq]
  exact ⟨And.right, fun hi => ⟨mem_idsIn_of_mem_lackingIn hi, hi⟩⟩

/-- The places of the nodes that a newline is missing before. -/
theorem map_place?_lacking :
    (lacking d).map d.place?
      = (placesIn (fun i => decide (i ∈ lacking d)) d.root.children).map some := by
  have hplace : ∀ n ∈ (preorder d.root.children).filter fun n => decide (n.id ∈ lacking d),
      d.place? n.id = n.place? ∧ n.place?.isSome := by
    intro n hn
    have hmem := List.mem_of_mem_filter hn
    obtain ⟨_, _, _, hp⟩ := between_of_mem h hmem
    have hnode := Document.node?_of_mem (Document.numbered_of_parse h)
      (Document.nodes_eq d ▸ List.mem_cons_of_mem _ hmem)
    rw [Document.place?, hnode, Option.bind_some, hp]
    exact ⟨rfl, rfl⟩
  conv => lhs; rw [← map_id_filter_lacking h]
  rw [placesIn, List.map_filterMap_some_eq_filter_map_isSome, List.map_map]
  generalize (preorder d.root.children).filter (fun n => decide (n.id ∈ lacking d)) = ms at hplace
  have hsome : (ms.map Node.place?).filter Option.isSome = ms.map Node.place? := by
    rw [List.filter_eq_self]
    intro p hp
    obtain ⟨n, hn, rfl⟩ := List.mem_map.1 hp
    exact (hplace n hn).2
  rw [hsome]
  exact List.map_congr_left fun n hn => (hplace n hn).1

end Parse

/-- What fixing does to the text of a sheet. -/
structure Insertion (s : Text) (d : Document) (reports : List Diagnostic) (places : List Nat) :
    Prop where
  report : run (some "always") .report d = (d, .completed reports 0)
  /-- A place is where the text before the node starts that is looked at for a statement. -/
  places_eq : reports.map (fun r => (r.node.bind (inspected? d)).bind d.place?) = places.map some
  increasing : places.Pairwise (· < ·)
  /-- A sheet with both line endings has the longer one. -/
  newline : (crLf <:+: s → d.newline = crLf) ∧ (¬ crLf <:+: s → d.newline = lineFeed)
  /-- At each place a newline is put in, and nothing else changes. -/
  text : Inserted d.newline 0 places s (run (some "always") .fix d).1.render

/-- Fixing puts newlines in where they are reported to be missing, and leaves the rest of the text
    as it is. -/
theorem fix_inserts_only_newlines {s : Text} {d : Document} (h : parse s = .ok d) :
    ∃ reports places, Insertion s d reports places := by
  have hnum := Document.numbered_of_parse h
  obtain ⟨hread, hs, _⟩ := readable_of_parse h
  refine ⟨(findings d).map (·.diagnostic d),
    placesIn (fun i => decide (i ∈ lacking d)) d.root.children, ?_, ?_, ?_, ?_, ?_⟩
  · rw [run_always, walk_report hnum]
  · rw [← map_place?_lacking h, lacking, List.map_map, List.map_map]
    refine List.map_congr_left fun f hf => ?_
    show (inspected? d f.statement.id).bind d.place? = d.place? f.inspected.id
    rw [inspected?_of_mem_findings hnum hf, Option.bind_some]
  · rw [placesIn, List.pairwise_filterMap]
    refine ((pairwise_precedes_of_parse h).filter _).imp_of_mem ?_
    intro m n hm hn hmn p hp q hq
    obtain ⟨p', q', hp', hq', hlt⟩ :=
      place_lt_of_precedes h (List.mem_of_mem_filter hm) (List.mem_of_mem_filter hn) hmn
    rw [hp', Option.some.injEq] at hp
    rw [hq', Option.some.injEq] at hq
    rwa [← hp, ← hq]
  · rw [Document.newline, source_of_parse h, ← hasCrLf_iff]
    exact ⟨fun hc => if_pos hc, fun hc => if_neg hc⟩
  · rw [run_always, walk_fix hnum, render_broken h, hs]
    exact (inserted_updateAll _ _ (settled_of_parse h) hread.shaped).append_right _

/-- A sheet with statements that other nodes follow on the same line, behind comments, a stray
    semicolon and a character of two bytes, in a block and after it. -/
def joinedSheet : Text :=
  "@a \"é\";/* b */ c \x7b@d e; /* f */;@g h;i: j;\r\n\x7d @k l;@m n;".toList

theorem fix_inserts_only_newlines_joinedSheet :
    ∃ d reports, parse joinedSheet = .ok d ∧ Insertion joinedSheet d reports [15, 32, 38, 52] := by
  have hplaces : (parse joinedSheet).toOption.map (fun d =>
      (run (some "always") .report d).2.diagnostics.map fun r =>
        (r.node.bind (inspected? d)).bind d.place?)
      = some ([15, 32, 38, 52].map some) := by decide +kernel
  cases hd : parse joinedSheet with
  | error e =>
    rw [hd] at hplaces
    cases hplaces
  | ok d =>
    obtain ⟨reports, places, hi⟩ := fix_inserts_only_newlines hd
    rw [hd] at hplaces
    have hlist : (run (some "always") .report d).2.diagnostics.map
        (fun r => (r.node.bind (inspected? d)).bind d.place?) = [15, 32, 38, 52].map some :=
      Option.some.inj hplaces
    rw [hi.report] at hlist
    have hsame := List.map_injective_iff.2 (Option.some_injective Nat) (hi.places_eq.symm.trans hlist)
    exact ⟨d, reports, rfl, hsame ▸ hi⟩

end NewlineAfterSemicolon

end SheetLint
