import SheetLint.Proofs.Sheet.Numbering
import SheetLint.Rule.NewlineAfterSemicolon

/-
  What the rule finds in a forest, and why fixing one finding leaves the others as they are. Two
  findings are never about the same node (`nodup_lackingIn`). What is looked at are the first two
  characters of a node's text, and a newline that is put somewhere inside the node comes after
  them, behind a statement and its semicolon (`take_renderAll_updateAll`). So a finding goes away
  exactly when the newline is put before its own node (`finding?_updateWhere`).
-/

namespace SheetLint

theorem Node.isEligible_iff {n : Node} {following : List Node} :
    n.isEligible following ↔ following ≠ [] ∧ ∃ r, n.kind = .atRule r ∧ r.hasBlock = false ∧
      r.params ≠ [] ∧ r.isMixin = false ∧ r.isVariable = false ∧
      isDetachedCall r n.trivia = false := by
  unfold isEligible isStandardAtRule
  cases n.kind with
  | atRule r => cases hb : r.hasBlock <;> simp [Kind.hasBlock, hb, and_assoc]
  | _ => simp

theorem mem_of_firstNonComment? {ns : List Node} {m : Node} (h : firstNonComment? ns = some m) :
    m ∈ ns := List.mem_of_find?_eq_some h

namespace NewlineAfterSemicolon

/-! ## Missing newlines -/

theorem isSome_skip?_newline (s : Text) :
    (Gap.newline.skip? s).isSome ↔ lineFeed <+: s ∨ crLf <+: s := by
  unfold Gap.skip?
  split <;> simp_all [lineFeed, crLf, List.cons_prefix_iff]

/-- A newline is missing where a text starts, and starts with neither of the two line endings. -/
theorem lacksNewline_iff (n : Node) :
    lacksNewline n ↔ n.raw ≠ [] ∧ ¬ lineFeed <+: n.raw ∧ ¬ crLf <+: n.raw := by
  rw [← not_or, ← isSome_skip?_newline]
  simp [lacksNewline, SpacingCheck.afterOneOnly, SpacingCheck.judge, Boundary.ahead,
    Expectation.appliesTo, Expectation.requires]

/-- Two characters decide whether a newline is missing. -/
theorem lacksNewline_congr {m n : Node} (h : m.raw.take 2 = n.raw.take 2) :
    lacksNewline m = lacksNewline n := by
  have hstart (p : Text) (hp : p.length ≤ 2) : p <+: m.raw ↔ p <+: n.raw := by
    have hm := @List.prefix_take_iff _ p m.raw 2
    have hn := @List.prefix_take_iff _ p n.raw 2
    rw [h, hn] at hm
    tauto
  have hempty (s : Text) : s = [] ↔ s.take 2 = [] := by simp
  rw [Bool.eq_iff_iff, lacksNewline_iff, lacksNewline_iff, hstart _ (by decide),
    hstart _ (by decide), ne_eq, ne_eq, hempty, h, ← hempty]

theorem inPlace_putNewline (newline : Text) : InPlace (putNewline newline) :=
  ⟨fun _ => rfl, fun _ _ => rfl⟩

theorem render_putNewline (newline : Text) (n : Node) :
    (putNewline newline n).render = n.render := by
  rw [Node.render_eq, Node.render_eq n]
  cases hk : n.kind <;> simp [putNewline, hk, Kind.head]

theorem raw_putNewline (newline : Text) (n : Node) :
    (putNewline newline n).raw = newline ++ n.raw := by
  rw [Node.raw, render_putNewline]
  exact List.append_assoc newline n.trivia.before n.render

theorem lacksNewline_putNewline {newline : Text} (h : newline = lineFeed ∨ newline = crLf)
    (n : Node) : lacksNewline (putNewline newline n) = false := by
  rw [← Bool.not_eq_true, lacksNewline_iff, raw_putNewline]
  rintro ⟨_, hl, hc⟩
  rcases h with rfl | rfl
  · exact hl (List.prefix_append _ _)
  · exact hc (List.prefix_append _ _)

/-! ## Findings -/

theorem finding?_eq_some {n : Node} {following : List Node} {f : Finding} :
    finding? n following = some f ↔ f.statement = n ∧ n.isEligible following ∧
      firstNonComment? following = some f.inspected ∧ lacksNewline f.inspected := by
  obtain ⟨a, b⟩ := f
  unfold finding?
  cases firstNonComment? following with
  | none => simp
  | some m =>
    simp only [Option.ite_none_right_eq_some, Option.some.injEq, Finding.mk.injEq]
    constructor
    · rintro ⟨he, hl, rfl, rfl⟩
      exact ⟨rfl, he, rfl, hl⟩
    · rintro ⟨rfl, he, rfl, hl⟩
      exact ⟨he, hl, rfl, rfl⟩

/-- What the rule finds in a forest, in pre-order. -/
def findingsIn (ns : List Node) : List Finding :=
  (sitesIn ns).filterMap fun s => finding? s.node s.following

/-- The numbers of the nodes that a newline is missing before. -/
def lackingIn (ns : List Node) : List Nat := (findingsIn ns).map (·.inspected.id)

@[simp] theorem lackingIn_nil : lackingIn [] = [] := by
  rw [lackingIn, findingsIn, sitesIn_nil]
  rfl

theorem findingsIn_cons (n : Node) (ns : List Node) :
    findingsIn (n :: ns) = (finding? n ns).toList ++ (findingsIn n.children ++ findingsIn ns) := by
  rw [findingsIn, sitesIn_cons, List.filterMap_cons, List.filterMap_append]
  cases finding? n ns <;> rfl

theorem lackingIn_cons (n : Node) (ns : List Node) :
    lackingIn (n :: ns)
      = (finding? n ns).toList.map (·.inspected.id)
        ++ (lackingIn n.children ++ lackingIn ns) := by
  rw [lackingIn, findingsIn_cons, List.map_append, List.map_append]
  rfl

/-- The node that a finding is about is a sibling of its statement, or a newline is missing before
    it further below or further on. -/
theorem mem_lackingIn_cons {i : Nat} {n : Node} {ns : List Node} :
    i ∈ lackingIn (n :: ns) ↔
      (∃ f, finding? n ns = some f ∧ f.inspected.id = i) ∨ i ∈ lackingIn n.children ∨
        i ∈ lackingIn ns := by
  rw [lackingIn_cons, List.mem_append, List.mem_append]
  refine or_congr_left ?_
  cases finding? n ns <;> simp [eq_comm]

theorem mem_idsIn_of_finding? {n : Node} {ns : List Node} {f : Finding}
    (h : finding? n ns = some f) : f.inspected.id ∈ idsIn ns := by
  obtain ⟨_, _, hf, _⟩ := finding?_eq_some.1 h
  exact id_mem_idsIn (mem_of_firstNonComment? hf)

theorem mem_idsIn_of_mem_lackingIn {i : Nat} {ns : List Node} (h : i ∈ lackingIn ns) :
    i ∈ idsIn ns := by
  induction ns using forestInduction with
  | nil => rw [lackingIn_nil] at h; exact absurd h List.not_mem_nil
  | cons n ns below after =>
    rw [idsIn_cons, List.mem_cons, List.mem_append]
    rcases mem_lackingIn_cons.1 h with ⟨f, hf, rfl⟩ | h | h
    · exact Or.inr (Or.inr (mem_idsIn_of_finding? hf))
    · exact Or.inr (Or.inl (below h))
    · exact Or.inr (Or.inr (after h))

theorem mem_findingsIn_iff {f : Finding} {ns : List Node} :
    f ∈ findingsIn ns ↔ ∃ s ∈ sitesIn ns, finding? s.node s.following = some f :=
  List.mem_filterMap

theorem head_not_lackingIn {n : Node} {ns : List Node} (hd : (idsIn (n :: ns)).Nodup) :
    n.id ∉ lackingIn (n :: ns) := by
  obtain ⟨⟨hc, hs⟩, _⟩ := nodup_idsIn_cons.1 hd
  rw [mem_lackingIn_cons]
  rintro (⟨f, hf, hi⟩ | h | h)
  · exact hs (hi ▸ mem_idsIn_of_finding? hf)
  · exact hc (mem_idsIn_of_mem_lackingIn h)
  · exact hs (mem_idsIn_of_mem_lackingIn h)

theorem finding?_of_isComment {n : Node} (h : n.kind.isComment) (ns : List Node) :
    finding? n ns = none := by
  rw [Option.eq_none_iff_forall_ne_some]
  intro f hf
  obtain ⟨_, he, _⟩ := finding?_eq_some.1 hf
  obtain ⟨_, r, hr, _⟩ := Node.isEligible_iff.1 he
  rw [hr] at h
  cases h

/-- Only what stands before the siblings can be about the first of them that is no comment. -/
theorem first_not_lackingIn {ns : List Node} (hd : (idsIn ns).Nodup) {m : Node}
    (h : firstNonComment? ns = some m) : m.id ∉ lackingIn ns := by
  induction ns with
  | nil => rw [lackingIn_nil]; exact List.not_mem_nil
  | cons n ns ih =>
    by_cases hn : n.kind.isComment
    · have hm : firstNonComment? ns = some m := by
        rw [firstNonComment?, List.find?_cons, hn] at h
        exact h
      obtain ⟨_, _, hs, hdisj⟩ := nodup_idsIn_cons.1 hd
      rw [mem_lackingIn_cons, finding?_of_isComment hn]
      rintro (⟨f, hf, _⟩ | hi | hi)
      · cases hf
      · exact hdisj _ (mem_idsIn_of_mem_lackingIn hi) (id_mem_idsIn (mem_of_firstNonComment? hm))
      · exact ih hs hm hi
    · rw [Bool.not_eq_true] at hn
      rw [firstNonComment?, List.find?_cons, hn] at h
      obtain rfl : n = m := Option.some.inj h
      exact head_not_lackingIn hd

/-- Different findings are about different nodes. -/
theorem nodup_lackingIn {ns : List Node} (hd : (idsIn ns).Nodup) : (lackingIn ns).Nodup := by
  induction ns using forestInduction with
  | nil => rw [lackingIn_nil]; exact List.nodup_nil
  | cons n ns below after =>
    obtain ⟨⟨_, _⟩, hc, hs, hdisj⟩ := nodup_idsIn_cons.1 hd
    have hrest : (lackingIn n.children ++ lackingIn ns).Nodup := by
      rw [List.nodup_append]
      refine ⟨below hc, after hs, ?_⟩
      intro i hi j hj hij
      subst hij
      exact hdisj i (mem_idsIn_of_mem_lackingIn hi) (mem_idsIn_of_mem_lackingIn hj)
    rw [lackingIn_cons]
    cases hf : finding? n ns with
    | none => exact hrest
    | some f =>
      obtain ⟨_, _, hfirst, _⟩ := finding?_eq_some.1 hf
      show (f.inspected.id :: (lackingIn n.children ++ lackingIn ns)).Nodup
      refine List.nodup_cons.2 ⟨?_, hrest⟩
      intro hi
      rcases List.mem_append.1 hi with hi | hi
      · exact hdisj _ (mem_idsIn_of_mem_lackingIn hi) (mem_idsIn_of_finding? hf)
      · exact first_not_lackingIn hs hfirst hi

/-- Below a node of a forest, a newline is missing where it is missing in the forest. -/
theorem mem_lackingIn_children {ns : List Node} (hd : (idsIn ns).Nodup) {m : Node}
    (hm : m ∈ preorder ns) {i : Nat} (hi : i ∈ idsIn m.children) (h : i ∈ lackingIn ns) :
    i ∈ lackingIn m.children := by
  induction ns using forestInduction with
  | nil => rw [preorder_nil] at hm; exact absurd hm List.not_mem_nil
  | cons n ns below after =>
    obtain ⟨_, hc, hs, hdisj⟩ := nodup_idsIn_cons.1 hd
    rcases mem_lackingIn_cons.1 h with ⟨f, hf, rfl⟩ | h | h
    · -- The node is one of the list, which is below none of the nodes.
      obtain ⟨_, _, hfirst, _⟩ := finding?_eq_some.1 hf
      have hmem := List.mem_cons_of_mem n (mem_of_firstNonComment? hfirst)
      exact absurd hi (id_not_mem_idsIn_children hd hmem hm)
    · have hin := mem_idsIn_of_mem_lackingIn h
      rcases mem_preorder_cons.1 hm with rfl | hm | hm
      · exact h
      · exact below hc hm h
      · exact absurd (mem_idsIn_of_children hm hi) (hdisj _ hin)
    · have hin := mem_idsIn_of_mem_lackingIn h
      rcases mem_preorder_cons.1 hm with rfl | hm | hm
      · exact absurd hin (hdisj _ hi)
      · exact absurd hin (hdisj _ (mem_idsIn_of_children hm hi))
      · exact after hs hm h

/-! ## Changes that leave the start of a text alone -/

/-- The nodes of a forest have numbers of their own, and those that are selected are of nodes that
    a newline is missing before. -/
structure Selects (selected : Nat → Bool) (ns : List Node) : Prop where
  nodup : (idsIn ns).Nodup
  lacking : ∀ i ∈ idsIn ns, selected i → i ∈ lackingIn ns

section Selects

variable {selected : Nat → Bool} {n : Node} {ns : List Node}

theorem Selects.head (h : Selects selected (n :: ns)) : selected n.id = false := by
  rw [← Bool.not_eq_true]
  intro hn
  exact head_not_lackingIn h.nodup (h.lacking n.id (id_mem_idsIn List.mem_cons_self) hn)

theorem Selects.children (h : Selects selected ns) (hm : n ∈ preorder ns) :
    Selects selected n.children := by
  refine ⟨nodup_idsIn_children h.nodup hm, ?_⟩
  intro i hi hs
  exact mem_lackingIn_children h.nodup hm hi (h.lacking i (mem_idsIn_of_children hm hi) hs)

/-- Where nothing is found about the first node, the siblings after it are among themselves. -/
theorem Selects.tail (h : Selects selected (n :: ns)) (hn : finding? n ns = none) :
    Selects selected ns := by
  obtain ⟨_, _, hd, hdisj⟩ := nodup_idsIn_cons.1 h.nodup
  refine ⟨hd, ?_⟩
  intro i hi hs
  have hin : i ∈ idsIn (n :: ns) := by
    rw [idsIn_cons]
    exact List.mem_cons_of_mem _ (List.mem_append_right _ hi)
  rcases mem_lackingIn_cons.1 (h.lacking i hin hs) with ⟨f, hf, _⟩ | hl | hl
  · rw [hn] at hf
    cases hf
  · exact absurd hi (hdisj _ (mem_idsIn_of_mem_lackingIn hl))
  · exact hl

end Selects

/-- Two texts are the same up to their second character. -/
def SameStart (s t : Text) : Prop := s.take 2 = t.take 2

theorem SameStart.append_left {s t : Text} (h : SameStart s t) (l : Text) :
    SameStart (l ++ s) (l ++ t) := by
  have htake (k : Nat) (hk : k ≤ 2) : s.take k = t.take k := by
    have := congrArg (List.take k) h
    rwa [List.take_take, List.take_take, Nat.min_eq_left hk] at this
  unfold SameStart
  rw [List.take_append, List.take_append, htake _ (by omega)]

theorem SameStart.append_right {s t : Text} (h : SameStart s t) (r : Text) :
    SameStart (s ++ r) (t ++ r) := by
  have hlen := congrArg List.length h
  rw [List.length_take, List.length_take] at hlen
  have hsub : 2 - s.length = 2 - t.length := by omega
  have hst : s.take 2 = t.take 2 := h
  unfold SameStart
  rw [List.take_append, List.take_append, hst, hsub]

theorem SameStart.of_long {s : Text} (h : 2 ≤ s.length) (r r' : Text) :
    SameStart (s ++ r) (s ++ r') := by
  unfold SameStart
  rw [List.take_append_of_le_length h, List.take_append_of_le_length h]

theorem SameStart.wrap {s t : Text} (h : SameStart s t) (k : Kind) :
    SameStart (k.wrap s) (k.wrap t) := by
  have hblock : SameStart (['{'] ++ s ++ ['}']) (['{'] ++ t ++ ['}']) :=
    (h.append_left _).append_right _
  unfold Kind.wrap
  split
  · exact h
  · split
    · exact hblock
    · exact rfl

/-- The start of a node's text is that of what stands before its children, or of theirs. -/
theorem SameStart.raw {n : Node} {cs : List Node}
    (h : SameStart (renderAll n.trivia.semicolon cs) (renderAll n.trivia.semicolon n.children)) :
    SameStart { n with children := cs }.raw n.raw := by
  unfold Node.raw
  rw [Node.render_eq, Node.render_eq n]
  exact (((h.append_right _).wrap _).append_left _).append_left _

/-- A statement that the rule looks at is at least one character long. -/
theorem length_render_of_isEligible {n : Node} {following : List Node}
    (h : n.isEligible following) : 0 < n.render.length := by
  obtain ⟨_, r, hr, _, hp, _⟩ := Node.isEligible_iff.1 h
  have := List.length_pos_iff.2 hp
  rw [Node.render_eq, hr, Kind.head]
  simp only [List.length_append]
  omega

theorem isStatement_of_isEligible {n : Node} {following : List Node}
    (h : n.isEligible following) : n.kind.isStatement ∧ n.kind.hasBlock = false := by
  obtain ⟨_, r, hr, hb, _⟩ := Node.isEligible_iff.1 h
  rw [hr, Kind.isStatement, Kind.hasBlock, hb]
  exact ⟨rfl, rfl⟩

/-- A change of nodes that a newline is missing before leaves the start of the text of a forest
    alone: a statement and its semicolon come first. -/
theorem Selects.sameStart {selected : Nat → Bool} {change : Node → Node} (hc : InPlace change)
    {ns : List Node} (h : Selects selected ns) (closed : Bool) :
    SameStart (renderAll closed (updateAll selected change ns)) (renderAll closed ns) := by
  induction ns using forestInduction generalizing closed with
  | nil => rw [updateAll_nil]; exact rfl
  | cons n ns below after =>
    have hn : n.updateWhere selected change
        = { n with children := updateAll selected change n.children } := by
      rw [hc.updateWhere_eq, h.head]
      rfl
    have hbelow := h.children (mem_preorder_of_mem List.mem_cons_self)
    have hraw : SameStart (n.updateWhere selected change).raw n.raw := by
      rw [hn]
      exact SameStart.raw (below hbelow _)
    have hkind : (n.updateWhere selected change).kind = n.kind := by rw [hn]
    rw [updateAll_cons, renderAll_cons, renderAll_cons, isEmpty_updateAll, hkind]
    cases hf : finding? n ns with
    | none =>
      have htail := after (h.tail hf) closed
      exact (htail.append_left _).trans ((hraw.append_right _).append_right _)
    | some f =>
      obtain ⟨_, he, _⟩ := finding?_eq_some.1 hf
      obtain ⟨hst, hb⟩ := isStatement_of_isEligible he
      obtain ⟨hne, _⟩ := Node.isEligible_iff.1 he
      have hsame : (n.updateWhere selected change).raw = n.raw := by
        rw [hn, Node.raw, Node.raw, Node.render_of_not_hasBlock hb,
          @Node.render_of_not_hasBlock { n with children := _ } hb]
      have hsemi :
          (if n.kind.isStatement && (closed || !ns.isEmpty) then [';'] else []) = [';'] := by
        simp [hst, hne]
      have hlong : 2 ≤ (n.raw ++ [';']).length := by
        have := length_render_of_isEligible he
        simp only [Node.raw, List.length_append, List.length_singleton]
        omega
      rw [hsame, hsemi]
      exact SameStart.of_long hlong _ _

/-! ## Findings after newlines were put somewhere -/

section Put

variable {newline : Text} {selected : Nat → Bool} {ns : List Node}

theorem kind_updateWhere (n : Node) :
    (n.updateWhere selected (putNewline newline)).kind = n.kind := by
  rw [(inPlace_putNewline newline).updateWhere_eq]
  split <;> rfl

theorem afterName_updateWhere (n : Node) :
    (n.updateWhere selected (putNewline newline)).trivia.afterName = n.trivia.afterName := by
  rw [(inPlace_putNewline newline).updateWhere_eq]
  split <;> rfl

theorem isEligible_updateWhere (n : Node) :
    (n.updateWhere selected (putNewline newline)).isEligible
        (updateAll selected (putNewline newline) ns)
      = n.isEligible ns := by
  unfold Node.isEligible Node.isStandardAtRule
  rw [kind_updateWhere, isEmpty_updateAll]
  simp only [isDetachedCall, afterName_updateWhere]

theorem firstNonComment?_updateAll :
    firstNonComment? (updateAll selected (putNewline newline) ns)
      = (firstNonComment? ns).map (·.updateWhere selected (putNewline newline)) := by
  rw [firstNonComment?, updateAll_eq_map, List.find?_map]
  simp only [Function.comp_def, kind_updateWhere]
  rfl

variable (hl : newline = lineFeed ∨ newline = crLf) (h : Selects selected ns)
include hl h

/-- A newline is missing before a node as long as none is put there. -/
theorem lacksNewline_updateWhere {m : Node} (hm : m ∈ preorder ns) :
    lacksNewline (m.updateWhere selected (putNewline newline))
      = (lacksNewline m && !selected m.id) := by
  rw [(inPlace_putNewline newline).updateWhere_eq]
  by_cases hs : selected m.id
  · rw [if_pos hs, hs, Bool.not_true, Bool.and_false]
    exact lacksNewline_putNewline hl { m with children := _ }
  · rw [Bool.not_eq_true] at hs
    rw [hs, Bool.not_false, Bool.and_true]
    exact lacksNewline_congr
      (SameStart.raw ((h.children hm).sameStart (inPlace_putNewline newline) _))

/-- A finding as it is after a change of its document. -/
def Finding.updateWhere (selected : Nat → Bool) (change : Node → Node) (f : Finding) : Finding :=
  ⟨f.statement.updateWhere selected change, f.inspected.updateWhere selected change⟩

/-- What is found at a site stays as long as no newline is put before the node it is about. -/
theorem finding?_updateWhere {s : Site} (hs : s ∈ sitesIn ns) :
    finding? (s.node.updateWhere selected (putNewline newline))
        (updateAll selected (putNewline newline) s.following)
      = ((finding? s.node s.following).filter (!selected ·.inspected.id)).map
          (Finding.updateWhere selected (putNewline newline)) := by
  rw [finding?, finding?, isEligible_updateWhere, firstNonComment?_updateAll]
  cases hf : firstNonComment? s.following with
  | none => simp
  | some m =>
    obtain ⟨before, after, hm⟩ := List.append_of_mem (mem_of_firstNonComment? hf)
    have hsite : m ∈ preorder ns := by
      rw [← map_node_sitesIn]
      exact List.mem_map_of_mem (site_of_following hs hm)
    simp only [Option.map_some]
    rw [lacksNewline_updateWhere hl h hsite]
    by_cases he : s.node.isEligible s.following
    · cases hm : selected m.id <;> cases lacksNewline m <;>
        simp [he, hm, Option.filter_some, Finding.updateWhere]
    · simp [he]

/-- Nothing is found any more when newlines were put wherever one was missing. -/
theorem findingsIn_updateAll_eq_nil (hall : ∀ i ∈ lackingIn ns, selected i) :
    findingsIn (updateAll selected (putNewline newline) ns) = [] := by
  rw [findingsIn, (inPlace_putNewline newline).sitesIn_updateAll, List.filterMap_map,
    List.filterMap_eq_nil_iff]
  intro s hs
  rw [Function.comp_apply, finding?_updateWhere hl h hs]
  cases hf : finding? s.node s.following with
  | none => rfl
  | some f =>
    have hmem : f.inspected.id ∈ lackingIn ns :=
      List.mem_map_of_mem (mem_findingsIn_iff.2 ⟨s, hs, hf⟩)
    rw [Option.filter_some, hall _ hmem]
    rfl

end Put

end NewlineAfterSemicolon

end SheetLint
