import SheetLint.Proofs.Sheet.Numbering
import SheetLint.Proofs.Sheet.Padding
import SheetLint.Proofs.Sheet.Respelling

/-
  Blanks that are put before the nodes of a sheet, before each node its own. The text of the sheet
  so edited is read as the edited document: every node is found again with its number, among the
  same nodes and written in the same way, and only the offsets are new (`parse_spaced`). Padding
  keeps a forest readable, and a forest that is numbered in pre-order keeps its numbers when it is
  settled (`settleAll_unplaced`).
-/

namespace SheetLint

/-- Settling a forest that is numbered in pre-order changes its offsets only. -/
theorem settleAll_unplaced (closed : Bool) (start number : Nat) (ns : List Node)
    (h : idsIn ns = List.range' number (preorder ns).length) :
    everywhere Node.unplaced (settleAll closed start number ns)
      = everywhere Node.unplaced ns := by
  induction ns using forestInduction generalizing closed start number with
  | nil => rw [settleAll_nil]
  | cons n ns below after =>
    have hlen : (idsIn n.children).length = (preorder n.children).length := List.length_map _
    rw [idsIn_cons, preorder_cons, List.length_cons, List.length_append, List.range'_succ,
      ← List.range'_append_1, List.cons.injEq] at h
    obtain ⟨hid, hrest⟩ := h
    obtain ⟨hbelow, hafter⟩ := List.append_inj hrest (by rw [hlen, List.length_range'])
    rw [settleAll_cons, everywhere_cons, everywhere_cons, after _ _ _ hafter, Node.everywhere_eq,
      Node.everywhere_eq, Node.settle_eq, below _ _ _ hbelow, ← hid]
    rfl

namespace Document

/-- A node with blanks put before it, those for its number. -/
def space (blanks : Nat → Text) (n : Node) : Node :=
  { n with trivia := { n.trivia with before := blanks n.id ++ n.trivia.before } }

/-- The document with blanks put before each node below the root. -/
def spaced (d : Document) (blanks : Nat → Text) : Document :=
  d.updateWhere (· != 0) (space blanks)

end Document

theorem pads_space {blanks : Nat → Text} (hb : ∀ i, ∀ c ∈ blanks i, isBlank c) :
    Pads (Document.space blanks) := by
  refine ⟨⟨fun _ => rfl, fun _ _ => rfl⟩, fun n => ⟨blanks n.id, ?_, rfl⟩⟩
  intro c hc
  simp [isFiller, hb n.id c hc]

section Parse

variable {s : Text} {d : Document} (h : parse s = .ok d)
include h

/-- What the root of a sheet that was read says, and how it is written. -/
theorem root_of_parse :
    d.root
      = ⟨0, .root, { after := d.root.trivia.after, semicolon := d.root.trivia.semicolon }, some 0,
          d.root.children⟩ := by
  obtain ⟨_, _, hd⟩ := readable_of_parse h
  have hroot := congrArg Document.root hd
  rw [sheetOf, settled_of_parse h] at hroot
  exact hroot

variable (blanks : Nat → Text)

/-- Nothing is put before the root of a sheet. -/
theorem root_spaced :
    (d.spaced blanks).root
      = { d.root with children := updateAll (· != 0) (Document.space blanks) d.root.children } := by
  unfold Document.spaced Document.updateWhere
  rw [Node.updateWhere_eq, if_neg]
  rw [root_of_parse h]
  simp

theorem render_spaced :
    (d.spaced blanks).render
      = renderAll d.root.trivia.semicolon
          (updateAll (· != 0) (Document.space blanks) d.root.children)
        ++ d.root.trivia.after := by
  have hkind : d.root.kind = .root := by rw [root_of_parse h]
  unfold Document.render
  rw [Node.render_eq, root_spaced h, hkind]
  rfl

/-- Blanks that are put before the nodes of a sheet are read again as what stands before those
    nodes, and every node is read as it was. -/
theorem parse_spaced (hb : ∀ i, ∀ c ∈ blanks i, isBlank c) :
    ∃ e, parse (d.spaced blanks).render = .ok e ∧ e.size = (d.spaced blanks).size ∧
      e.root.everywhere Node.unplaced = (d.spaced blanks).root.everywhere Node.unplaced := by
  have hpads := pads_space hb
  obtain ⟨hread, _, hd⟩ := readable_of_parse h
  have hlen : (preorder (updateAll (· != 0) (Document.space blanks) d.root.children)).length
      = (preorder d.root.children).length := by
    rw [hpads.toInPlace.preorder_updateAll, List.length_map]
  have hids : idsIn d.root.children = List.range' 1 (preorder d.root.children).length := by
    have := Document.idsIn_settleAll d.root.trivia.semicolon 0 1 d.root.children
    rwa [settled_of_parse h] at this
  rw [render_spaced h]
  refine ⟨_, parse_of_readable (hpads.readable _ hread), ?_, ?_⟩
  · have hsize : d.size = 1 + (preorder d.root.children).length := congrArg Document.size hd
    show 1 + (preorder (updateAll _ _ _)).length = d.size
    rw [hlen, hsize]
  · have hsettle := settleAll_unplaced d.root.trivia.semicolon 0 1
      (updateAll (· != 0) (Document.space blanks) d.root.children)
      (by rw [hpads.toInPlace.idsIn_updateAll, hlen, hids])
    rw [root_spaced h, Node.everywhere_eq, Node.everywhere_eq, sheetOf]
    dsimp only
    rw [hsettle]
    conv => rhs; rw [root_of_parse h]

end Parse

/-- A sheet with a node after each kind of place where one may start: the start of the sheet, a
    brace of either kind, a semicolon and the end of a comment. -/
def closeSheet : Text := "@a b\x7bc:d;/*e*/@f g\x7d;h\x7b\x7d@i".toList

/-- Blanks of every sort, more before the later nodes, none before some. -/
def someBlanks (i : Nat) : Text := (List.replicate i [' ', '\t', '\r', '\x0c', '\n']).flatten.drop 4

theorem parse_spaced_closeSheet :
    (∀ i, ∀ c ∈ someBlanks i, isBlank c) ∧ ∃ d e, parse closeSheet = .ok d ∧
      parse (d.spaced someBlanks).render = .ok e ∧ e.size = 7 ∧
      e.root.everywhere Node.unplaced = (d.spaced someBlanks).root.everywhere Node.unplaced := by
  have hb : ∀ i, ∀ c ∈ someBlanks i, isBlank c := by
    intro i c hc
    obtain ⟨l, hl, hc⟩ := List.mem_flatten.1 (List.mem_of_mem_drop hc)
    rw [List.eq_of_mem_replicate hl] at hc
    exact List.all_eq_true.1 (by decide : [' ', '\t', '\r', '\x0c', '\n'].all isBlank) c hc
  have hsize : (parse closeSheet).toOption.map Document.size = some 7 := by decide +kernel
  cases hd : parse closeSheet with
  | error e =>
    rw [hd] at hsize
    cases hsize
  | ok d =>
    rw [hd] at hsize
    obtain ⟨e, he, hes, hsame⟩ := parse_spaced hd someBlanks hb
    exact ⟨hb, d, e, rfl, he, hes.trans (Option.some.inj hsize), hsame⟩

end SheetLint
