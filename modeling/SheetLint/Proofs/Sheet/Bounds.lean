import SheetLint.Proofs.Sheet.Numbering
import SheetLint.Proofs.Sheet.Padding

/-
  How large a document is that was read. Each of its nodes has a piece of the source to itself, so
  there are no more of them, besides the root, than bytes in the source; and each block that a node
  is in was opened by a brace of its own (`length_nodes_le`, `depth_le`).
-/

namespace SheetLint

mutual

/-- How deep blocks are nested in a node, with the node itself if it has one. -/
def Node.depth : Node → Nat
  | ⟨_, k, _, _, children⟩ => depthIn children + if k.hasBlock then 1 else 0

/-- How deep blocks are nested in a list of siblings. -/
def depthIn : List Node → Nat
  | [] => 0
  | n :: ns => max n.depth (depthIn ns)

end

theorem Node.depth_eq (n : Node) :
    n.depth = depthIn n.children + if n.kind.hasBlock then 1 else 0 := by
  cases n; rw [depth]

/-- How deep blocks are nested in a document. The root is none of them. -/
def Document.depth (d : Document) : Nat := depthIn d.root.children

theorem length_preorder_le (closed : Bool) {ns : List Node} (h : ShapedIn ns) :
    (preorder ns).length ≤ (piecesOf closed ns).length := by
  induction ns using forestInduction generalizing closed with
  | nil => simp
  | cons n ns below after =>
    obtain ⟨hn, hc, hs⟩ := shapedIn_cons.1 h
    have hafter := after closed hs
    have hnode : (preorder n.children).length + 1 ≤ (n.pieces (closed || !ns.isEmpty)).length := by
      rw [Node.pieces_eq]
      cases hb : n.kind.hasBlock with
      | true =>
        have := below n.trivia.semicolon hc
        simp only [if_true, List.length_cons, List.length_append]
        omega
      | false =>
        rw [hn.leaf hb, preorder_nil]
        exact Nat.le_refl 1
    rw [preorder_cons, piecesOf_cons, List.length_cons, List.length_append, List.length_append]
    omega

theorem Fit.length_le {after : Text} {ps : List Piece} (h : Fit after ps) :
    ps.length ≤ Text.bytes (textOf ps) := by
  induction ps with
  | nil => exact Nat.zero_le _
  | cons p ps ih =>
    have hlen := List.length_pos_iff.2 h.1.text_ne_nil
    have hbytes := Text.length_le_bytes p.text
    have htail := ih h.2
    rw [textOf_cons, Text.bytes_append, List.length_cons]
    omega

theorem depthIn_le_count (closed : Bool) {ns : List Node} (h : ShapedIn ns) :
    depthIn ns ≤ (renderAll closed ns).count '{' := by
  induction ns using forestInduction generalizing closed with
  | nil =>
    rw [depthIn]
    exact Nat.zero_le _
  | cons n ns below after =>
    obtain ⟨hn, hc, hs⟩ := shapedIn_cons.1 h
    have hafter := after closed hs
    have hnode : n.depth ≤ (n.span (closed || !ns.isEmpty)).count '{' := by
      rw [Node.depth_eq]
      cases hb : n.kind.hasBlock with
      | true =>
        have := below n.trivia.semicolon hc
        rw [span_of_hasBlock hb hn.notRoot]
        simp only [List.count_append, List.count_singleton_self, if_true]
        omega
      | false =>
        rw [hn.leaf hb, depthIn]
        exact Nat.zero_le _
    rw [depthIn, renderAll_cons_span, List.count_append]
    omega

namespace Document

variable {s : Text} {d : Document} (h : parse s = .ok d)
include h

theorem length_nodes_le : d.nodes.length ≤ Text.bytes s + 1 := by
  obtain ⟨hr, hs, _⟩ := readable_of_parse h
  have hpieces := length_preorder_le d.root.trivia.semicolon hr.shaped
  have htext := hr.fit.length_le
  rw [textOf_piecesOf _ _ hr.shaped] at htext
  have hbytes := congrArg Text.bytes hs
  rw [Text.bytes_append] at hbytes
  rw [nodes_eq, List.length_cons]
  omega

theorem depth_le : d.depth ≤ s.count '{' := by
  obtain ⟨hr, hs, _⟩ := readable_of_parse h
  have hdepth := depthIn_le_count d.root.trivia.semicolon hr.shaped
  have hcount := congrArg (List.count '{') hs
  rw [List.count_append] at hcount
  rw [depth]
  omega

end Document

end SheetLint
