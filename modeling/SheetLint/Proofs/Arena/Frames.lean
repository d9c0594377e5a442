import SheetLint.Proofs.Arena.Table

/-
  Documents under way. While a sheet is read, the innermost open block and the blocks around it are
  a tree already: each of them is the last child of the next. `table_push` and `table_note` say what
  becomes of the table of that tree when the innermost block takes up a node, and when something is
  noted in its trivia.
-/

namespace SheetLint

/-- The node of a block as far as it was read. -/
def Frame.node (f : Frame) : Node := f.close f.trivia.after

/-- The tree of the blocks around a node, which is the latest child of the innermost of them. -/
def unwind (n : Node) : List Frame → Node
  | [] => n
  | f :: around => unwind (f.push n).node around

/-- The numbers of open blocks and of what is in them but for the blocks that are still open. -/
def idsAround (around : List Frame) : List Nat :=
  around.flatMap fun f => f.id :: idsIn f.children.reverse

theorem Frame.children_push (f : Frame) (n : Node) :
    (f.push n).node.children = f.children.reverse ++ [n] := List.reverse_cons

theorem idsIn_unwind (n : Node) (around : List Frame) :
    (idsIn [unwind n around]).Perm (idsIn [n] ++ idsAround around) := by
  induction around generalizing n with
  | nil =>
    rw [idsAround, List.flatMap_nil, List.append_nil]
    exact .refl _
  | cons f around ih =>
    have hf : (idsIn [(f.push n).node]).Perm (idsIn [n] ++ f.id :: idsIn f.children.reverse) := by
      rw [idsIn_cons, f.children_push, idsIn_append, idsIn_nil, List.append_nil]
      exact (List.perm_append_comm.cons f.id).trans List.perm_middle.symm
    rw [idsAround, List.flatMap_cons, ← List.append_assoc]
    exact (ih _).trans (hf.append_right _)

section Update

variable {selected : Nat → Bool} {change : Node → Node}

/-- A change of nodes that are in none of the open blocks, but for what is still open. -/
theorem updateWhere_unwind {around : List Frame} (h : ∀ i ∈ idsAround around, selected i = false)
    (n : Node) :
    (unwind n around).updateWhere selected change
      = unwind (n.updateWhere selected change) around := by
  induction around generalizing n with
  | nil => rfl
  | cons f around ih =>
    rw [idsAround, List.flatMap_cons, List.forall_mem_append, List.forall_mem_cons] at h
    obtain ⟨⟨hf, hc⟩, ha⟩ := h
    have hpush : (f.push n).node.updateWhere selected change
        = (f.push (n.updateWhere selected change)).node := by
      have hid : selected (f.push n).node.id = false := hf
      have hcs : updateAll selected change (f.push n).node.children
          = (f.push (n.updateWhere selected change)).node.children := by
        rw [f.children_push, f.children_push, updateAll_eq_map, List.map_append,
          ← updateAll_eq_map, updateAll_of_unselected hc]
        rfl
      rw [Node.updateWhere_eq, hid, if_neg Bool.false_ne_true, hcs]
      rfl
    rw [unwind, ih ha, hpush]
    rfl

end Update

namespace Document

/-- The document of a sheet that is being read, with its innermost open node. -/
def underWay (source : Text) (size : Nat) (n : Node) (around : List Frame) : Document :=
  { source, root := unwind n around, size }

theorem ids_underWay (s : Text) (size : Nat) (n : Node) (around : List Frame) :
    (underWay s size n around).ids.Perm (idsIn [n] ++ idsAround around) := by
  rw [ids, nodes_eq_preorder]
  exact idsIn_unwind n around

theorem id_mem_underWay (s : Text) (size : Nat) (n : Node) (around : List Frame) :
    n.id ∈ (underWay s size n around).ids :=
  (ids_underWay s size n around).mem_iff.2
    (List.mem_append_left _ (id_mem_idsIn (List.mem_singleton_self n)))

section Table

variable {s : Text} {size : Nat} {around : List Frame}

/-- A change of the innermost open node. -/
theorem update_underWay {n : Node} (h : (underWay s size n around).Numbered)
    (change : Node → Node) :
    (underWay s size n around).update n.id change = underWay s size (change n) around := by
  -- No other node has the number of the innermost one, so nothing else is changed.
  have hnodup := (ids_underWay s size n around).nodup_iff.1 h.nodup
  obtain ⟨hn, _, hdisj⟩ := List.nodup_append.1 hnodup
  have hself : n.updateWhere (· == n.id) change = change n := by
    have hbelow : ∀ i ∈ idsIn n.children, (i == n.id) = false := by
      intro i hi
      rw [beq_eq_false_iff_ne]
      rintro rfl
      exact (nodup_idsIn_cons.1 hn).1.1 hi
    rw [Node.updateWhere_of_below hbelow, beq_self_eq_true, if_pos rfl]
  have haround : ∀ i ∈ idsAround around, (i == n.id) = false := by
    intro i hi
    rw [beq_eq_false_iff_ne]
    rintro rfl
    exact hdisj _ (id_mem_idsIn (List.mem_singleton_self n)) _ hi rfl
  rw [update, updateWhere, underWay, updateWhere_unwind haround, hself]
  rfl

variable {top : Frame} (h : (underWay s size top.node around).Ordered)
include h

theorem appendAt_underWay (kind : Kind) (trivia : Trivia) (offset : Nat) :
    (underWay s size top.node around).appendAt top.id kind trivia (some offset)
      = underWay s (size + 1)
          (top.push { id := size, kind, trivia, offset := some offset }).node around := by
  have hnode : ((underWay s size top.node around).added kind trivia (some offset)).withChild
      top.node = (top.push { id := size, kind, trivia, offset := some offset }).node := by
    have hcs := top.children_push { id := size, kind, trivia, offset := some offset }
    exact congrArg (fun cs => { top.node with children := cs }) hcs.symm
  have := update_underWay h.toNumbered
    ((underWay s size top.node around).added kind trivia (some offset)).withChild
  rw [hnode] at this
  exact congrArg (fun d : Document => { d with size := size + 1 }) this

/-- The innermost open block takes up a node. -/
theorem table_push (kind : Kind) (trivia : Trivia) (offset : Nat) :
    (underWay s size top.node around).table.append? top.id kind trivia (some offset)
      = some (underWay s (size + 1)
          (top.push { id := size, kind, trivia, offset := some offset }).node around).table := by
  rw [← appendAt_underWay h]
  exact table_appendAt h (id_mem_underWay _ _ _ _) kind trivia _

theorem ordered_push (kind : Kind) (trivia : Trivia) (offset : Nat) :
    (underWay s (size + 1)
      (top.push { id := size, kind, trivia, offset := some offset }).node around).Ordered := by
  rw [← appendAt_underWay h]
  exact h.appendAt (id_mem_underWay _ _ _ _) kind trivia _

/-- What is noted at the innermost open block. -/
theorem table_note (write : Trivia → Trivia) :
    (underWay s size top.node around).table.change? top.id
        (fun c => { c with trivia := write c.trivia })
      = some (underWay s size { top.node with trivia := write top.node.trivia } around).table := by
  have := table_change h (id_mem_underWay _ _ _ _) id write
  rwa [update_underWay h.toNumbered] at this

theorem ordered_note (write : Trivia → Trivia) :
    (underWay s size { top.node with trivia := write top.node.trivia } around).Ordered := by
  have hc : InPlace fun n => { n with trivia := write n.trivia } :=
    ⟨fun _ => rfl, fun _ _ => rfl⟩
  have hnote : ((underWay s size top.node around).update top.node.id
      fun n => { n with trivia := write n.trivia }).Ordered := h.updateWhere hc
  rwa [update_underWay h.toNumbered] at hnote

end Table

end Document

end SheetLint
