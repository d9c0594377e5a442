import Mathlib.Data.List.Forall2
import SheetLint.Proofs.Sheet.Reading

/-
  Blanks and semicolons that are put before the nodes of a sheet that was read. They are read again
  as what stands before those nodes, and nothing else is read differently (`Pads.readable`): where a
  node starts, what stands before it was taken up to its first other character.
-/

namespace SheetLint

/-! ## Padded pieces -/

/-- The second piece is the first one with more blanks and semicolons before it. What stands before
    a closing brace is not before a node, and stays. -/
inductive Padded : Piece → Piece → Prop
  | node {w : Text} (hw : ∀ c ∈ w, isFiller c) (k : Kind) (t : Trivia) (e : Ending) :
      Padded (.node k t e) (.node k { t with before := w ++ t.before } e)
  | closing (before : Text) : Padded (.closing before) (.closing before)

/-- Only a closing brace starts with one. -/
theorem Piece.FitsBefore.eq_closing {p : Piece} {r t : Text} (h : p.FitsBefore r)
    (ht : p.text ++ r = '}' :: t) : p = .closing [] := by
  have hread : readPiece ('}' :: t) = .ok (.piece (.closing []) t) := rfl
  rw [Piece.FitsBefore, ht, hread] at h
  exact (Step.piece.inj (Except.ok.inj h)).1.symm

theorem Piece.FitsBefore.text_ne_nil {p : Piece} {r : Text} (h : p.FitsBefore r) : p.text ≠ [] := by
  obtain ⟨_, ⟨c, t, hc, _⟩, _⟩ := h.spec
  rw [Piece.text_eq, hc]
  simp

/-- After a statement that no semicolon ends, the sheet or a block ends right away. -/
theorem ends_of_isLoose {p : Piece} {ps : List Piece} {after : Text}
    (h : p.FitsBefore (textOf ps ++ after)) (hp : p.isLoose) (hf : Fit after ps) :
    ps = [] ∧ after = [] ∨ ∃ qs, ps = .closing [] :: qs := by
  obtain ⟨_, _, hread⟩ := h.spec
  have hself := hread [] _ (fun _ => Or.inr rfl)
  have hloose : (p.withBefore []).isLoose := by cases p <;> exact hp
  cases ps with
  | nil =>
    refine Or.inl ⟨rfl, ?_⟩
    rcases readAfter_loose hself hloose with he | ⟨t, he⟩
    · exact he
    · rw [textOf_nil, List.nil_append] at he
      have hfiller : isFiller '}' := hf '}' (by rw [he]; exact List.mem_cons_self)
      exact absurd hfiller (by decide)
  | cons q qs =>
    obtain ⟨hq, _⟩ := hf
    rw [textOf_cons, List.append_assoc] at hself
    rcases readAfter_loose hself hloose with he | ⟨t, he⟩
    · exact absurd (List.append_eq_nil_iff.1 he).1 hq.text_ne_nil
    · exact Or.inr ⟨qs, by rw [hq.eq_closing he]⟩

theorem fit_of_padded {ps qs : List Piece} {after : Text} (h : List.Forall₂ Padded ps qs)
    (hf : Fit after ps) : Fit after qs := by
  induction h with
  | nil => exact hf
  | @cons p q ps qs hpq hrest ih =>
    obtain ⟨hp, hf⟩ := hf
    refine ⟨?_, ih hf⟩
    have hhead : p.isLoose → MayFollow (textOf qs ++ after) (textOf ps ++ after) := by
      intro hloose
      refine Or.inr ?_
      rcases ends_of_isLoose hp hloose hf with ⟨rfl, rfl⟩ | ⟨rs, rfl⟩
      · cases hrest
        rfl
      · cases hrest with
        | cons hclosing _ =>
          cases hclosing
          rfl
    have hfill := hp.spec.1
    cases hpq with
    | closing before => exact hp.change hfill hhead
    | node hw k t e =>
      refine hp.change ?_ hhead
      intro c hc
      rcases List.mem_append.1 hc with hc | hc
      · exact hw c hc
      · exact hfill c hc

/-! ## Padded trees -/

/-- A change that puts blanks and semicolons before a node. -/
structure Pads (change : Node → Node) : Prop extends InPlace change where
  pads : ∀ n, ∃ w : Text, (∀ c ∈ w, isFiller c) ∧
    change n = { n with trivia := { n.trivia with before := w ++ n.trivia.before } }

section Pads

variable {change : Node → Node} (h : Pads change) (selected : Nat → Bool)
include h

theorem Pads.updateWhere_eq (n : Node) :
    ∃ w : Text, (∀ c ∈ w, isFiller c) ∧
      n.updateWhere selected change
        = { n with
            trivia := { n.trivia with before := w ++ n.trivia.before }
            children := updateAll selected change n.children } := by
  rw [h.toInPlace.updateWhere_eq]
  by_cases hs : selected n.id
  · obtain ⟨w, hw, hc⟩ := h.pads n
    refine ⟨w, hw, ?_⟩
    rw [if_pos hs, hc]
  · refine ⟨[], by simp, ?_⟩
    rw [if_neg hs]
    rfl

theorem Pads.kind_updateWhere (n : Node) : (n.updateWhere selected change).kind = n.kind := by
  obtain ⟨w, _, hn⟩ := h.updateWhere_eq selected n
  rw [hn]

theorem Pads.flagAfter_updateAll (was closed : Bool) (ns : List Node) :
    flagAfter was closed (updateAll selected change ns) = flagAfter was closed ns := by
  induction ns generalizing was with
  | nil => rw [updateAll_nil]
  | cons n ns ih =>
    rw [updateAll_cons, flagAfter, flagAfter, ih, h.kind_updateWhere, isEmpty_updateAll]

theorem Pads.shapedIn_updateAll {ns : List Node} (hs : ShapedIn ns) :
    ShapedIn (updateAll selected change ns) := by
  intro m hm
  rw [h.toInPlace.preorder_updateAll, List.mem_map] at hm
  obtain ⟨n, hn, rfl⟩ := hm
  obtain ⟨hroot, hleaf, hsemi⟩ := hs n hn
  obtain ⟨w, _, he⟩ := h.updateWhere_eq selected n
  rw [he]
  refine ⟨hroot, ?_, ?_⟩
  · intro hb
    show updateAll selected change n.children = []
    rw [hleaf hb, updateAll_nil]
  · intro hb
    exact (hsemi hb).trans (h.flagAfter_updateAll selected _ _ _).symm

theorem Pads.piecesOf_updateAll (closed : Bool) (ns : List Node) :
    List.Forall₂ Padded (piecesOf closed ns) (piecesOf closed (updateAll selected change ns)) := by
  induction ns using forestInduction generalizing closed with
  | nil => rw [updateAll_nil, piecesOf_nil]; exact List.Forall₂.nil
  | cons n ns below after =>
    obtain ⟨w, hw, hn⟩ := h.updateWhere_eq selected n
    rw [updateAll_cons, piecesOf_cons, piecesOf_cons, isEmpty_updateAll]
    refine List.rel_append ?_ (after closed)
    rw [Node.pieces_eq, Node.pieces_eq, hn]
    by_cases hb : n.kind.hasBlock
    · rw [if_pos hb, if_pos hb]
      refine List.Forall₂.cons (.node hw _ _ _) (List.rel_append (below _) ?_)
      exact List.Forall₂.cons (.closing _) List.Forall₂.nil
    · rw [if_neg hb, if_neg hb]
      exact List.Forall₂.cons (.node hw _ _ _) List.Forall₂.nil

/-- A sheet stays readable when blanks and semicolons are put before some of its nodes. -/
theorem Pads.readable {closed : Bool} {ns : List Node} {after : Text}
    (hr : Readable closed ns after) : Readable closed (updateAll selected change ns) after :=
  ⟨h.shapedIn_updateAll selected hr.shaped,
    hr.closed_eq.trans (h.flagAfter_updateAll selected false closed ns).symm,
    fit_of_padded (h.piecesOf_updateAll selected closed ns) hr.fit⟩

end Pads

end SheetLint
