import Mathlib.Data.List.Induction
import SheetLint.Proofs.Arena.Frames
import SheetLint.Proofs.Bytes.Nodes

/-
  Reading a whole sheet byte by byte. Each turn of the reader takes one piece of the sheet, and the
  table that it has then is that of the tree that nesting the pieces has then (`loop_read`). So the
  byte reader never indexes or slices what is not there, whatever it reads, and gives the document
  or the error that the reader of characters gives (`readSheet?_eq`).
-/

namespace SheetLint

namespace Bytewise

open Text (byte? slice? bytes IsByteOf)

/-- The call that reads the innermost open block. -/
def callOf (top : Frame) (around : List Frame) : Call where
  node := top.id
  brace := if around.isEmpty then none else some top.brace

/-- The calls that read the blocks around it. -/
def callsOf : List Frame → List Call
  | [] => []
  | f :: around => callOf f around :: callsOf around

/-- The state of the reader after `front`, in the innermost of the open blocks. -/
def readingOf (s front : Text) (size : Nat) (top : Frame) (around : List Frame) : Reading where
  pos := bytes front
  doc := (Document.underWay s size top.node around).table
  call := callOf top around
  callers := callsOf around

/-- The table of a document that was read. -/
def tabled (s : Text) : Except Misfit (Node × Nat) → Except Misfit Table
  | .ok (root, size) => .ok ({ source := s, root, size } : Document).table
  | .error e => .error e

/-! ## Turns -/

section Turn

variable {s front rest : Text} (hs : s = front ++ rest)
include hs

theorem append_filler :
    s = (front ++ rest.takeWhile isFiller) ++ rest.dropWhile isFiller := by
  rw [hs, List.append_assoc, List.takeWhile_append_dropWhile]

theorem turn?_of_end (hd : rest.dropWhile isFiller = []) (call : Call) (doc : Table) :
    turn? s call (bytes front) doc
      = match call.brace with
        | some brace => some (.error ⟨.unclosedBlock, brace⟩)
        | none => (close? doc call.node (rest.takeWhile isFiller)).map fun doc =>
            .ok (.returns (bytes s) doc) := by
  have hend := append_filler hs
  rw [hd, List.append_nil] at hend
  rw [turn?, take?_eq isFiller_byte hs, ← hend]
  simp only [Option.bind_eq_bind, Option.bind_some, Text.byte?_bytes]
  cases call.brace with
  | some brace => rfl
  | none => exact Option.map_eq_bind.symm

theorem turn?_of_closing {t : Text} (hd : rest.dropWhile isFiller = '}' :: t) (call : Call)
    (doc : Table) :
    turn? s call (bytes front) doc
      = match call.brace with
        | some _ => (close? doc call.node (rest.takeWhile isFiller)).map fun doc =>
            .ok (.returns (bytes (front ++ rest.takeWhile isFiller) + 1) doc)
        | none => some (.error
            ⟨.unexpectedCloseBrace, bytes (front ++ rest.takeWhile isFiller)⟩) := by
  have hnext := append_filler hs
  rw [hd] at hnext
  rw [turn?, take?_eq isFiller_byte hs]
  simp only [Option.bind_eq_bind, Option.bind_some, byte?_of_narrow hnext rfl, if_true]
  cases call.brace with
  | some brace => exact Option.map_eq_bind.symm
  | none => rfl

theorem turn?_of_node {c : Char} {t : Text} (hd : rest.dropWhile isFiller = c :: t) (hc : c ≠ '}')
    (call : Call) (doc : Table) :
    ∃ x, Agrees s (front ++ rest.takeWhile isFiller) (readPiece rest) x ∧
      turn? s call (bytes front) doc
        = match x with
          | .error e => some (.error e)
          | .ok f => (finish? doc call.node f).map .ok := by
  have hnext := append_filler hs
  rw [hd] at hnext
  obtain ⟨b, hb, hbc⟩ := byte?_start hnext
  have hne : b ≠ '}' := fun he => hc ((hbc.eq_iff rfl).1 he)
  obtain ⟨x, hx, hagree⟩ := readNode?_agrees (rest.takeWhile isFiller) hnext hbc hc
  rw [← hd] at hagree
  refine ⟨x, hagree, ?_⟩
  rw [turn?, take?_eq isFiller_byte hs]
  simp only [Option.bind_eq_bind, Option.bind_some, hb, if_neg hne, hx]
  cases x with
  | error e => rfl
  | ok f => exact Option.map_eq_bind.symm

end Turn

/-! ## New nodes -/

section Finish

variable {s : Text} (front r : Text) {size : Nat} {top : Frame} {around : List Frame} {kind : Kind}
  {trivia : Trivia} {ending : Ending} (ho : (Document.underWay s size top.node around).Ordered)
  (hn : NodeSound kind trivia ending)
include ho

theorem mark?_eq (closed : Bool) :
    mark? (Document.underWay s size top.node around).table top.id closed
      = some (Document.underWay s size (top.mark closed).node around).table :=
  Document.table_note ho fun t => { t with semicolon := closed }

theorem close?_eq (after : Text) :
    close? (Document.underWay s size top.node around).table top.id after
      = some (Document.underWay s size (top.close after) around).table :=
  Document.table_note ho fun t => { t with after }

include hn

theorem finish?_of_opening (he : ending = .openBrace) :
    finish? (Document.underWay s size top.node around).table top.id
        (foundOf front kind trivia ending r)
      = some (.opens (bytes (front ++ kind.head trivia) + 1)
          (Document.underWay s (size + 1)
            (top.push { id := size, kind, trivia, offset := some (bytes front) }).node around).table
          { node := size, brace := some (bytes (front ++ kind.head trivia)) }) := by
  have hcom := Kind.not_isComment_of_hasBlock (hn.opens.1 he)
  have hlen := Document.length_table ho
  rw [finish?, foundOf, Document.table_push ho, hlen, hcom, he]
  rfl

theorem finish?_of_leaf (he : ending ≠ .openBrace)
    (hl : (Piece.node kind trivia ending).isLoose → r = [] ∨ ∃ t, r = '}' :: t) :
    finish? (Document.underWay s size top.node around).table top.id
        (foundOf front kind trivia ending r)
      = some (.continues (bytes (front ++ kind.head trivia) + bytes ending.text)
          (Document.underWay s (size + 1)
            (top.take { id := size, kind, trivia, offset := some (bytes front) }
              (ending == .semicolon)).node around).table) := by
  have hb : kind.hasBlock = false := by
    rw [← Bool.not_eq_true, ← hn.opens]
    exact he
  have hpush := Document.ordered_push ho kind trivia (bytes front)
  rw [finish?, foundOf, Document.table_push ho]
  cases hcom : kind.isComment with
  | true =>
    have hst := Kind.not_isStatement_of_isComment hcom
    have hbare := hn.bare_of_isComment hcom
    rw [hbare, Frame.take, hst]
    rfl
  | false =>
    have hmark := mark?_eq hpush (ending == .semicolon)
    rw [Frame.take, Kind.isStatement_of_leaf hn.notRoot hb hcom]
    cases ending with
    | openBrace => exact absurd rfl he
    | semicolon =>
      exact congrArg (Option.bind · fun doc => some (Turn.continues _ doc)) hmark
    | bare =>
      have hloose : (Piece.node kind trivia .bare).isLoose := by
        rw [Piece.isLoose, hcom]
        rfl
      rcases hl hloose with rfl | ⟨t, rfl⟩
      · exact congrArg (Option.bind · fun doc => some (Turn.continues _ doc)) hmark
      · exact congrArg (Option.bind · fun doc => some (Turn.continues _ doc)) hmark

omit hn in
theorem ordered_take (kind : Kind) (trivia : Trivia) (offset : Nat) (ended : Bool) :
    (Document.underWay s (size + 1)
      (top.take { id := size, kind, trivia, offset := some offset } ended).node around).Ordered := by
  have hpush := Document.ordered_push ho kind trivia offset
  unfold Frame.take
  split
  · exact Document.ordered_note hpush fun t => { t with semicolon := ended }
  · exact hpush

end Finish

theorem callOf_take (n : Node) (ended : Bool) (top : Frame) (around : List Frame) :
    callOf (top.take n ended) around = callOf top around := by
  unfold Frame.take
  split <;> rfl

/-! ## Runs -/

theorem readPiece_of_end {rest : Text} (hd : rest.dropWhile isFiller = []) :
    readPiece rest = .ok (.finished (rest.takeWhile isFiller)) := by
  rw [readPiece, hd]
  rfl

theorem readPiece_of_closing {rest t : Text} (hd : rest.dropWhile isFiller = '}' :: t) :
    readPiece rest = .ok (.piece (.closing (rest.takeWhile isFiller)) t) := by
  rw [readPiece, hd]
  rfl

/-- A state of the reader and the nesting of the pieces that are left: either the next turn gives
    the result, or it takes one piece. -/
inductive Follows (s front rest : Text) (size : Nat) (top : Frame) (around : List Frame) : Prop
  | result
      (h : readStep s (readingOf s front size top around)
        = some (.inr (tabled s (nest (bytes front) size top around (pieces rest)))))
  | step (p : Piece) (r : Text) (size' : Nat) (top' : Frame) (around' : List Frame)
      (hp : readPiece rest = .ok (.piece p r))
      (h : readStep s (readingOf s front size top around)
        = some (.inl (readingOf s (front ++ p.text) size' top' around')))
      (ho : (Document.underWay s size' top'.node around').Ordered)
      (hn : nest (bytes front) size top around (pieces rest)
        = nest (bytes (front ++ p.text)) size' top' around' (pieces r))

section Run

variable {s front rest : Text} (hs : s = front ++ rest) {size : Nat} {top : Frame}
  {around : List Frame} (ho : (Document.underWay s size top.node around).Ordered)
include hs

theorem follows_of_error {e : Stop} (he : readPiece rest = .error e)
    (h : readStep s (readingOf s front size top around)
      = some (.inr (.error ⟨e.fault, bytes s - bytes e.rest⟩))) :
    Follows s front rest size top around := by
  refine .result ?_
  obtain ⟨a, ha⟩ := exists_append_of_readPiece he
  have hoffset : bytes front + (bytes rest - bytes e.rest) = bytes s - bytes e.rest := by
    simp only [hs, ha, Text.bytes_append]
    omega
  rw [h, pieces_of_error he, nest, tabled, hoffset]

include ho

theorem follows_of_end (hd : rest.dropWhile isFiller = []) :
    Follows s front rest size top around := by
  refine .result ?_
  rw [pieces_of_finished (readPiece_of_end hd), nest, readStep, readingOf, turn?_of_end hs hd]
  have hclose := close?_eq ho (rest.takeWhile isFiller)
  cases around with
  | nil =>
    simp only [callOf, List.isEmpty_nil, if_true, hclose]
    rfl
  | cons f around => rfl

theorem follows_of_closing {t : Text} (hd : rest.dropWhile isFiller = '}' :: t) :
    Follows s front rest size top around := by
  have hp := readPiece_of_closing hd
  have hturn := turn?_of_closing hs hd (callOf top around)
    (Document.underWay s size top.node around).table
  have hclose := close?_eq ho (rest.takeWhile isFiller)
  cases around with
  | nil =>
    refine .result ?_
    rw [pieces_of_piece hp, nest, readStep, readingOf, hturn, Text.bytes_append]
    rfl
  | cons f around =>
    have hpos : bytes (front ++ rest.takeWhile isFiller) + 1
        = bytes (front ++ (Piece.closing (rest.takeWhile isFiller)).text) := by
      rw [Piece.text, ← List.append_assoc]
      exact (bytes_concat rfl _).symm
    refine .step _ t size (f.push (top.close (rest.takeWhile isFiller))) around hp ?_ ?_ ?_
    · rw [readStep, readingOf, hturn]
      simp only [callOf, List.isEmpty_cons, Bool.false_eq_true, if_false, hclose, hpos]
      rfl
    · exact Document.ordered_note ho fun t => { t with after := rest.takeWhile isFiller }
    · rw [pieces_of_piece hp, nest, ← hpos, Text.bytes_append]

section Node

variable {kind : Kind} {trivia : Trivia} {ending : Ending} {r : Text}
  (hp : readPiece rest = .ok (.piece (.node kind trivia ending) r))
  (hturn : turn? s (callOf top around) (bytes front) (Document.underWay s size top.node around).table
    = (finish? (Document.underWay s size top.node around).table top.id
        (foundOf (front ++ trivia.before) kind trivia ending r)).map .ok)
include hp hturn

omit hs in
theorem follows_of_opening (he : ending = .openBrace) : Follows s front rest size top around := by
  have hn : NodeSound kind trivia ending := readAfter_sound hp
  have hpos : bytes ((front ++ trivia.before) ++ kind.head trivia) + 1
      = bytes (front ++ (Piece.node kind trivia ending).text) := by
    rw [Piece.text, he, ← List.append_assoc, ← List.append_assoc]
    exact (bytes_concat rfl _).symm
  have hfin := finish?_of_opening (front ++ trivia.before) r ho hn he
  rw [hpos] at hfin
  refine .step _ r (size + 1) {
    id := size, kind, trivia, offset := bytes (front ++ trivia.before)
    brace := bytes ((front ++ trivia.before) ++ kind.head trivia) } (top :: around) hp ?_ ?_ ?_
  · rw [readStep, readingOf, hturn]
    simp only [hfin]
    rfl
  · exact Document.ordered_push ho kind trivia _
  · rw [pieces_of_piece hp, nest, ← hpos]
    simp only [he, if_true, Text.bytes_append]

omit hs in
theorem follows_of_leaf (he : ending ≠ .openBrace) : Follows s front rest size top around := by
  have hn : NodeSound kind trivia ending := readAfter_sound hp
  have hpos : bytes ((front ++ trivia.before) ++ kind.head trivia) + bytes ending.text
      = bytes (front ++ (Piece.node kind trivia ending).text) := by
    rw [Piece.text, ← Text.bytes_append]
    simp only [List.append_assoc]
  have hfin := finish?_of_leaf (front ++ trivia.before) r ho hn he (readAfter_loose hp)
  rw [hpos] at hfin
  refine .step _ r (size + 1)
    (top.take { id := size, kind, trivia, offset := some (bytes (front ++ trivia.before)) }
      (ending == .semicolon)) around hp ?_ ?_ ?_
  · rw [readStep, readingOf, hturn, readingOf, callOf_take]
    simp only [hfin]
    rfl
  · exact ordered_take ho kind trivia _ _
  · rw [pieces_of_piece hp, nest, ← hpos]
    simp only [he, if_false, Text.bytes_append]
    rfl

end Node

theorem follows_of_node {c : Char} {t : Text} (hd : rest.dropWhile isFiller = c :: t)
    (hc : c ≠ '}') : Follows s front rest size top around := by
  obtain ⟨x, hx, hturn⟩ := turn?_of_node hs hd hc (callOf top around)
    (Document.underWay s size top.node around).table
  generalize hp : readPiece rest = result at hx
  cases hx with
  | error e =>
    refine follows_of_error hs hp ?_
    rw [readStep, readingOf, hturn]
    rfl
  | node kind trivia ending r =>
    -- The node was read with what is skipped before it.
    have hb : trivia.before = rest.takeWhile isFiller := before_of_readAfter hp
    rw [← hb] at hturn
    by_cases he : ending = .openBrace
    · exact follows_of_opening ho hp hturn he
    · exact follows_of_leaf ho hp hturn he

/-- One turn does what taking one piece does. -/
theorem follows : Follows s front rest size top around := by
  cases hd : rest.dropWhile isFiller with
  | nil => exact follows_of_end hs ho hd
  | cons c t =>
    by_cases hc : c = '}'
    · exact follows_of_closing hs ho (hc ▸ hd)
    · exact follows_of_node hs ho hd hc

/-- The byte reader gives what nesting the pieces gives. -/
theorem loop_read :
    loop (readStep s) (readingOf s front size top around)
      = some (tabled s (nest (bytes front) size top around (pieces rest))) := by
  -- A piece may open or close a block, so it is the text that is left that gets smaller.
  induction hlen : rest.length using Nat.strongRecOn generalizing front rest size top around with
  | ind m ih =>
  cases follows hs ho with
  | result h => exact loop_of_inr h
  | step p r size' top' around' hp h ho' hn =>
    have hlt := length_lt_of_readPiece hp
    have hs' : s = (front ++ p.text) ++ r := by
      rw [hs, List.append_assoc, readPiece_eq hp]
    rw [loop_of_inl h, hn]
    exact ih _ (hlen ▸ hlt) hs' ho' rfl

end Run

/-! ## Whole sheets -/

/-- The latest line of a text: where it starts, and the place behind it. -/
theorem exists_line (s : Text) :
    ∃ a line, s = a ++ line
      ∧ ((Text.findLast? (· == '\n') s).map (· + 1)).getD 0 = bytes a
      ∧ Position.after s = ⟨s.count '\n' + 1, line.length + 1⟩ := by
  induction s using List.reverseRecOn with
  | nil => exact ⟨[], [], rfl, rfl, rfl⟩
  | append_singleton s c ih =>
    obtain ⟨a, line, hs, ha, hp⟩ := ih
    rw [Text.findLast?_concat, Position.after_concat, hp, Position.step]
    by_cases hc : c = '\n'
    · subst hc
      refine ⟨s ++ ['\n'], [], (List.append_nil _).symm, (bytes_concat rfl s).symm, ?_⟩
      rw [if_pos rfl, List.count_append]
      rfl
    · refine ⟨a, line ++ [c], by rw [hs, List.append_assoc], ?_, ?_⟩
      · rw [beq_eq_false_iff_ne.2 hc]
        exact ha
      · rw [if_neg hc, List.count_append, List.count_singleton, beq_eq_false_iff_ne.2 hc,
          List.length_append]
        rfl

theorem positionOf?_eq (s : Text) (offset : Nat) :
    positionOf? s offset = some (Position.ofOffset s offset) := by
  obtain ⟨a, line, hfront, ha, hp⟩ := exists_line ((Text.upTo? s offset).getD s)
  have hslice : slice? ((Text.upTo? s offset).getD s) (bytes a)
      (bytes ((Text.upTo? s offset).getD s)) = some line := by
    rw [hfront]
    exact Text.slice?_right a line
  simp only [positionOf?, Text.slice?_upTo?, ha, hslice, Position.ofOffset, hp]
  rfl

theorem ordered_start (s : Text) : ({ source := s } : Document).Ordered where
  nodup := Document.ordered_empty.nodup
  lt_size := Document.ordered_empty.lt_size
  root_id := rfl
  mem_ids := Document.ordered_empty.mem_ids
  increasing := Document.ordered_empty.increasing

/-- What the reader starts with. -/
theorem readingOf_start (s : Text) :
    readingOf s [] 1 rootFrame [] = {
      pos := 0
      doc := [{ kind := .root, trivia := {}, offset := some 0, children := [], parent := none }]
      call := { node := 0, brace := none }
      callers := [] } := rfl

theorem loop_readSheet (s : Text) :
    loop (readStep s) (readingOf s [] 1 rootFrame [])
      = some (tabled s (nest 0 1 rootFrame [] (pieces s))) :=
  loop_read (List.nil_append s).symm (ordered_start s)

theorem readSheet?_of_ok {s : Text} {root : Node} {size : Nat}
    (h : nest 0 1 rootFrame [] (pieces s) = .ok (root, size)) :
    readSheet? s = some (.ok ({ source := s, root, size } : Document).table) := by
  rw [readSheet?, ← readingOf_start, loop_readSheet, h]
  rfl

theorem readSheet?_of_error {s : Text} {e : Misfit}
    (h : nest 0 1 rootFrame [] (pieces s) = .error e) :
    readSheet? s = some (.error ⟨e.fault, Position.ofOffset s e.offset⟩) := by
  rw [readSheet?, ← readingOf_start, loop_readSheet, h]
  simp only [tabled, Option.bind_eq_bind, Option.bind_some, positionOf?_eq]
  rfl

/-- The byte reader gives a result for every text: it never indexes or slices what is not there.
    The result is the table of the document, or the error, that reading the characters gives. -/
theorem readSheet?_eq (s : Text) : readSheet? s = some ((parse s).map Document.table) := by
  rw [parse]
  cases h : nest 0 1 rootFrame [] (pieces s) with
  | ok result => exact readSheet?_of_ok h
  | error e => exact readSheet?_of_error h

end Bytewise

end SheetLint
