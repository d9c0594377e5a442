import Mathlib.Data.List.Induction
import SheetLint.Proofs.Bytes.Sheets
import SheetLint.Proofs.Sheet.Slices

/-
  What positions say about the places of a text. A place is an offset that is not inside a
  character. Further on in a text the position is greater, first by its line and then by its column
  (`Position.after_lt_append`), and a position leads back to its place: over the lines before its
  own, and then over the columns before it (`Text.offsetAt_after`). So no two places share a
  position, and the positions of a node are those of its characters (`positions_identify_places`).
-/

namespace SheetLint

/-! ## The order of positions -/

namespace Position

/-- Positions are in the order of their lines, and on one line in that of their columns. -/
instance : LT Position := ⟨fun p q => p.line < q.line ∨ p.line = q.line ∧ p.column < q.column⟩

theorem lt_iff {p q : Position} :
    p < q ↔ p.line < q.line ∨ p.line = q.line ∧ p.column < q.column := Iff.rfl

theorem lt_trans {p q r : Position} (hpq : p < q) (hqr : q < r) : p < r := by
  rw [lt_iff] at *
  omega

theorem lt_step (p : Position) (c : Char) : p < p.step c := by
  unfold step
  split
  · exact Or.inl (Nat.lt_succ_self _)
  · exact Or.inr ⟨rfl, Nat.lt_succ_self _⟩

theorem after_lt_append (s : Text) {t : Text} (ht : t ≠ []) : after s < after (s ++ t) := by
  induction t using List.reverseRecOn with
  | nil => exact absurd rfl ht
  | append_singleton t c ih =>
    rw [← List.append_assoc, after_concat]
    by_cases hnil : t = []
    · rw [hnil, List.append_nil]
      exact lt_step _ c
    · exact lt_trans (ih hnil) (lt_step _ c)

theorem line_after (s : Text) : (after s).line = s.count '\n' + 1 := by
  obtain ⟨_, _, _, _, hp⟩ := Bytewise.exists_line s
  rw [hp]

end Position

/-! ## Back from positions -/

namespace Text

/-- An offset in a text, or at its end, that is not inside a character. -/
def IsPlace (s : Text) (i : Nat) : Prop := ∃ a b, s = a ++ b ∧ bytes a = i

/-- The first lines of a text, each with the line feed that ends it. -/
def firstLines : Nat → Text → Text
  | 0, _ => []
  | _ + 1, [] => []
  | n + 1, c :: s => c :: firstLines (if c = '\n' then n else n + 1) s

/-- The offset that a position stands for: that of the end of the lines before its own, and then
    of the characters in the columns before it. -/
def offsetAt (s : Text) (p : Position) : Nat :=
  let lines := firstLines (p.line - 1) s
  bytes lines + bytes ((s.drop lines.length).take (p.column - 1))

/-- While there is another line to take, a text is taken as a whole, and then what follows it. -/
theorem firstLines_append (a s : Text) (n : Nat) :
    firstLines (a.count '\n' + (n + 1)) (a ++ s) = a ++ firstLines (n + 1) s := by
  induction a with
  | nil => simp
  | cons c a ih =>
    rw [List.cons_append, List.cons_append, ← ih]
    by_cases hc : c = '\n'
    · have hcount : (c :: a).count '\n' + (n + 1) = a.count '\n' + (n + 1) + 1 := by
        rw [hc, List.count_cons_self]
        omega
      rw [hcount, firstLines, if_pos hc]
    · have hcount : (c :: a).count '\n' + (n + 1) = a.count '\n' + n + 1 := by
        rw [List.count_cons_of_ne hc]
        omega
      rw [hcount, firstLines, if_neg hc]
      rfl

/-- The lines of a text that are ended, and the one that is not. -/
theorem exists_lines (a : Text) :
    ∃ ended line, a = ended ++ line ∧ (Position.after a).column = line.length + 1 ∧
      ∀ s, firstLines (a.count '\n') (ended ++ s) = ended := by
  induction a using List.reverseRecOn with
  | nil => exact ⟨[], [], rfl, rfl, fun s => firstLines.eq_1 _⟩
  | append_singleton a c ih =>
    rw [Position.after_concat, Position.step]
    by_cases hc : c = '\n'
    · rw [if_pos hc]
      refine ⟨a ++ [c], [], (List.append_nil _).symm, rfl, fun s => ?_⟩
      rw [List.count_append, hc, List.count_singleton_self, List.append_assoc,
        List.singleton_append, firstLines_append, firstLines, if_pos rfl, firstLines]
    · obtain ⟨ended, line, ha, hcolumn, hlines⟩ := ih
      rw [if_neg hc]
      refine ⟨ended, line ++ [c], by rw [ha, List.append_assoc], ?_, fun s => ?_⟩
      · rw [hcolumn, List.length_append, List.length_singleton]
      · rw [List.count_append, List.count_singleton, beq_eq_false_iff_ne.2 hc]
        exact hlines s

/-- The position of a place leads back to the place. -/
theorem offsetAt_after (a b : Text) : offsetAt (a ++ b) (Position.after a) = bytes a := by
  obtain ⟨ended, line, ha, hcolumn, hlines⟩ := exists_lines a
  have hfirst : firstLines ((Position.after a).line - 1) (a ++ b) = ended := by
    rw [Position.line_after, Nat.add_sub_cancel, ha, List.append_assoc, ← ha]
    exact hlines (line ++ b)
  have hrest : ((a ++ b).drop ended.length).take ((Position.after a).column - 1) = line := by
    rw [hcolumn, Nat.add_sub_cancel, ha, List.append_assoc, List.drop_left, List.take_left]
  simp only [offsetAt, hfirst, hrest]
  rw [ha, bytes_append]

end Text

/-! ## Positions of nodes -/

namespace Bytewise

open Text (slice? bytes)

/-- The offsets at which the characters of a text start. -/
def charStarts : Text → List Nat
  | [] => []
  | c :: s => 0 :: (charStarts s).map (c.utf8Size + ·)

/-- The position in the source that lies a number of characters after the start of a node. -/
def nodePosition? (d : Document) (n : Node) (index : Nat) : Option Position := do
  let start ← n.offset
  let tail ← slice? d.source start (bytes d.source)
  positionOf? d.source (start + (charStarts tail)[index]?.getD (bytes tail))

theorem getD_charStarts (t : Text) (i : Nat) :
    (charStarts t)[i]?.getD (bytes t) = bytes (t.take i) := by
  induction t generalizing i with
  | nil => simp [charStarts]
  | cons c t ih =>
    cases i with
    | zero => rfl
    | succ i =>
      rw [charStarts, List.getElem?_cons_succ, List.getElem?_map, List.take_succ_cons,
        Text.bytes_cons, Text.bytes_cons, ← ih i]
      cases (charStarts t)[i]? <;> rfl

theorem nodePosition?_eq {d : Document} {n : Node} {front tail : Text}
    (hs : d.source = front ++ tail) (ho : n.offset = some (bytes front)) (index : Nat) :
    nodePosition? d n index
      = some (Position.ofOffset d.source (bytes (front ++ tail.take index))) := by
  have hslice : slice? d.source (bytes front) (bytes d.source) = some tail := by
    rw [hs]
    exact Text.slice?_right front tail
  simp only [nodePosition?, ho, hslice, Option.bind_eq_bind, Option.bind_some, getD_charStarts,
    positionOf?_eq, Text.bytes_append]

end Bytewise

theorem Document.position?_eq {d : Document} {n : Node} {front tail : Text}
    (hs : d.source = front ++ tail) (ho : n.offset = some (Text.bytes front)) (index : Nat) :
    d.position? n index
      = some (Position.ofOffset d.source (Text.bytes (front ++ tail.take index))) := by
  have hsplit : d.source = (front ++ tail.take index) ++ tail.drop index := by
    rw [hs, List.append_assoc, List.take_append_drop]
  have hfront : Text.upTo? d.source (Text.bytes front) = some front := by
    rw [hs]
    exact Text.upTo?_bytes front tail
  have htake : d.source.take (front.length + index) = front ++ tail.take index := by
    rw [hs, List.take_length_add_append]
  have hplace : Position.ofOffset d.source (Text.bytes (front ++ tail.take index))
      = Position.after (front ++ tail.take index) := by
    rw [hsplit]
    exact Position.ofOffset_bytes _ _
  rw [Document.position?, ho, hplace]
  simp only [Option.bind_eq_bind, Option.bind_some, hfront, htake]
  rfl

/-- Every node of a sheet that was read starts at a place of its source. -/
theorem exists_start_of_parse {s : Text} {d : Document} (h : parse s = .ok d) {n : Node}
    (hn : n ∈ d.nodes) : ∃ front tail, s = front ++ tail ∧ n.offset = some (Text.bytes front) := by
  rw [Document.nodes_eq] at hn
  rcases List.mem_cons.1 hn with rfl | hn
  · obtain ⟨_, _, hd⟩ := readable_of_parse h
    exact ⟨[], s, rfl, by rw [hd]; rfl⟩
  · rw [← map_node_sitesIn] at hn
    obtain ⟨σ, hσ, rfl⟩ := List.mem_map.1 hn
    obtain ⟨_, front, _, hplace⟩ := between_of_site h hσ
    exact ⟨front, _, hplace.text.trans (List.append_assoc _ _ _), hplace.offset⟩

/-! ## Places -/

/-- What the positions in a text say about its places. -/
structure Text.Positioned (s : Text) : Prop where
  /-- Counting the line feeds before an offset, and the characters after the latest of them, gives
      its position. -/
  counted : ∀ i, Bytewise.positionOf? s i = some (Position.ofOffset s i)
  /-- Further on in the text positions are greater. -/
  increasing : ∀ i j, s.IsPlace i → s.IsPlace j → i < j →
    Position.ofOffset s i < Position.ofOffset s j
  /-- A position leads back to its place. -/
  recovered : ∀ i, s.IsPlace i → s.offsetAt (Position.ofOffset s i) = i
  /-- What lies some characters after the start of a node has the position of the place that they
      lead to, which is the end of the text if there are not so many. -/
  ofNode : ∀ d, parse s = .ok d → ∀ n ∈ d.nodes, ∃ front tail,
    s = front ++ tail ∧ n.offset = some (Text.bytes front) ∧ ∀ i,
      d.position? n i = some (Position.ofOffset s (Text.bytes (front ++ tail.take i))) ∧
      Bytewise.nodePosition? d n i = d.position? n i

/-- Positions and places of a text belong to each other. -/
theorem positions_identify_places (s : Text) : s.Positioned where
  counted := Bytewise.positionOf?_eq s
  increasing := by
    rintro _ _ ⟨a, b, rfl, rfl⟩ ⟨a', b', hs, rfl⟩ hlt
    obtain ⟨u, rfl, _⟩ := Text.exists_of_append_eq hs (Nat.le_of_lt hlt)
    have hu : u ≠ [] := by
      rintro rfl
      rw [List.append_nil] at hlt
      exact Nat.lt_irrefl _ hlt
    rw [Position.ofOffset_bytes, hs, Position.ofOffset_bytes]
    exact Position.after_lt_append a hu
  recovered := by
    rintro _ ⟨a, b, rfl, rfl⟩
    rw [Position.ofOffset_bytes]
    exact Text.offsetAt_after a b
  ofNode := by
    intro d h n hn
    obtain ⟨front, tail, hs, ho⟩ := exists_start_of_parse h hn
    have hsource := source_of_parse h
    refine ⟨front, tail, hs, ho, fun i => ?_⟩
    have hposition := Document.position?_eq (hsource.trans hs) ho i
    have hbytes := Bytewise.nodePosition?_eq (hsource.trans hs) ho i
    rw [hsource] at hposition hbytes
    exact ⟨hposition, hbytes.trans hposition.symm⟩

/-- A sheet with characters of two and of three bytes, with both line endings and an empty line. -/
def wideSheet : Text := "@é a;\r\n\n@b €;".toList

theorem positions_identify_places_wideSheet :
    wideSheet.Positioned ∧ wideSheet.IsPlace 7 ∧ wideSheet.IsPlace 15 ∧
      Position.ofOffset wideSheet 7 < Position.ofOffset wideSheet 15 ∧
      wideSheet.offsetAt ⟨3, 5⟩ = 15 ∧
      ∃ d n, parse wideSheet = .ok d ∧ n ∈ d.nodes ∧ d.position? n 4 = some ⟨3, 5⟩ ∧
        d.position? n 9 = some ⟨3, 6⟩ := by
  have h := positions_identify_places wideSheet
  have h7 : wideSheet.IsPlace 7 := ⟨"@é a;\r".toList, "\n\n@b €;".toList, rfl, by decide⟩
  have h15 : wideSheet.IsPlace 15 := ⟨"@é a;\r\n\n@b €".toList, [';'], rfl, by decide⟩
  have hend : Position.ofOffset wideSheet 15 = ⟨3, 5⟩ := by decide
  have hnode : (parse wideSheet).toOption.bind (fun d => (d.node? 2).map fun n =>
      (d.position? n 4, d.position? n 9)) = some (some ⟨3, 5⟩, some ⟨3, 6⟩) := by decide +kernel
  refine ⟨h, h7, h15, h.increasing 7 15 h7 h15 (by decide), hend ▸ h.recovered 15 h15, ?_⟩
  obtain ⟨d, hd, hnode⟩ := Option.bind_eq_some_iff.1 hnode
  obtain ⟨n, hn, hpositions⟩ := Option.map_eq_some_iff.1 hnode
  obtain ⟨h4, h9⟩ := Prod.mk.inj hpositions
  refine ⟨d, n, ?_, (Document.mem_of_node? hn).1, h4, h9⟩
  cases hp : parse wideSheet with
  | error e => rw [hp] at hd; cases hd
  | ok d' => rw [hp] at hd; rw [Option.some.inj hd]

end SheetLint
