import SheetLint.Proofs.Bytes.Sheets
import SheetLint.Proofs.Sheet.Bounds

/-
  How far the byte reader gets with each step. Every scan goes forward with every step, and a turn
  that adds a node takes at least one byte besides the blanks and semicolons before the node:
  an at-rule has its `@`, what ends with a semicolon or opens a block has that byte, and what stands
  before a closing brace or the end of the text is not empty. So reading comes to an end, and what
  was read is no larger than its text (`reading_progress`).
-/

namespace SheetLint

namespace Bytewise

open Text (byte? slice? bytes)

/-! ## Scans -/

section Scan

variable {s : Text} {i j : Nat}

theorem lt_of_skipStep {p : Char → Bool} (h : skipStep s p i = some (.inl j)) : i < j := by
  unfold skipStep at h
  split at h
  · cases h
    exact Nat.lt_succ_self i
  · cases h

theorem le_of_take? {p : Char → Bool} {t : Text} (h : take? s p i = some (t, j)) : i ≤ j := by
  obtain ⟨stop, _, h⟩ := Option.bind_eq_some_iff.1 h
  obtain ⟨u, hu, h⟩ := Option.bind_eq_some_iff.1 h
  cases h
  exact Text.le_of_slice? hu

theorem le_of_commentEnd? (h : commentEnd? s i = some (.ok j)) : i + 2 ≤ j := by
  obtain ⟨t, _, h⟩ := Option.bind_eq_some_iff.1 h
  split at h
  · cases h
    exact Nat.le_add_right _ _
  · cases h

section String

variable {quote : Char} {start : Nat}

theorem lt_of_stringStep (h : stringStep s quote start i = some (.inl j)) : i < j := by
  unfold stringStep at h
  split at h
  · obtain ⟨b, _, h⟩ := Option.bind_eq_some_iff.1 h
    split at h
    · cases h
      omega
    · split at h
      · cases h
      · cases h
        omega
  · cases h

theorem lt_of_stringStep_ok (h : stringStep s quote start i = some (.inr (.ok j))) : i < j := by
  unfold stringStep at h
  split at h
  · obtain ⟨b, _, h⟩ := Option.bind_eq_some_iff.1 h
    split at h
    · cases h
    · split at h
      · cases h
        omega
      · cases h
  · cases h

theorem lt_of_skipString? (h : skipString? s i = some (.ok j)) : i < j := by
  obtain ⟨quote, _, h⟩ := Option.bind_eq_some_iff.1 h
  rw [loop_eq_some_iff] at h
  have hlt : i + 1 < j := by
    generalize i + 1 = k at h
    generalize hr : (Except.ok j : Except Misfit Nat) = r at h
    induction h with
    | now h => exact lt_of_stringStep_ok (hr ▸ h)
    | later h _ ih => exact Nat.lt_trans (lt_of_stringStep h) (ih hr)
  omega

end String

/-- What a step of a scan for the end of a head can do: go forward, find a fault, or end the scan at
    the byte that ends the head or at the end of the text. -/
inductive Scanned (s : Text) (σ : Scan) : Scan ⊕ Except Misfit (Nat × Terminator) → Prop
  | forward {τ : Scan} (h : σ.pos < τ.pos) : Scanned s σ (.inl τ)
  | fault (e : Misfit) : Scanned s σ (.inr (.error e))
  | stop {stop : Nat} {terminator : Terminator}
      (hbrace : terminator = .closeBrace → byte? s stop = some '}')
      (hend : terminator = .endOfText → stop = bytes s) :
      Scanned s σ (.inr (.ok (stop, terminator)))

theorem scanned_jump {σ : Scan} {r : Except Misfit Nat} (h : ∀ j, r = .ok j → σ.pos < j) :
    Scanned s σ (σ.jump r) := by
  cases r with
  | error e => exact .fault e
  | ok j => exact .forward (h j rfl)

theorem scanned_of_byte {σ : Scan} {b : Char} (hb : byte? s σ.pos = some b)
    {r : Scan ⊕ Except Misfit (Nat × Terminator)} (h : scanByte s σ b = some r) :
    Scanned s σ r := by
  have hpos := Text.lt_of_byte? hb
  have hnext : σ.pos < σ.pos + 1 := Nat.lt_succ_self _
  unfold scanByte at h
  split at h
  · obtain ⟨x, hx, h⟩ := Option.bind_eq_some_iff.1 h
    cases h
    exact scanned_jump fun j hj => lt_of_skipString? (hj ▸ hx)
  split at h
  · obtain ⟨x, hx, h⟩ := Option.bind_eq_some_iff.1 h
    cases h
    refine scanned_jump fun j hj => ?_
    cases x with
    | error e => cases hj
    | ok k =>
      have hk := le_of_commentEnd? hx
      have hj : k + 2 = j := Except.ok.inj hj
      omega
  split at h
  · cases h
    exact .forward (show σ.pos < min (σ.pos + 2) (bytes s) by omega)
  split at h
  · cases h
    exact .forward hnext
  split at h
  · cases h
    exact .forward hnext
  split at h
  · cases h
    exact .stop nofun nofun
  split at h
  · cases h
    exact .stop nofun nofun
  split at h
  · rename_i hbrace
    cases h
    exact .stop (fun _ => hbrace.1 ▸ hb) nofun
  · cases h
    exact .forward hnext

theorem scanned_of_scanStep {σ : Scan} {r : Scan ⊕ Except Misfit (Nat × Terminator)}
    (h : scanStep s σ = some r) : Scanned s σ r := by
  unfold scanStep at h
  split at h
  · obtain ⟨b, hb, h⟩ := Option.bind_eq_some_iff.1 h
    exact scanned_of_byte hb h
  · split at h
    · cases h
      exact .fault _
    · cases h
      exact .stop nofun fun _ => rfl

theorem lt_of_scanStep {σ τ : Scan} (h : scanStep s σ = some (.inl τ)) : σ.pos < τ.pos := by
  cases scanned_of_scanStep h with
  | forward h => exact h

/-- The byte at which a head ends. -/
theorem scanEnd?_stop {stop : Nat} {terminator : Terminator}
    (h : scanEnd? s i = some (.ok (stop, terminator))) :
    (terminator = .closeBrace → byte? s stop = some '}')
      ∧ (terminator = .endOfText → stop = bytes s) := by
  rw [scanEnd?, loop_eq_some_iff] at h
  generalize (⟨i, 0, i⟩ : Scan) = σ at h
  generalize hr : Except.ok (stop, terminator) = r at h
  induction h with
  | now h =>
    subst hr
    cases scanned_of_scanStep h with
    | stop hbrace hend => exact ⟨hbrace, hend⟩
  | later _ _ ih => exact ih hr

end Scan

/-! ## Turns -/

/-- Where a turn leaves the reader. -/
def Turn.pos : Turn → Nat
  | returns pos _ => pos
  | continues pos _ => pos
  | opens pos _ _ => pos

/-- Whether a turn ends its call. -/
def Turn.isReturn : Turn → Bool
  | returns .. => true
  | _ => false

/-- A node takes some bytes, or the byte that ends its head is taken with it. -/
def Found.Ahead (i : Nat) (f : Found) : Prop :=
  i < f.stop ∨ i = f.stop ∧ (f.terminator = some .semicolon ∨ f.terminator = some .openBrace)

section Turn

variable {s : Text} {i : Nat} {before : Text} {f : Found}

theorem ahead_of_readComment? (h : readComment? s i before = some (.ok f)) : f.Ahead i := by
  obtain ⟨x, hx, h⟩ := Option.bind_eq_some_iff.1 h
  cases x with
  | error e => cases h
  | ok stop =>
    have hstop := le_of_commentEnd? hx
    obtain ⟨inside, _, h⟩ := Option.bind_eq_some_iff.1 h
    obtain ⟨⟨left, rest⟩, _, h⟩ := Option.bind_eq_some_iff.1 h
    obtain ⟨⟨text, right⟩, _, h⟩ := Option.bind_eq_some_iff.1 h
    cases h
    exact Or.inl (show i < stop + 2 by omega)

theorem ahead_of_readAtRule? (h : readAtRule? s i before = some (.ok f)) : f.Ahead i := by
  obtain ⟨⟨name, j⟩, hname, h⟩ := Option.bind_eq_some_iff.1 h
  obtain ⟨⟨afterName, k⟩, hafter, h⟩ := Option.bind_eq_some_iff.1 h
  obtain ⟨x, _, h⟩ := Option.bind_eq_some_iff.1 h
  cases x with
  | error e => cases h
  | ok p =>
    obtain ⟨stop, terminator⟩ := p
    obtain ⟨head, hhead, h⟩ := Option.bind_eq_some_iff.1 h
    obtain ⟨⟨params, between⟩, _, h⟩ := Option.bind_eq_some_iff.1 h
    cases h
    have hj := le_of_take? hname
    have hk := le_of_take? hafter
    have hstop := Text.le_of_slice? hhead
    refine Or.inl (show i < stop from ?_)
    split at hk <;> omega

theorem ahead_of_readOther? {b : Char} (hb : byte? s i = some b) (hne : b ≠ '}')
    (h : readOther? s i before = some (.ok f)) : f.Ahead i := by
  obtain ⟨x, hx, h⟩ := Option.bind_eq_some_iff.1 h
  cases x with
  | error e => cases h
  | ok p =>
    obtain ⟨stop, terminator⟩ := p
    obtain ⟨head, hhead, h⟩ := Option.bind_eq_some_iff.1 h
    obtain ⟨node, _, h⟩ := Option.bind_eq_some_iff.1 h
    cases node with
    | none => cases h
    | some node =>
      cases h
      have hle := Text.le_of_slice? hhead
      obtain ⟨hbrace, hend⟩ := scanEnd?_stop hx
      -- A head that ends where it starts ends with the byte `b`, which is no closing brace.
      rcases Nat.lt_or_eq_of_le hle with hlt | rfl
      · exact Or.inl hlt
      · refine Or.inr ⟨rfl, ?_⟩
        cases terminator with
        | semicolon => exact Or.inl rfl
        | openBrace => exact Or.inr rfl
        | closeBrace => exact absurd (Option.some.inj (hb.symm.trans (hbrace rfl))) hne
        | endOfText => exact absurd (Text.lt_of_byte? hb) (by rw [hend rfl]; exact Nat.lt_irrefl _)

theorem ahead_of_readNode? {b : Char} (hb : byte? s i = some b) (hne : b ≠ '}')
    (h : readNode? s i b before = some (.ok f)) : f.Ahead i := by
  unfold readNode? at h
  split at h
  · exact ahead_of_readComment? h
  split at h
  · exact ahead_of_readAtRule? h
  · exact ahead_of_readOther? hb hne h

theorem Found.Ahead.lt_succ (hf : f.Ahead i) : i < f.stop + 1 := by
  rcases hf with hf | ⟨hf, _⟩ <;> omega

theorem Found.Ahead.lt (hf : f.Ahead i) (hs : f.terminator ≠ some .semicolon)
    (ho : f.terminator ≠ some .openBrace) : i < f.stop := by
  rcases hf with hf | ⟨_, ht | ht⟩
  · exact hf
  · exact absurd ht hs
  · exact absurd ht ho

theorem lt_of_finish? (hf : f.Ahead i) {doc : Table} {parent : Nat} {t : Turn}
    (h : finish? doc parent f = some t) : i < t.pos := by
  obtain ⟨next, _, h⟩ := Option.bind_eq_some_iff.1 h
  split at h
  · rename_i ht
    cases h
    exact hf.lt (by rw [ht]; nofun) (by rw [ht]; nofun)
  · cases h
    exact hf.lt_succ
  · obtain ⟨marked, _, h⟩ := Option.bind_eq_some_iff.1 h
    cases h
    exact hf.lt_succ
  · rename_i terminator hopen hsemi ht
    obtain ⟨marked, _, h⟩ := Option.bind_eq_some_iff.1 h
    cases h
    refine hf.lt ?_ ?_
    · rw [ht]
      exact fun he => hsemi (Option.some.inj he)
    · rw [ht]
      exact fun he => hopen (Option.some.inj he)

/-- A turn that does not end its call takes a byte besides the blanks and semicolons in front. -/
theorem turn?_ahead {call : Call} {pos : Nat} {doc : Table} {t : Turn}
    (h : turn? s call pos doc = some (.ok t)) :
    ∃ before i, take? s isFiller pos = some (before, i) ∧ pos ≤ i ∧ i ≤ t.pos
      ∧ (t.isReturn = false → i < t.pos) := by
  obtain ⟨⟨before, i⟩, htake, h⟩ := Option.bind_eq_some_iff.1 h
  refine ⟨before, i, htake, le_of_take? htake, ?_⟩
  dsimp only at h
  split at h
  · split at h
    · cases h
    · obtain ⟨closed, _, h⟩ := Option.bind_eq_some_iff.1 h
      cases h
      exact ⟨Nat.le_refl i, nofun⟩
  · rename_i b hb
    split at h
    · split at h
      · obtain ⟨closed, _, h⟩ := Option.bind_eq_some_iff.1 h
        cases h
        exact ⟨Nat.le_succ i, nofun⟩
      · cases h
    · rename_i hne
      obtain ⟨x, hx, h⟩ := Option.bind_eq_some_iff.1 h
      cases x with
      | error e => cases h
      | ok f =>
        obtain ⟨t', ht, h⟩ := Option.bind_eq_some_iff.1 h
        cases h
        have hlt := lt_of_finish? (ahead_of_readNode? hb hne hx) ht
        exact ⟨Nat.le_of_lt hlt, fun _ => hlt⟩

end Turn

/-! ## Whole sheets -/

/-- What reading a text takes, and how large the document is that it gives. -/
structure Progress (s : Text) : Prop where
  /-- Passing over blanks, semicolons or a name goes forward with every step. -/
  skip : ∀ p i j, skipStep s p i = some (.inl j) → i < j
  /-- So does passing over a string. -/
  string : ∀ quote start i j, stringStep s quote start i = some (.inl j) → i < j
  /-- So does looking for the end of a head. -/
  scan : ∀ σ τ, scanStep s σ = some (.inl τ) → σ.pos < τ.pos
  /-- A turn passes over blanks and semicolons, and then over at least one more byte unless its call
      returns. -/
  turn : ∀ call pos doc t, turn? s call pos doc = some (.ok t) →
    ∃ before i, take? s isFiller pos = some (before, i) ∧ pos ≤ i ∧ i ≤ t.pos
      ∧ (t.isReturn = false → i < t.pos)
  /-- Reading comes to an end. -/
  result : ∃ r, readSheet? s = some r
  table : ∀ d, parse s = .ok d → readSheet? s = some (.ok d.table)
  size : ∀ d, parse s = .ok d → d.nodes.length ≤ bytes s + 1
  depth : ∀ d, parse s = .ok d → d.depth ≤ s.count '{'

theorem readSheet?_of_parse {s : Text} {d : Document} (h : parse s = .ok d) :
    readSheet? s = some (.ok d.table) := by
  rw [parse] at h
  cases hn : nest 0 1 rootFrame [] (pieces s) with
  | ok result =>
    rw [hn] at h
    cases h
    exact readSheet?_of_ok hn
  | error e =>
    rw [hn] at h
    cases h

theorem exists_readSheet? (s : Text) : ∃ r, readSheet? s = some r := by
  cases hn : nest 0 1 rootFrame [] (pieces s) with
  | ok result => exact ⟨_, readSheet?_of_ok hn⟩
  | error e => exact ⟨_, readSheet?_of_error hn⟩

/-- Reading any text goes forward all the time and comes to an end. -/
theorem reading_progress (s : Text) : Progress s where
  skip _ _ _ := lt_of_skipStep
  string _ _ _ _ := lt_of_stringStep
  scan _ _ := lt_of_scanStep
  turn _ _ _ _ := turn?_ahead
  result := exists_readSheet? s
  table _ := readSheet?_of_parse
  size _ := Document.length_nodes_le
  depth _ := Document.depth_le

/-- A stray semicolon, a block without a selector, at-rules without a name. -/
def sparseSheet : Text := ";\x7b@\x7ba:b\x7d;\x7d@".toList

theorem reading_progress_sparseSheet :
    Progress sparseSheet ∧ ∃ d, parse sparseSheet = .ok d ∧ d.nodes.length = 5 ∧ d.depth = 2 := by
  refine ⟨reading_progress sparseSheet, ?_⟩
  obtain ⟨d, hd⟩ : ∃ d, parse sparseSheet = .ok d := exists_of_toBool_parse (by decide +kernel)
  have hsize : (parse sparseSheet).toOption.map (fun d => (d.nodes.length, d.depth))
      = some (5, 2) := by decide +kernel
  rw [hd] at hsize
  obtain ⟨hn, hdepth⟩ := Prod.mk.inj (Option.some.inj hsize)
  exact ⟨d, hd, hn, hdepth⟩

end Bytewise

end SheetLint
