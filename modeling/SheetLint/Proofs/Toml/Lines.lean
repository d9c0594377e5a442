import SheetLint.Proofs.Toml.Values

/-
  Documents as lists of lines. What is written for a table is a text that spells its lines, one by
  one and with blank lines between (`spells_write`), and a text that spells lines is read as these
  lines if no value in them is too deep (`readLines_of_spells`). So what a written document is read
  as is decided by the table that its lines are put together to (`read_write`).
-/

namespace SheetLint.Toml

/-! ## The lines of a table -/

/-- The lines of the plain entries of a table. -/
def plainLines (es : Table) : List Line :=
  (es.filter (·.2.isPlain)).map fun e => .entry [e.1] e.2

/-- The header of a table with its plain entries, unless the table has nothing but tables in it. -/
def headerLines (path : List String) (es : Table) : List Line :=
  if es.isEmpty || es.any (·.2.isPlain) then .header path :: plainLines es else []

mutual

/-- The lines that a value under a path is written as. -/
def Value.lines (path : List String) : Value → List Line
  | .table es => headerLines path es ++ innerLines path es
  | .array vs => if Value.isTables (.array vs) then elementLines path vs else []
  | _ => []

/-- The lines of the tables in a table. -/
def innerLines (path : List String) : List (String × Value) → List Line
  | [] => []
  | (k, v) :: es => v.lines (path ++ [k]) ++ innerLines path es

/-- The lines of the tables of an array. -/
def elementLines (path : List String) : List Value → List Line
  | [] => []
  | .table es :: vs =>
    .element path :: (plainLines es ++ innerLines path es) ++ elementLines path vs
  | _ :: vs => elementLines path vs

end

/-- The lines of a document. -/
def documentLines (es : Table) : List Line := plainLines es ++ innerLines [] es

/-- The written form of a line. -/
def Line.write : Line → Text
  | .header path => ['['] ++ writePath path ++ [']', '\n']
  | .element path => ['[', '['] ++ writePath path ++ [']', ']', '\n']
  | .entry path v => writePath path ++ [' ', '=', ' '] ++ v.write ++ ['\n']

/-- A text of lines in which any number of blank lines may stand. -/
inductive Spells : List Line → Text → Prop
  | nil : Spells [] []
  | line (l : Line) {ls : List Line} {s : Text} (h : Spells ls s) : Spells (l :: ls) (l.write ++ s)
  | blank {ls : List Line} {s : Text} (h : Spells ls s) : Spells ls ('\n' :: s)

namespace Spells

variable {ls ms : List Line} {s t : Text}

theorem append (h : Spells ls s) (ht : Spells ms t) : Spells (ls ++ ms) (s ++ t) := by
  induction h with
  | nil => exact ht
  | line l h ih =>
    rw [List.append_assoc]
    exact ih.line l
  | blank h ih => exact ih.blank

theorem eq_nil (h : Spells ls []) : ls = [] := by
  generalize hs : ([] : Text) = s at h
  cases h with
  | nil => rfl
  | line l h => cases l <;> simp [Line.write] at hs
  | blank h => cases hs

end Spells

theorem join_append (separator : Text) {ts us : List Text} (hts : ts ≠ []) (hus : us ≠ []) :
    join separator (ts ++ us) = join separator ts ++ separator ++ join separator us := by
  induction ts with
  | nil => exact absurd rfl hts
  | cons t ts ih =>
    cases ts with
    | nil =>
      obtain ⟨u, us, rfl⟩ := List.exists_cons_of_ne_nil hus
      rfl
    | cons u ts =>
      have hrest := ih (List.cons_ne_nil u ts)
      calc join separator (t :: u :: ts ++ us)
          = t ++ separator ++ join separator (u :: ts ++ us) := rfl
        _ = t ++ separator ++ join separator (u :: ts) ++ separator ++ join separator us := by
          rw [hrest]
          simp only [List.append_assoc]
        _ = join separator (t :: u :: ts) ++ separator ++ join separator us := rfl

/-- Sections with blank lines between spell the lines of all of them. -/
theorem Spells.join_append {ls ms : List Line} {ts us : List Text}
    (hts : Spells ls (join ['\n'] ts)) (hus : Spells ms (join ['\n'] us)) :
    Spells (ls ++ ms) (join ['\n'] (ts ++ us)) := by
  by_cases ht : ts = []
  · subst ht
    rw [hts.eq_nil]
    exact hus
  · by_cases hu : us = []
    · subst hu
      rw [hus.eq_nil, List.append_nil, List.append_nil]
      exact hts
    · rw [Toml.join_append ['\n'] ht hu, List.append_assoc]
      exact hts.append hus.blank

theorem spells_writePlain (es : Table) : Spells (plainLines es) (writePlain es) := by
  unfold plainLines writePlain
  induction es.filter (·.2.isPlain) with
  | nil => exact .nil
  | cons e es ih => exact ih.line (.entry [e.1] e.2)

theorem spells_writeSection (path : List String) (es : Table) :
    Spells (headerLines path es) (join ['\n'] (writeSection path es)) := by
  unfold headerLines writeSection
  split
  · exact (spells_writePlain es).line (.header path)
  · exact .nil

mutual

theorem spells_sections (path : List String) (v : Value) :
    Spells (v.lines path) (join ['\n'] (v.sections path)) := by
  cases v with
  | table es =>
    rw [Value.lines, Value.sections]
    exact (spells_writeSection path es).join_append (spells_innerSections path es)
  | array vs =>
    rw [Value.lines, Value.sections]
    split
    · exact spells_elementSections path vs
    · exact .nil
  | _ => exact .nil

theorem spells_innerSections (path : List String) (es : List (String × Value)) :
    Spells (innerLines path es) (join ['\n'] (innerSections path es)) := by
  cases es with
  | nil => exact .nil
  | cons e es =>
    rw [innerLines, innerSections]
    exact (spells_sections (path ++ [e.1]) e.2).join_append (spells_innerSections path es)

theorem spells_elementSections (path : List String) (vs : List Value) :
    Spells (elementLines path vs) (join ['\n'] (elementSections path vs)) := by
  cases vs with
  | nil => exact .nil
  | cons v vs =>
    cases v with
    | table es =>
      have hfirst : Spells (.element path :: plainLines es)
          (join ['\n'] [['[', '['] ++ writePath path ++ [']', ']', '\n'] ++ writePlain es]) :=
        (spells_writePlain es).line (.element path)
      rw [elementLines, elementSections]
      exact (hfirst.join_append (spells_innerSections path es)).join_append
        (spells_elementSections path vs)
    | _ => exact spells_elementSections path vs

end

/-- A written document spells its lines. -/
theorem spells_write (es : Table) : Spells (documentLines es) (write es) := by
  have hplain := spells_writePlain es
  unfold write documentLines
  dsimp only
  refine Spells.join_append ?_ (spells_innerSections [] es)
  split
  · rename_i hnil
    rw [List.isEmpty_iff.1 hnil] at hplain
    rw [hplain.eq_nil]
    exact .nil
  · exact hplain

/-! ## Reading lines -/

/-- A line that can be written: it names a table or a key, and its value is built. -/
def Line.Sound : Line → Prop
  | .header path => path ≠ []
  | .element path => path ≠ []
  | .entry path v => path ≠ [] ∧ v.Built

/-- How many arrays and inline tables stand in one another in a line. -/
def Line.depth : Line → Nat
  | .entry _ v => v.depth
  | _ => 0

/-- The characters that a written line starts with. -/
def isLineStart (c : Char) : Bool := isKeyStart c || c == '['

theorem startsWith_writeLine {l : Line} (hl : l.Sound) : StartsWith isLineStart l.write := by
  cases l with
  | header path => exact ⟨'[', _, rfl, rfl⟩
  | element path => exact ⟨'[', _, rfl, rfl⟩
  | entry path v =>
    rw [Line.write, List.append_assoc, List.append_assoc]
    refine ((startsWith_writePath hl.1).append _).mono fun c hc => ?_
    rw [isLineStart, hc, Bool.true_or]

theorem startsSolid_writeLine {l : Line} (hl : l.Sound) : StartsWith isSolid l.write :=
  (startsWith_writeLine hl).mono fun _ hc => isSolid_of_forall (by decide) hc

theorem readKey_bracket {path : List String} (hpath : path ≠ []) (s : Text) :
    readKey (skipSpaces (writePath path ++ ']' :: s)) = some (path, ']' :: s) := by
  have hsolid : StartsWith isSolid (']' :: s) := ⟨']', s, rfl, rfl⟩
  rw [skipSpaces_eq (((startsWith_writePath hpath).mono fun _ => isSolid_of_isKeyStart).append _),
    readKey_writePath hpath ⟨']', s, rfl, rfl⟩, skipSpaces_eq hsolid]
  intro t
  rw [skipSpaces_eq hsolid]
  exact fun h => absurd (List.cons.inj h).1 (by decide)

/-- A written line is read back if it is not too deep, and else it is not read. -/
theorem readLine_write {l : Line} (hl : l.Sound) (s : Text) :
    readLine (l.write ++ s) = if l.depth ≤ maxDepth then some (l, '\n' :: s) else none := by
  cases l with
  | header path =>
    have htext : (Line.header path).write ++ s = '[' :: (writePath path ++ ']' :: '\n' :: s) := by
      simp [Line.write]
    rw [htext, readLine, readKey_bracket hl]
    · simp [skipSpaces_eq ⟨']', _, rfl, rfl⟩, Line.depth]
    · exact ((startsWith_writePath hl).append _).ne_cons (by decide)
  | element path =>
    have htext : (Line.element path).write ++ s
        = '[' :: '[' :: (writePath path ++ ']' :: ']' :: '\n' :: s) := by
      simp [Line.write]
    rw [htext, readLine, readKey_bracket hl]
    simp [skipSpaces_eq ⟨']', _, rfl, rfl⟩, Line.depth]
  | entry path v =>
    have hstart := startsWith_writePath hl.1
    have htext : (Line.entry path v).write ++ s
        = writePath path ++ [' ', '=', ' '] ++ v.write ++ '\n' :: s := by
      simp [Line.write]
    have hpair := readPair_write (readValue_write hl.2 maxDepth) hl.1
      (r := '\n' :: s) ⟨'\n', s, rfl, rfl⟩
    rw [htext, readLine, hpair, Line.depth]
    · split <;> rfl
    · exact fun t => (((hstart.append _).append _).append _).ne_cons (by decide) _
    · exact fun t => (((hstart.append _).append _).append _).ne_cons (by decide) t

theorem endOfLine?_newline (s : Text) : endOfLine? ('\n' :: s) = some s := rfl

theorem skipLines_newline (s : Text) : skipLines ('\n' :: s) = skipLines s := by
  have hspaces : skipSpaces ('\n' :: s) = '\n' :: s := List.dropWhile_cons_of_neg (by decide)
  rw [skipLines, hspaces]
  exact if_pos (Nat.lt_succ_self _)

/-- A text that spells lines is read as these lines if none of them is too deep, and else it is not
    read. -/
theorem readLines_of_spells {ls : List Line} {s : Text} (h : Spells ls s)
    (hsound : ∀ l ∈ ls, l.Sound) :
    readLines s = if ∀ l ∈ ls, l.depth ≤ maxDepth then some ls else none := by
  -- Blank lines before the next line are passed over together with those behind it.
  suffices ∀ t, skipLines t = skipLines s → s.length ≤ t.length →
      readLines t = if ∀ l ∈ ls, l.depth ≤ maxDepth then some ls else none from
    this s rfl (Nat.le_refl _)
  induction h with
  | nil =>
    intro t ht _
    have hnil : skipLines [] = [] := by
      rw [skipLines]
      rfl
    rw [readLines, ht, hnil]
    rfl
  | @line l ls s h ih =>
    intro t ht hle
    obtain ⟨hl, hls⟩ := List.forall_mem_cons.1 hsound
    have hstart := (startsSolid_writeLine hl).append s
    have hlength : s.length < t.length := by
      obtain ⟨c, u, hc, _⟩ := startsSolid_writeLine hl
      rw [hc, List.length_append, List.length_cons] at hle
      omega
    rw [readLines, ht, skipLines_eq hstart (skipSpaces_eq hstart)]
    split
    · rename_i hnil
      obtain ⟨c, u, hc, _⟩ := hstart
      rw [hc] at hnil
      cases hnil
    · by_cases hdepth : l.depth ≤ maxDepth
      · rw [readLine_write hl, if_pos hdepth]
        simp only [Option.bind_eq_bind, Option.bind_some, endOfLine?_newline, if_pos hlength,
          ih hls s rfl (Nat.le_refl _), List.forall_mem_cons, hdepth, true_and]
        split <;> rfl
      · simp [readLine_write hl, hdepth]
  | blank h ih =>
    intro t ht hle
    refine ih hsound t (ht.trans (skipLines_newline _)) ?_
    rw [List.length_cons] at hle
    omega

/-- What starts a document is no mark of the byte order. -/
theorem head?_ne_mark {ls : List Line} {s : Text} (h : Spells ls s) (hsound : ∀ l ∈ ls, l.Sound) :
    s.head? ≠ some '\ufeff' := by
  cases h with
  | nil => exact fun h => nomatch h
  | line l h =>
    exact ((startsWith_writeLine (hsound l List.mem_cons_self)).append _).head?_ne (by decide)
  | blank h => exact fun h => absurd (Option.some.inj h) (by decide)

/-! ## The values behind keys -/

mutual

/-- The values that are written behind a key when a value is written under headers. -/
def Value.parts : Value → List Value
  | .table es => entryParts es
  | .array vs => if Value.isTables (.array vs) then itemParts vs else [.array vs]
  | v => [v]

/-- The values in the items of an array that are written behind a key. -/
def itemParts : List Value → List Value
  | [] => []
  | v :: vs => v.parts ++ itemParts vs

/-- The values in a table that are written behind a key. -/
def entryParts : List (String × Value) → List Value
  | [] => []
  | (_, v) :: es => v.parts ++ entryParts es

end

theorem parts_of_isPlain {v : Value} (h : v.isPlain) : v.parts = [v] := by
  cases v with
  | table es => cases h
  | array vs =>
    have htables : ¬Value.isTables (.array vs) := by
      simpa [Value.isPlain, Value.isTable] using h
    rw [Value.parts, if_neg htables]
  | _ => rfl

theorem lines_of_isPlain {v : Value} (h : v.isPlain) (path : List String) : v.lines path = [] := by
  cases v with
  | table es => cases h
  | array vs =>
    have htables : ¬Value.isTables (.array vs) := by
      simpa [Value.isPlain, Value.isTable] using h
    rw [Value.lines, if_neg htables]
  | _ => rfl

/-- All items of an array of tables are tables. -/
theorem exists_table_of_isTables {vs : List Value} (h : Value.isTables (.array vs)) :
    ∀ v ∈ vs, ∃ es, v = .table es := by
  intro v hv
  simp only [Value.isTables, Bool.and_eq_true, List.all_eq_true] at h
  have htable := h.2 v hv
  cases v with
  | table es => exact ⟨es, rfl⟩
  | _ => cases htable

/-- A property of lines that all headers have, and entries if their value has a property. -/
structure Judges (p : Line → Prop) (q : Value → Prop) : Prop where
  header {path : List String} (h : path ≠ []) : p (.header path)
  element {path : List String} (h : path ≠ []) : p (.element path)
  entry (k : String) (v : Value) : p (.entry [k] v) ↔ q v

section

variable {p : Line → Prop} {q : Value → Prop}

theorem forall_plainLines (hpq : Judges p q) (es : Table) :
    (∀ l ∈ plainLines es, p l) ↔ ∀ e ∈ es, e.2.isPlain → q e.2 := by
  simp only [plainLines, List.forall_mem_map, List.mem_filter, and_imp, hpq.entry]

theorem plainLines_eq_nil {es : Table} (h : es.any (·.2.isPlain) = false) : plainLines es = [] := by
  rw [plainLines, List.filter_eq_nil_iff.2 (List.any_eq_false.1 h), List.map_nil]

theorem forall_headerLines (hpq : Judges p q) {path : List String} (hpath : path ≠ [])
    (es : Table) : (∀ l ∈ headerLines path es, p l) ↔ ∀ l ∈ plainLines es, p l := by
  unfold headerLines
  split
  · rw [List.forall_mem_cons, and_iff_right (hpq.header hpath)]
  · rename_i hheader
    rw [Bool.or_eq_true, not_or, Bool.not_eq_true, Bool.not_eq_true] at hheader
    rw [plainLines_eq_nil hheader.2]

/-! The proofs follow the mutual recursion of values, entries and items. -/

mutual

theorem forall_lines (hpq : Judges p q) {path : List String} (hpath : path ≠ []) (v : Value)
    (hv : v.isPlain = false) : (∀ l ∈ v.lines path, p l) ↔ ∀ w ∈ v.parts, q w := by
  cases v with
  | table es =>
    rw [Value.lines, Value.parts, List.forall_mem_append, forall_headerLines hpq hpath]
    exact forall_contents hpq path es
  | array vs =>
    have htables : Value.isTables (.array vs) := by
      simpa [Value.isPlain, Value.isTable] using hv
    rw [Value.lines, Value.parts, if_pos htables, if_pos htables]
    exact forall_elements hpq hpath vs (exists_table_of_isTables htables)
  | _ => cases hv

theorem forall_contents (hpq : Judges p q) (path : List String) (es : List (String × Value)) :
    (∀ l ∈ plainLines es, p l) ∧ (∀ l ∈ innerLines path es, p l) ↔ ∀ v ∈ entryParts es, q v := by
  cases es with
  | nil => simp [plainLines, innerLines, entryParts]
  | cons e es =>
    have hrest := forall_contents hpq path es
    rw [forall_plainLines hpq] at hrest ⊢
    rw [innerLines, entryParts, List.forall_mem_append, List.forall_mem_append, ← hrest,
      List.forall_mem_cons]
    cases hv : e.2.isPlain with
    | true =>
      rw [lines_of_isPlain hv, parts_of_isPlain hv]
      simp [and_assoc]
    | false =>
      rw [forall_lines hpq (by simp) e.2 hv]
      simp [and_left_comm]

theorem forall_elements (hpq : Judges p q) {path : List String} (hpath : path ≠ [])
    (vs : List Value) (hvs : ∀ v ∈ vs, ∃ es, v = .table es) :
    (∀ l ∈ elementLines path vs, p l) ↔ ∀ v ∈ itemParts vs, q v := by
  cases vs with
  | nil => simp [elementLines, itemParts]
  | cons v vs =>
    have hrest := forall_elements hpq hpath vs fun w hw => hvs w (List.mem_cons_of_mem v hw)
    cases v with
    | table es =>
      rw [elementLines, itemParts, Value.parts, List.forall_mem_append, List.forall_mem_append,
        List.forall_mem_cons, List.forall_mem_append, hrest, forall_contents hpq path es,
        and_iff_right (hpq.element hpath)]
    | _ => exact (hvs _ List.mem_cons_self).elim fun es h => nomatch h

end

end

theorem mem_itemParts {vs : List Value} {w : Value} :
    w ∈ itemParts vs ↔ ∃ v ∈ vs, w ∈ v.parts := by
  induction vs with
  | nil => simp [itemParts]
  | cons v vs ih => rw [itemParts, List.mem_append, ih, List.exists_mem_cons_iff]

theorem mem_entryParts {es : Table} {w : Value} :
    w ∈ entryParts es ↔ ∃ e ∈ es, w ∈ e.2.parts := by
  induction es with
  | nil => simp [entryParts]
  | cons e es ih => rw [entryParts, List.mem_append, ih, List.exists_mem_cons_iff]

theorem built_parts {v : Value} (hv : v.Built) : ∀ w ∈ v.parts, w.Built := by
  induction hv with
  | string s => exact List.forall_mem_singleton.2 (.string s)
  | integer h => exact List.forall_mem_singleton.2 (.integer h)
  | boolean b => exact List.forall_mem_singleton.2 (.boolean b)
  | array h ih =>
    rw [Value.parts]
    split
    · intro w hw
      obtain ⟨v, hv, hw⟩ := mem_itemParts.1 hw
      exact ih v hv w hw
    · exact List.forall_mem_singleton.2 (.array h)
  | table horder h ih =>
    rw [Value.parts]
    intro w hw
    obtain ⟨e, he, hw⟩ := mem_entryParts.1 hw
    exact ih e he w hw

/-- The lines of a document can be written if the values behind keys are built. -/
theorem sound_documentLines {es : Table} (h : ∀ v ∈ entryParts es, v.Built) :
    ∀ l ∈ documentLines es, l.Sound := by
  have hjudges : Judges Line.Sound Value.Built :=
    ⟨fun h => h, fun h => h, fun k v => and_iff_right (List.cons_ne_nil k [])⟩
  exact List.forall_mem_append.2 ((forall_contents hjudges [] es).2 h)

theorem forall_depth_le {es : Table} {n : Nat} :
    (∀ l ∈ documentLines es, l.depth ≤ n) ↔ ∀ v ∈ entryParts es, v.depth ≤ n := by
  have hjudges : Judges (·.depth ≤ n) (·.depth ≤ n) :=
    ⟨fun _ => Nat.zero_le n, fun _ => Nat.zero_le n, fun _ _ => Iff.rfl⟩
  rw [documentLines, List.forall_mem_append]
  exact forall_contents hjudges [] es

/-- A written document is read as the table that its lines are put together to, if no value behind a
    key is too deep, and else it is not read. -/
theorem read_write {es : Table} (h : ∀ v ∈ entryParts es, v.Built) :
    read (write es) = if ∀ v ∈ entryParts es, v.depth ≤ maxDepth then
      (assemble (.header, []) [] (documentLines es)).map fun t => toTable t.2 else none := by
  have hspells := spells_write es
  have hsound := sound_documentLines h
  rw [read, if_neg (head?_ne_mark hspells hsound), readLines_of_spells hspells hsound]
  simp only [forall_depth_le]
  split
  · cases hdone : assemble (.header, []) [] (documentLines es) <;> simp [hdone]
  · rfl

end SheetLint.Toml
