import SheetLint.Proofs.Toml.Lines

/-
  Tables put together from lines. A line changes the table at one path and keeps how the tables on
  the way came into being (`Line.exists_change`), so lines with a key in front of their paths do to
  the table at this key what the lines do by themselves (`assemble_under`). Hence a table that a
  value is written as can be put together apart and then takes its place under its key, below
  headers of its own or without any (`placed_table`), and so can an array of tables
  (`placed_tables`). What is put together from the lines of a table has the same entries, each value
  as it was (`assemble_documentLines`).
-/

namespace SheetLint.Toml

open Sorted (insert lookup)

/-! ## What a line changes -/

/-- A change that leaves it as it is how a table came into being. -/
def KeepsOrigin (change : Section → Option Section) : Prop :=
  ∀ t u, change t = some u → u.1 = t.1

theorem keepsOrigin_alter {change : Section → Option Section} (h : KeepsOrigin change)
    (made : Origin) (path : List String) : KeepsOrigin (alter made path change) := by
  cases path with
  | nil => exact h
  | cons k ks =>
    intro t u hu
    rw [alter] at hu
    obtain ⟨i, _, rfl⟩ := Option.map_eq_some_iff.1 hu
    rfl

/-- Makes a table under a key, for a header. -/
def openKey (key : String) : Section → Option Section := fun (o, es) =>
  match lookup key es with
  | none => some (o, insert key (.table .header []) es)
  | some (.table .passage inner) => some (o, insert key (.table .header inner) es)
  | some _ => none

/-- Adds a table to an array under a key, for a header. -/
def addElement (key : String) : Section → Option Section := fun (o, es) =>
  match lookup key es with
  | none => some (o, insert key (.tables [] []) es)
  | some (.tables latest earlier) => some (o, insert key (.tables [] (latest :: earlier)) es)
  | some _ => none

theorem openTable_concat (path : List String) (key : String) :
    openTable (path ++ [key]) = alter .passage path (openKey key) := by
  funext t
  rw [openTable, List.reverse_concat]
  dsimp only
  rw [List.reverse_reverse]
  rfl

theorem openElement_concat (path : List String) (key : String) :
    openElement (path ++ [key]) = alter .passage path (addElement key) := by
  funext t
  rw [openElement, List.reverse_concat]
  dsimp only
  rw [List.reverse_reverse]
  rfl

theorem keepsOrigin_openKey (key : String) : KeepsOrigin (openKey key) := by
  rintro ⟨o, es⟩ u hu
  simp only [openKey] at hu
  split at hu
  · exact (Option.some.inj hu) ▸ rfl
  · exact (Option.some.inj hu) ▸ rfl
  · cases hu

theorem keepsOrigin_addElement (key : String) : KeepsOrigin (addElement key) := by
  rintro ⟨o, es⟩ u hu
  simp only [addElement] at hu
  split at hu
  · exact (Option.some.inj hu) ▸ rfl
  · exact (Option.some.inj hu) ▸ rfl
  · cases hu

theorem keepsOrigin_addEntry (path : List String) (v : Value) : KeepsOrigin (addEntry path v) := by
  unfold addEntry
  split
  · exact fun t u hu => nomatch hu
  · refine keepsOrigin_alter (fun t u hu => ?_) .dotted _
    dsimp only at hu
    split at hu
    · cases hu
    · exact (Option.some.inj hu) ▸ rfl

/-- What a line does to the document; `current` is the path of the table that is open. -/
def Line.change (current : List String) : Line → Section → Option Section
  | .header path => openTable path
  | .element path => openElement path
  | .entry path v => alter .passage current (addEntry path v)

/-- The path of the table that is open after a line. -/
def Line.next (current : List String) : Line → List String
  | .header path => path
  | .element path => path
  | .entry _ _ => current

theorem assemble_cons (root : Section) (current : List String) (l : Line) (ls : List Line) :
    assemble root current (l :: ls)
      = (l.change current root).bind fun root => assemble root (l.next current) ls := by
  rw [assemble]
  cases l with
  | header path => cases h : openTable path root <;> simp [addLine, Line.change, Line.next, h]
  | element path => cases h : openElement path root <;> simp [addLine, Line.change, Line.next, h]
  | entry path v =>
    cases h : alter .passage current (addEntry path v) root <;>
      simp [addLine, Line.change, Line.next, h]

theorem assemble_append (root : Section) (current : List String) (ls ms : List Line) :
    assemble root current (ls ++ ms) = (assemble root current ls).bind fun root =>
      assemble root (ls.foldl (fun current l => l.next current) current) ms := by
  induction ls generalizing root current with
  | nil => rfl
  | cons l ls ih =>
    rw [List.cons_append, assemble_cons, assemble_cons, Option.bind_assoc]
    congr 1
    funext root
    exact ih root (l.next current)

/-! ## Tables in tables -/

/-- A line with a key in front of its path. -/
def Line.under (k : String) : Line → Line
  | .header path => .header (k :: path)
  | .element path => .element (k :: path)
  | .entry path v => .entry path v

/-- A line that names a table if it is a header. -/
def Line.Named : Line → Prop
  | .header path => path ≠ []
  | .element path => path ≠ []
  | .entry _ _ => True

/-- A line changes the table at a path, the same table with a key in front of all paths. -/
theorem Line.exists_change {l : Line} (hl : l.Named) (current : List String) :
    ∃ path change, KeepsOrigin change ∧ l.change current = alter .passage path change ∧
      ∀ k, (l.under k).change (k :: current) = alter .passage (k :: path) change := by
  cases l with
  | header path =>
    obtain ⟨path, key, rfl⟩ := (List.eq_nil_or_concat path).resolve_left hl
    rw [List.concat_eq_append]
    exact ⟨path, openKey key, keepsOrigin_openKey key, openTable_concat path key,
      fun k => openTable_concat (k :: path) key⟩
  | element path =>
    obtain ⟨path, key, rfl⟩ := (List.eq_nil_or_concat path).resolve_left hl
    rw [List.concat_eq_append]
    exact ⟨path, addElement key, keepsOrigin_addElement key, openElement_concat path key,
      fun k => openElement_concat (k :: path) key⟩
  | entry path v =>
    exact ⟨current, addEntry path v, keepsOrigin_addEntry path v, rfl, fun k => rfl⟩

/-- A place for the entries of a table under a key: what changes there changes the entries. -/
def IsSlot (k : String) (o : Origin) (slot : List (String × Item) → Section) : Prop :=
  ∀ path change es, KeepsOrigin change →
    alter .passage (k :: path) change (slot es)
      = (alter .passage path change (o, es)).map fun t => slot t.2

theorem isSlot_table (k : String) (o' : Origin) (o : Origin) (fs : List (String × Item)) :
    IsSlot k o' fun es => (o, insert k (.table o' es) fs) := by
  intro path change es hchange
  rw [alter]
  dsimp only
  rw [Sorted.lookup_insert_self]
  dsimp only
  cases h : alter .passage path change (o', es) with
  | none => simp
  | some t =>
    have ht : t.1 = o' := keepsOrigin_alter hchange .passage path _ _ h
    simp [ht, insert_insert]

theorem isSlot_tables (k : String) (earlier : List (List (String × Item))) (o : Origin)
    (fs : List (String × Item)) :
    IsSlot k .header fun es => (o, insert k (.tables es earlier) fs) := by
  intro path change es _
  rw [alter]
  dsimp only
  rw [Sorted.lookup_insert_self]
  dsimp only
  cases alter .passage path change (.header, es) <;> simp [insert_insert]

/-- Lines with a key in front of their paths do to the table at the key what the lines do by
    themselves. -/
theorem assemble_under {k : String} {o : Origin} {slot : List (String × Item) → Section}
    (hslot : IsSlot k o slot) {ls : List Line} (hls : ∀ l ∈ ls, l.Named)
    (es : List (String × Item)) (current : List String) :
    assemble (slot es) (k :: current) (ls.map (·.under k))
      = (assemble (o, es) current ls).map fun t => slot t.2 := by
  induction ls generalizing es current with
  | nil => rfl
  | cons l ls ih =>
    obtain ⟨hl, hls⟩ := List.forall_mem_cons.1 hls
    obtain ⟨path, change, hchange, hself, hunder⟩ := Line.exists_change hl current
    have hnext : (l.under k).next (k :: current) = k :: l.next current := by
      cases l <;> rfl
    rw [List.map_cons, assemble_cons, assemble_cons, hunder, hslot path change es hchange, hself,
      hnext]
    cases h : alter .passage path change (o, es) with
    | none => rfl
    | some t =>
      have ht : t.1 = o := keepsOrigin_alter hchange .passage path _ _ h
      rw [Option.map_some, Option.bind_some, Option.bind_some, ih hls, ← ht]

/-! ## Lines of tables -/

theorem plainLines_under (k : String) (es : Table) :
    (plainLines es).map (·.under k) = plainLines es := by
  rw [plainLines, List.map_map]
  rfl

theorem headerLines_cons (k : String) (path : List String) (es : Table) :
    headerLines (k :: path) es = (headerLines path es).map (·.under k) := by
  unfold headerLines
  split
  · rw [List.map_cons, plainLines_under]
    rfl
  · rfl

/-! The lines under a longer path are those under a shorter one with a key in front. -/

mutual

theorem lines_cons (k : String) (path : List String) (v : Value) :
    v.lines (k :: path) = (v.lines path).map (·.under k) := by
  cases v with
  | table es =>
    rw [Value.lines, Value.lines, List.map_append, headerLines_cons, innerLines_cons]
  | array vs =>
    rw [Value.lines, Value.lines]
    split
    · exact elementLines_cons k path vs
    · rfl
  | _ => rfl

theorem innerLines_cons (k : String) (path : List String) (es : List (String × Value)) :
    innerLines (k :: path) es = (innerLines path es).map (·.under k) := by
  cases es with
  | nil => rfl
  | cons e es =>
    rw [innerLines, innerLines, List.map_append, List.cons_append, lines_cons, innerLines_cons]

theorem elementLines_cons (k : String) (path : List String) (vs : List Value) :
    elementLines (k :: path) vs = (elementLines path vs).map (·.under k) := by
  cases vs with
  | nil => rfl
  | cons v vs =>
    cases v with
    | table es =>
      rw [elementLines, elementLines, elementLines_cons, innerLines_cons, List.map_append,
        List.map_cons, List.map_append, plainLines_under]
      rfl
    | _ => exact elementLines_cons k path vs

end

/-- The header of a table is followed by what a document has for the table, under the key. -/
theorem lines_under (k : String) (es : Table) :
    plainLines es ++ innerLines [k] es = (documentLines es).map (·.under k) := by
  rw [documentLines, List.map_append, plainLines_under, innerLines_cons]

theorem named_documentLines (es : Table) : ∀ l ∈ documentLines es, l.Named := by
  have hjudges : Judges Line.Named fun _ => True := ⟨fun h => h, fun h => h, fun _ _ => Iff.rfl⟩
  exact List.forall_mem_append.2 ((forall_contents hjudges [] es).2 fun _ _ => trivial)

/-- Lines of which the first is a header. -/
def Opens (ls : List Line) : Prop :=
  ∃ l rest path, ls = l :: rest ∧ (l = .header path ∨ l = .element path)

theorem Opens.append {ls : List Line} (h : Opens ls) (ms : List Line) : Opens (ls ++ ms) := by
  obtain ⟨l, rest, path, rfl, hl⟩ := h
  exact ⟨l, rest ++ ms, path, rfl, hl⟩

theorem opens_header (path : List String) (ls : List Line) : Opens (.header path :: ls) :=
  ⟨_, ls, path, rfl, Or.inl rfl⟩

theorem opens_element (path : List String) (ls : List Line) : Opens (.element path :: ls) :=
  ⟨_, ls, path, rfl, Or.inr rfl⟩

theorem any_isPlain_of_no_header {es : Table} (h : ¬(es.isEmpty || es.any (·.2.isPlain)) = true) :
    es ≠ [] ∧ es.any (·.2.isPlain) = false := by
  rw [Bool.or_eq_true, not_or, Bool.not_eq_true, Bool.not_eq_true, List.isEmpty_eq_false_iff] at h
  exact h

/-! Values under headers start with one: their own, or that of the first value in them. -/

mutual

theorem opens_lines (v : Value) (hv : v.isPlain = false) (path : List String) :
    Opens (v.lines path) := by
  cases v with
  | table es =>
    rw [Value.lines, headerLines]
    split
    · exact (opens_header path _).append _
    · rename_i hheader
      obtain ⟨hne, hplain⟩ := any_isPlain_of_no_header hheader
      exact opens_innerLines es hne hplain path
  | array vs =>
    have htables : Value.isTables (.array vs) := by
      simpa [Value.isPlain, Value.isTable] using hv
    cases vs with
    | nil => cases htables
    | cons v vs =>
      obtain ⟨es, rfl⟩ := exists_table_of_isTables htables v List.mem_cons_self
      rw [Value.lines, if_pos htables, elementLines]
      exact (opens_element path _).append _
  | _ => cases hv

theorem opens_innerLines (es : List (String × Value)) (hne : es ≠ [])
    (hplain : es.any (·.2.isPlain) = false) (path : List String) :
    Opens (innerLines path es) := by
  cases es with
  | nil => exact absurd rfl hne
  | cons e es =>
    rw [List.any_cons, Bool.or_eq_false_iff] at hplain
    rw [innerLines]
    exact (opens_lines e.2 hplain.1 (path ++ [e.1])).append _

end

theorem alter_absent {k : String} {fs : List (String × Item)} (hk : lookup k fs = none)
    (o : Origin) (path : List String) (change : Section → Option Section) :
    alter .passage (k :: path) change (o, fs)
      = alter .passage (k :: path) change (o, insert k (.table .passage []) fs) := by
  rw [alter, alter]
  dsimp only
  rw [hk, Sorted.lookup_insert_self]
  cases h : alter .passage path change (.passage, []) <;> simp [insert_insert, h]

/-- A header under a key that is not there makes the table of the key on its way. -/
theorem assemble_absent {k : String} {fs : List (String × Item)} (hk : lookup k fs = none)
    {ls : List Line} (hopens : Opens ls) (hls : ∀ l ∈ ls, l.Named) (o : Origin)
    (current : List String) :
    assemble (o, fs) current (ls.map (·.under k))
      = assemble (o, insert k (.table .passage []) fs) [k] (ls.map (·.under k)) := by
  obtain ⟨l, rest, path, rfl, hl⟩ := hopens
  obtain ⟨path', change, _, _, hunder⟩ := Line.exists_change (hls l List.mem_cons_self) []
  have hchange : (l.under k).change current = alter .passage (k :: path') change := by
    rcases hl with rfl | rfl
    · exact hunder k
    · exact hunder k
  have hnext : (l.under k).next current = (l.under k).next [k] := by
    rcases hl with rfl | rfl <;> rfl
  rw [List.map_cons, assemble_cons, assemble_cons, hchange, hunder, hnext,
    alter_absent hk o path' change]

/-! ## Values in their places -/

/-- What the lines of a value put under a new key, and the value that this item has. -/
def Value.PlacedAs (v w : Value) : Prop :=
  ∃ item : Item, item.toValue = w ∧ ∀ k o fs current, lookup k fs = none →
    assemble (o, fs) current (v.lines [k]) = some (o, insert k item fs)

/-- What a document with the lines of a table is put together to. -/
def AssembledAs (es : Table) (w : Table) : Prop :=
  ∀ o, ∃ fs, assemble (o, []) [] (documentLines es) = some (o, fs) ∧ toTable fs = w

theorem lines_table (k : String) (es : Table) :
    (Value.table es).lines [k] = if es.isEmpty || es.any (·.2.isPlain) then
      .header [k] :: (documentLines es).map (·.under k)
      else (documentLines es).map (·.under k) := by
  rw [Value.lines, headerLines]
  split
  · rw [List.cons_append, lines_under]
  · rename_i hheader
    rw [← lines_under, plainLines_eq_nil (any_isPlain_of_no_header hheader).2]

/-- A table takes its place under a key as it is put together by itself. -/
theorem placed_table {es w : Table} (h : AssembledAs es w) :
    (Value.table es).PlacedAs (.table w) := by
  have hnamed := named_documentLines es
  by_cases hheader : (es.isEmpty || es.any (·.2.isPlain)) = true
  · obtain ⟨gs, hgs, hw⟩ := h .header
    refine ⟨.table .header gs, by rw [Item.toValue, hw], fun k o fs current hk => ?_⟩
    have hopen : openTable [k] (o, fs) = some (o, insert k (.table .header []) fs) := by
      show openTable ([] ++ [k]) (o, fs) = _
      rw [openTable_concat, alter, openKey, hk]
    rw [lines_table, if_pos hheader, assemble_cons, Line.change, hopen, Option.bind_some, Line.next,
      assemble_under (isSlot_table k .header o fs) hnamed, hgs]
    rfl
  · obtain ⟨gs, hgs, hw⟩ := h .passage
    refine ⟨.table .passage gs, by rw [Item.toValue, hw], fun k o fs current hk => ?_⟩
    have hopens : Opens (documentLines es) := by
      obtain ⟨hne, hplain⟩ := any_isPlain_of_no_header hheader
      rw [documentLines, plainLines_eq_nil hplain]
      exact opens_innerLines es hne hplain []
    rw [lines_table, if_neg hheader, assemble_absent hk hopens hnamed,
      assemble_under (isSlot_table k .passage o fs) hnamed, hgs]
    rfl

theorem toValue_tables (latest : List (String × Item)) (earlier : List (List (String × Item))) :
    (Item.tables latest earlier).toValue = .array (toTables (latest :: earlier)).reverse := by
  rw [Item.toValue, toTables, List.reverse_cons]

/-- A table of an array is put together in the place that its header opens. -/
theorem assemble_element {es : Table} {gs : List (String × Item)}
    (h : assemble (.header, []) [] (documentLines es) = some (.header, gs)) {k : String}
    {o : Origin} {fs : List (String × Item)} {earlier : List (List (String × Item))}
    {root : Section}
    (hopen : addElement k root = some (o, insert k (.tables [] earlier) fs))
    (current : List String) :
    assemble root current (.element [k] :: (plainLines es ++ innerLines [k] es))
      = some (o, insert k (.tables gs earlier) fs) := by
  have hopen' : openElement ([] ++ [k]) root = some (o, insert k (.tables [] earlier) fs) := by
    rw [openElement_concat, alter, hopen]
  rw [List.nil_append] at hopen'
  rw [lines_under, assemble_cons, Line.change, hopen', Option.bind_some, Line.next,
    assemble_under (isSlot_tables k earlier o fs) (named_documentLines es), h]
  rfl

/-- The tables of an array are put together one after the other. -/
theorem assemble_elements {vs : List Value}
    (h : ∀ v ∈ vs, ∃ es, v = .table es ∧ AssembledAs es es) (latest : List (String × Item))
    (earlier : List (List (String × Item))) :
    ∃ latest' earlier',
      toTables (latest' :: earlier') = vs.reverse ++ toTables (latest :: earlier) ∧
      ∀ k o fs current,
        assemble (o, insert k (.tables latest earlier) fs) current (elementLines [k] vs)
          = some (o, insert k (.tables latest' earlier') fs) := by
  induction vs generalizing latest earlier with
  | nil => exact ⟨latest, earlier, rfl, fun _ _ _ _ => rfl⟩
  | cons v vs ih =>
    obtain ⟨⟨es, rfl, hes⟩, hvs⟩ := List.forall_mem_cons.1 h
    obtain ⟨gs, hgs, htable⟩ := hes .header
    obtain ⟨latest', earlier', htables, hassemble⟩ := ih hvs gs (latest :: earlier)
    refine ⟨latest', earlier', ?_, fun k o fs current => ?_⟩
    · rw [htables, toTables, htable, List.reverse_cons, List.append_assoc]
      rfl
    · have hopen : addElement k (o, insert k (.tables latest earlier) fs)
          = some (o, insert k (.tables [] (latest :: earlier)) fs) := by
        rw [addElement, Sorted.lookup_insert_self]
        dsimp only
        rw [insert_insert]
      rw [elementLines, assemble_append, assemble_element hgs hopen, Option.bind_some]
      exact hassemble k o fs _

/-- An array of tables takes its place under a key. -/
theorem placed_tables {vs : List Value} (htables : Value.isTables (.array vs))
    (h : ∀ v ∈ vs, ∃ es, v = .table es ∧ AssembledAs es es) :
    (Value.array vs).PlacedAs (.array vs) := by
  cases vs with
  | nil => cases htables
  | cons v vs =>
    obtain ⟨⟨es, rfl, hes⟩, hvs⟩ := List.forall_mem_cons.1 h
    obtain ⟨gs, hgs, htable⟩ := hes .header
    obtain ⟨latest, earlier, hitems, hassemble⟩ := assemble_elements hvs gs []
    refine ⟨.tables latest earlier, ?_, fun k o fs current hk => ?_⟩
    · rw [toValue_tables, hitems, toTables, toTables, htable]
      simp
    · have hopen : addElement k (o, fs) = some (o, insert k (.tables [] []) fs) := by
        rw [addElement, hk]
      rw [Value.lines, if_pos htables, elementLines, assemble_append, assemble_element hgs hopen,
        Option.bind_some]
      exact hassemble k o fs _

/-! ## Entries of tables -/

variable {fs : List (String × Item)} {done es : Table}

theorem assemble_entries (o : Origin) (hfs : Holds fs done) (hkeys : DistinctKeys (done ++ es)) :
    ∃ gs, assemble (o, fs) [] (es.map fun e => .entry [e.1] e.2) = some (o, gs) ∧
      Holds gs (done ++ es) := by
  induction es generalizing fs done with
  | nil => exact ⟨fs, rfl, by rwa [List.append_nil]⟩
  | cons e es ih =>
    obtain ⟨hnone, hnext⟩ := hfs.next hkeys
    have hkeys' : DistinctKeys (done ++ [e] ++ es) := by
      rwa [List.append_assoc]
    obtain ⟨gs, hgs, hholds⟩ := ih hnext hkeys'
    refine ⟨gs, ?_, by rwa [List.append_assoc] at hholds⟩
    rw [List.map_cons, assemble_cons, Line.change, alter, addEntry_singleton hnone]
    exact hgs

theorem assemble_innerLines (o : Origin) (h : ∀ e ∈ es, e.2.isPlain = false → e.2.PlacedAs e.2)
    (hfs : Holds fs done) (hkeys : DistinctKeys es)
    (hnew : ∀ e ∈ es, e.2.isPlain = false → ∀ f ∈ done, f.1 ≠ e.1) (current : List String) :
    ∃ gs, assemble (o, fs) current (innerLines [] es) = some (o, gs) ∧
      Holds gs (done ++ es.filter (!·.2.isPlain)) := by
  induction es generalizing fs done current with
  | nil => exact ⟨fs, rfl, by rwa [List.filter_nil, List.append_nil]⟩
  | cons e es ih =>
    obtain ⟨he, hes⟩ := List.forall_mem_cons.1 h
    obtain ⟨hfirst, hrest⟩ := List.forall_mem_cons.1 hnew
    obtain ⟨hhead, htail⟩ := List.pairwise_cons.1 hkeys
    rw [innerLines, List.nil_append]
    cases hplain : e.2.isPlain with
    | true =>
      obtain ⟨gs, hgs, hholds⟩ := ih hes hfs htail hrest current
      refine ⟨gs, ?_, ?_⟩
      · rw [lines_of_isPlain hplain, List.nil_append]
        exact hgs
      · rwa [List.filter_cons_of_neg (by simp [hplain])]
    | false =>
      obtain ⟨item, hitem, hplaced⟩ := he hplain
      have hinsert := hfs.insert (hfirst hplain) item
      have hnew' : ∀ f ∈ es, f.2.isPlain = false → ∀ g ∈ done ++ [(e.1, item.toValue)],
          g.1 ≠ f.1 := by
        intro f hf hfplain
        rw [List.forall_mem_append]
        exact ⟨hrest f hf hfplain, List.forall_mem_singleton.2 (hhead f hf)⟩
      obtain ⟨gs, hgs, hholds⟩ := ih hes hinsert htail hnew' _
      refine ⟨gs, ?_, ?_⟩
      · rw [assemble_append, hplaced _ _ _ _ (hfs.lookup_eq_none (hfirst hplain)),
          Option.bind_some]
        exact hgs
      · rw [List.filter_cons_of_pos (by simp [hplain])]
        rwa [List.append_assoc, hitem] at hholds

/-- What is put together from the lines of a table has the entries of the table. -/
theorem assemble_documentLines (o : Origin)
    (h : ∀ e ∈ es, e.2.isPlain = false → e.2.PlacedAs e.2) (hkeys : DistinctKeys es) :
    ∃ gs, assemble (o, []) [] (documentLines es) = some (o, gs) ∧ Holds gs es := by
  have hplainKeys : DistinctKeys ([] ++ es.filter (·.2.isPlain)) :=
    hkeys.sublist List.filter_sublist
  obtain ⟨ps, hps, hplain⟩ := assemble_entries o Holds.nil hplainKeys
  have hnew : ∀ e ∈ es, e.2.isPlain = false → ∀ f ∈ [] ++ es.filter (·.2.isPlain), f.1 ≠ e.1 := by
    intro e he heplain f hf hkey
    obtain ⟨hf, hfplain⟩ := List.mem_filter.1 hf
    have hlookup := (Sorted.lookup_eq_some_iff hkeys).2 hf
    rw [hkey, (Sorted.lookup_eq_some_iff hkeys).2 he] at hlookup
    rw [← Option.some.inj hlookup, heplain] at hfplain
    cases hfplain
  obtain ⟨gs, hgs, hholds⟩ := assemble_innerLines o h hplain hkeys hnew _
  refine ⟨gs, ?_, hholds.congr fun e => ?_⟩
  · rw [documentLines, plainLines, assemble_append, hps, Option.bind_some]
    exact hgs
  · cases hplain : e.2.isPlain <;> simp [hplain]

theorem assembledAs_of_inOrder (h : ∀ e ∈ es, e.2.isPlain = false → e.2.PlacedAs e.2)
    (horder : InOrder es) : AssembledAs es es := by
  intro o
  obtain ⟨gs, hgs, hholds⟩ := assemble_documentLines o h horder.distinctKeys
  exact ⟨gs, hgs, hholds.eq horder⟩

/-- Entries in another order than that of their keys come to be in order, and are found as
    before. -/
theorem exists_assembledAs (h : ∀ e ∈ es, e.2.isPlain = false → e.2.PlacedAs e.2)
    (hkeys : DistinctKeys es) :
    ∃ w, AssembledAs es w ∧ ∀ k, lookup k w = lookup k es := by
  obtain ⟨fs, _, hfs⟩ := assemble_documentLines .header h hkeys
  refine ⟨toTable fs, fun o => ?_, hfs.lookup_eq hkeys⟩
  obtain ⟨gs, hgs, hholds⟩ := assemble_documentLines o h hkeys
  exact ⟨gs, hgs, hholds.unique hfs⟩

/-- A built value under headers takes its place as it is, and what is in it, if it is a table, is
    put together to the table. -/
theorem restored_of_built {v : Value} (hv : v.Built) :
    (v.isPlain = false → v.PlacedAs v) ∧ ∀ es, v = .table es → AssembledAs es es := by
  induction hv with
  | string s => exact ⟨by rintro ⟨⟩, by rintro es ⟨⟩⟩
  | integer _ => exact ⟨by rintro ⟨⟩, by rintro es ⟨⟩⟩
  | boolean b => exact ⟨by rintro ⟨⟩, by rintro es ⟨⟩⟩
  | @array vs h ih =>
    refine ⟨fun hplain => ?_, by rintro es ⟨⟩⟩
    have htables : Value.isTables (.array vs) := by
      simpa [Value.isPlain, Value.isTable] using hplain
    refine placed_tables htables fun v hv => ?_
    obtain ⟨es, rfl⟩ := exists_table_of_isTables htables v hv
    exact ⟨es, rfl, (ih _ hv).2 es rfl⟩
  | @table es horder h ih =>
    have hassembled := assembledAs_of_inOrder (fun e he => (ih e he).1) horder
    refine ⟨fun _ => placed_table hassembled, fun es' hes => ?_⟩
    obtain rfl := Value.table.inj hes
    exact hassembled

end SheetLint.Toml
