import SheetLint.Config.Discovery
import SheetLint.Proofs.Toml.Assembly

/-
  Configurations as they are written and read back. The tables of a written configuration are put
  together one by one (`assemble_entries`), and only the values of the rules can be lost: all of the
  configuration if one of them is too deep to be read behind its key, and a table that starts with
  the key of dates and times, which is read as what its entry stands for (`kept?_eq_self_iff`). So a
  configuration is read back as it was exactly if its rules have neither (`read_back_iff`).
-/

namespace SheetLint

open Sorted (insert lookup)

namespace Toml

/-! ## Values as they are kept -/

mutual

/-- The tables in a value. -/
def Value.tables : Value → List Table
  | .array vs => itemTables vs
  | .table es => es :: entryTables es
  | _ => []

/-- The tables in the items of an array. -/
def itemTables : List Value → List Table
  | [] => []
  | v :: vs => v.tables ++ itemTables vs

/-- The tables in the values of a table. -/
def entryTables : List (String × Value) → List Table
  | [] => []
  | (_, v) :: es => v.tables ++ entryTables es

end

/-- A table that starts with the key of dates and times. -/
def StartsWithDatetime (es : Table) : Prop := es.head?.map (·.1) = some datetimeKey

instance : DecidablePred StartsWithDatetime := fun es =>
  inferInstanceAs (Decidable (es.head?.map (·.1) = some datetimeKey))

theorem hiddenDatetime?_ne_table {es fs : Table} : hiddenDatetime? es ≠ some (.table fs) := by
  unfold hiddenDatetime?
  split
  · intro h
    obtain ⟨t, _, ht⟩ := Option.map_eq_some_iff.1 h
    cases ht
  · exact fun h => nomatch h

theorem keptItems?_cons {v : Value} {vs : List Value} :
    keptItems? (v :: vs) = some (v :: vs) ↔ v.kept? = some v ∧ keptItems? vs = some vs := by
  rw [keptItems?]
  cases v.kept? <;> cases keptItems? vs <;> simp

theorem keptEntries?_cons {e : String × Value} {es : Table} :
    keptEntries? (e :: es) = some (e :: es) ↔ e.2.kept? = some e.2 ∧ keptEntries? es = some es := by
  rw [keptEntries?]
  cases e.2.kept? <;> cases keptEntries? es <;> simp [Prod.ext_iff]

theorem keptItems?_eq_self_iff {vs : List Value}
    (h : ∀ v ∈ vs, v.kept? = some v ↔ ∀ t ∈ v.tables, ¬StartsWithDatetime t) :
    keptItems? vs = some vs ↔ ∀ t ∈ itemTables vs, ¬StartsWithDatetime t := by
  induction vs with
  | nil => simp [keptItems?, itemTables]
  | cons v vs ih =>
    obtain ⟨hv, hvs⟩ := List.forall_mem_cons.1 h
    rw [keptItems?_cons, itemTables, List.forall_mem_append, hv, ih hvs]

theorem keptEntries?_eq_self_iff {es : Table}
    (h : ∀ e ∈ es, e.2.kept? = some e.2 ↔ ∀ t ∈ e.2.tables, ¬StartsWithDatetime t) :
    keptEntries? es = some es ↔ ∀ t ∈ entryTables es, ¬StartsWithDatetime t := by
  induction es with
  | nil => simp [keptEntries?, entryTables]
  | cons e es ih =>
    obtain ⟨he, hes⟩ := List.forall_mem_cons.1 h
    rw [keptEntries?_cons, entryTables, List.forall_mem_append, he, ih hes]

/-- A built value is kept as it is if no table in it starts with the key of dates and times. -/
theorem kept?_eq_self_iff {v : Value} (hv : v.Built) :
    v.kept? = some v ↔ ∀ t ∈ v.tables, ¬StartsWithDatetime t := by
  induction hv with
  | string s => simp [Value.kept?, Value.tables]
  | @integer i h =>
    have hkept : (Value.integer i).kept? = some (.integer i) := by
      rw [Value.kept?]
      exact if_pos h
    simp [hkept, Value.tables]
  | boolean b => simp [Value.kept?, Value.tables]
  | @array vs h ih =>
    rw [Value.kept?, Value.tables, ← keptItems?_eq_self_iff ih]
    simp
  | @table es horder h ih =>
    rw [Value.kept?, Value.tables, List.forall_mem_cons, ← keptEntries?_eq_self_iff ih]
    split
    · rename_i hstart
      exact ⟨fun h => absurd h hiddenDatetime?_ne_table, fun h => absurd hstart h.1⟩
    · rename_i hstart
      simp [StartsWithDatetime, hstart]

theorem strings?_map_string (ss : List String) :
    (Value.array (ss.map .string)).strings? = some ss := by
  rw [Value.strings?]
  induction ss with
  | nil => rfl
  | cons s ss ih => simp [Value.string?, ih]

end Toml

open Toml

/-! ## Written configurations -/

namespace Scope

theorem built_entries (s : Scope) : ∀ e ∈ s.entries, e.2.Built := by
  have hstrings (ss : List String) : (Value.array (ss.map .string)).Built := by
    refine .array fun v hv => ?_
    obtain ⟨a, _, rfl⟩ := List.mem_map.1 hv
    exact .string a
  simp only [entries, List.forall_mem_cons]
  exact ⟨.boolean _, hstrings _, hstrings _, List.forall_mem_nil _⟩

theorem isPlain_entries (s : Scope) : ∀ e ∈ s.entries, e.2.isPlain := by
  have hstrings (ss : List String) : (Value.array (ss.map .string)).isPlain := by
    cases ss <;> simp [Value.isPlain, Value.isTable, Value.isTables]
  simp only [entries, List.forall_mem_cons]
  exact ⟨rfl, hstrings _, hstrings _, List.forall_mem_nil _⟩

theorem depth_entries (s : Scope) : ∀ e ∈ s.entries, e.2.depth ≤ maxDepth := by
  have hitems (ss : List String) : itemsDepth (ss.map .string) = 0 := by
    induction ss with
    | nil => rfl
    | cons a ss ih =>
      rw [List.map_cons, itemsDepth, ih]
      rfl
  have hstrings (ss : List String) : (Value.array (ss.map .string)).depth ≤ maxDepth := by
    rw [Value.depth, hitems]
    decide
  simp only [entries, List.forall_mem_cons]
  exact ⟨Nat.zero_le maxDepth, hstrings _, hstrings _, List.forall_mem_nil _⟩

theorem distinctKeys_entries (s : Scope) : DistinctKeys s.entries := by
  unfold entries DistinctKeys
  simp

/-- The scope is found in any table in which its entries are found. -/
theorem ofValue?_of_lookup {s : Scope} {es : Toml.Table}
    (h : ∀ k, lookup k es = lookup k s.entries) : ofValue? (.table es) = some s := by
  have hgitignore : lookup "gitignore" s.entries = some (.boolean s.gitignore) := rfl
  have hextensions : lookup "extensions" s.entries = some (.array (s.extensions.map .string)) := rfl
  have hexclude : lookup "exclude" s.entries = some (.array (s.exclude.map .string)) := rfl
  rw [ofValue?, h, h, h, hgitignore, hextensions, hexclude]
  simp [ofValues?, Value.flag?, strings?_map_string]

end Scope

namespace Config

variable {c : Config}

/-- The entry of the version, if there is one. -/
def versionEntries (c : Config) : Toml.Table :=
  (c.version.map fun v => ("version", Value.string v)).toList

theorem mem_versionEntries {e : String × Value} (he : e ∈ c.versionEntries) :
    ∃ v, c.version = some v ∧ e = ("version", .string v) := by
  obtain ⟨v, hv, rfl⟩ := Option.map_eq_some_iff.1 (Option.mem_toList.1 he)
  exact ⟨v, hv, rfl⟩

theorem distinctKeys_versionEntries (c : Config) : DistinctKeys c.versionEntries := by
  unfold versionEntries DistinctKeys
  cases c.version <;> simp

/-- The values behind keys in a configuration are its version, those of its scope and those of its
    rules. -/
theorem entryParts_entries (c : Config) :
    entryParts c.entries
      = (c.versionEntries ++ c.scope.entries).map (·.2) ++ entryParts c.rules := by
  have hplain (es : Toml.Table) (h : ∀ e ∈ es, e.2.isPlain) (fs : Toml.Table) :
      entryParts (es ++ fs) = es.map (·.2) ++ entryParts fs := by
    induction es with
    | nil => rfl
    | cons e es ih =>
      obtain ⟨he, hes⟩ := List.forall_mem_cons.1 h
      rw [List.cons_append, entryParts, ih hes, parts_of_isPlain he]
      rfl
  have hversion : ∀ e ∈ c.versionEntries, e.2.isPlain := by
    intro e he
    obtain ⟨v, _, rfl⟩ := mem_versionEntries he
    rfl
  have hscope := hplain c.scope.entries c.scope.isPlain_entries []
  rw [List.append_nil, entryParts, List.append_nil] at hscope
  rw [entries, ← versionEntries, hplain _ hversion]
  simp [entryParts, Value.parts, hscope]

/-- The lines of a configuration are its version, its scope and its rules. -/
theorem documentLines_entries (c : Config) :
    documentLines c.entries = c.versionEntries.map (fun e => .entry [e.1] e.2)
      ++ ((Value.table c.scope.entries).lines ["scanner"]
        ++ (Value.table c.rules).lines ["rules"]) := by
  unfold documentLines plainLines entries versionEntries
  cases c.version <;> simp [innerLines, Value.isPlain, Value.isTable, Value.isTables, Value.lines]

/-- The entries of a configuration with the scope in another table. -/
def entriesWith (c : Config) (scope : Toml.Table) : Toml.Table :=
  c.versionEntries ++ [("scanner", .table scope)] ++ [("rules", .table c.rules)]

theorem distinctKeys_entriesWith (c : Config) (scope : Toml.Table) :
    DistinctKeys (c.entriesWith scope) := by
  unfold entriesWith versionEntries DistinctKeys
  cases c.version <;> simp

theorem lookup_entriesWith (c : Config) (scope : Toml.Table) :
    lookup "version" (c.entriesWith scope) = c.version.map .string ∧
      lookup "scanner" (c.entriesWith scope) = some (.table scope) ∧
      lookup "rules" (c.entriesWith scope) = some (.table c.rules) := by
  unfold entriesWith versionEntries
  cases c.version <;> simp [lookup]

/-- The tables of a written configuration are put together to its entries. -/
theorem assemble_entries (hc : (Value.table c.rules).Built) :
    ∃ gs scope, assemble (.header, []) [] (documentLines c.entries) = some (.header, gs) ∧
      Holds gs (c.entriesWith scope) ∧ ∀ k, lookup k scope = lookup k c.scope.entries := by
  obtain ⟨scope, hassembled, hscope⟩ := exists_assembledAs
    (fun e he hplain => absurd (c.scope.isPlain_entries e he) (by simp [hplain]))
    c.scope.distinctKeys_entries
  obtain ⟨scanner, hscanner, hplaceScanner⟩ := placed_table hassembled
  obtain ⟨rules, hrules, hplaceRules⟩ := (restored_of_built hc).1 rfl
  have hkeys : DistinctKeys ([] ++ c.versionEntries) := c.distinctKeys_versionEntries
  obtain ⟨vs, hvs, hversion⟩ := Toml.assemble_entries .header Holds.nil hkeys
  rw [List.nil_append] at hversion
  have hkey {k : String} (hk : k ≠ "version") : ∀ e ∈ c.versionEntries, e.1 ≠ k := by
    intro e he
    obtain ⟨v, _, rfl⟩ := mem_versionEntries he
    exact hk.symm
  have hnewScanner := hkey (k := "scanner") (by decide)
  have hne : "scanner" ≠ "rules" := by decide
  have hnewRules : ∀ e ∈ c.versionEntries ++ [("scanner", scanner.toValue)], e.1 ≠ "rules" :=
    List.forall_mem_append.2 ⟨hkey (by decide), List.forall_mem_singleton.2 hne⟩
  have hwithScanner := hversion.insert hnewScanner scanner
  have hall := hwithScanner.insert hnewRules rules
  rw [hscanner, hrules] at hall
  refine ⟨_, scope, ?_, hall, hscope⟩
  rw [documentLines_entries, assemble_append, hvs, Option.bind_some, assemble_append,
    hplaceScanner _ _ _ _ (hversion.lookup_eq_none hnewScanner), Option.bind_some,
    hplaceRules _ _ _ _ (hwithScanner.lookup_eq_none hnewRules)]

/-- Read back, a configuration has the values of its rules as they are kept, and all else as it
    was. -/
theorem ofTable?_of_holds {gs : List (String × Item)} {scope : Toml.Table}
    (h : Holds gs (c.entriesWith scope))
    (hscope : ∀ k, lookup k scope = lookup k c.scope.entries) :
    ofTable? (toTable gs) = (keptEntries? c.rules).map fun rules => { c with rules } := by
  obtain ⟨hversion, hscanner, hrules⟩ := lookup_entriesWith c scope
  have hlookup := h.lookup_eq (distinctKeys_entriesWith c scope)
  rw [ofTable?, hlookup, hlookup, hlookup, hversion, hscanner, hrules]
  simp only [Option.map_some, Option.getD_some, Scope.ofValue?_of_lookup hscope, rulesOf?]
  cases c.version <;> cases keptEntries? c.rules <;> rfl

/-- A written configuration is read back with the values of its rules as they are kept, if none of
    those behind keys is too deep. -/
theorem read_write (hc : (Value.table c.rules).Built) :
    (read c.write).bind ofTable? =
      if ∀ v ∈ entryParts c.rules, v.depth ≤ maxDepth then
        (keptEntries? c.rules).map fun rules => { c with rules }
      else none := by
  have hversion : ∀ e ∈ c.versionEntries, e.2.Built ∧ e.2.depth ≤ maxDepth := by
    intro e he
    obtain ⟨v, _, rfl⟩ := mem_versionEntries he
    exact ⟨.string v, Nat.zero_le maxDepth⟩
  have hothers : ∀ v ∈ (c.versionEntries ++ c.scope.entries).map (·.2),
      v.Built ∧ v.depth ≤ maxDepth := by
    rw [List.forall_mem_map, List.forall_mem_append]
    exact ⟨hversion, fun e he => ⟨c.scope.built_entries e he, c.scope.depth_entries e he⟩⟩
  have hbuilt : ∀ v ∈ entryParts c.entries, v.Built := by
    rw [entryParts_entries, List.forall_mem_append]
    exact ⟨fun v hv => (hothers v hv).1, built_parts hc⟩
  have hdepth : (∀ v ∈ entryParts c.entries, v.depth ≤ maxDepth) ↔
      ∀ v ∈ entryParts c.rules, v.depth ≤ maxDepth := by
    rw [entryParts_entries, List.forall_mem_append,
      and_iff_right fun v hv => (hothers v hv).2]
  obtain ⟨gs, scope, hgs, hholds, hscope⟩ := assemble_entries hc
  rw [write, Toml.read_write hbuilt, hgs]
  simp only [hdepth]
  split
  · exact ofTable?_of_holds hholds hscope
  · rfl

/-- A configuration is read back as it was written exactly if no value behind a key in its rules
    has more arrays and inline tables in one another than are read, and no table in its rules starts
    with the key that stands for a date or a time. -/
theorem read_back_iff (hc : (Value.table c.rules).Built) :
    (read c.write).bind ofTable? = some c ↔
      (∀ v ∈ entryParts c.rules, v.depth ≤ maxDepth) ∧
        ∀ t ∈ entryTables c.rules, ¬StartsWithDatetime t := by
  obtain ⟨version, scope, rules⟩ := c
  have hvalues : ∀ e ∈ rules, e.2.kept? = some e.2 ↔ ∀ t ∈ e.2.tables, ¬StartsWithDatetime t := by
    cases hc with
    | table _ h => exact fun e he => kept?_eq_self_iff (h e he)
  have hsame : (keptEntries? rules).map (Config.mk version scope) = some ⟨version, scope, rules⟩ ↔
      keptEntries? rules = some rules := by
    cases keptEntries? rules <;> simp
  rw [read_write hc, ← keptEntries?_eq_self_iff hvalues, ← hsame]
  split
  · rename_i hdepth
    exact ⟨fun h => ⟨hdepth, h⟩, fun h => h.2⟩
  · rename_i hdepth
    exact ⟨(fun h => nomatch h), fun h => absurd h.1 hdepth⟩

/-- A configuration without a version, and with an option that is a table with tables in it. -/
def nestedOption : Config where
  scope := { exclude := ["'''\"\"\"\\\n", "**/[a]"] }
  rules := [("", .string "\x7f\r"),
    (NewlineAfterSemicolon.name, .table [
      ("a.b", .array [.table [("\"", .integer (-1))], .table []]),
      ("c", .array [.boolean true, .table [("'", .array [])]])])]

/-- A configuration without rules. -/
def noRules : Config where
  version := some "1\n"
  rules := []

theorem built_nestedOption : (Value.table nestedOption.rules).Built := by
  have htables : (Value.array [.table [("\"", .integer (-1))], .table []]).Built := by
    refine .array (List.forall_mem_cons.2 ⟨.table (List.pairwise_singleton _ _) ?_,
      List.forall_mem_singleton.2 (.table .nil (List.forall_mem_nil _))⟩)
    exact List.forall_mem_singleton.2 (.integer (by unfold IsInt64; decide))
  have hmixed : (Value.array [.boolean true, .table [("'", .array [])]]).Built := by
    refine .array (List.forall_mem_cons.2 ⟨.boolean true, List.forall_mem_singleton.2 ?_⟩)
    refine .table (List.pairwise_singleton _ _) (List.forall_mem_singleton.2 ?_)
    exact .array (List.forall_mem_nil _)
  have horder : InOrder nestedOption.rules := by
    unfold InOrder
    decide
  refine .table horder (List.forall_mem_cons.2 ⟨.string _, List.forall_mem_singleton.2 ?_⟩)
  refine .table ?_ (List.forall_mem_cons.2 ⟨htables, List.forall_mem_singleton.2 hmixed⟩)
  unfold InOrder
  decide

theorem read_back_iff_nestedOption :
    (read nestedOption.write).bind ofTable? = some nestedOption ∧
      (read noRules.write).bind ofTable? = some noRules := by
  have hnone : (Value.table noRules.rules).Built := .table .nil (List.forall_mem_nil _)
  constructor
  · exact (read_back_iff built_nestedOption).2 ⟨by decide +kernel, by decide +kernel⟩
  · exact (read_back_iff hnone).2 ⟨by decide, by decide⟩

/-- Arrays in one another. -/
def nestedArrays : Nat → Value
  | 0 => .array []
  | n + 1 => .array [nestedArrays n]

theorem built_nestedArrays (n : Nat) : (nestedArrays n).Built := by
  induction n with
  | zero => exact .array (List.forall_mem_nil _)
  | succ n ih => exact .array (List.forall_mem_singleton.2 ih)

/-- A configuration with an option of two hundred arrays in one another. -/
def deepOption : Config where
  rules := [(NewlineAfterSemicolon.name, nestedArrays 199)]

/-- A configuration with an option that is a table with the key of dates and times. -/
def datetimeOption : Config where
  rules := [(NewlineAfterSemicolon.name, .table [(datetimeKey, .string "a")])]

/-- Neither of these is a configuration any more when it is read back. -/
theorem options_are_not_read_back :
    (Value.table deepOption.rules).Built ∧ (read deepOption.write).bind ofTable? = none ∧
      (Value.table datetimeOption.rules).Built ∧
      (read datetimeOption.write).bind ofTable? = none := by
  have hdeep : (Value.table deepOption.rules).Built :=
    .table (List.pairwise_singleton _ _) (List.forall_mem_singleton.2 (built_nestedArrays 199))
  have hdatetime : (Value.table datetimeOption.rules).Built :=
    .table (List.pairwise_singleton _ _) (List.forall_mem_singleton.2
      (.table (List.pairwise_singleton _ _) (List.forall_mem_singleton.2 (.string "a"))))
  refine ⟨hdeep, ?_, hdatetime, ?_⟩
  · rw [read_write hdeep, if_neg (by decide +kernel)]
  · rw [read_write hdatetime, if_pos (by decide +kernel)]
    rfl

end Config

end SheetLint
