import SheetLint.Proofs.Config.Options
import SheetLint.Proofs.Toml.Keys
import SheetLint.Proofs.Toml.Tables

/-
  Values as they are written behind a key and read back. Strings, numbers and truth values are read
  up to the character behind them (`readValue_string`, `readValue_integer`, `readValue_boolean`).
  Of arrays and inline tables each part is read by the same reader with one less depth to go, so a
  value is read back exactly if its arrays and inline tables stand no deeper in one another than
  the reader goes, and otherwise nothing is read at all (`readValue_write`).
-/

namespace SheetLint.Toml

open Sorted (insert lookup)

/-! ## Whole numbers -/

theorem hexValue?_of_isDigit {c : Char} (h : c.isDigit) :
    hexValue? c = some (c.toNat - '0'.toNat) := by
  unfold hexValue?
  exact if_pos (by simpa [Char.isDigit, Char.le_def, Char.toNat] using h)

theorem isDigitOf_of_isDigit {c : Char} (h : c.isDigit) : isDigitOf 10 c := by
  have hbound := (Char.isDigit_iff_toNat.1 h).2
  have hnine : '9'.toNat = 57 := rfl
  have hzero : '0'.toNat = 48 := rfl
  rw [isDigitOf, hexValue?_of_isDigit h, Option.any_some, decide_eq_true_iff]
  omega

theorem digits?_of_isDigit {s : Text} (hne : s ≠ []) (h : ∀ c ∈ s, c.isDigit) :
    digits? (isDigitOf 10) s = some s := by
  induction s with
  | nil => exact absurd rfl hne
  | cons c s ih =>
    obtain ⟨hc, hs⟩ := List.forall_mem_cons.1 h
    cases s with
    | nil => rw [digits?, if_pos (isDigitOf_of_isDigit hc)]
    | cons d s =>
      have hd : d ≠ '_' := by
        rintro rfl
        exact absurd (hs '_' List.mem_cons_self) (by decide)
      rw [digits?, if_pos (isDigitOf_of_isDigit hc), ih (List.cons_ne_nil d s) hs, Option.map_some]
      · exact fun h => nomatch h
      · exact fun t h => hd (List.cons.inj h).1

theorem isDigit_of_mem_toDigits {n : Nat} : ∀ c ∈ Nat.toDigits 10 n, c.isDigit :=
  fun _ hc => Nat.isDigit_of_mem_toDigits (by decide) (by decide) hc

/-- No zero stands in front of the other digits of a number. -/
theorem toDigits_ne_zero_cons (n : Nat) (c : Char) (s : Text) :
    Nat.toDigits 10 n ≠ '0' :: c :: s := by
  induction n using Nat.strongRecOn generalizing c s with
  | ind n ih =>
    by_cases hn : n < 10
    · rw [Nat.toDigits_of_lt_base hn]
      simp
    · rw [Nat.toDigits_of_base_le (by decide) (by omega)]
      intro h
      rcases List.append_eq_cons_iff.1 h with ⟨hnil, _⟩ | ⟨t, ht, htail⟩
      · exact Nat.toDigits_ne_nil hnil
      · cases t with
        | nil =>
          have hvalue := Nat.ofDigitChars_toDigits (b := 10) (n := n / 10) (by decide) (by decide)
          rw [ht] at hvalue
          have hzero : n / 10 = 0 := hvalue.symm
          omega
        | cons d t => exact ih (n / 10) (by omega) d t ht

theorem decimal?_toDigits (n : Nat) :
    decimal? (Nat.toDigits 10 n) = some (Nat.toDigits 10 n) := by
  unfold decimal?
  rw [digits?_of_isDigit Nat.toDigits_ne_nil isDigit_of_mem_toDigits]
  split
  · rename_i h
    exact absurd (Option.some.inj h) (toDigits_ne_zero_cons n _ _)
  · rfl

theorem ofDigits?_toDigits (n : Nat) : ofDigits? 10 (Nat.toDigits 10 n) = some n := by
  have hdigit : ∀ d < 10, hexValue? (id d.digitChar) = some d := by decide
  have hread := ofDigits?_map_toDigits (by decide) hdigit n
  rwa [List.map_id] at hread

/-- A number of 64 bits with a sign. -/
def IsInt64 (i : Int) : Prop := -(Nat.pow 2 63 : Int) ≤ i ∧ i < (Nat.pow 2 63 : Int)

theorem cutSign_writeInteger (i : Int) :
    cutSign (writeInteger i) = (decide (i < 0), Nat.toDigits 10 i.natAbs) := by
  unfold writeInteger
  split
  · rename_i hi
    rw [decide_eq_true hi]
    rfl
  · rename_i hi
    rw [decide_eq_false hi, List.nil_append]
    obtain ⟨c, t, hs⟩ := List.exists_cons_of_ne_nil (Nat.toDigits_ne_nil (n := i.natAbs) (b := 10))
    have hc := isDigit_of_mem_toDigits c (hs ▸ List.mem_cons_self)
    rw [hs]
    unfold cutSign
    split
    · rename_i h
      rw [(List.cons.inj h).1] at hc
      exact absurd hc (by decide)
    · rename_i h
      rw [(List.cons.inj h).1] at hc
      exact absurd hc (by decide)
    · rfl

theorem signed_natAbs (i : Int) : signed (decide (i < 0)) i.natAbs = i := by
  unfold signed
  split
  · rename_i h
    have := of_decide_eq_true h
    omega
  · rename_i h
    have := of_decide_eq_false (Bool.not_eq_true _ ▸ h)
    omega

/-- The marks of other bases do not stand in a decimal. -/
theorem writeInteger_ne_zero_cons (i : Int) (c : Char) (s : Text) :
    writeInteger i ≠ '0' :: c :: s := by
  unfold writeInteger
  split
  · exact fun h => absurd (List.cons.inj h).1 (by decide)
  · exact toDigits_ne_zero_cons _ c s

theorem integer?_writeInteger {i : Int} (h : IsInt64 i) : integer? (writeInteger i) = some i := by
  have hreadable : isReadable i := by
    have hlow := h.1
    have hhigh := h.2
    simp only [isReadable, Bool.and_eq_true, decide_eq_true_eq, Nat.pow_eq] at hlow hhigh ⊢
    omega
  unfold integer?
  dsimp only
  split
  · rename_i hs
    exact absurd hs (writeInteger_ne_zero_cons i _ _)
  · rename_i hs
    exact absurd hs (writeInteger_ne_zero_cons i _ _)
  · rename_i hs
    exact absurd hs (writeInteger_ne_zero_cons i _ _)
  · simp only [cutSign_writeInteger, decimal?_toDigits, Option.bind_some, ofDigits?_toDigits,
      Option.map_some, signed_natAbs, Option.bind_eq_bind]
    exact if_pos hreadable

/-! ## Words -/

/-- A text that goes on as texts do behind a value: with a line end, a separator, or the end of
    what the value is a part of. -/
abbrev EndsValue (r : Text) : Prop := StartsWith ([',', ']', ' ', '\n'].contains ·) r

theorem EndsValue.noQuote {r : Text} (h : EndsValue r) : NoQuote r :=
  ⟨h.head?_ne (by decide), h.head?_ne (by decide)⟩

theorem EndsValue.leavesWord {r : Text} (h : EndsValue r) : StartsWith (!isWordChar ·) r :=
  h.mono fun c hc => List.all_eq_true.1 (by decide : [',', ']', ' ', '\n'].all (!isWordChar ·)) c
    (List.contains_iff_mem.1 hc)

/-- A word that is no date is cut off up to the first character that is none of a word. -/
theorem cutWord_append {w r : Text} (hw : ∀ c ∈ w, isWordChar c) (hdate : readDate w = none)
    (hr : EndsValue r) : cutWord (w ++ r) = (w, r) := by
  obtain ⟨c, t, rfl, hend⟩ := hr.leavesWord
  have hc : ¬isWordChar c := by simpa using hend
  have htake : (w ++ c :: t).takeWhile isWordChar = w := by
    rw [List.takeWhile_append_of_pos hw, List.takeWhile_cons_of_neg hc, List.append_nil]
  have hdrop : (w ++ c :: t).dropWhile isWordChar = c :: t := by
    rw [List.dropWhile_append_of_pos hw, List.dropWhile_cons_of_neg hc]
  unfold cutWord
  simp only [htake, hdrop, hdate]

/-- A word that is no date is read as the value that it stands for. -/
theorem readValue_word (d : Nat) {w r : Text} {v : Value} (hne : w ≠ [])
    (hw : ∀ c ∈ w, isWordChar c) (hdate : readDate w = none) (hv : scalar? w = some v)
    (hr : EndsValue r) : readValue d (w ++ r) = some (v, r) := by
  obtain ⟨c, t, rfl⟩ := List.exists_cons_of_ne_nil hne
  have hnot {e : Char} (he : isWordChar e = false) : c ≠ e := by
    rintro rfl
    exact absurd (hw c List.mem_cons_self) (by simp [he])
  have hdouble : c ≠ '"' := hnot (by decide)
  have hsingle : c ≠ '\'' := hnot (by decide)
  have hscalar : readScalar (c :: t ++ r) = some (v, r) := by
    rw [readScalar, cutWord_append hw hdate hr]
    dsimp only
    rw [hv, Option.map_some]
  have hstring : readString (c :: t ++ r) = none := by
    rw [List.cons_append]
    unfold readString
    split <;> simp_all
  rw [List.cons_append] at hscalar hstring ⊢
  rw [readValue, hstring]
  · simpa [hdouble, hsingle] using hscalar
  · exact fun u hu => hnot (by decide) (List.cons.inj hu).1
  · exact fun u hu => hnot (by decide) (List.cons.inj hu).1

/-- A date starts with a digit. -/
theorem readDate_eq_none {c : Char} (hc : isDigitOf 10 c = false) (s : Text) :
    readDate (c :: s) = none := by
  have hyear : readDigits 4 (c :: s) = none := by
    unfold readDigits
    dsimp only
    rw [if_neg]
    rintro ⟨-, hdigits⟩
    rw [List.take_succ_cons, List.all_cons, hc] at hdigits
    cases hdigits
  rw [readDate, hyear]
  rfl

theorem readValue_boolean (d : Nat) (b : Bool) {r : Text} (hr : EndsValue r) :
    readValue d ((Value.boolean b).write ++ r) = some (.boolean b, r) := by
  cases b with
  | true =>
    have hdate := readDate_eq_none (c := 't') (by decide) ['r', 'u', 'e']
    have hvalue : scalar? ['t', 'r', 'u', 'e'] = some (.boolean true) := if_pos rfl
    rw [Value.write, if_pos rfl]
    exact readValue_word d (by decide) (List.all_eq_true.1 (by decide)) hdate hvalue hr
  | false =>
    have hdate := readDate_eq_none (c := 'f') (by decide) ['a', 'l', 's', 'e']
    have hvalue : scalar? ['f', 'a', 'l', 's', 'e'] = some (.boolean false) :=
      (if_neg (by decide)).trans (if_pos rfl)
    rw [Value.write, if_neg Bool.false_ne_true]
    exact readValue_word d (by decide) (List.all_eq_true.1 (by decide)) hdate hvalue hr

theorem sign_or_digit_of_mem_writeInteger {i : Int} {c : Char} (hc : c ∈ writeInteger i) :
    c = '-' ∨ c.isDigit := by
  unfold writeInteger at hc
  rcases List.mem_append.1 hc with hc | hc
  · split at hc
    · exact Or.inl (List.mem_singleton.1 hc)
    · exact absurd hc List.not_mem_nil
  · exact Or.inr (isDigit_of_mem_toDigits c hc)

/-- A date has a dash behind its year, where a whole number has a digit or its end. -/
theorem readDate_writeInteger (i : Int) : readDate (writeInteger i) = none := by
  unfold writeInteger
  split
  · exact readDate_eq_none (by decide) _
  · have hdash : ∀ c ∈ Nat.toDigits 10 i.natAbs, '-' ≠ c := by
      rintro c hc rfl
      exact absurd (isDigit_of_mem_toDigits _ hc) (by decide)
    have hchar : readChar '-' ((Nat.toDigits 10 i.natAbs).drop 4) = none := by
      cases hrest : (Nat.toDigits 10 i.natAbs).drop 4 with
      | nil => rfl
      | cons c t => exact if_neg (hdash c (List.mem_of_mem_drop (hrest ▸ List.mem_cons_self)))
    rw [List.nil_append, readDate]
    cases hyear : readDigits 4 (Nat.toDigits 10 i.natAbs) with
    | none => rfl
    | some p =>
      obtain ⟨_, _, hp⟩ := Option.map_eq_some_iff.1 (Option.ite_none_right_eq_some.1 hyear).2
      subst hp
      simp only [Option.bind_eq_bind, Option.bind_some, hchar]
      rfl

theorem scalar?_writeInteger {i : Int} (hi : IsInt64 i) :
    scalar? (writeInteger i) = some (.integer i) := by
  have hletter {s : Text} {c : Char} (hc : c ∈ s) (hs : ¬(c = '-' ∨ c.isDigit)) :
      writeInteger i ≠ s := by
    rintro rfl
    exact hs (sign_or_digit_of_mem_writeInteger hc)
  rw [scalar?, if_neg (hletter (c := 'e') (by decide) (by decide)),
    if_neg (hletter (c := 'e') (by decide) (by decide)), integer?_writeInteger hi]
  rfl

theorem readValue_integer (d : Nat) {i : Int} (hi : IsInt64 i) {r : Text} (hr : EndsValue r) :
    readValue d ((Value.integer i).write ++ r) = some (.integer i, r) := by
  rw [Value.write]
  refine readValue_word d ?_ (fun c hc => ?_) (readDate_writeInteger i) (scalar?_writeInteger hi) hr
  · obtain ⟨c, t, hstart, _⟩ := startsForm_writeInteger i
    rw [hstart]
    exact List.cons_ne_nil c t
  · rcases sign_or_digit_of_mem_writeInteger hc with rfl | hc
    · rfl
    · simp [isWordChar, Char.isAlphanum, hc]

theorem startsWith_writeString (s : Text) :
    StartsWith (fun c => c == '"' || c == '\'') (writeString s) := by
  unfold writeString
  dsimp only
  split
  · exact ⟨'"', _, rfl, rfl⟩
  split
  · exact ⟨'\'', _, rfl, rfl⟩
  split
  · exact ⟨'"', _, rfl, rfl⟩
  split
  · exact ⟨'\'', _, rfl, rfl⟩
  split
  · exact ⟨'"', _, rfl, rfl⟩
  · exact ⟨'"', _, rfl, rfl⟩

theorem readValue_string (d : Nat) (s : String) {r : Text} (hr : EndsValue r) :
    readValue d ((Value.string s).write ++ r) = some (.string s, r) := by
  have hread := readString_writeString s.toList hr.noQuote
  have hstart := (startsWith_writeString s.toList).append r
  rw [Value.write, readValue, hread]
  · dsimp only
    rw [String.ofList_toList]
  · exact hstart.ne_cons (by decide)
  · exact hstart.ne_cons (by decide)

/-! ## Values in values -/

/-- The characters that a written value starts with. -/
def isValueStart (c : Char) : Bool := isFormStart c || c == '"' || c == '\''

theorem isSolid_of_isValueStart {c : Char} (hc : isValueStart c) : isSolid c :=
  isSolid_of_forall (by decide) hc

theorem startsWith_write (v : Value) : StartsWith isValueStart v.write := by
  by_cases hs : ∃ s, v = .string s
  · obtain ⟨s, rfl⟩ := hs
    rw [Value.write]
    refine (startsWith_writeString s.toList).mono fun c hc => ?_
    rw [isValueStart, Bool.or_assoc, hc, Bool.or_true]
  · obtain ⟨c, t, hstart, hc⟩ := startsForm_write fun s he => hs ⟨s, he⟩
    exact ⟨c, t, hstart, by simp [isValueStart, hc]⟩

mutual

/-- How many arrays and inline tables stand in one another in the written form of a value. -/
def Value.depth : Value → Nat
  | .array vs => itemsDepth vs + 1
  | .table es => entriesDepth es + 1
  | _ => 0

/-- The greatest depth of the items of an array. -/
def itemsDepth : List Value → Nat
  | [] => 0
  | v :: vs => max v.depth (itemsDepth vs)

/-- The greatest depth of the values in a table. -/
def entriesDepth : List (String × Value) → Nat
  | [] => 0
  | (_, v) :: es => max v.depth (entriesDepth es)

end

/-- A reader that reads a value back if it is not too deep, and else nothing. -/
def ReadsBack (value : Reader Value) (d : Nat) (v : Value) : Prop :=
  ∀ r, EndsValue r → value (v.write ++ r) = if v.depth ≤ d then some (v, r) else none

variable {value : Reader Value} {d : Nat}

theorem startsSolid_write (v : Value) : StartsWith isSolid v.write :=
  (startsWith_write v).mono fun _ => isSolid_of_isValueStart

theorem StartsWith.join {p : Char → Bool} {t : Text} (h : StartsWith p t) (separator : Text)
    (ts : List Text) : StartsWith p (join separator (t :: ts)) := by
  cases ts with
  | nil => exact h
  | cons u ts => exact (h.append separator).append _

/-! ### Arrays -/

theorem readItems_last {v : Value} (hv : ReadsBack value d v) {s r : Text}
    (hs : skipSpaces s = v.write ++ ']' :: r) :
    readItems value s = if v.depth ≤ d then some ([v], r) else none := by
  have hstart := (startsWith_write v).append (']' :: r)
  rw [readItems, skipLines_eq (hstart.mono fun _ => isSolid_of_isValueStart) hs]
  split
  · rename_i u hu
    exact absurd hu (hstart.ne_cons (by decide) u)
  · rw [hv _ ⟨']', r, rfl, rfl⟩]
    split
    · have hsolid : StartsWith isSolid (']' :: r) := ⟨']', r, rfl, rfl⟩
      simp [skipLines_eq hsolid (skipSpaces_eq hsolid)]
    · rfl

theorem readItems_next {v : Value} (hv : ReadsBack value d v) {s r : Text}
    (hs : skipSpaces s = v.write ++ ',' :: r) :
    readItems value s =
      if v.depth ≤ d then (readItems value r).map fun (vs, r) => (v :: vs, r) else none := by
  have hstart := (startsWith_write v).append (',' :: r)
  have hlength : r.length < s.length := by
    have hle := length_skipSpaces_le s
    rw [hs, List.length_append, List.length_cons] at hle
    omega
  rw [readItems, skipLines_eq (hstart.mono fun _ => isSolid_of_isValueStart) hs]
  split
  · rename_i u hu
    exact absurd hu (hstart.ne_cons (by decide) u)
  · rw [hv _ ⟨',', r, rfl, rfl⟩]
    split
    · have hsolid : StartsWith isSolid (',' :: r) := ⟨',', r, rfl, rfl⟩
      simp only [Option.bind_eq_bind, Option.bind_some, skipLines_eq hsolid (skipSpaces_eq hsolid),
        if_pos hlength]
      cases readItems value r <;> rfl
    · rfl

theorem readItems_write {v : Value} {vs : List Value} (h : ∀ w ∈ v :: vs, ReadsBack value d w)
    {s r : Text} (hs : skipSpaces s = join [',', ' '] (writeItems (v :: vs)) ++ ']' :: r) :
    readItems value s = if itemsDepth (v :: vs) ≤ d then some (v :: vs, r) else none := by
  induction vs generalizing v s with
  | nil =>
    rw [writeItems, writeItems, join] at hs
    rw [readItems_last (h v List.mem_cons_self) hs, itemsDepth, itemsDepth, Nat.max_zero]
  | cons w vs ih =>
    obtain ⟨hv, hvs⟩ := List.forall_mem_cons.1 h
    have hnext : skipSpaces s
        = v.write ++ ',' :: ' ' :: (join [',', ' '] (writeItems (w :: vs)) ++ ']' :: r) := by
      rw [hs]
      simp [writeItems, join]
    have hskip : skipSpaces (' ' :: (join [',', ' '] (writeItems (w :: vs)) ++ ']' :: r))
        = join [',', ' '] (writeItems (w :: vs)) ++ ']' :: r := by
      rw [skipSpaces_space, writeItems]
      exact skipSpaces_eq (((startsSolid_write w).join _ _).append _)
    rw [readItems_next hv hnext, ih hvs hskip, itemsDepth.eq_2 v]
    simp only [Nat.max_le]
    by_cases hdepth : v.depth ≤ d
    · by_cases hrest : itemsDepth (w :: vs) ≤ d <;> simp [hdepth, hrest]
    · simp [hdepth]

/-! ### Inline tables -/

/-- A key or a path, an equals sign and a value are read back. -/
theorem readPair_write {v : Value} (hv : ReadsBack value d v) {path : List String}
    (hpath : path ≠ []) {r : Text} (hr : EndsValue r) :
    readPair value (writePath path ++ [' ', '=', ' '] ++ v.write ++ r)
      = if v.depth ≤ d then some ((path, v), r) else none := by
  have htext : writePath path ++ [' ', '=', ' '] ++ v.write ++ r
      = writePath path ++ ' ' :: '=' :: ' ' :: (v.write ++ r) := by
    simp
  have hspace (t : Text) : skipSpaces (' ' :: '=' :: t) = '=' :: t := by
    rw [skipSpaces_space, skipSpaces_eq ⟨'=', t, rfl, rfl⟩]
  have hkey : readKey (writePath path ++ ' ' :: '=' :: ' ' :: (v.write ++ r))
      = some (path, '=' :: ' ' :: (v.write ++ r)) := by
    rw [readKey_writePath hpath ⟨' ', _, rfl, rfl⟩, hspace]
    intro t
    rw [hspace]
    exact fun h => absurd (List.cons.inj h).1 (by decide)
  rw [htext, readPair, hkey]
  simp only [Option.bind_eq_bind, Option.bind_some, skipSpaces_eq ⟨'=', _, rfl, rfl⟩,
    skipSpaces_space, skipSpaces_eq ((startsSolid_write v).append r), hv r hr]
  split <;> rfl

theorem startsKey_writeEntries (e : String × Value) (es : Table) :
    StartsWith isKeyStart (join [',', ' '] (writeEntries (e :: es))) := by
  rw [writeEntries]
  exact (((startsWith_writeKey e.1.toList).append _).append _).join _ _

theorem skipSpaces_writeEntries (e : String × Value) (es : Table) (r : Text) :
    skipSpaces (' ' :: (join [',', ' '] (writeEntries (e :: es)) ++ r))
      = join [',', ' '] (writeEntries (e :: es)) ++ r := by
  have hsolid := (startsKey_writeEntries e es).mono fun _ => isSolid_of_isKeyStart
  rw [skipSpaces_space, skipSpaces_eq (hsolid.append r)]

variable {o : Origin} {fs : List (String × Item)} {done : Table}

theorem readEntries_last {e : String × Value} (hv : ReadsBack value d e.2)
    (hk : lookup e.1 fs = none) {s r : Text}
    (hs : skipSpaces s = join [',', ' '] (writeEntries [e]) ++ ' ' :: '\x7d' :: r) :
    readEntries value (o, fs) s =
      if e.2.depth ≤ d then some ((o, insert e.1 (.value e.2) fs), r) else none := by
  obtain ⟨k, v⟩ := e
  have hbrace : skipSpaces (' ' :: '\x7d' :: r) = '\x7d' :: r := by
    rw [skipSpaces_space, skipSpaces_eq ⟨'\x7d', r, rfl, rfl⟩]
  have hpair := readPair_write hv (List.cons_ne_nil k [])
    (r := ' ' :: '\x7d' :: r) ⟨' ', _, rfl, rfl⟩
  rw [writeEntries, writeEntries, join] at hs
  rw [writePath, List.map_singleton, join] at hpair
  rw [readEntries, hs, hpair]
  split
  · simp [addEntry_singleton hk, hbrace]
  · rfl

theorem readEntries_next {e f : String × Value} {es : Table} (hv : ReadsBack value d e.2)
    (hk : lookup e.1 fs = none) {s r : Text}
    (hs : skipSpaces s = join [',', ' '] (writeEntries (e :: f :: es)) ++ r) :
    readEntries value (o, fs) s = if e.2.depth ≤ d then
      readEntries value (o, insert e.1 (.value e.2) fs)
        (' ' :: (join [',', ' '] (writeEntries (f :: es)) ++ r)) else none := by
  obtain ⟨k, v⟩ := e
  have htext : join [',', ' '] (writeEntries ((k, v) :: f :: es)) ++ r
      = writeKey k.toList ++ [' ', '=', ' '] ++ v.write
        ++ ',' :: ' ' :: (join [',', ' '] (writeEntries (f :: es)) ++ r) := by
    simp [writeEntries, join]
  rw [htext] at hs
  have hlength : (' ' :: (join [',', ' '] (writeEntries (f :: es)) ++ r)).length < s.length := by
    have hle := length_skipSpaces_le s
    rw [hs, List.length_append, List.length_cons] at hle
    omega
  have hpair := readPair_write hv (List.cons_ne_nil k [])
    (r := ',' :: ' ' :: (join [',', ' '] (writeEntries (f :: es)) ++ r)) ⟨',', _, rfl, rfl⟩
  rw [writePath, List.map_singleton, join] at hpair
  rw [readEntries, hs, hpair]
  split
  · simp only [Option.bind_eq_bind, Option.bind_some, addEntry_singleton hk,
      skipSpaces_eq ⟨',', _, rfl, rfl⟩, if_pos hlength]
  · rfl

theorem readEntries_write {e : String × Value} {es : Table}
    (h : ∀ f ∈ e :: es, ReadsBack value d f.2) (hfs : Holds fs done)
    (hkeys : DistinctKeys (done ++ e :: es)) {s r : Text}
    (hs : skipSpaces s = join [',', ' '] (writeEntries (e :: es)) ++ ' ' :: '\x7d' :: r) :
    ∃ gs, Holds gs (done ++ e :: es) ∧ readEntries value (o, fs) s =
      if entriesDepth (e :: es) ≤ d then some ((o, gs), r) else none := by
  induction es generalizing e fs done s with
  | nil =>
    obtain ⟨hnone, hnext⟩ := hfs.next hkeys
    refine ⟨_, hnext, ?_⟩
    rw [readEntries_last (h e List.mem_cons_self) hnone hs, entriesDepth, entriesDepth,
      Nat.max_zero]
  | cons f es ih =>
    obtain ⟨he, hes⟩ := List.forall_mem_cons.1 h
    obtain ⟨hnone, hnext⟩ := hfs.next hkeys
    have hkeys' : DistinctKeys (done ++ [e] ++ f :: es) := by
      rwa [List.append_assoc]
    obtain ⟨gs, hgs, hread⟩ := ih hes hnext hkeys' (skipSpaces_writeEntries f es _)
    refine ⟨gs, by rwa [List.append_assoc] at hgs, ?_⟩
    rw [readEntries_next he hnone hs, hread, entriesDepth.eq_2 e.1 e.2]
    simp only [Nat.max_le]
    by_cases hdepth : e.2.depth ≤ d
    · simp [hdepth]
    · simp [hdepth]

/-! ## Values read back -/

/-- Values that are built from strings, numbers of 64 bits, truth values, arrays and tables. -/
inductive Value.Built : Value → Prop
  | string (s : String) : Built (.string s)
  | integer {i : Int} (h : IsInt64 i) : Built (.integer i)
  | boolean (b : Bool) : Built (.boolean b)
  | array {vs : List Value} (h : ∀ v ∈ vs, Built v) : Built (.array vs)
  | table {es : Table} (horder : InOrder es) (h : ∀ e ∈ es, Built e.2) : Built (.table es)

theorem readValue_array {vs : List Value} (h : ∀ v ∈ vs, ReadsBack (readValue d) d v) (r : Text) :
    readValue (d + 1) ((Value.array vs).write ++ r) =
      if itemsDepth vs ≤ d then some (.array vs, r) else none := by
  have hread : readItems (readValue d) (join [',', ' '] (writeItems vs) ++ ']' :: r)
      = if itemsDepth vs ≤ d then some (vs, r) else none := by
    cases vs with
    | nil =>
      have hsolid : StartsWith isSolid (']' :: r) := ⟨']', r, rfl, rfl⟩
      rw [writeItems, join, List.nil_append, readItems, skipLines_eq hsolid (skipSpaces_eq hsolid),
        itemsDepth, if_pos (Nat.zero_le d)]
      rfl
    | cons v vs =>
      refine readItems_write h (skipSpaces_eq ?_)
      rw [writeItems]
      exact ((startsSolid_write v).join _ _).append _
  have htext : (Value.array vs).write ++ r
      = '[' :: (join [',', ' '] (writeItems vs) ++ ']' :: r) := by
    simp [Value.write]
  rw [htext, readValue, hread]
  split <;> rfl

theorem readValue_table {es : Table} (horder : InOrder es)
    (h : ∀ e ∈ es, ReadsBack (readValue d) d e.2) (r : Text) :
    readValue (d + 1) ((Value.table es).write ++ r) =
      if entriesDepth es ≤ d then some (.table es, r) else none := by
  cases es with
  | nil =>
    rw [Value.write, entriesDepth, if_pos (Nat.zero_le d)]
    show readInline (readValue d) ('\x7d' :: r) = _
    rw [readInline, skipSpaces_eq ⟨'\x7d', r, rfl, rfl⟩]
    rfl
  | cons e es =>
    have htext : (Value.table (e :: es)).write ++ r
        = '\x7b' :: ' ' :: (join [',', ' '] (writeEntries (e :: es)) ++ ' ' :: '\x7d' :: r) := by
      simp [Value.write]
    have hstart := startsKey_writeEntries e es
    have hskip := skipSpaces_writeEntries e es (' ' :: '\x7d' :: r)
    obtain ⟨gs, hgs, hread⟩ :=
      readEntries_write (o := .header) h Holds.nil horder.distinctKeys hskip
    rw [htext, readValue, readInline, hskip]
    split
    · rename_i u hu
      exact absurd hu ((hstart.append _).ne_cons (by decide) u)
    · rw [hread]
      split
      · simp [hgs.eq horder]
      · rfl

/-- Brackets are not read where no depth is left. -/
theorem readValue_zero {v : Value} (h : 0 < v.depth) (r : Text) :
    readValue 0 (v.write ++ r) = if v.depth ≤ 0 then some (v, r) else none := by
  rw [if_neg (Nat.not_le.2 h)]
  cases v with
  | array vs =>
    rw [Value.write]
    rfl
  | table es =>
    cases es with
    | nil => rfl
    | cons e es =>
      rw [Value.write]
      rfl
  | _ => exact absurd h (Nat.lt_irrefl 0)

/-- A value is read back if it is not too deep, and else nothing is read. -/
theorem readValue_write {v : Value} (hv : v.Built) (d : Nat) : ReadsBack (readValue d) d v := by
  induction hv generalizing d with
  | string s => exact fun r hr => (readValue_string d s hr).trans (if_pos (Nat.zero_le d)).symm
  | integer h => exact fun r hr => (readValue_integer d h hr).trans (if_pos (Nat.zero_le d)).symm
  | boolean b => exact fun r hr => (readValue_boolean d b hr).trans (if_pos (Nat.zero_le d)).symm
  | array h ih =>
    intro r hr
    cases d with
    | zero => exact readValue_zero (by rw [Value.depth]; exact Nat.succ_pos _) r
    | succ d =>
      rw [readValue_array (fun v hv => ih v hv d), Value.depth]
      simp only [Nat.add_le_add_iff_right]
  | table horder h ih =>
    intro r hr
    cases d with
    | zero => exact readValue_zero (by rw [Value.depth]; exact Nat.succ_pos _) r
    | succ d =>
      rw [readValue_table horder (fun e he => ih e he d), Value.depth]
      simp only [Nat.add_le_add_iff_right]

end SheetLint.Toml
