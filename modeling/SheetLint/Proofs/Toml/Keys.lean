import SheetLint.Proofs.Toml.Strings

/-
  Keys as they are written and read back, and what lies between the words of a document. Spaces,
  comments and line ends are passed over up to the first character that is none of them
  (`skipSpaces_eq`, `skipLines_eq`). A written key is read up to the character behind it
  (`readKeyPart_writeKey`), and a path with dots between its keys up to the first solid character
  that is no dot (`readKey_writePath`).
-/

namespace SheetLint.Toml

/-! ## Between the words -/

/-- A text whose first character is of a kind. -/
def StartsWith (p : Char → Bool) (s : Text) : Prop := ∃ c t, s = c :: t ∧ p c

variable {p q : Char → Bool} {s t : Text}

theorem StartsWith.append (h : StartsWith p s) (t : Text) : StartsWith p (s ++ t) := by
  obtain ⟨c, u, rfl, hc⟩ := h
  exact ⟨c, u ++ t, rfl, hc⟩

theorem StartsWith.mono (h : StartsWith p s) (hpq : ∀ c, p c → q c) : StartsWith q s := by
  obtain ⟨c, u, rfl, hc⟩ := h
  exact ⟨c, u, rfl, hpq c hc⟩

theorem StartsWith.head?_ne (h : StartsWith p s) {c : Char} (hc : p c = false) :
    s.head? ≠ some c := by
  obtain ⟨d, u, rfl, hd⟩ := h
  intro he
  rw [Option.some.inj he, hc] at hd
  cases hd

theorem StartsWith.ne_cons (h : StartsWith p s) {c : Char} (hc : p c = false) (t : Text) :
    s ≠ c :: t := by
  rintro rfl
  exact h.head?_ne hc rfl

/-- Characters that no reader passes over between two words. -/
def isSolid (c : Char) : Bool := !isSpace c && c != '#' && c != '\n' && c != '\r'

/-- To be solid is to be none of five characters. -/
theorem isSolid_of_forall (h : [' ', '\t', '#', '\n', '\r'].all fun c => !p c) {c : Char}
    (hc : p c) : isSolid c := by
  have hne {d : Char} (hd : d ∈ [' ', '\t', '#', '\n', '\r']) : c ≠ d := by
    rintro rfl
    have := List.all_eq_true.1 h c hd
    simp [hc] at this
  simp [isSolid, isSpace, hne]

theorem skipSpaces_eq (h : StartsWith isSolid s) : skipSpaces s = s := by
  obtain ⟨c, t, rfl, hc⟩ := h
  have hspace : ¬isSpace c := by
    simp only [isSolid, Bool.and_eq_true, Bool.not_eq_true'] at hc
    simp [hc.1.1.1]
  rw [skipSpaces, List.dropWhile_cons_of_neg hspace]

theorem skipSpaces_space (s : Text) : skipSpaces (' ' :: s) = skipSpaces s := by
  rw [skipSpaces, List.dropWhile_cons_of_pos (by decide), skipSpaces]

theorem length_skipSpaces_le (s : Text) : (skipSpaces s).length ≤ s.length :=
  (List.dropWhile_suffix _).length_le

theorem newline?_eq_none (h : StartsWith isSolid s) : newline? s = none := by
  unfold newline?
  split
  · exact absurd rfl (h.ne_cons (by decide) _)
  · exact absurd rfl (h.ne_cons (by decide) _)
  · rfl

theorem skipComment_eq (h : StartsWith isSolid s) : skipComment s = s := by
  unfold skipComment
  split
  · exact absurd rfl (h.ne_cons (by decide) _)
  · rfl

theorem skipLines_eq (ht : StartsWith isSolid t) (h : skipSpaces s = t) : skipLines s = t := by
  rw [skipLines, h, skipComment_eq ht, newline?_eq_none ht]

/-! ## Keys -/

/-- A text that goes on with a character that belongs to no key. -/
abbrev LeavesKey (r : Text) : Prop := StartsWith (!isKeyChar ·) r

theorem isKeyChar_of_isBareKey {s : Text} (h : isBareKey s) : s ≠ [] ∧ ∀ c ∈ s, isKeyChar c := by
  unfold isBareKey at h
  simp only [Bool.and_eq_true, Bool.not_eq_true', List.isEmpty_eq_false_iff, List.all_eq_true] at h
  exact h

theorem readKeyPart_bare {s : Text} (h : isBareKey s) {r : Text} (hr : LeavesKey r) :
    readKeyPart (s ++ r) = some (String.ofList s, r) := by
  obtain ⟨hne, hall⟩ := isKeyChar_of_isBareKey h
  have htake : (s ++ r).takeWhile isKeyChar = s := by
    obtain ⟨c, t, rfl, hc⟩ := hr
    rw [List.takeWhile_append_of_pos hall, List.takeWhile_cons_of_neg (by simpa using hc),
      List.append_nil]
  have hdrop : (s ++ r).dropWhile isKeyChar = r := by
    obtain ⟨c, t, rfl, hc⟩ := hr
    rw [List.dropWhile_append_of_pos hall, List.dropWhile_cons_of_neg (by simpa using hc)]
  obtain ⟨c, s, rfl⟩ := List.exists_cons_of_ne_nil hne
  have hc := hall c List.mem_cons_self
  rw [readKeyPart.eq_3]
  · rw [htake, hdrop]
    rfl
  · intro t ht
    rw [List.cons_append, List.cons.injEq] at ht
    rw [ht.1] at hc
    exact absurd hc (by decide)
  · intro t ht
    rw [List.cons_append, List.cons.injEq] at ht
    rw [ht.1] at hc
    exact absurd hc (by decide)

theorem readKeyPart_basic (s r : Text) :
    readKeyPart (writeBasic s ++ r) = some (String.ofList s, r) := by
  have htext : writeBasic s ++ r = '"' :: (escapeAll false 0 0 s ++ '"' :: r) := by
    simp [writeBasic]
  rw [htext, readKeyPart, readBasic_escapeAll]
  rfl

theorem readKeyPart_literal {s : Text} (hquote : '\'' ∉ s)
    (hcontrol : ∀ c ∈ s, isControl c = false) (r : Text) :
    readKeyPart (writeLiteral s ++ r) = some (String.ofList s, r) := by
  have htext : writeLiteral s ++ r = '\'' :: (s ++ '\'' :: r) := by simp [writeLiteral]
  rw [htext, readKeyPart, readLiteral_append hquote hcontrol]
  rfl

/-- A written key is read back, up to a character that cannot belong to it. -/
theorem readKeyPart_writeKey (k : String) {r : Text} (hr : LeavesKey r) :
    readKeyPart (writeKey k.toList ++ r) = some (k, r) := by
  suffices readKeyPart (writeKey k.toList ++ r) = some (String.ofList k.toList, r) by
    rwa [String.ofList_toList] at this
  unfold writeKey
  split
  · rename_i hbare
    exact readKeyPart_bare hbare hr
  · split
    · exact readKeyPart_basic k.toList r
    · rename_i hplain
      split
      · exact readKeyPart_basic k.toList r
      · split
        · rename_i hquote
          refine readKeyPart_literal (by simpa using hquote) (fun c hc => ?_) r
          have hc' := List.any_eq_false.1 (Bool.not_eq_true _ ▸ hplain) c hc
          simp only [Bool.or_eq_true, beq_iff_eq, not_or, Bool.not_eq_true] at hc'
          exact isControl_eq_false hc'.1 hc'.2
        · exact readKeyPart_basic k.toList r

/-- The characters that a written key starts with. -/
def isKeyStart (c : Char) : Bool := isKeyChar c || c == '"' || c == '\''

theorem isSolid_of_isKeyStart {c : Char} (hc : isKeyStart c) : isSolid c :=
  isSolid_of_forall (by decide) hc

theorem startsWith_writeKey (s : Text) : StartsWith isKeyStart (writeKey s) := by
  unfold writeKey
  split
  · rename_i hbare
    obtain ⟨hne, hall⟩ := isKeyChar_of_isBareKey hbare
    obtain ⟨c, s, rfl⟩ := List.exists_cons_of_ne_nil hne
    exact ⟨c, s, rfl, by simp [isKeyStart, hall c List.mem_cons_self]⟩
  split
  · exact ⟨'"', _, rfl, rfl⟩
  split
  · exact ⟨'"', _, rfl, rfl⟩
  split
  · exact ⟨'\'', _, rfl, rfl⟩
  · exact ⟨'"', _, rfl, rfl⟩

theorem startsWith_writePath {path : List String} (hne : path ≠ []) :
    StartsWith isKeyStart (writePath path) := by
  cases path with
  | nil => exact absurd rfl hne
  | cons k ks =>
    cases ks with
    | nil => exact startsWith_writeKey k.toList
    | cons l ks =>
      have hpath : writePath (k :: l :: ks)
          = writeKey k.toList ++ (['.'] ++ writePath (l :: ks)) := by
        simp [writePath, join]
      rw [hpath]
      exact (startsWith_writeKey k.toList).append _

/-- A written path is read back, and the spaces behind it are passed over. -/
theorem readKey_writePath {path : List String} (hne : path ≠ []) {r : Text} (hr : LeavesKey r)
    (hdot : ∀ t, skipSpaces r ≠ '.' :: t) :
    readKey (writePath path ++ r) = some (path, skipSpaces r) := by
  induction path with
  | nil => exact absurd rfl hne
  | cons k ks ih =>
    cases ks with
    | nil =>
      have hpart : readKeyPart (writePath [k] ++ r) = some (k, r) := readKeyPart_writeKey k hr
      rw [readKey, hpart]
      dsimp only
      split
      · rename_i u hu
        exact absurd hu (hdot u)
      · rfl
    | cons l ks =>
      have hpath : writePath (k :: l :: ks) ++ r
          = writeKey k.toList ++ '.' :: (writePath (l :: ks) ++ r) := by
        simp [writePath, join]
      have hpart := readKeyPart_writeKey k
        (r := '.' :: (writePath (l :: ks) ++ r)) ⟨'.', _, rfl, rfl⟩
      have hskip : skipSpaces (writePath (l :: ks) ++ r) = writePath (l :: ks) ++ r :=
        skipSpaces_eq (((startsWith_writePath (List.cons_ne_nil l ks)).mono
          fun _ => isSolid_of_isKeyStart).append r)
      have hlength : (writePath (l :: ks) ++ r).length
          < (writeKey k.toList ++ '.' :: (writePath (l :: ks) ++ r)).length := by
        simp only [List.length_append, List.length_cons]
        omega
      rw [hpath, readKey, hpart]
      dsimp only
      rw [skipSpaces_eq ⟨'.', _, rfl, rfl⟩]
      simp only [hskip, if_pos hlength, ih (List.cons_ne_nil l ks), Option.map_some]

end SheetLint.Toml
