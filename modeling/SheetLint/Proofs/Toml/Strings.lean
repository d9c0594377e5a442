import SheetLint.Toml.Lexical
import SheetLint.Toml.Writer

/-
  Strings as they are written and read back. Each of the four notations gives the string back,
  whatever follows the last quote but another quote: in the notations on one line every quote of
  the string has an escape or is of the other kind, and in those over several lines fewer than
  three quotes stand in a row, so that only the closing ones are taken for them
  (`quotes_of_escapeAll`, `quotes_of_longestRun`). A written string is in one of these notations
  (`readString_writeString`).
-/

namespace SheetLint.Toml

/-! ## Numbers in digits -/

theorem ofDigits?_append_singleton (base : Nat) (s : Text) (c : Char) :
    ofDigits? base (s ++ [c]) = (ofDigits? base s).bind fun n =>
      (hexValue? c).bind fun d => if d < base then some (base * n + d) else none := by
  unfold ofDigits?
  simp only [List.foldlM_append, List.foldlM_cons, List.foldlM_nil, bind_pure]
  rfl

/-- The digits of a number stand for it, also in capital letters. -/
theorem ofDigits?_map_toDigits {base : Nat} (hbase : 1 < base) {f : Char → Char}
    (hf : ∀ d < base, hexValue? (f d.digitChar) = some d) (n : Nat) :
    ofDigits? base ((Nat.toDigits base n).map f) = some n := by
  have hdigit {s : Text} {m d : Nat} (hs : ofDigits? base s = some m) (hd : d < base) :
      ofDigits? base (s ++ [f d.digitChar]) = some (base * m + d) := by
    rw [ofDigits?_append_singleton, hs, Option.bind_some, hf d hd, Option.bind_some, if_pos hd]
  induction n using Nat.strongRecOn with
  | ind n ih =>
    by_cases hn : n < base
    · have hread := hdigit (s := []) rfl hn
      rw [Nat.toDigits_of_lt_base hn]
      rwa [Nat.mul_zero, Nat.zero_add] at hread
    · have hread := hdigit (ih (n / base) (Nat.div_lt_self (by omega) hbase))
        (Nat.mod_lt n (by omega))
      rw [Nat.toDigits_of_base_le hbase (by omega), List.map_append]
      rwa [Nat.div_add_mod] at hread

theorem ofDigits?_replicate_zero_append {base : Nat} (hbase : 0 < base) (k : Nat) (s : Text) :
    ofDigits? base (List.replicate k '0' ++ s) = ofDigits? base s := by
  induction k with
  | zero => rfl
  | succ k ih =>
    rw [List.replicate_succ, List.cons_append, ← ih]
    unfold ofDigits?
    have hzero : hexValue? '0' = some 0 := rfl
    rw [List.foldlM_cons, hzero]
    simp only [Option.bind_eq_bind, Option.bind_some, if_pos hbase, Nat.mul_zero]

theorem ofDigits?_hexDigits (width n : Nat) : ofDigits? 16 (hexDigits width n) = some n := by
  unfold hexDigits
  dsimp only
  rw [ofDigits?_replicate_zero_append (by decide)]
  exact ofDigits?_map_toDigits (by decide) (by decide) n

theorem length_hexDigits {width n : Nat} (hwidth : 0 < width) (hn : n < Nat.pow 16 width) :
    (hexDigits width n).length = width := by
  have hle := (Nat.length_toDigits_le_iff (b := 16) (by decide) hwidth).2 hn
  simp only [hexDigits, List.length_append, List.length_replicate, List.length_map]
  omega

/-! ## Characters and their escapes -/

/-- Characters with a code in their escape. -/
theorem toNat_of_needsCode {c : Char} (h : needsCode c) : c.toNat < 128 := by
  unfold needsCode at h
  simp only [Bool.or_eq_true, Bool.and_eq_true, decide_eq_true_eq, beq_iff_eq] at h
  omega

theorem isControl_eq_false {c : Char} (hcode : needsCode c = false) (hline : c ≠ '\n') :
    isControl c = false := by
  unfold needsCode at hcode
  unfold isControl
  have hline' : (c != '\n') = true := by simpa using hline
  rwa [hline', Bool.and_true] at hcode

theorem readCode_hexDigits {n : Nat} (hn : n < 128) (s : Text) :
    readCode 4 (hexDigits 4 n ++ s) = some (Char.ofNat n, s) := by
  have hlength : (hexDigits 4 n).length = 4 :=
    length_hexDigits (by decide) (Nat.lt_trans hn (by decide))
  unfold readCode
  rw [List.take_left' hlength, List.drop_left' hlength, if_pos hlength, ofDigits?_hexDigits,
    Option.bind_some, ofCode?, if_pos (by omega)]
  rfl

/-- An escape stands for a character, and its backslash does not fold a line. -/
def IsEscape (e : Text) (c : Char) : Prop :=
  ∀ s, readEscape (e ++ s) = some (c, s) ∧ skipFold? (e ++ s) = none

/-- A character is written as itself, or as an escape that stands for it. -/
theorem escapeChar_cases (lines : Bool) (c : Char) :
    (escapeChar lines c = [c] ∧ c ≠ '\\' ∧ needsCode c = false ∧ (c = '\n' → lines)) ∨
    ∃ e, escapeChar lines c = '\\' :: e ∧ IsEscape e c := by
  by_cases hshort : c ∈ ['\\', '\t', '\x08', '\x0c', '\r']
  · refine Or.inr ?_
    simp only [List.mem_cons, List.not_mem_nil, or_false] at hshort
    rcases hshort with rfl | rfl | rfl | rfl | rfl
    · exact ⟨['\\'], rfl, fun _ => ⟨rfl, rfl⟩⟩
    · exact ⟨['t'], rfl, fun _ => ⟨rfl, rfl⟩⟩
    · exact ⟨['b'], rfl, fun _ => ⟨rfl, rfl⟩⟩
    · exact ⟨['f'], rfl, fun _ => ⟨rfl, rfl⟩⟩
    · exact ⟨['r'], rfl, fun _ => ⟨rfl, rfl⟩⟩
  by_cases hline : c = '\n'
  · subst hline
    cases lines with
    | true => exact Or.inl ⟨rfl, by decide, by decide, fun _ => rfl⟩
    | false => exact Or.inr ⟨['n'], rfl, fun _ => ⟨rfl, rfl⟩⟩
  simp only [List.mem_cons, List.not_mem_nil, or_false, not_or] at hshort
  obtain ⟨hbackslash, htab, hback, hfeed, hreturn⟩ := hshort
  unfold escapeChar
  rw [if_neg hbackslash, if_neg htab, if_neg hline, if_neg hback, if_neg hfeed, if_neg hreturn]
  by_cases hcode : needsCode c
  · rw [if_pos hcode]
    refine Or.inr ⟨'u' :: hexDigits 4 c.toNat, rfl, fun s => ⟨?_, rfl⟩⟩
    have hread := readCode_hexDigits (toNat_of_needsCode hcode) s
    rwa [Char.ofNat_toNat] at hread
  · rw [if_neg hcode]
    rw [Bool.not_eq_true] at hcode
    exact Or.inl ⟨rfl, hbackslash, hcode, fun h => absurd h hline⟩

/-! ## One line with escapes -/

theorem readBasic_char {c : Char} (hquote : c ≠ '"') (hbackslash : c ≠ '\\')
    (hcontrol : isControl c = false) (s : Text) :
    readBasic (c :: s) = consChar c (readBasic s) := by
  rw [readBasic, if_neg (by simp [hcontrol])]
  · exact fun h => hquote h
  · exact fun h => hbackslash h

theorem readBasic_escape {c : Char} {e : Text} (he : IsEscape e c) (s : Text) :
    readBasic ('\\' :: (e ++ s)) = consChar c (readBasic s) := by
  have hread := (he s).1
  rw [readBasic]
  split
  · rename_i d r h
    rw [hread] at h
    obtain ⟨rfl, rfl⟩ := Prod.mk.inj (Option.some.inj h)
    rfl
  · rename_i h
    rw [hread] at h
    cases h

theorem isEscape_quote : IsEscape ['"'] '"' := fun _ => ⟨rfl, rfl⟩

theorem readBasic_quote (s : Text) :
    readBasic ('\\' :: '"' :: s) = consChar '"' (readBasic s) := readBasic_escape isEscape_quote s

theorem readBasic_escapeAll (run : Nat) (s r : Text) :
    readBasic (escapeAll false 0 run s ++ '"' :: r) = some (s, r) := by
  induction s generalizing run with
  | nil => rw [escapeAll, List.nil_append, readBasic]
  | cons c s ih =>
    rw [escapeAll]
    split
    · rename_i hc
      rw [if_pos (Nat.zero_le run), hc]
      rw [List.cons_append, List.cons_append, readBasic_quote, ih]
      rfl
    · rename_i hc
      rw [List.append_assoc]
      rcases escapeChar_cases false c with ⟨hself, hbackslash, hcode, hline⟩ | ⟨e, hescape, he⟩
      · have hcontrol := isControl_eq_false hcode fun h => Bool.false_ne_true (hline h)
        rw [hself, List.singleton_append, readBasic_char hc hbackslash hcontrol, ih]
        rfl
      · rw [hescape, List.cons_append, readBasic_escape he, ih]
        rfl

/-! ## One line without escapes -/

theorem readLiteral_append {s : Text} (hquote : '\'' ∉ s) (hcontrol : ∀ c ∈ s, isControl c = false)
    (r : Text) : readLiteral (s ++ '\'' :: r) = some (s, r) := by
  induction s with
  | nil => rw [List.nil_append, readLiteral]
  | cons c s ih =>
    obtain ⟨hc, hs⟩ := List.forall_mem_cons.1 hcontrol
    rw [List.mem_cons, not_or] at hquote
    rw [List.cons_append, readLiteral, if_neg (by simp [hc]), ih hquote.2 hs]
    · rfl
    · exact fun h => hquote.1 h.symm

/-! ## Several lines -/

/-- The number of quotes that a text starts with. -/
def leadingQuotes (q : Char) (s : Text) : Nat := (s.takeWhile (· == q)).length

theorem leadingQuotes_cons_of_ne {q c : Char} (h : c ≠ q) (s : Text) :
    leadingQuotes q (c :: s) = 0 := by
  rw [leadingQuotes, List.takeWhile_cons_of_neg (by simpa using h)]
  rfl

theorem leadingQuotes_cons_self (q : Char) (s : Text) :
    leadingQuotes q (q :: s) = leadingQuotes q s + 1 := by
  rw [leadingQuotes, List.takeWhile_cons_of_pos (by simp)]
  rfl

theorem closeQuotes?_of_few {q : Char} {s : Text} (h : leadingQuotes q s ≤ 2) :
    closeQuotes? q s = none := by
  unfold closeQuotes?
  exact if_pos (Nat.lt_succ_of_le h)

/-- Up to two quotes before the closing ones belong to the string. -/
theorem closeQuotes?_replicate {q : Char} {k : Nat} (hk : k ≤ 2) {r : Text}
    (hr : r.head? ≠ some q) :
    closeQuotes? q (List.replicate k q ++ (triple q ++ r)) = some (List.replicate k q, r) := by
  have hquotes : List.replicate k q ++ (triple q ++ r) = List.replicate (k + 3) q ++ r := by
    rw [← List.replicate_append_replicate, List.append_assoc]
    rfl
  have hrest : r.takeWhile (· == q) = [] := by
    cases r with
    | nil => rfl
    | cons c r =>
      refine List.takeWhile_cons_of_neg ?_
      simpa using hr
  have hcount : leadingQuotes q (List.replicate (k + 3) q ++ r) = k + 3 := by
    rw [leadingQuotes, List.takeWhile_append_of_pos (by simp), hrest, List.append_nil,
      List.length_replicate]
  unfold closeQuotes?
  unfold leadingQuotes at hcount
  dsimp only
  rw [hquotes, hcount, if_neg (by omega), show min (k + 3 - 3) 2 = k by omega,
    List.drop_left' (List.length_replicate ..)]

/-- A text that is to be read has no line end in front. -/
theorem skipNewline_cons {c : Char} (hline : c ≠ '\n') (hreturn : c ≠ '\r') (s : Text) :
    skipNewline (c :: s) = c :: s := by
  have hnone : newline? (c :: s) = none := by
    unfold newline?
    split <;> simp_all
  rw [skipNewline, hnone]
  rfl

/-! ### With escapes -/

theorem readBasicLines_close {s a r : Text} (h : closeQuotes? '"' s = some (a, r)) :
    readBasicLines s = some (a, r) := by
  cases s with
  | nil => cases h
  | cons c s => rw [readBasicLines, h]

theorem readBasicLines_char {c : Char} {s : Text} (hclose : closeQuotes? '"' (c :: s) = none)
    (hbackslash : c ≠ '\\') (hcode : needsCode c = false) :
    readBasicLines (c :: s) = consChar c (readBasicLines s) := by
  have hreturn : c ≠ '\r' := by
    rintro rfl
    cases hcode
  have hcontrol : ¬(isControl c ∧ c ≠ '\n') := fun h =>
    absurd h.1 (by simp [isControl_eq_false hcode h.2])
  rw [readBasicLines, hclose]
  dsimp only
  rw [if_neg hbackslash, if_neg hreturn, if_neg hcontrol]

theorem readBasicLines_escape {c : Char} {e : Text} (he : IsEscape e c) (s : Text) :
    readBasicLines ('\\' :: (e ++ s)) = consChar c (readBasicLines s) := by
  obtain ⟨hread, hfold⟩ := he s
  have hclose : closeQuotes? '"' ('\\' :: (e ++ s)) = none := by
    refine closeQuotes?_of_few ?_
    rw [leadingQuotes_cons_of_ne (by decide)]
    exact Nat.zero_le 2
  rw [readBasicLines, hclose]
  dsimp only
  rw [if_pos rfl, hfold]
  dsimp only
  split
  · rename_i d r h
    rw [hread] at h
    obtain ⟨rfl, rfl⟩ := Prod.mk.inj (Option.some.inj h)
    rfl
  · rename_i h
    rw [hread] at h
    cases h

theorem readBasicLines_quote (s : Text) :
    readBasicLines ('\\' :: '"' :: s) = consChar '"' (readBasicLines s) :=
  readBasicLines_escape isEscape_quote s

theorem leadingQuotes_escapeChar {c : Char} (hc : c ≠ '"') (s : Text) :
    leadingQuotes '"' (escapeChar true c ++ s) = 0 := by
  rcases escapeChar_cases true c with ⟨hself, _⟩ | ⟨e, hescape, _⟩
  · rw [hself]
    exact leadingQuotes_cons_of_ne hc s
  · rw [hescape]
    exact leadingQuotes_cons_of_ne (by decide) _

/-- With quotes before it, a text with escapes is all quotes up to two in a row, or starts with too
    few of them to go on to a third. -/
theorem quotes_of_escapeAll {run : Nat} (hrun : run ≤ 2) (s t : Text) :
    (∃ k, k + run ≤ 2 ∧ s = List.replicate k '"' ∧ escapeAll true 2 run s = s) ∨
      leadingQuotes '"' (escapeAll true 2 run s ++ t) + run ≤ 2 := by
  induction s generalizing run with
  | nil => exact Or.inl ⟨0, by omega, rfl, by rw [escapeAll]⟩
  | cons c s ih =>
    rw [escapeAll]
    split
    · rename_i hc
      subst hc
      split
      · refine Or.inr ?_
        rw [List.cons_append, leadingQuotes_cons_of_ne (by decide)]
        omega
      · rename_i hlt
        rcases @ih (run + 1) (by omega) with ⟨k, hk, hs, hself⟩ | hfew
        · refine Or.inl ⟨k + 1, by omega, ?_, ?_⟩
          · rw [List.replicate_succ, hs]
          · rw [hself]
        · refine Or.inr ?_
          rw [List.cons_append, leadingQuotes_cons_self]
          omega
    · rename_i hc
      refine Or.inr ?_
      rw [List.append_assoc, leadingQuotes_escapeChar hc]
      omega

theorem readBasicLines_escapeAll {r : Text} (hr : r.head? ≠ some '"') {run : Nat} (hrun : run ≤ 2)
    (s : Text) : readBasicLines (escapeAll true 2 run s ++ (triple '"' ++ r)) = some (s, r) := by
  induction s generalizing run with
  | nil => exact readBasicLines_close (closeQuotes?_replicate (Nat.zero_le 2) hr)
  | cons c s ih =>
    rcases quotes_of_escapeAll hrun (c :: s) (triple '"' ++ r) with ⟨k, hk, hs, hself⟩ | hfew
    · rw [hself, hs]
      exact readBasicLines_close (closeQuotes?_replicate (by omega) hr)
    · have hclose := closeQuotes?_of_few (Nat.le_trans (Nat.le_add_right _ run) hfew)
      rw [escapeAll] at hclose ⊢
      split at hclose
      · rename_i hc
        rw [if_pos hc]
        subst hc
        split at hclose
        · rename_i hfull
          rw [if_pos hfull]
          rw [List.cons_append, List.cons_append, readBasicLines_quote, ih (Nat.zero_le 2)]
          rfl
        · rename_i hlt
          rw [if_neg hlt]
          rw [List.cons_append] at hclose ⊢
          rw [readBasicLines_char hclose (by decide) (by decide), ih (by omega)]
          rfl
      · rename_i hc
        rw [if_neg hc]
        rw [List.append_assoc] at hclose ⊢
        rcases escapeChar_cases true c with ⟨hself, hbackslash, hcode, _⟩ | ⟨e, hescape, he⟩
        · rw [hself, List.singleton_append] at hclose ⊢
          rw [readBasicLines_char hclose hbackslash hcode, ih (Nat.zero_le 2)]
          rfl
        · rw [hescape, List.cons_append, readBasicLines_escape he, ih (Nat.zero_le 2)]
          rfl

/-! ### Without escapes -/

theorem readLiteralLines_close {s a r : Text} (h : closeQuotes? '\'' s = some (a, r)) :
    readLiteralLines s = some (a, r) := by
  cases s with
  | nil => cases h
  | cons c s => rw [readLiteralLines, h]

theorem readLiteralLines_char {c : Char} {s : Text} (hclose : closeQuotes? '\'' (c :: s) = none)
    (hcode : needsCode c = false) :
    readLiteralLines (c :: s) = consChar c (readLiteralLines s) := by
  have hreturn : c ≠ '\r' := by
    rintro rfl
    cases hcode
  have hcontrol : ¬(isControl c ∧ c ≠ '\n') := fun h =>
    absurd h.1 (by simp [isControl_eq_false hcode h.2])
  rw [readLiteralLines, hclose]
  dsimp only
  rw [if_neg hreturn, if_neg hcontrol]

theorem longestRun_mono (q : Char) (s : Text) {m n : Nat} (h : m ≤ n) :
    longestRun q m s ≤ longestRun q n s := by
  induction s generalizing m n with
  | nil => exact h
  | cons c s ih =>
    rw [longestRun, longestRun]
    split
    · exact ih (by omega)
    · omega

theorem le_longestRun (q : Char) (run : Nat) (s : Text) : run ≤ longestRun q run s := by
  induction s generalizing run with
  | nil => exact Nat.le_refl run
  | cons c s ih =>
    rw [longestRun]
    split
    · exact Nat.le_trans (Nat.le_succ run) (ih (run + 1))
    · omega

theorem longestRun_tail (q c : Char) (run : Nat) (s : Text) :
    longestRun q 0 s ≤ longestRun q run (c :: s) := by
  rw [longestRun]
  split
  · exact longestRun_mono q s (Nat.zero_le _)
  · omega

/-- With quotes before it, a text is all quotes, or starts with no more of them than stand in a row
    anywhere in it. -/
theorem quotes_of_longestRun (q : Char) (run : Nat) (s t : Text) :
    (∃ k, k + run ≤ longestRun q run s ∧ s = List.replicate k q) ∨
      leadingQuotes q (s ++ t) + run ≤ longestRun q run s := by
  induction s generalizing run with
  | nil => exact Or.inl ⟨0, by rw [longestRun]; omega, rfl⟩
  | cons c s ih =>
    rw [longestRun]
    split
    · rename_i hc
      subst hc
      rcases ih (run + 1) with ⟨k, hk, hs⟩ | hfew
      · exact Or.inl ⟨k + 1, by omega, by rw [List.replicate_succ, hs]⟩
      · refine Or.inr ?_
        rw [List.cons_append, leadingQuotes_cons_self]
        omega
    · rename_i hc
      refine Or.inr ?_
      rw [List.cons_append, leadingQuotes_cons_of_ne hc]
      omega

theorem readLiteralLines_append {r : Text} (hr : r.head? ≠ some '\'') {s : Text}
    (hquotes : longestRun '\'' 0 s ≤ 2) (hcode : ∀ c ∈ s, needsCode c = false) :
    readLiteralLines (s ++ (triple '\'' ++ r)) = some (s, r) := by
  induction s with
  | nil => exact readLiteralLines_close (closeQuotes?_replicate (Nat.zero_le 2) hr)
  | cons c s ih =>
    obtain ⟨hc, hs⟩ := List.forall_mem_cons.1 hcode
    rcases quotes_of_longestRun '\'' 0 (c :: s) (triple '\'' ++ r) with ⟨k, hk, hall⟩ | hfew
    · rw [hall]
      exact readLiteralLines_close (closeQuotes?_replicate (by omega) hr)
    · have hclose := closeQuotes?_of_few (Nat.le_trans hfew hquotes)
      have htail := Nat.le_trans (longestRun_tail '\'' c 0 s) hquotes
      rw [List.cons_append] at hclose ⊢
      rw [readLiteralLines_char hclose hc, ih htail hs]
      rfl

/-! ## Strings in any notation -/

/-- A text that does not go on with a quote. -/
def NoQuote (r : Text) : Prop := r.head? ≠ some '"' ∧ r.head? ≠ some '\''

/-- A text with escapes does not start with a quote when every quote has an escape. -/
theorem exists_escapeAll_eq {c : Char} {s : Text} :
    ∃ d t, escapeAll false 0 0 (c :: s) = d :: t ∧ d ≠ '"' := by
  rw [escapeAll]
  split
  · exact ⟨'\\', _, rfl, by decide⟩
  · rename_i hc
    rcases escapeChar_cases false c with ⟨hself, _⟩ | ⟨e, hescape, _⟩
    · exact ⟨c, _, by rw [hself]; rfl, hc⟩
    · exact ⟨'\\', _, by rw [hescape]; rfl, by decide⟩

theorem readString_writeBasic (s : Text) {r : Text} (hr : NoQuote r) :
    readString (writeBasic s ++ r) = some (s, r) := by
  have hread := readBasic_escapeAll 0 s r
  have htext : writeBasic s ++ r = '"' :: (escapeAll false 0 0 s ++ '"' :: r) := by
    simp [writeBasic]
  rw [htext, readString]
  · exact hread
  · -- Two quotes follow only the empty string, and then there is no third one.
    intro t ht
    cases s with
    | nil =>
      rw [escapeAll, List.nil_append, List.cons.injEq] at ht
      exact hr.1 (by rw [ht.2]; rfl)
    | cons c s =>
      obtain ⟨d, u, hd, hne⟩ := exists_escapeAll_eq (c := c) (s := s)
      rw [hd, List.cons_append, List.cons.injEq] at ht
      exact hne ht.1

theorem readString_writeLiteral {s : Text} (hne : s ≠ []) (hquote : '\'' ∉ s)
    (hcontrol : ∀ c ∈ s, isControl c = false) (r : Text) :
    readString (writeLiteral s ++ r) = some (s, r) := by
  have hread := readLiteral_append hquote hcontrol r
  have htext : writeLiteral s ++ r = '\'' :: (s ++ '\'' :: r) := by simp [writeLiteral]
  rw [htext, readString]
  · exact hread
  · intro t ht
    obtain ⟨c, s, rfl⟩ := List.exists_cons_of_ne_nil hne
    rw [List.cons_append, List.cons.injEq] at ht
    exact hquote (ht.1 ▸ List.mem_cons_self)

/-- The line end in front of a string of several lines is not a part of it. -/
theorem skipNewline_leadingLine {s t : Text}
    (h : '\n' ∉ s → ∃ c u, t = c :: u ∧ c ≠ '\n' ∧ c ≠ '\r') :
    skipNewline (leadingLine s ++ t) = t := by
  unfold leadingLine
  split
  · rfl
  · rename_i hline
    obtain ⟨c, u, rfl, hc, hreturn⟩ := h (by simpa using hline)
    exact skipNewline_cons hc hreturn u

theorem readString_writeBasicLines (s : Text) {r : Text} (hr : NoQuote r) :
    readString (writeBasicLines s ++ r) = some (s, r) := by
  have htext : writeBasicLines s ++ r = '"' :: '"' :: '"' ::
      (leadingLine s ++ (escapeAll true 2 0 s ++ (triple '"' ++ r))) := by
    simp [writeBasicLines, triple]
  have hskip : skipNewline (leadingLine s ++ (escapeAll true 2 0 s ++ (triple '"' ++ r)))
      = escapeAll true 2 0 s ++ (triple '"' ++ r) := by
    refine skipNewline_leadingLine fun hline => ?_
    cases s with
    | nil => exact ⟨'"', _, by rw [escapeAll]; rfl, by decide, by decide⟩
    | cons c s =>
      rw [escapeAll]
      split
      · exact ⟨'"', _, by rw [if_neg (by decide)]; rfl, by decide, by decide⟩
      · rcases escapeChar_cases true c with ⟨hself, _, hcode, _⟩ | ⟨e, hescape, _⟩
        · refine ⟨c, _, by rw [hself]; rfl, fun h => hline (h ▸ List.mem_cons_self), ?_⟩
          rintro rfl
          cases hcode
        · exact ⟨'\\', _, by rw [hescape]; rfl, by decide, by decide⟩
  rw [htext, readString, hskip]
  exact readBasicLines_escapeAll hr.1 (Nat.zero_le 2) s

theorem readString_writeLiteralLines {s : Text} (hquotes : longestRun '\'' 0 s ≤ 2)
    (hcode : ∀ c ∈ s, needsCode c = false) {r : Text} (hr : NoQuote r) :
    readString (writeLiteralLines s ++ r) = some (s, r) := by
  have htext : writeLiteralLines s ++ r = '\'' :: '\'' :: '\'' ::
      (leadingLine s ++ (s ++ (triple '\'' ++ r))) := by
    simp [writeLiteralLines, triple]
  have hskip : skipNewline (leadingLine s ++ (s ++ (triple '\'' ++ r)))
      = s ++ (triple '\'' ++ r) := by
    refine skipNewline_leadingLine fun hline => ?_
    cases s with
    | nil => exact ⟨'\'', _, rfl, by decide, by decide⟩
    | cons c s =>
      refine ⟨c, _, rfl, fun h => hline (h ▸ List.mem_cons_self), ?_⟩
      rintro rfl
      exact absurd (hcode '\r' List.mem_cons_self) (by decide)
  rw [htext, readString, hskip]
  exact readLiteralLines_append hr.2 hquotes hcode

theorem not_mem_of_longestRun {q : Char} {s : Text} (h : longestRun q 0 s = 0) : q ∉ s := by
  induction s with
  | nil => exact List.not_mem_nil
  | cons c s ih =>
    have htail := longestRun_tail q c 0 s
    rw [h, Nat.le_zero] at htail
    rw [List.mem_cons, not_or]
    refine ⟨fun hc => ?_, ih htail⟩
    have hrun := le_longestRun q (0 + 1) s
    rw [longestRun, if_pos hc.symm] at h
    omega

/-- A written string is read back, unless another quote follows. -/
theorem readString_writeString (s : Text) {r : Text} (hr : NoQuote r) :
    readString (writeString s ++ r) = some (s, r) := by
  have hcodes (h : (!s.any needsCode) = true) : ∀ c ∈ s, needsCode c = false := by
    simpa using h
  unfold writeString
  dsimp only
  split
  · exact readString_writeBasic s hr
  · rename_i hbasic
    split
    · rename_i hliteral
      simp only [Bool.and_eq_true, beq_iff_eq] at hliteral
      obtain ⟨⟨hcode, hline⟩, hquotes⟩ := hliteral
      have hline' : '\n' ∉ s := by simpa using hline
      refine readString_writeLiteral ?_ (not_mem_of_longestRun hquotes) (fun c hc => ?_) r
      · rintro rfl
        exact hbasic rfl
      · exact isControl_eq_false (hcodes hcode c hc) fun h => hline' (h ▸ hc)
    · split
      · exact readString_writeBasicLines s hr
      · split
        · rename_i hlines
          simp only [Bool.and_eq_true, decide_eq_true_eq] at hlines
          exact readString_writeLiteralLines hlines.2 (hcodes hlines.1) hr
        · split
          · exact readString_writeBasicLines s hr
          · exact readString_writeBasic s hr

end SheetLint.Toml
