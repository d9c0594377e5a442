import SheetLint.Proofs.Toml.Values
import SheetLint.Report.Json

/-
  JSON texts read back. A reader takes a value off the front of a text and gives it with the rest:
  strings up to their quote, numbers up to the first character that is no digit, lists up to the
  bracket that closes them, with any blanks between the parts (`read?`). What is written for a
  value, at any number of steps in, is read as this value (`read?_write`).
-/

namespace SheetLint

open Toml (StartsWith)

namespace Json

/-! ## A reader -/

/-- Takes a part off the front of a text and gives it with the rest. -/
abbrev Reader (α : Type) := Text → Option (α × Text)

/-- The characters that may stand between the parts of a document. -/
def isGap (c : Char) : Bool := c == ' ' || c == '\t' || c == '\n' || c == '\r'

/-- A text from its first part on. -/
def skipGap (s : Text) : Text := s.dropWhile isGap

/-- The character that one character behind a backslash stands for. -/
def ofEscape? : Char → Option Char
  | '"' => some '"'
  | '\\' => some '\\'
  | '/' => some '/'
  | 'b' => some '\x08'
  | 'f' => some '\x0c'
  | 'n' => some '\n'
  | 'r' => some '\r'
  | 't' => some '\t'
  | _ => none

/-- Reads what follows the quote of a string. The code of half a character is refused. -/
def readString? : Reader Text
  | [] => none
  | '"' :: s => some ([], s)
  | '\\' :: 'u' :: a :: b :: c :: d :: s =>
    match (Toml.ofDigits? 16 [a, b, c, d]).bind Toml.ofCode? with
    | some e => (readString? s).map fun (t, r) => (e :: t, r)
    | none => none
  | '\\' :: c :: s =>
    match ofEscape? c with
    | some e => (readString? s).map fun (t, r) => (e :: t, r)
    | none => none
  | c :: s => if c < ' ' then none else (readString? s).map fun (t, r) => (c :: t, r)

/-- Reads a number. No zero stands in front of its other digits. -/
def readNumber? : Reader Nat := fun s =>
  match s.takeWhile Char.isDigit with
  | [] => none
  | '0' :: _ :: _ => none
  | ds => some (Nat.ofDigitChars 10 ds 0, s.dropWhile Char.isDigit)

section Lists

variable {α : Type} (closing : Char) (item : Reader α)

/-- Reads the items up to a closing bracket, with commas between them. -/
def readItems? : Nat → Reader (List α)
  | 0, _ => none
  | n + 1, s => do
    let (x, r) ← item (skipGap s)
    match skipGap r with
    | ',' :: r => do
      let (xs, r) ← readItems? n r
      return (x :: xs, r)
    | c :: r => if c = closing then some ([x], r) else none
    | [] => none

/-- Reads what follows an opening bracket. -/
def readList? (n : Nat) : Reader (List α) := fun s =>
  match skipGap s with
  | c :: r => if c = closing then some ([], r) else readItems? closing item n (c :: r)
  | [] => none

end Lists

/-- Reads a key, a colon and a value. -/
def readPair? (value : Reader Json) : Reader (Text × Json)
  | '"' :: s => do
    let (k, r) ← readString? s
    match skipGap r with
    | ':' :: r => do
      let (v, r) ← value (skipGap r)
      return ((k, v), r)
    | _ => none
  | _ => none

/-- Reads a value. Values may stand in one another, and in one pair of brackets, up to a number. -/
def readValue? : Nat → Reader Json
  | 0, _ => none
  | n + 1, s =>
    match s with
    | '"' :: s => (readString? s).map fun (t, r) => (string t, r)
    | '[' :: s => (readList? ']' (readValue? n) n s).map fun (vs, r) => (array vs, r)
    | '{' :: s => (readList? '}' (readPair? (readValue? n)) n s).map fun (es, r) => (object es, r)
    | s => (readNumber? s).map fun (m, r) => (number m, r)

/-- The value that a text is. It cannot hold more values than it has characters. -/
def read? (s : Text) : Option Json :=
  match readValue? s.length (skipGap s) with
  | some (v, r) => if skipGap r = [] then some v else none
  | none => none

/-! ## Strings and numbers -/

theorem ofDigits?_control :
    ∀ n < 32, (Toml.ofDigits? 16 ['0', '0', Nat.digitChar (n / 16), Nat.digitChar (n % 16)]).bind
      Toml.ofCode? = some (Char.ofNat n) := by
  decide

theorem readString?_escapeChar (c : Char) (s : Text) :
    readString? (escapeChar c ++ s) = (readString? s).map fun (t, r) => (c :: t, r) := by
  by_cases hshort : c ∈ ['"', '\\', '\n', '\r', '\t', '\x08', '\x0c']
  · simp only [List.mem_cons, List.not_mem_nil, or_false] at hshort
    rcases hshort with rfl | rfl | rfl | rfl | rfl | rfl | rfl <;> rfl
  · simp only [List.mem_cons, List.not_mem_nil, or_false, not_or] at hshort
    obtain ⟨hquote, hslash, hfeed, hreturn, htab, hback, hform⟩ := hshort
    rw [escapeChar, if_neg hquote, if_neg hslash, if_neg hfeed, if_neg hreturn, if_neg htab,
      if_neg hback, if_neg hform]
    split
    · rename_i hc
      have hcode := ofDigits?_control c.toNat hc
      rw [Char.ofNat_toNat] at hcode
      simp only [List.cons_append, List.nil_append]
      rw [readString?, hcode]
    · rename_i hc
      have hle : ¬c < ' ' := hc
      rw [List.singleton_append, readString?, if_neg hle]
      · exact hquote
      · exact fun _ _ _ _ _ h _ => hslash h
      · exact fun _ _ h _ => hslash h

/-- A written string is read back, whatever follows its quote. -/
theorem readString?_quote (t r : Text) :
    readString? (t.flatMap escapeChar ++ '"' :: r) = some (t, r) := by
  induction t with
  | nil => rfl
  | cons c t ih =>
    rw [List.flatMap_cons, List.append_assoc, readString?_escapeChar, ih]
    rfl

/-- A text that does not go on with a digit. -/
def NoDigit (r : Text) : Prop := ∀ c ∈ r.head?, ¬c.isDigit

theorem readNumber?_toDigits (n : Nat) {r : Text} (hr : NoDigit r) :
    readNumber? (Nat.toDigits 10 n ++ r) = some (n, r) := by
  have hdigits := @Toml.isDigit_of_mem_toDigits n
  have hr' : r.takeWhile Char.isDigit = [] ∧ r.dropWhile Char.isDigit = r := by
    cases r with
    | nil => exact ⟨rfl, rfl⟩
    | cons c r =>
      have hc := hr c rfl
      exact ⟨List.takeWhile_cons_of_neg hc, List.dropWhile_cons_of_neg hc⟩
  unfold readNumber?
  rw [List.takeWhile_append_of_pos hdigits, List.dropWhile_append_of_pos hdigits, hr'.1, hr'.2,
    List.append_nil]
  split
  · rename_i h
    exact absurd h Nat.toDigits_ne_nil
  · rename_i h
    exact absurd h (Toml.toDigits_ne_zero_cons n _ _)
  · rw [Nat.ofDigitChars_toDigits (by decide) (by decide)]

/-! ## Lists between brackets -/

/-- The characters that a part of a document may start with. -/
def isPartStart (c : Char) : Bool := c == '"' || c == '[' || c == '{' || c.isDigit

theorem skipGap_of_startsWith {t : Text} (h : StartsWith isPartStart t) : skipGap t = t := by
  obtain ⟨c, t, rfl, hc⟩ := h
  have hgap : ¬isGap c := by
    intro hgap
    simp only [isGap, Bool.or_eq_true, beq_iff_eq] at hgap
    rcases hgap with ((rfl | rfl) | rfl) | rfl <;> exact absurd hc (by decide)
  exact List.dropWhile_cons_of_neg hgap

theorem skipGap_newLine (depth : Nat) (s : Text) : skipGap (newLine depth ++ s) = skipGap s := by
  refine List.dropWhile_append_of_pos fun c hc => ?_
  rcases List.mem_cons.1 hc with rfl | hc
  · rfl
  · rw [List.eq_of_mem_replicate hc]
    rfl

/-- What stands behind the first of some items: the others, each behind a comma, and the bracket. -/
def tailText (closing : Char) (depth : Nat) (ts : List Text) : Text :=
  ts.flatMap (fun t => ',' :: newLine (depth + 1) ++ t) ++ newLine depth ++ [closing]

theorem tailText_nil (closing : Char) (depth : Nat) :
    tailText closing depth [] = newLine depth ++ [closing] := rfl

theorem tailText_cons (closing : Char) (depth : Nat) (t : Text) (ts : List Text) :
    tailText closing depth (t :: ts)
      = ',' :: (newLine (depth + 1) ++ (t ++ tailText closing depth ts)) := by
  simp only [tailText, List.flatMap_cons, List.cons_append, List.append_assoc]

theorem enclose_cons (opening closing : Char) (depth : Nat) (t : Text) (ts : List Text) :
    enclose opening closing depth (t :: ts)
      = opening :: (newLine (depth + 1) ++ (t ++ tailText closing depth ts)) := by
  simp only [enclose, tailText, List.cons_append, List.nil_append, List.append_assoc]

theorem noDigit_tailText (closing : Char) (depth : Nat) (ts : List Text) (r : Text) :
    NoDigit (tailText closing depth ts ++ r) := by
  cases ts with
  | nil => simp [NoDigit, tailText_nil, newLine]
  | cons t ts => simp [NoDigit, tailText_cons]

/-- A reader that reads a part back, whatever follows but another digit. -/
def ReadsBack {α : Type} (p : Reader α) (t : Text) (x : α) : Prop :=
  ∀ r, NoDigit r → p (t ++ r) = some (x, r)

/-- A text that is read as a part of a list: it starts as parts do, and it is read back. -/
structure IsPart {α : Type} (item : Reader α) (t : Text) (x : α) : Prop where
  start : StartsWith isPartStart t
  back : ReadsBack item t x

section Lists

variable {α : Type} {item : Reader α} {closing : Char} (hclosing : closing = ']' ∨ closing = '}')
include hclosing

theorem skipGap_closing (r : Text) : skipGap (closing :: r) = closing :: r := by
  rcases hclosing with rfl | rfl <;> rfl

/-- Items with commas between them are read up to the closing bracket. -/
theorem readItems?_tailText {depth n : Nat} {t : Text} {x : α} {ts : List Text} {xs : List α}
    (h : List.Forall₂ (IsPart item) (t :: ts) (x :: xs)) (hn : ts.length < n) {s r : Text}
    (hs : skipGap s = t ++ (tailText closing depth ts ++ r)) :
    readItems? closing item n s = some (x :: xs, r) := by
  induction ts generalizing t x xs n s with
  | nil =>
    obtain ⟨hpart, hnil⟩ := List.forall₂_cons.1 h
    obtain rfl := List.forall₂_nil_left_iff.1 hnil
    obtain ⟨m, rfl⟩ := Nat.exists_eq_add_one_of_ne_zero (Nat.ne_zero_of_lt hn)
    rw [readItems?, hs, hpart.back _ (noDigit_tailText closing depth [] r)]
    simp only [Option.bind_eq_bind, Option.bind_some, tailText_nil, List.append_assoc,
      skipGap_newLine, List.singleton_append, skipGap_closing hclosing]
    rcases hclosing with rfl | rfl <;> rfl
  | cons u ts ih =>
    obtain ⟨hpart, hrest⟩ := List.forall₂_cons.1 h
    obtain ⟨y, ys, hu, -, rfl⟩ := List.forall₂_cons_left_iff.1 hrest
    obtain ⟨m, rfl⟩ := Nat.exists_eq_add_one_of_ne_zero (Nat.ne_zero_of_lt hn)
    have hnext : skipGap (newLine (depth + 1) ++ (u ++ (tailText closing depth ts ++ r)))
        = u ++ (tailText closing depth ts ++ r) := by
      rw [skipGap_newLine, skipGap_of_startsWith (hu.start.append _)]
    have htail := ih hrest (Nat.lt_of_succ_lt_succ hn) hnext
    have hcomma (t : Text) : skipGap (',' :: t) = ',' :: t := rfl
    rw [readItems?, hs, hpart.back _ (noDigit_tailText closing depth (u :: ts) r)]
    simp only [Option.bind_eq_bind, Option.bind_some, tailText_cons, List.cons_append,
      List.append_assoc, hcomma]
    rw [htail]
    rfl

/-- What is written between brackets is read back. -/
theorem readList?_enclose {depth n : Nat} {ts : List Text} {xs : List α}
    (h : List.Forall₂ (IsPart item) ts xs) (hn : ts.length ≤ n) (opening : Char) :
    ∃ s, enclose opening closing depth ts = opening :: s ∧
      ∀ r, readList? closing item n (s ++ r) = some (xs, r) := by
  cases h with
  | nil =>
    refine ⟨[closing], rfl, fun r => ?_⟩
    unfold readList?
    rw [List.singleton_append, skipGap_closing hclosing]
    exact if_pos rfl
  | @cons t x ts xs hpart hrest =>
    refine ⟨_, enclose_cons opening closing depth t ts, fun r => ?_⟩
    have hskip := skipGap_of_startsWith (hpart.start.append (tailText closing depth ts ++ r))
    have hitems := readItems?_tailText hclosing (List.Forall₂.cons hpart hrest) hn hskip
    obtain ⟨c, u, rfl, hc⟩ := hpart.start
    -- An item does not start with the bracket that would say that there are none.
    have hne : c ≠ closing := by
      rintro rfl
      rcases hclosing with rfl | rfl <;> exact absurd hc (by decide)
    unfold readList?
    rw [List.append_assoc, skipGap_newLine, List.append_assoc, hskip]
    exact (if_neg hne).trans hitems

end Lists

/-! ## Values -/

theorem startsWith_toDigits (n : Nat) : StartsWith Char.isDigit (Nat.toDigits 10 n) := by
  obtain ⟨c, t, hs⟩ := List.exists_cons_of_ne_nil (Nat.toDigits_ne_nil (n := n) (b := 10))
  exact ⟨c, t, hs, Toml.isDigit_of_mem_toDigits c (hs ▸ List.mem_cons_self)⟩

theorem startsWith_enclose {opening : Char} (h : isPartStart opening) (closing : Char)
    (depth : Nat) (ts : List Text) :
    StartsWith isPartStart (enclose opening closing depth ts) := by
  cases ts with
  | nil => exact ⟨opening, _, rfl, h⟩
  | cons t ts => exact ⟨opening, _, enclose_cons .., h⟩

theorem startsWith_write (v : Json) (depth : Nat) : StartsWith isPartStart (v.write depth) := by
  cases v with
  | number n =>
    exact (startsWith_toDigits n).mono fun c hc => by rw [isPartStart, hc, Bool.or_true]
  | string s => exact ⟨'"', _, rfl, rfl⟩
  | array vs => exact startsWith_enclose rfl _ _ _
  | object es => exact startsWith_enclose rfl _ _ _

theorem writeItems_eq (depth : Nat) (vs : List Json) :
    writeItems depth vs = vs.map (·.write depth) := by
  induction vs with
  | nil => rfl
  | cons v vs ih => rw [writeItems, ih, List.map_cons]

/-- The written form of an entry. -/
def entryText (depth : Nat) (e : Text × Json) : Text := quote e.1 ++ [':', ' '] ++ e.2.write depth

theorem writeEntries_eq (depth : Nat) (es : List (Text × Json)) :
    writeEntries depth es = es.map (entryText depth) := by
  induction es with
  | nil => rfl
  | cons e es ih => rw [writeEntries, ih, List.map_cons, entryText]

theorem length_lt_tailText (closing : Char) (depth : Nat) (ts : List Text) :
    ts.length < (tailText closing depth ts).length ∧
      ∀ t ∈ ts, t.length < (tailText closing depth ts).length := by
  induction ts with
  | nil => simp [tailText_nil]
  | cons t ts ih =>
    simp only [tailText_cons, List.length_cons, List.length_append, List.forall_mem_cons]
    refine ⟨by omega, by omega, fun u hu => ?_⟩
    have hlt := ih.2 u hu
    omega

/-- Brackets take more room than each of the items, and than there are items. -/
theorem length_lt_enclose (opening closing : Char) (depth : Nat) (ts : List Text) :
    ts.length < (enclose opening closing depth ts).length ∧
      ∀ t ∈ ts, t.length < (enclose opening closing depth ts).length := by
  cases ts with
  | nil => simp [enclose]
  | cons t ts =>
    have htail := length_lt_tailText closing depth ts
    simp only [enclose_cons, List.length_cons, List.length_append, List.forall_mem_cons]
    refine ⟨by omega, by omega, fun u hu => ?_⟩
    have hlt := htail.2 u hu
    omega

theorem readsBack_number (n depth m : Nat) :
    ReadsBack (readValue? (n + 1)) ((number m).write depth) (number m) := by
  intro r hr
  have hstart := (startsWith_toDigits m).append r
  rw [write]
  unfold readValue?
  split
  · rename_i h
    exact absurd h (hstart.ne_cons rfl _)
  · rename_i h
    exact absurd h (hstart.ne_cons rfl _)
  · rename_i h
    exact absurd h (hstart.ne_cons rfl _)
  · rw [readNumber?_toDigits m hr]
    rfl

theorem readsBack_string (n depth : Nat) (s : Text) :
    ReadsBack (readValue? (n + 1)) ((string s).write depth) (string s) := by
  intro r _
  rw [write, quote, List.append_assoc, List.append_assoc, List.singleton_append,
    List.singleton_append, readValue?, readString?_quote]
  rfl

section Brackets

variable {n depth : Nat}

theorem readsBack_array {vs : List Json}
    (h : ∀ v ∈ vs, ReadsBack (readValue? n) (v.write (depth + 1)) v) (hn : vs.length ≤ n) :
    ReadsBack (readValue? (n + 1)) ((array vs).write depth) (array vs) := by
  intro r _
  have hitems : List.Forall₂ (IsPart (readValue? n)) (vs.map (·.write (depth + 1))) vs := by
    rw [List.forall₂_map_left_iff, List.forall₂_same]
    exact fun v hv => ⟨startsWith_write v _, h v hv⟩
  obtain ⟨s, hs, hread⟩ := readList?_enclose (Or.inl rfl) hitems (by simpa using hn) '['
  rw [write, writeItems_eq, hs, List.cons_append, readValue?, hread]
  rfl

theorem readsBack_entryText {value : Reader Json} {e : Text × Json}
    (h : ReadsBack value (e.2.write depth) e.2) :
    ReadsBack (readPair? value) (entryText depth e) e := by
  intro r hr
  have htext : entryText depth e ++ r
      = '"' :: (e.1.flatMap escapeChar ++ '"' :: ':' :: ' ' :: (e.2.write depth ++ r)) := by
    simp only [entryText, quote, List.cons_append, List.append_assoc, List.nil_append]
  have hcolon (s : Text) : skipGap (':' :: s) = ':' :: s := rfl
  have hspace (s : Text) : skipGap (' ' :: s) = skipGap s := rfl
  have hskip := skipGap_of_startsWith ((startsWith_write e.2 depth).append r)
  rw [htext, readPair?, readString?_quote]
  simp only [Option.bind_eq_bind, Option.bind_some, hcolon, hspace, hskip, h r hr]
  rfl

theorem readsBack_object {es : List (Text × Json)}
    (h : ∀ e ∈ es, ReadsBack (readValue? n) (e.2.write (depth + 1)) e.2) (hn : es.length ≤ n) :
    ReadsBack (readValue? (n + 1)) ((object es).write depth) (object es) := by
  intro r _
  have hentries : List.Forall₂ (IsPart (readPair? (readValue? n)))
      (es.map (entryText (depth + 1))) es := by
    rw [List.forall₂_map_left_iff, List.forall₂_same]
    exact fun e he => ⟨⟨'"', _, rfl, rfl⟩, readsBack_entryText (h e he)⟩
  obtain ⟨s, hs, hread⟩ := readList?_enclose (Or.inr rfl) hentries (by simpa using hn) '{'
  rw [write, writeEntries_eq, hs, List.cons_append, readValue?, hread]
  rfl

end Brackets

/-- A written value is read back by a reader that may go as far as its text is long. -/
theorem readsBack_write {n depth : Nat} {v : Json} (h : (v.write depth).length ≤ n) :
    ReadsBack (readValue? n) (v.write depth) v := by
  -- On how far the reader may go, not on the value: the parts are read by a reader that may go one
  -- step less far, and their texts are shorter than the text with the brackets around them.
  induction n generalizing v depth with
  | zero =>
    obtain ⟨c, t, ht, -⟩ := startsWith_write v depth
    rw [ht] at h
    cases h
  | succ n ih =>
    cases v with
    | number m => exact readsBack_number n depth m
    | string s => exact readsBack_string n depth s
    | array vs =>
      rw [write, writeItems_eq] at h
      obtain ⟨hcount, hlength⟩ := length_lt_enclose '[' ']' depth (vs.map (·.write (depth + 1)))
      rw [List.length_map] at hcount
      refine readsBack_array (fun v hv => ih ?_) (by omega)
      have hlt := hlength _ (List.mem_map_of_mem hv)
      omega
    | object es =>
      rw [write, writeEntries_eq] at h
      obtain ⟨hcount, hlength⟩ := length_lt_enclose '{' '}' depth (es.map (entryText (depth + 1)))
      rw [List.length_map] at hcount
      refine readsBack_object (fun e he => ih ?_) (by omega)
      have hlt := hlength _ (List.mem_map_of_mem he)
      simp only [entryText, List.length_append] at hlt
      omega

/-- A written value is read back. -/
theorem read?_write (v : Json) (depth : Nat) : read? (v.write depth) = some v := by
  have hread := readsBack_write (Nat.le_refl (v.write depth).length) [] (by simp [NoDigit])
  rw [List.append_nil] at hread
  unfold read?
  rw [skipGap_of_startsWith (startsWith_write v depth), hread]
  rfl

end Json

end SheetLint
