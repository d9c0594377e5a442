/-
  Texts and blanks. A text is the list of its characters. Blank are the five characters that
  separate words in a stylesheet: space, tab, line feed, carriage return and form feed. A text is
  cut at its leading or its trailing blanks; `lead_append_dropLead` and `dropTrail_append_trail`
  say that neither cut loses a character.
-/

namespace SheetLint

/-- A text is the list of its characters. -/
abbrev Text := List Char

/-- Space, tab, line feed, carriage return and form feed are blank. -/
def isBlank (c : Char) : Bool :=
  c == ' ' || c == '\t' || c == '\n' || c == '\r' || c == '\x0c'

namespace Text

/-- The blanks that a text starts with. -/
def lead (s : Text) : Text := s.takeWhile isBlank

/-- A text without its leading blanks. -/
def dropLead (s : Text) : Text := s.dropWhile isBlank

/-- The blanks that a text ends with. -/
def trail (s : Text) : Text := (s.reverse.takeWhile isBlank).reverse

/-- A text without its trailing blanks. -/
def dropTrail (s : Text) : Text := (s.reverse.dropWhile isBlank).reverse

/-- The number of bytes of a text in UTF-8. -/
def bytes : Text → Nat
  | [] => 0
  | c :: s => c.utf8Size + bytes s

@[simp] theorem lead_append_dropLead (s : Text) : lead s ++ dropLead s = s :=
  List.takeWhile_append_dropWhile

@[simp] theorem dropTrail_append_trail (s : Text) : dropTrail s ++ trail s = s := by
  rw [dropTrail, trail, ← List.reverse_append, List.takeWhile_append_dropWhile,
    List.reverse_reverse]

theorem dropTrail_append_trail_append (s t : Text) : dropTrail s ++ (trail s ++ t) = s ++ t := by
  rw [← List.append_assoc, dropTrail_append_trail]

theorem isBlank_of_mem_lead {s : Text} {c : Char} (h : c ∈ lead s) : isBlank c := by
  induction s with
  | nil => simp [lead] at h
  | cons a s ih =>
    rw [lead, List.takeWhile_cons] at h
    split at h
    · rcases List.mem_cons.1 h with rfl | h
      · assumption
      · exact ih h
    · simp at h

theorem isBlank_of_mem_trail {s : Text} {c : Char} (h : c ∈ trail s) : isBlank c :=
  isBlank_of_mem_lead (s := s.reverse) (by simpa [trail, lead] using h)

@[simp] theorem bytes_nil : bytes [] = 0 := rfl

@[simp] theorem bytes_cons (c : Char) (s : Text) : bytes (c :: s) = c.utf8Size + bytes s := rfl

@[simp] theorem bytes_append (s t : Text) : bytes (s ++ t) = bytes s + bytes t := by
  induction s with
  | nil => simp
  | cons c s ih => simp [ih, Nat.add_assoc]

theorem length_le_bytes (s : Text) : s.length ≤ bytes s := by
  induction s with
  | nil => simp
  | cons c s ih =>
    have := c.utf8Size_pos
    simp only [List.length_cons, bytes_cons]
    omega

/-- Two texts that go on to the same one: the shorter is a part of the other. -/
theorem exists_of_append_eq {a b c d : Text} (h : a ++ b = c ++ d) (hle : bytes a ≤ bytes c) :
    ∃ u, c = a ++ u ∧ b = u ++ d := by
  rcases List.append_eq_append_iff.1 h with ⟨u, hc, hb⟩ | ⟨u, ha, hd⟩
  · exact ⟨u, hc, hb⟩
  · have hu : u = [] := by
      have := length_le_bytes u
      rw [ha, bytes_append] at hle
      exact List.length_eq_zero_iff.1 (by omega)
    rw [hu, List.append_nil] at ha
    rw [hu, List.nil_append] at hd
    exact ⟨[], by rw [ha, List.append_nil], by rw [hd, List.nil_append]⟩

end Text

end SheetLint
