import SheetLint.Text.Position

/-
  Texts as bytes. The UTF-8 form of a text is the bytes of its characters one after the other. A
  byte is read as the character with its code, so it can be compared with characters of one byte;
  `exists_byte` says that such a comparison sees what the character at the place is. A slice is
  only there between two places that lie within the text and not inside a character.
-/

namespace SheetLint

namespace Text

/-! ## Bytes -/

/-- The bytes of a text in UTF-8. -/
def utf8 (s : Text) : List UInt8 := s.flatMap String.utf8EncodeChar

theorem length_utf8 (s : Text) : (utf8 s).length = bytes s := by
  induction s with
  | nil => rfl
  | cons c s ih =>
    rw [utf8, List.flatMap_cons, List.length_append, String.length_utf8EncodeChar, bytes_cons]
    exact congrArg _ ih

/-- The byte at an offset, as the character with its code. -/
def byte? (s : Text) (i : Nat) : Option Char := (utf8 s)[i]?.map Char.ofUInt8

theorem byte?_append (a b : Text) (i : Nat) : byte? (a ++ b) (bytes a + i) = byte? b i := by
  have happ : utf8 (a ++ b) = utf8 a ++ utf8 b := List.flatMap_append
  rw [byte?, happ, ← length_utf8 a, List.getElem?_append_right (Nat.le_add_right _ _),
    Nat.add_sub_cancel_left, byte?]

theorem byte?_eq_none_iff {s : Text} {i : Nat} : byte? s i = none ↔ bytes s ≤ i := by
  rw [byte?, Option.map_eq_none_iff, List.getElem?_eq_none_iff, length_utf8]

theorem byte?_bytes (s : Text) : byte? s (bytes s) = none := byte?_eq_none_iff.2 (Nat.le_refl _)

theorem lt_of_byte? {s : Text} {i : Nat} {b : Char} (h : byte? s i = some b) : i < bytes s := by
  refine Nat.lt_of_not_le fun hi => ?_
  rw [byte?_eq_none_iff.2 hi] at h
  cases h

/-- A byte of a character: the character itself, or a byte above those of one-byte characters when
    the character has more than one. -/
def IsByteOf (c b : Char) : Prop := b = c ∨ (b.utf8Size ≠ 1 ∧ c.utf8Size ≠ 1)

theorem isByteOf_of_mem {c : Char} {b : UInt8} (h : b ∈ String.utf8EncodeChar c) :
    IsByteOf c (Char.ofUInt8 b) := by
  have hcode : (Char.ofUInt8 b).val.toNat = b.toNat := UInt8.toNat_toUInt32 b
  by_cases hc : c.utf8Size = 1
  · rw [String.utf8EncodeChar_eq_singleton hc, List.mem_singleton] at h
    rw [Char.utf8Size_eq_one_iff, UInt32.le_iff_toNat_le] at hc
    refine Or.inl (Char.ext (UInt32.toNat_inj.1 ?_))
    rw [hcode, h, UInt32.toNat_toUInt8]
    exact Nat.mod_eq_of_lt (Nat.lt_of_le_of_lt hc (by decide))
  · refine Or.inr ⟨?_, hc⟩
    rw [Char.utf8Size_eq_one_iff, UInt32.le_iff_toNat_le] at hc
    rw [ne_eq, Char.utf8Size_eq_one_iff, UInt32.le_iff_toNat_le, hcode]
    change ¬ c.val.toNat ≤ 127 at hc
    change ¬ b.toNat ≤ 127
    simp only [String.utf8EncodeChar, if_neg hc] at h
    split at h
    · simp only [List.mem_cons, List.not_mem_nil, or_false] at h
      rcases h with rfl | rfl <;> simp <;> omega
    · split at h
      · simp only [List.mem_cons, List.not_mem_nil, or_false] at h
        rcases h with rfl | rfl | rfl <;> simp <;> omega
      · simp only [List.mem_cons, List.not_mem_nil, or_false] at h
        rcases h with rfl | rfl | rfl | rfl <;> simp <;> omega

/-- Where a character stands, each of its bytes is one of its bytes. -/
theorem exists_byte (a : Text) (c : Char) (s : Text) {k : Nat} (hk : k < c.utf8Size) :
    ∃ b, byte? (a ++ c :: s) (bytes a + k) = some b ∧ IsByteOf c b := by
  have hlen : k < (String.utf8EncodeChar c).length := by rwa [String.length_utf8EncodeChar]
  refine ⟨Char.ofUInt8 (String.utf8EncodeChar c)[k], ?_,
    isByteOf_of_mem (List.getElem_mem hlen)⟩
  rw [byte?_append, byte?, utf8, List.flatMap_cons, List.getElem?_append_left hlen,
    List.getElem?_eq_getElem hlen]
  rfl

theorem IsByteOf.eq_iff {c b : Char} (h : IsByteOf c b) {d : Char} (hd : d.utf8Size = 1) :
    b = d ↔ c = d := by
  rcases h with rfl | ⟨hb, hc⟩
  · rfl
  · exact ⟨fun he => absurd (he ▸ hd) hb, fun he => absurd (he ▸ hd) hc⟩

theorem IsByteOf.beq {c b : Char} (h : IsByteOf c b) {d : Char} (hd : d.utf8Size = 1) :
    (b == d) = (c == d) := by
  rw [Bool.eq_iff_iff, beq_iff_eq, beq_iff_eq]
  exact h.eq_iff hd

theorem IsByteOf.wide {c b : Char} (h : IsByteOf c b) (hc : c.utf8Size ≠ 1) : b.utf8Size ≠ 1 := by
  rcases h with rfl | h
  · exact hc
  · exact h.1

/-! ## Slices -/

/-- Cuts a text at an offset, if it is one of its places. -/
def cut? : Text → Nat → Option (Text × Text)
  | [], _ + 1 => none
  | s, 0 => some ([], s)
  | c :: s, n + 1 =>
    if c.utf8Size ≤ n + 1 then (cut? s (n + 1 - c.utf8Size)).map fun p => (c :: p.1, p.2)
    else none

/-- The text between two offsets, if they are places of the text and in their order. -/
def slice? (s : Text) (i j : Nat) : Option Text :=
  if i ≤ j then
    (cut? s i).bind fun (_, b) => (cut? b (j - i)).map (·.1)
  else none

theorem cut?_eq_some_iff {s a b : Text} {i : Nat} :
    cut? s i = some (a, b) ↔ s = a ++ b ∧ i = bytes a := by
  fun_induction cut? s i generalizing a with
  | case1 n =>
    refine ⟨nofun, ?_⟩
    rintro ⟨h, hn⟩
    rw [(List.append_eq_nil_iff.1 h.symm).1] at hn
    cases hn
  | case2 s =>
    constructor
    · intro h
      cases h
      exact ⟨rfl, rfl⟩
    · rintro ⟨rfl, h⟩
      have ha : a = [] := List.length_eq_zero_iff.1 (by have := length_le_bytes a; omega)
      rw [ha, List.nil_append]
  | case3 c s n hc ih =>
    rw [Option.map_eq_some_iff]
    constructor
    · rintro ⟨⟨x, y⟩, hx, he⟩
      cases he
      obtain ⟨rfl, hn⟩ := ih.1 hx
      refine ⟨rfl, ?_⟩
      show n + 1 = c.utf8Size + bytes x
      omega
    · rintro ⟨h, hn⟩
      cases a with
      | nil => cases hn
      | cons d a =>
        cases h
        rw [bytes_cons] at hn
        exact ⟨(a, b), ih.2 ⟨rfl, by omega⟩, rfl⟩
  | case4 c s n hc =>
    refine ⟨nofun, ?_⟩
    rintro ⟨h, hn⟩
    cases a with
    | nil => cases hn
    | cons d a =>
      cases h
      rw [bytes_cons] at hn
      omega

/-- A slice is the part of the text between its offsets. -/
theorem slice?_eq_some_iff {s t : Text} {i j : Nat} :
    slice? s i j = some t ↔ ∃ a b, s = a ++ t ++ b ∧ i = bytes a ∧ j = bytes (a ++ t) := by
  unfold slice?
  split
  · rename_i hij
    rw [Option.bind_eq_some_iff]
    constructor
    · rintro ⟨⟨a, r⟩, ha, hr⟩
      obtain ⟨⟨t, b⟩, ht, rfl⟩ := Option.map_eq_some_iff.1 hr
      obtain ⟨rfl, rfl⟩ := cut?_eq_some_iff.1 ha
      obtain ⟨rfl, hj⟩ := cut?_eq_some_iff.1 ht
      refine ⟨a, b, (List.append_assoc _ _ _).symm, rfl, ?_⟩
      rw [bytes_append, ← hj]
      omega
    · rintro ⟨a, b, rfl, rfl, rfl⟩
      refine ⟨(a, t ++ b), cut?_eq_some_iff.2 ⟨List.append_assoc _ _ _, rfl⟩, ?_⟩
      have hcut : cut? (t ++ b) (bytes t) = some (t, b) := cut?_eq_some_iff.2 ⟨rfl, rfl⟩
      simp only [bytes_append, Nat.add_sub_cancel_left, hcut, Option.map_some]
  · rename_i hij
    refine ⟨nofun, ?_⟩
    rintro ⟨a, b, _, rfl, rfl⟩
    rw [bytes_append] at hij
    omega

theorem le_of_slice? {s t : Text} {i j : Nat} (h : slice? s i j = some t) : i ≤ j := by
  refine Decidable.byContradiction fun hij => ?_
  rw [slice?, if_neg hij] at h
  cases h

theorem slice?_between (a t b : Text) :
    slice? (a ++ t ++ b) (bytes a) (bytes (a ++ t)) = some t :=
  slice?_eq_some_iff.2 ⟨a, b, rfl, rfl, rfl⟩

theorem slice?_left (t b : Text) : slice? (t ++ b) 0 (bytes t) = some t :=
  slice?_eq_some_iff.2 ⟨[], b, rfl, rfl, rfl⟩

theorem slice?_right (a t : Text) : slice? (a ++ t) (bytes a) (bytes (a ++ t)) = some t :=
  slice?_eq_some_iff.2 ⟨a, [], (List.append_nil _).symm, rfl, rfl⟩

/-! ## Searches -/

/-- The offset of the first place at which a text holds a given one. -/
def find? (pattern : Text) : Text → Option Nat
  | [] => if pattern.isEmpty then some 0 else none
  | c :: s =>
    if pattern.isPrefixOf (c :: s) then some 0 else (find? pattern s).map (c.utf8Size + ·)

/-- The offset of the first character of a class. -/
def findChar? (p : Char → Bool) : Text → Option Nat
  | [] => none
  | c :: s => if p c then some 0 else (findChar? p s).map (c.utf8Size + ·)

/-- The offset of the last character of a class. -/
def findLast? (p : Char → Bool) : Text → Option Nat
  | [] => none
  | c :: s => ((findLast? p s).map (c.utf8Size + ·)).or (if p c then some 0 else none)

theorem findChar?_eq (p : Char → Bool) (s : Text) :
    findChar? p s
      = if s.dropWhile (!p ·) = [] then none else some (bytes (s.takeWhile (!p ·))) := by
  induction s with
  | nil => rfl
  | cons c s ih =>
    rw [findChar?, ih, List.dropWhile_cons, List.takeWhile_cons]
    cases p c with
    | true => rfl
    | false => by_cases h : s.dropWhile (!p ·) = [] <;> simp [h]

theorem getD_findChar? (p : Char → Bool) (s : Text) :
    (findChar? p s).getD (bytes s) = bytes (s.takeWhile (!p ·)) := by
  rw [findChar?_eq]
  split
  · rename_i h
    have := @List.takeWhile_append_dropWhile _ (!p ·) s
    rw [h, List.append_nil] at this
    rw [this]
    rfl
  · rfl

theorem findLast?_concat (p : Char → Bool) (s : Text) (c : Char) :
    findLast? p (s ++ [c]) = if p c then some (bytes s) else findLast? p s := by
  induction s with
  | nil => rfl
  | cons d s ih =>
    rw [List.cons_append, findLast?, ih, findLast?]
    cases p c <;> rfl

/-! ## Fronts -/

theorem cut?_eq_upTo? (s : Text) (i : Nat) :
    (cut? s (min i (bytes s))).map (·.1) = upTo? s i := by
  fun_induction upTo? s i with
  | case1 s =>
    rw [Nat.zero_min, cut?]
    rfl
  | case2 n => rfl
  | case3 c s n hc ih =>
    obtain ⟨m, hm⟩ : ∃ m, min (n + 1) (bytes (c :: s)) = m + 1 := by
      have := c.utf8Size_pos
      exact ⟨min (n + 1) (bytes (c :: s)) - 1, by rw [bytes_cons]; omega⟩
    have hrest : m + 1 - c.utf8Size = min (n + 1 - c.utf8Size) (bytes s) := by
      rw [← hm, bytes_cons]
      omega
    have hle : c.utf8Size ≤ m + 1 := by
      rw [← hm, bytes_cons]
      omega
    rw [hm, cut?, if_pos hle, hrest, ← ih, Option.map_map, Option.map_map]
    rfl
  | case4 c s n hc =>
    have hmin : min (n + 1) (bytes (c :: s)) = n + 1 := by
      rw [bytes_cons]
      omega
    rw [hmin, cut?, if_neg hc]
    rfl

/-- The text before an offset, or before the end if the offset lies past it. -/
theorem slice?_upTo? (s : Text) (i : Nat) : slice? s 0 (min i (bytes s)) = upTo? s i := by
  rw [← cut?_eq_upTo?, slice?, if_pos (Nat.zero_le _), cut?]
  rfl

end Text

end SheetLint
