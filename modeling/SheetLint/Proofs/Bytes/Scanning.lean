import SheetLint.Proofs.Bytes.Reader
import SheetLint.Proofs.Sheet.Faults

/-
  What the scans of the byte reader find. A scan that starts where a character stands ends where a
  character stands, also behind a backslash, which passes over the first byte of the character after
  it and leaves the others to the steps that follow. So each scan gives the offset of what the
  reader of characters finds: `take?_eq`, `commentEnd?_eq`, `skipString?_eq` and `scanEnd?_eq`.
-/

namespace SheetLint

namespace Bytewise

open Text (byte? slice? bytes IsByteOf exists_byte)

/-! ## Parts of texts -/

theorem splitTrailing?_eq (t : Text) : splitTrailing? t = some (Text.dropTrail t, Text.trail t) := by
  have h := Text.slice?_right (Text.dropTrail t) (Text.trail t)
  rw [Text.dropTrail_append_trail] at h
  simp only [splitTrailing?, h]
  rfl

theorem splitLeading?_eq (t : Text) : splitLeading? t = some (Text.lead t, Text.dropLead t) := by
  have hlen : bytes t - bytes (Text.dropLead t) = bytes (Text.lead t) := by
    have := congrArg bytes (Text.lead_append_dropLead t)
    rw [Text.bytes_append] at this
    omega
  have h := Text.slice?_left (Text.lead t) (Text.dropLead t)
  rw [Text.lead_append_dropLead] at h
  simp only [splitLeading?, hlen, h]
  rfl

theorem splitAt?_eq (a b : Text) : splitAt? (a ++ b) (bytes a) = some (a, b) := by
  simp only [splitAt?, Text.slice?_left, Text.slice?_right]
  rfl

/-! ## Bytes of characters -/

theorem bytes_concat {c : Char} (hc : c.utf8Size = 1) (front : Text) :
    bytes (front ++ [c]) = bytes front + 1 := by
  rw [Text.bytes_append, Text.bytes_cons, Text.bytes_nil, hc]

section Character

variable {s front rest : Text} {c : Char} (hs : s = front ++ c :: rest)
include hs

theorem byte?_start : ∃ b, byte? s (bytes front) = some b ∧ IsByteOf c b := by
  rw [hs]
  exact exists_byte front c rest c.utf8Size_pos

theorem byte?_of_narrow (hc : c.utf8Size = 1) : byte? s (bytes front) = some c := by
  obtain ⟨b, hb, hbc⟩ := byte?_start hs
  rw [hb, (hbc.eq_iff hc).2 rfl]

theorem lt_bytes : bytes front < bytes s := by
  have := c.utf8Size_pos
  rw [hs, Text.bytes_append, Text.bytes_cons]
  omega

/-- Steps that pass over the bytes of characters that have more than one leave a character at its
    end, from any of its bytes but the first. -/
theorem loop_tail {σ α : Type} {step : σ → Option (σ ⊕ α)} (state : Nat → σ)
    (h : ∀ i b, byte? s i = some b → b.utf8Size ≠ 1 → step (state i) = some (.inl (state (i + 1)))) :
    loop step (state (bytes front + 1)) = loop step (state (bytes (front ++ [c]))) := by
  have hsize := c.utf8Size_pos
  have hend : bytes (front ++ [c]) = bytes front + 1 + (c.utf8Size - 1) := by
    rw [Text.bytes_append, Text.bytes_cons, Text.bytes_nil]
    omega
  rw [hend]
  refine loop_pass state _ fun k hk => ?_
  obtain ⟨b, hb, hbc⟩ := exists_byte front c rest (k := k + 1) (by omega)
  rw [← hs, ← Nat.add_assoc, Nat.add_right_comm] at hb
  exact h _ b hb (hbc.wide (by omega))

/-- Such steps leave a character with more than one byte at its end from its start. -/
theorem loop_wide {σ α : Type} {step : σ → Option (σ ⊕ α)} (state : Nat → σ)
    (h : ∀ i b, byte? s i = some b → b.utf8Size ≠ 1 → step (state i) = some (.inl (state (i + 1))))
    (hc : c.utf8Size ≠ 1) :
    loop step (state (bytes front)) = loop step (state (bytes (front ++ [c]))) := by
  obtain ⟨b, hb, hbc⟩ := byte?_start hs
  rw [loop_of_inl (h _ b hb (hbc.wide hc)), loop_tail hs state h]

end Character

/-! ## Bytes of a class -/

theorem isBlank_byte {c b : Char} (h : IsByteOf c b) : isBlank b = isBlank c := by
  simp only [isBlank, h.beq (d := ' ') rfl, h.beq (d := '\t') rfl, h.beq (d := '\n') rfl,
    h.beq (d := '\r') rfl, h.beq (d := '\x0c') rfl]

theorem isFiller_byte {c b : Char} (h : IsByteOf c b) : isFiller b = isFiller c := by
  simp only [isFiller, isBlank_byte h, h.beq (d := ';') rfl]

theorem endsName_byte {c b : Char} (h : IsByteOf c b) : (!endsName b) = !endsName c := by
  simp only [endsName, isBlank_byte h, h.beq (d := '(') rfl, h.beq (d := '{') rfl,
    h.beq (d := '}') rfl, h.beq (d := ';') rfl, h.beq (d := ':') rfl, h.beq (d := '"') rfl,
    h.beq (d := '\'') rfl, h.beq (d := '/') rfl]

theorem loop_skip {s : Text} {p : Char → Bool} (hp : ∀ {c b}, IsByteOf c b → p b = p c)
    {front rest : Text} (hs : s = front ++ rest) :
    loop (skipStep s p) (bytes front) = some (bytes (front ++ rest.takeWhile p)) := by
  induction rest generalizing front with
  | nil =>
    refine loop_of_inr ?_
    rw [List.append_nil] at hs
    rw [skipStep, hs, Text.byte?_bytes]
    simp
  | cons c rest ih =>
    cases hc : p c with
    | true =>
      have hpass : loop (skipStep s p) (bytes front) = loop (skipStep s p) (bytes (front ++ [c])) := by
        rw [Text.bytes_append, Text.bytes_cons, Text.bytes_nil, Nat.add_zero]
        refine loop_pass id _ fun k hk => ?_
        obtain ⟨b, hb, hbc⟩ := exists_byte front c rest hk
        simp [skipStep, hs, hb, hp hbc, hc]
      rw [hpass, ih (by rw [hs, List.append_assoc, List.singleton_append]),
        List.takeWhile_cons_of_pos hc, List.append_assoc, List.singleton_append]
    | false =>
      refine loop_of_inr ?_
      obtain ⟨b, hb, hbc⟩ := byte?_start hs
      simp [skipStep, hb, hp hbc, hc]

theorem take?_eq {s : Text} {p : Char → Bool} (hp : ∀ {c b}, IsByteOf c b → p b = p c)
    {front rest : Text} (hs : s = front ++ rest) :
    take? s p (bytes front) = some (rest.takeWhile p, bytes (front ++ rest.takeWhile p)) := by
  have hslice := Text.slice?_between front (rest.takeWhile p) (rest.dropWhile p)
  rw [List.append_assoc, List.takeWhile_append_dropWhile, ← hs] at hslice
  rw [take?, loop_skip hp hs]
  simp only [Option.bind_eq_bind, Option.bind_some, hslice]
  rfl

/-! ## Comments and strings -/

/-- Where a comment or a string ends that starts at an offset, as a part of the text after `front`,
    or the fault that it is not closed. -/
def endOf (fault : Fault) (start : Nat) (front : Text) :
    Option (Text × Text) → Except Misfit Nat
  | some (a, _) => .ok (bytes (front ++ a))
  | none => .error ⟨fault, start⟩

theorem endOf_map (fault : Fault) (start : Nat) (front x : Text) (cut : Option (Text × Text)) :
    endOf fault start front (cut.map fun (a, b) => (x ++ a, b))
      = endOf fault start (front ++ x) cut := by
  cases cut with
  | none => rfl
  | some p => rw [Option.map_some, endOf, endOf, List.append_assoc]

theorem byte?_eq_some_iff {s front rest : Text} (hs : s = front ++ rest) {d : Char}
    (hd : d.utf8Size = 1) : byte? s (bytes front) = some d ↔ ∃ t, rest = d :: t := by
  cases rest with
  | nil =>
    rw [List.append_nil] at hs
    rw [hs, Text.byte?_bytes]
    simp
  | cons c rest =>
    obtain ⟨b, hb, hbc⟩ := byte?_start hs
    rw [hb, Option.some.injEq, hbc.eq_iff hd]
    simp

theorem startsComment_iff {s front rest : Text} (hs : s = front ++ rest) :
    startsComment s (bytes front) ↔ ∃ t, rest = '/' :: '*' :: t := by
  have hnext {t : Text} (hr : rest = '/' :: t) :
      byte? s (bytes front + 1) = some '*' ↔ ∃ u, t = '*' :: u := by
    have hs' : s = (front ++ ['/']) ++ t := by
      rw [hs, hr, List.append_assoc]
      rfl
    rw [← bytes_concat (c := '/') rfl]
    exact byte?_eq_some_iff hs' rfl
  rw [startsComment, Bool.and_eq_true, beq_iff_eq, beq_iff_eq, byte?_eq_some_iff hs rfl]
  constructor
  · rintro ⟨⟨t, hr⟩, hstar⟩
    obtain ⟨u, rfl⟩ := (hnext hr).1 hstar
    exact ⟨u, hr⟩
  · rintro ⟨u, hr⟩
    exact ⟨⟨_, hr⟩, (hnext hr).2 ⟨u, rfl⟩⟩

theorem find?_closeComment (s : Text) :
    Text.find? ['*', '/'] s = (closeComment? s).map fun (a, _) => bytes a := by
  fun_induction closeComment? s with
  | case1 => rfl
  | case2 s => rfl
  | case3 c s h ih =>
    have hprefix : List.isPrefixOf ['*', '/'] (c :: s) = false := by
      rw [Bool.eq_false_iff]
      intro hp
      obtain ⟨t, ht⟩ := List.isPrefixOf_iff_prefix.1 hp
      simp only [List.cons_append, List.nil_append, List.cons.injEq] at ht
      exact h t ht.1.symm ht.2.symm
    rw [Text.find?, hprefix, ih, Option.map_map, Option.map_map]
    rfl

theorem commentEnd?_eq {s front rest : Text} (hs : s = front ++ '/' :: '*' :: rest) :
    commentEnd? s (bytes front)
      = some (endOf .unclosedComment (bytes front) (front ++ ['/', '*']) (closeComment? rest)) := by
  have hstart : bytes front + 2 = bytes (front ++ ['/', '*']) := by
    rw [Text.bytes_append]
    rfl
  have hslice : slice? s (bytes front + 2) (bytes s) = some rest := by
    have := Text.slice?_right (front ++ ['/', '*']) rest
    rwa [List.append_assoc, List.cons_append, List.singleton_append, ← hs, ← hstart] at this
  rw [commentEnd?, hslice]
  simp only [Option.bind_eq_bind, Option.bind_some, find?_closeComment]
  cases closeComment? rest with
  | none => rfl
  | some p => rw [Option.map_some, endOf, Text.bytes_append _ p.1, ← hstart]; rfl

section String

variable {s : Text} {quote : Char} {start : Nat}

theorem stringStep_of_byte {i : Nat} {b : Char} (h : byte? s i = some b) :
    stringStep s quote start i
      = some (if b = '\\' then .inl (i + 2) else if b = quote then .inr (.ok (i + 1))
          else .inl (i + 1)) := by
  rw [stringStep, if_pos (Text.lt_of_byte? h), h]
  simp only [Option.bind_eq_bind, Option.bind_some]
  split
  · rfl
  · split <;> rfl

theorem stringStep_of_le {i : Nat} (h : bytes s ≤ i) :
    stringStep s quote start i = some (.inr (.error ⟨.unclosedString, start⟩)) := by
  rw [stringStep, if_neg (Nat.not_lt.2 h)]

theorem stringStep_wide (hq : quote.utf8Size = 1) {i : Nat} {b : Char} (hb : byte? s i = some b)
    (hw : b.utf8Size ≠ 1) : stringStep s quote start i = some (.inl (i + 1)) := by
  have hesc : b ≠ '\\' := fun he => hw (he ▸ rfl)
  have hquote : b ≠ quote := fun he => hw (he ▸ hq)
  rw [stringStep_of_byte hb, if_neg hesc, if_neg hquote]

section Parts

variable {front t : Text} {c : Char} (hq : quote.utf8Size = 1)

include hq in
/-- A backslash and the character after it, as in a head. -/
theorem loop_string_escape (hs : s = front ++ '\\' :: c :: t) :
    loop (stringStep s quote start) (bytes front)
      = loop (stringStep s quote start) (bytes (front ++ ['\\', c])) := by
  have hnext : s = (front ++ ['\\']) ++ c :: t := by rw [hs, List.append_assoc]; rfl
  have hstep : stringStep s quote start (bytes front)
      = some (.inl (bytes (front ++ ['\\']) + 1)) := by
    rw [stringStep_of_byte (byte?_of_narrow hs rfl), if_pos rfl, Text.bytes_append]
    rfl
  rw [loop_of_inl hstep]
  refine (loop_tail hnext id fun _ _ => stringStep_wide hq).trans ?_
  rw [List.append_assoc]
  rfl

/-- A backslash at the end of the text leads past the end. -/
theorem loop_string_last (hs : s = front ++ ['\\']) :
    loop (stringStep s quote start) (bytes front)
      = some (.error ⟨.unclosedString, start⟩) := by
  have hstep : stringStep s quote start (bytes front) = some (.inl (bytes front + 2)) := by
    rw [stringStep_of_byte (byte?_of_narrow hs rfl), if_pos rfl]
  have hlen : bytes s ≤ bytes front + 2 := by
    rw [hs, bytes_concat rfl]
    exact Nat.le_succ _
  rw [loop_of_inl hstep]
  exact loop_of_inr (stringStep_of_le hlen)

include hq in
theorem loop_string_other (hs : s = front ++ c :: t) (hesc : c ≠ '\\') (hc : c ≠ quote) :
    loop (stringStep s quote start) (bytes front)
      = loop (stringStep s quote start) (bytes (front ++ [c])) := by
  by_cases hn : c.utf8Size = 1
  · refine loop_of_inl ?_
    rw [stringStep_of_byte (byte?_of_narrow hs hn), if_neg hesc, if_neg hc, bytes_concat hn]
  · exact loop_wide hs id (fun _ _ => stringStep_wide hq) hn

end Parts

theorem loop_string (hq : quote.utf8Size = 1) (hne : quote ≠ '\\') {front rest : Text}
    (hs : s = front ++ rest) :
    loop (stringStep s quote start) (bytes front)
      = some (endOf .unclosedString start front (closeQuote? quote rest)) := by
  fun_induction closeQuote? quote rest generalizing front with
  | case1 =>
    rw [List.append_nil] at hs
    exact loop_of_inr (stringStep_of_le (Nat.le_of_eq (congrArg bytes hs)))
  | case2 c t ih =>
    have hnext : s = (front ++ ['\\', c]) ++ t := by rw [hs, List.append_assoc]; rfl
    rw [loop_string_escape hq hs]
    exact (ih hnext).trans (congrArg some (endOf_map _ _ _ ['\\', c] _).symm)
  | case3 t =>
    refine loop_of_inr ?_
    rw [stringStep_of_byte (byte?_of_narrow hs hq), if_neg hne, if_pos rfl, endOf, bytes_concat hq]
  | case4 c t hesc hc ih =>
    have hnext : s = (front ++ [c]) ++ t := by rw [hs, List.append_assoc]; rfl
    have hend := endOf_map .unclosedString start front [c] (closeQuote? quote t)
    by_cases hback : c = '\\'
    · have ht : t = [] := by
        cases t with
        | nil => rfl
        | cons d t => exact absurd rfl (hesc d t hback)
      subst hback ht
      exact loop_string_last hs
    · rw [loop_string_other hq hs hback hc]
      exact (ih hnext).trans (congrArg some hend.symm)

theorem skipString?_eq (hq : quote.utf8Size = 1) (hne : quote ≠ '\\') {front rest : Text}
    (hs : s = front ++ quote :: rest) :
    skipString? s (bytes front)
      = some (endOf .unclosedString (bytes front) (front ++ [quote]) (closeQuote? quote rest)) := by
  have hnext : s = (front ++ [quote]) ++ rest := by rw [hs, List.append_assoc]; rfl
  have hfront : bytes (front ++ [quote]) = bytes front + 1 := by
    rw [Text.bytes_append, Text.bytes_cons, Text.bytes_nil, hq]
  rw [skipString?, byte?_of_narrow hs hq, ← loop_string hq hne hnext, hfront]
  rfl

end String

/-! ## Heads -/

theorem sub_bytes {s front rest : Text} (hs : s = front ++ rest) :
    bytes s - bytes rest = bytes front := by
  rw [hs, Text.bytes_append, Nat.add_sub_cancel_right]

/-- What ends a head in front of a text. -/
def terminatorOf : Text → Terminator
  | ';' :: _ => .semicolon
  | '{' :: _ => .openBrace
  | '}' :: _ => .closeBrace
  | _ => .endOfText

/-- Where a head ends that goes on after `front`, and what ends it. -/
def scanned (s front : Text) : Except Stop (Text × Text) → Except Misfit (Nat × Terminator)
  | .ok (a, b) => .ok (bytes (front ++ a), terminatorOf b)
  | .error e => .error ⟨e.fault, bytes s - bytes e.rest⟩

theorem scanned_inFront (s front x : Text) (cut : Except Stop (Text × Text)) :
    scanned s front (inFront x cut) = scanned s (front ++ x) cut := by
  cases cut with
  | error e => rfl
  | ok p => rw [inFront, Except.map, scanned, scanned, List.append_assoc]

section Scan

variable {s : Text}

theorem scanStep_of_byte {σ : Scan} {b : Char} (h : byte? s σ.pos = some b) :
    scanStep s σ = scanByte s σ b := by
  rw [scanStep, if_pos (Text.lt_of_byte? h), h]
  rfl

theorem scanStep_wide {depth o i : Nat} {b : Char} (h : byte? s i = some b)
    (hw : b.utf8Size ≠ 1) : scanStep s ⟨i, depth, o⟩ = some (.inl ⟨i + 1, depth, o⟩) := by
  have hne {d : Char} (hd : d.utf8Size = 1) : b ≠ d := fun he => hw (he ▸ hd)
  rw [scanStep_of_byte h, scanByte]
  simp only [hne (d := '"') rfl, hne (d := '\'') rfl, hne (d := '/') rfl, hne (d := '\\') rfl,
    hne (d := '(') rfl, hne (d := '[') rfl, hne (d := ')') rfl, hne (d := ']') rfl,
    hne (d := ';') rfl, hne (d := '{') rfl, hne (d := '}') rfl, or_self, false_and, if_false]
  rfl

theorem scanStep_comment {front t : Text} (hs : s = front ++ '/' :: '*' :: t) (depth o : Nat) :
    scanStep s ⟨bytes front, depth, o⟩
      = some (Scan.jump ⟨bytes front, depth, o⟩
          ((endOf .unclosedComment (bytes front) (front ++ ['/', '*']) (closeComment? t)).map
            (· + 2))) := by
  have hstart : startsComment s (bytes front) := (startsComment_iff hs).2 ⟨t, rfl⟩
  rw [scanStep_of_byte (byte?_of_narrow hs rfl), scanByte, if_neg (by decide),
    if_pos ⟨rfl, hstart⟩, commentEnd?_eq hs]
  rfl

section Character

variable {front t : Text} {c : Char} (hs : s = front ++ c :: t) (depth o : Nat)
include hs

theorem scanStep_at (hc : c.utf8Size = 1) :
    scanStep s ⟨bytes front, depth, o⟩ = scanByte s ⟨bytes front, depth, o⟩ c :=
  scanStep_of_byte (byte?_of_narrow hs hc)

theorem scanStep_quote (hq : c = '"' ∨ c = '\'') :
    scanStep s ⟨bytes front, depth, o⟩
      = some (Scan.jump ⟨bytes front, depth, o⟩
          (endOf .unclosedString (bytes front) (front ++ [c]) (closeQuote? c t))) := by
  have hc : c.utf8Size = 1 := by rcases hq with rfl | rfl <;> rfl
  have hne : c ≠ '\\' := by rcases hq with rfl | rfl <;> decide
  rw [scanStep_at hs depth o hc, scanByte, if_pos hq, skipString?_eq hc hne hs]
  rfl

theorem scanStep_opening (hb : c = '(' ∨ c = '[') :
    scanStep s ⟨bytes front, depth, o⟩
      = some (.inl ⟨bytes (front ++ [c]), depth + 1, if depth = 0 then bytes front else o⟩) := by
  rcases hb with rfl | rfl
  · rw [scanStep_at hs depth o rfl, bytes_concat rfl]
    rfl
  · rw [scanStep_at hs depth o rfl, bytes_concat rfl]
    rfl

theorem scanStep_closing (hb : c = ')' ∨ c = ']') :
    scanStep s ⟨bytes front, depth, o⟩
      = some (.inl ⟨bytes (front ++ [c]), depth - 1, o⟩) := by
  rcases hb with rfl | rfl
  · rw [scanStep_at hs depth o rfl, bytes_concat rfl]
    rfl
  · rw [scanStep_at hs depth o rfl, bytes_concat rfl]
    rfl

theorem scanStep_stop (hc : c = ';' ∨ c = '{' ∨ c = '}') :
    scanStep s ⟨bytes front, 0, o⟩ = some (.inr (.ok (bytes front, terminatorOf (c :: t)))) := by
  rcases hc with rfl | rfl | rfl
  · rw [scanStep_at hs 0 o rfl]
    rfl
  · rw [scanStep_at hs 0 o rfl]
    rfl
  · rw [scanStep_at hs 0 o rfl]
    rfl

/-- A character that is none of those above is passed over. A backslash at the end of the text and
    a slash that starts no comment are such characters. -/
theorem loop_scan_other (hesc : ∀ d u, c = '\\' → t = d :: u → False)
    (hcom : ∀ u, c = '/' → t = '*' :: u → False) (hq : ¬ (c = '"' ∨ c = '\''))
    (hb : ¬ (c = '(' ∨ c = '[')) (hb' : ¬ (c = ')' ∨ c = ']'))
    (hc : ¬ (depth = 0 ∧ (c = ';' ∨ c = '{' ∨ c = '}'))) :
    loop (scanStep s) ⟨bytes front, depth, o⟩
      = loop (scanStep s) ⟨bytes (front ++ [c]), depth, o⟩ := by
  by_cases hn : c.utf8Size = 1
  · refine loop_of_inl ?_
    have hlen : bytes s = bytes front + 1 + bytes t := by
      rw [hs, Text.bytes_append, Text.bytes_cons, hn, Nat.add_assoc]
    have hcom' : ¬ (c = '/' ∧ startsComment s (bytes front)) := by
      rintro ⟨rfl, hstart⟩
      obtain ⟨u, hu⟩ := (startsComment_iff hs).1 hstart
      exact hcom u rfl (List.cons.inj hu).2
    rw [scanStep_at hs depth o hn, scanByte, if_neg hq, if_neg hcom', bytes_concat hn]
    by_cases hback : c = '\\'
    · have ht : t = [] := by
        cases t with
        | nil => rfl
        | cons d u => exact (hesc d u hback rfl).elim
      rw [ht, Text.bytes_nil, Nat.add_zero] at hlen
      rw [if_pos hback, hlen, Nat.min_eq_right (Nat.le_succ _)]
      rfl
    · have hsemi : ¬ (c = ';' ∧ depth = 0) := fun h => hc ⟨h.2, Or.inl h.1⟩
      have hopen : ¬ (c = '{' ∧ depth = 0) := fun h => hc ⟨h.2, Or.inr (Or.inl h.1)⟩
      have hclose : ¬ (c = '}' ∧ depth = 0) := fun h => hc ⟨h.2, Or.inr (Or.inr h.1)⟩
      rw [if_neg hback, if_neg hb, if_neg hb', if_neg hsemi, if_neg hopen, if_neg hclose]
      rfl
  · exact loop_wide hs (fun i => (⟨i, depth, o⟩ : Scan)) (fun _ _ hb hw => scanStep_wide hb hw) hn

end Character

/-! ### Parts of a head -/

section Parts

variable {front t : Text} {c : Char} (depth o : Nat)

/-- A backslash and the character after it. The second of the two bytes that are passed over may be
    the first of a longer character. -/
theorem loop_scan_escape (hs : s = front ++ '\\' :: c :: t) :
    loop (scanStep s) ⟨bytes front, depth, o⟩
      = loop (scanStep s) ⟨bytes (front ++ ['\\', c]), depth, o⟩ := by
  have hnext : s = (front ++ ['\\']) ++ c :: t := by rw [hs, List.append_assoc]; rfl
  have hmin : min (bytes front + 2) (bytes s) = bytes (front ++ ['\\']) + 1 := by
    have := lt_bytes hnext
    rw [bytes_concat rfl] at this ⊢
    omega
  have hstep : scanStep s ⟨bytes front, depth, o⟩
      = some (.inl ⟨bytes (front ++ ['\\']) + 1, depth, o⟩) := by
    rw [scanStep_at hs depth o rfl, ← hmin]
    rfl
  rw [loop_of_inl hstep]
  refine (loop_tail hnext (fun i => (⟨i, depth, o⟩ : Scan))
    (fun _ _ hb hw => scanStep_wide hb hw)).trans ?_
  rw [List.append_assoc]
  rfl

theorem loop_scan_comment {a b : Text} (hs : s = front ++ '/' :: '*' :: t)
    (hc : closeComment? t = some (a, b)) :
    loop (scanStep s) ⟨bytes front, depth, o⟩
      = loop (scanStep s) ⟨bytes (front ++ '/' :: '*' :: (a ++ ['*', '/'])), depth, o⟩ := by
  have hlen : bytes (front ++ '/' :: '*' :: (a ++ ['*', '/']))
      = bytes ((front ++ ['/', '*']) ++ a) + 2 := by
    have hmark : bytes ['*', '/'] = 2 := rfl
    rw [← hmark, ← Text.bytes_append]
    simp
  refine loop_of_inl ?_
  rw [scanStep_comment hs, hc, hlen]
  rfl

theorem loop_scan_quote {a b : Text} (hs : s = front ++ c :: t) (hq : c = '"' ∨ c = '\'')
    (hc : closeQuote? c t = some (a, b)) :
    loop (scanStep s) ⟨bytes front, depth, o⟩
      = loop (scanStep s) ⟨bytes (front ++ c :: a), depth, o⟩ := by
  refine loop_of_inl ?_
  rw [scanStep_quote hs depth o hq, hc, endOf, List.append_assoc]
  rfl

end Parts

/-- The scan for the end of a head finds what the head is. -/
theorem loop_scan {depth : Nat} {opened : Text} {o : Nat} {front rest : Text}
    (hs : s = front ++ rest) (ho : 0 < depth → o = bytes s - bytes opened) :
    loop (scanStep s) ⟨bytes front, depth, o⟩
      = some (scanned s front (splitHead depth opened rest)) := by
  have next {front t : Text} (x : Text) (hs : s = front ++ (x ++ t)) : s = (front ++ x) ++ t := by
    rw [hs, List.append_assoc]
  fun_induction splitHead depth opened rest generalizing front o with
  | case1 opened =>
    rw [List.append_nil] at hs
    refine loop_of_inr ?_
    rw [scanStep, hs, if_neg (Nat.lt_irrefl _), if_neg (Nat.lt_irrefl 0), scanned, List.append_nil]
    rfl
  | case2 depth opened hd =>
    rw [List.append_nil] at hs
    have hpos := Nat.pos_of_ne_zero hd
    refine loop_of_inr ?_
    rw [scanStep, if_neg (by rw [hs]; exact Nat.lt_irrefl _), if_pos hpos, scanned, ho hpos]
  | case3 depth opened c t ih =>
    rw [loop_scan_escape depth o hs, scanned_inFront]
    exact ih (next ['\\', c] hs) ho
  | case4 depth opened t hc =>
    refine loop_of_inr ?_
    rw [scanStep_comment hs, hc, scanned, sub_bytes hs]
    rfl
  | case5 depth opened t a b hc ih =>
    have hsplit : '/' :: '*' :: t = ('/' :: '*' :: (a ++ ['*', '/'])) ++ b := by
      rw [← closeComment?_eq hc]
      simp
    rw [loop_scan_comment depth o hs hc, scanned_inFront]
    exact ih (next _ (hsplit ▸ hs)) ho
  | case6 depth opened c t _ _ hq hc =>
    refine loop_of_inr ?_
    rw [scanStep_quote hs depth o hq, hc, scanned, sub_bytes hs]
    rfl
  | case7 depth opened c t _ _ hq a b hc ih =>
    have hsplit : c :: t = (c :: a) ++ b := by
      rw [← closeQuote?_eq hc]
      rfl
    rw [loop_scan_quote depth o hs hq hc, scanned_inFront]
    exact ih (next _ (hsplit ▸ hs)) ho
  | case8 depth opened c t _ _ hq hb ih =>
    rw [loop_of_inl (scanStep_opening hs depth o hb), scanned_inFront]
    refine ih (next [c] hs) fun _ => ?_
    split
    · rw [sub_bytes hs]
    · rename_i hd
      exact ho (Nat.pos_of_ne_zero hd)
  | case9 depth opened c t _ _ hq hb hb' ih =>
    rw [loop_of_inl (scanStep_closing hs depth o hb'), scanned_inFront]
    exact ih (next [c] hs) fun hd => ho (by omega)
  | case10 depth opened c t _ _ hq hb hb' hc =>
    rw [hc.1]
    refine loop_of_inr ?_
    rw [scanStep_stop hs o hc.2, scanned, List.append_nil]
  | case11 depth opened c t hesc hcom hq hb hb' hc ih =>
    rw [loop_scan_other hs depth o hesc hcom hq hb hb' hc, scanned_inFront]
    exact ih (next [c] hs) ho

theorem scanEnd?_eq {front rest : Text} (hs : s = front ++ rest) :
    scanEnd? s (bytes front) = some (scanned s front (splitHead 0 [] rest)) :=
  loop_scan hs fun h => absurd h (Nat.lt_irrefl 0)

end Scan

end Bytewise

end SheetLint
