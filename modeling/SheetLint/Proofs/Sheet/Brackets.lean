import SheetLint.Proofs.Sheet.Faults
import SheetLint.Proofs.Sheet.LineEndings

/-
  Heads that go on through a text. Inside brackets no semicolon and no brace ends a head, so how a
  head goes on after a text depends on the number of brackets that are open there
  (`splitHead_through`). The name of an at-rule is read before its head is cut off, and the brackets
  and escapes in the name do not count then: the head ends as any other does when they come to an
  end in the name (`at_rules_end_as_heads`), but a bracket that the name leaves open is forgotten
  (`at_rules_forget_brackets`).
-/

namespace SheetLint

/-- The number of brackets that are open after a text, when `depth` are open before it and a head
    goes on through the text: no semicolon or brace ends the head, and no string, comment or escape
    reaches past the end of the text. -/
def depthAfter? (depth : Nat) (s : Text) : Option Nat :=
  match s with
  | [] => some depth
  | ['\\'] => none
  | '\\' :: _ :: s => depthAfter? depth s
  | '/' :: '*' :: s =>
    match _h : closeComment? s with
    | none => none
    | some (_, b) => depthAfter? depth b
  | c :: s =>
    if c = '"' ∨ c = '\'' then
      match _h : closeQuote? c s with
      | none => none
      | some (_, b) => depthAfter? depth b
    else if c = '(' ∨ c = '[' then depthAfter? (depth + 1) s
    else if c = ')' ∨ c = ']' then depthAfter? (depth - 1) s
    else if depth = 0 ∧ (c = ';' ∨ c = '{' ∨ c = '}') then none
    else depthAfter? depth s
termination_by s.length
decreasing_by
  all_goals simp only [List.length_cons]
  all_goals try omega
  · have := congrArg List.length (closeComment?_eq _h)
    simp only [List.length_append, List.length_cons] at this
    omega
  · have := congrArg List.length (closeQuote?_eq _h)
    simp only [List.length_append] at this
    omega

section Cons

variable (depth : Nat) {s : Text}

/-- One character that is no backslash and stands alone. -/
theorem depthAfter?_cons {c : Char} (hc : c ≠ '\\') (h : StandsAlone c s) :
    depthAfter? depth (c :: s) =
      if c = '"' ∨ c = '\'' then
        match closeQuote? c s with
        | none => none
        | some (_, b) => depthAfter? depth b
      else if c = '(' ∨ c = '[' then depthAfter? (depth + 1) s
      else if c = ')' ∨ c = ']' then depthAfter? (depth - 1) s
      else if depth = 0 ∧ (c = ';' ∨ c = '{' ∨ c = '}') then none
      else depthAfter? depth s := by
  rw [depthAfter?.eq_5]
  · split
    · split <;> simp_all
    · rfl
  · exact fun he _ => hc he
  · exact fun _ _ he _ => hc he
  · intro t he hs
    exact h.2 he (by rw [hs]; rfl)

end Cons

/-! ## Going through a text -/

/-- A comment that is closed in a text is closed there in front of every other text. -/
theorem closeComment?_append_right {s a b : Text} (h : closeComment? s = some (a, b)) (r : Text) :
    closeComment? (s ++ r) = some (a, b ++ r) := by
  have hs := closeComment?_eq h
  rw [← hs, List.append_assoc]
  exact closeComment?_append h (b ++ r)

theorem closeQuote?_append_right {q : Char} (hq : q ≠ '\\') {s a b : Text}
    (h : closeQuote? q s = some (a, b)) (r : Text) : closeQuote? q (s ++ r) = some (a, b ++ r) := by
  have hs := closeQuote?_eq h
  rw [← hs, List.append_assoc]
  exact closeQuote?_append hq h (b ++ r)

theorem inFront_nil (cut : Except Stop (Text × Text)) : inFront [] cut = cut := by
  cases cut <;> rfl

/-- A character that stands alone in a text does so in front of another text, unless it is a slash
    and the other starts with a star. -/
theorem standsAlone_append {c : Char} {s r : Text} (hlast : c = '\\' → s = [] → False)
    (hb : ∀ d t, c = '\\' → s = d :: t → False) (hc : ∀ t, c = '/' → s = '*' :: t → False)
    (hr : c = '/' → r.head? ≠ some '*') : StandsAlone c (s ++ r) := by
  cases s with
  | nil => exact ⟨fun he => absurd rfl (hlast he), hr⟩
  | cons d t =>
    apply standsAlone_of_not
    · intro e u he _
      exact hb d t he rfl
    · intro u he hu
      obtain ⟨rfl, _⟩ := List.cons.inj hu
      exact hc t he rfl

/-- A head goes on after a text that does not end it, inside the brackets that are open there. -/
theorem splitHead_through {depth k : Nat} {w : Text} (h : depthAfter? depth w = some k) {r : Text}
    (hr : '/' ∈ w → r.head? ≠ some '*') (opened : Text) :
    ∃ opened', splitHead depth opened (w ++ r) = inFront w (splitHead k opened' r) := by
  fun_induction depthAfter? depth w generalizing opened with
  | case1 depth =>
    obtain rfl := Option.some.inj h
    exact ⟨opened, (inFront_nil _).symm⟩
  | case2 => cases h
  | case3 depth c s ih =>
    obtain ⟨opened', ho⟩ := ih h (fun hs => hr (by simp [hs])) opened
    refine ⟨opened', ?_⟩
    rw [List.cons_append, List.cons_append, splitHead_escape, ho, inFront_inFront]
    rfl
  | case4 => cases h
  | case5 depth s a b hi ih =>
    obtain ⟨opened', ho⟩ := ih h (fun _ => hr List.mem_cons_self) opened
    refine ⟨opened', ?_⟩
    rw [List.cons_append, List.cons_append, splitHead_comment (closeComment?_append_right hi r), ho,
      inFront_inFront, ← closeComment?_eq hi]
    simp
  | case6 => cases h
  | case7 depth c s hlast hb hc hq a b hi ih =>
    have hs := closeQuote?_eq hi
    have hne : c ≠ '\\' := by
      rintro rfl
      simp at hq
    have halone := standsAlone_append hlast hb hc fun he => hr (by simp [he])
    obtain ⟨opened', ho⟩ := ih h (fun hm => hr (by simp [← hs, hm])) opened
    refine ⟨opened', ?_⟩
    rw [List.cons_append, splitHead_cons halone, if_pos hq, closeQuote?_append_right hne hi]
    dsimp only
    rw [ho, inFront_inFront, List.cons_append, hs]
  | case8 depth c s hlast hb hc hq hopen ih =>
    have halone := standsAlone_append hlast hb hc fun he => hr (by simp [he])
    obtain ⟨opened', ho⟩ := ih h (fun hm => hr (List.mem_cons_of_mem c hm)) _
    refine ⟨opened', ?_⟩
    rw [List.cons_append, splitHead_cons halone, if_neg hq, if_pos hopen, ho, inFront_inFront]
    rfl
  | case9 depth c s hlast hb hc hq hopen hclose ih =>
    have halone := standsAlone_append hlast hb hc fun he => hr (by simp [he])
    obtain ⟨opened', ho⟩ := ih h (fun hm => hr (List.mem_cons_of_mem c hm)) opened
    refine ⟨opened', ?_⟩
    rw [List.cons_append, splitHead_cons halone, if_neg hq, if_neg hopen, if_pos hclose, ho,
      inFront_inFront]
    rfl
  | case10 => cases h
  | case11 depth c s hlast hb hc hq hopen hclose hend ih =>
    have halone := standsAlone_append hlast hb hc fun he => hr (by simp [he])
    obtain ⟨opened', ho⟩ := ih h (fun hm => hr (List.mem_cons_of_mem c hm)) opened
    refine ⟨opened', ?_⟩
    rw [List.cons_append, splitHead_cons halone, if_neg hq, if_neg hopen, if_neg hclose,
      if_neg hend, ho, inFront_inFront]
    rfl

/-- Outside of brackets it does not matter what is known of a bracket. -/
theorem splitHead_opened {depth : Nat} {opened s : Text} (opened' : Text)
    (h : depth = 0 ∨ opened = opened') : splitHead depth opened s = splitHead depth opened' s := by
  fun_induction splitHead depth opened s generalizing opened' with
  | case1 opened => rw [splitHead, if_pos rfl]
  | case2 depth opened hd =>
    rw [splitHead, if_neg hd, h.resolve_left hd]
  | case3 depth opened c s ih => rw [splitHead_escape, ih opened' h]
  | case4 depth opened s hi => exact (splitHead_openComment depth opened' s hi).symm
  | case5 depth opened s a b hi ih => rw [splitHead_comment hi, ih opened' h]
  | case6 depth opened c s hb hc hq hi =>
    rw [splitHead_cons (standsAlone_of_not hb hc), if_pos hq, hi]
  | case7 depth opened c s hb hc hq a b hi ih =>
    rw [splitHead_cons (standsAlone_of_not hb hc), if_pos hq, hi]
    dsimp only
    rw [ih opened' h]
  | case8 depth opened c s hb hc hq hopen ih =>
    rw [splitHead_cons (standsAlone_of_not hb hc), if_neg hq, if_pos hopen]
    congr 1
    apply ih
    by_cases hd : depth = 0
    · right; rw [dif_pos hd, if_pos hd]
    · right; rw [dif_neg hd, if_neg hd, h.resolve_left hd]
  | case9 depth opened c s hb hc hq hopen hclose ih =>
    rw [splitHead_cons (standsAlone_of_not hb hc), if_neg hq, if_neg hopen, if_pos hclose]
    rw [ih opened' (h.imp_left fun hd => by omega)]
  | case10 depth opened c s hb hc hq hopen hclose hend =>
    rw [splitHead_cons (standsAlone_of_not hb hc), if_neg hq, if_neg hopen, if_neg hclose,
      if_pos hend]
  | case11 depth opened c s hb hc hq hopen hclose hend ih =>
    rw [splitHead_cons (standsAlone_of_not hb hc), if_neg hq, if_neg hopen, if_neg hclose,
      if_neg hend, ih opened' h]

/-- A text in which all brackets are closed again is a part of the head, and the head goes on as it
    does without it. -/
theorem splitHead_of_closed {w r : Text} (h : depthAfter? 0 w = some 0)
    (hr : '/' ∈ w → r.head? ≠ some '*') :
    splitHead 0 [] (w ++ r) = inFront w (splitHead 0 [] r) := by
  obtain ⟨opened, ho⟩ := splitHead_through h hr []
  rw [ho, splitHead_opened [] (Or.inl rfl)]

/-- The characters that mean nothing special in a head. -/
def isPlainInHead (c : Char) : Bool :=
  !(['"', '\'', '\\', '/', '(', '[', ')', ']', ';', '{', '}'].contains c)

theorem depthAfter?_of_plain {s : Text} (h : ∀ c ∈ s, isPlainInHead c) (depth : Nat) :
    depthAfter? depth s = some depth := by
  induction s with
  | nil => rw [depthAfter?]
  | cons c s ih =>
    have hc := h c List.mem_cons_self
    have hs := ih fun d hd => h d (List.mem_cons_of_mem c hd)
    simp only [isPlainInHead, List.contains_cons, List.contains_nil, Bool.or_false,
      Bool.not_eq_true', Bool.or_eq_false_iff, beq_eq_false_iff_ne] at hc
    rw [depthAfter?_cons depth (by simp [hc]) ⟨by simp [hc], by simp [hc]⟩]
    simp [hc, hs]

/-! ## The heads of at-rules -/

/-- The at-rule with the text `s` after its `@` ends as a head that starts with the `@` does: at the
    same semicolon or brace, or with the same fault. -/
def EndsAsHead (before s : Text) : Prop :=
  match splitHead 0 [] ('@' :: s) with
  | .error e => readAtRule before s = .error e
  | .ok (head, rest) => ∃ (rule : AtRule) (trivia : Trivia),
      (Kind.atRule rule).head trivia = head ∧ readAtRule before s =
        .ok (.piece (.node (.atRule rule) trivia (Ending.read rest).1) (Ending.read rest).2)

theorem isPlainInHead_of_isBlank {c : Char} (h : isBlank c) : isPlainInHead c := by
  simp only [isBlank, Bool.or_eq_true, beq_iff_eq] at h
  rcases h with (((rfl | rfl) | rfl) | rfl) | rfl <;> rfl

/-- What stands between the name of an at-rule and its parameters means nothing special. -/
theorem isPlainInHead_afterName (s : Text) :
    ∀ c ∈ (if (AtName.read s).isVariable then [':'] else []) ++ (AtName.read s).afterName,
      isPlainInHead c := by
  intro c hc
  rcases List.mem_append.1 hc with hc | hc
  · split at hc
    · rw [List.mem_singleton.1 hc]
      rfl
    · cases hc
  · exact isPlainInHead_of_isBlank (List.all_eq_true.1 List.all_takeWhile c hc)

theorem slash_not_mem_name (s : Text) : '/' ∉ (AtName.read s).name := by
  intro h
  have := List.all_eq_true.1 List.all_takeWhile _ h
  simp [endsName] at this

/-- A head that starts with the `@` is the text before the parameters and what the at-rule cuts
    off, when the brackets and the escapes in the name come to an end there. -/
theorem splitHead_atRule {s : Text} (h : depthAfter? 0 (AtName.read s).name = some 0) :
    splitHead 0 [] ('@' :: s)
      = inFront ('@' :: (AtName.read s).text) (splitHead 0 [] (AtName.read s).rest) := by
  have hsigil : depthAfter? 0 ['@'] = some 0 := by
    apply depthAfter?_of_plain
    simp [isPlainInHead]
  have hbetween := depthAfter?_of_plain (isPlainInHead_afterName s) 0
  have hslash : '/' ∉ (if (AtName.read s).isVariable then [':'] else [])
      ++ (AtName.read s).afterName := by
    intro hm
    have := isPlainInHead_afterName s _ hm
    simp [isPlainInHead] at this
  have hs : '@' :: s = ['@'] ++ ((AtName.read s).name ++
      (((if (AtName.read s).isVariable then [':'] else []) ++ (AtName.read s).afterName)
        ++ (AtName.read s).rest)) := by
    conv => lhs; rw [← AtName.text_append_rest s, AtName.text]
    simp
  rw [hs, splitHead_of_closed hsigil (by simp),
    splitHead_of_closed h fun hm => absurd hm (slash_not_mem_name s),
    splitHead_of_closed hbetween fun hm => absurd hm hslash, inFront_inFront, inFront_inFront]
  simp [AtName.text]

/-- An at-rule ends as any other head does when the brackets and the escapes in its name come to an
    end there. -/
theorem at_rules_end_as_heads {s : Text} (h : depthAfter? 0 (AtName.read s).name = some 0)
    (before : Text) : EndsAsHead before s := by
  rw [EndsAsHead, splitHead_atRule h, readAtRule]
  rcases hs : splitHead 0 [] (AtName.read s).rest with e | ⟨head, rest⟩
  · rfl
  · refine ⟨_, _, ?_, rfl⟩
    simp only [Kind.head, AtName.text, List.append_assoc, List.cons_append, List.nil_append,
      Text.dropTrail_append_trail]

/-- The bracket in the name is closed again, and the escape in it is complete. -/
theorem at_rules_end_as_heads_closed :
    depthAfter? 0 (AtName.read "a[b]\\! c;".toList).name = some 0 ∧
      EndsAsHead [] "a[b]\\! c;".toList := by
  have h : depthAfter? 0 (AtName.read "a[b]\\! c;".toList).name = some 0 := by
    decide +kernel
  exact ⟨h, at_rules_end_as_heads h []⟩

/-- A bracket that the name of an at-rule opens is forgotten: a semicolon behind it ends the
    at-rule, where any other head is left with an open bracket. -/
theorem at_rules_forget_brackets : ¬ ∀ before s, EndsAsHead before s := by
  intro h
  have hstop : splitHead 0 [] ('@' :: "a[b;".toList) = .error ⟨.unclosedBracket, "[b;".toList⟩ := by
    cbv
  have hread : (readAtRule [] "a[b;".toList).toOption.isSome := by
    cbv
  have := h [] "a[b;".toList
  rw [EndsAsHead, hstop] at this
  dsimp only at this
  rw [this] at hread
  cases hread

end SheetLint
