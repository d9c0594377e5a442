import SheetLint.Proofs.Sheet.Brackets
import SheetLint.Proofs.Sheet.NormalForm

/-
  The bodies of unquoted `url(…)`. No rule of its own passes over such a body: it is read as any
  text between two parentheses is. So an import of it is read back, alone and in front of every
  other sheet, if and only if its brackets and comments allow for it
  (`url_bodies_are_read_back_iff`). A body without either is (`readBack_of_urlChars`), but one that
  closes a bracket that it did not open can be cut off in the middle (`url_bodies_are_cut`).
-/

namespace SheetLint

/-! ## Heads that end behind a text -/

theorem closeComment?_of_not_mem {s : Text} (h : '/' ∉ s) : closeComment? s = none := by
  induction s with
  | nil => rfl
  | cons c s ih =>
    rw [List.mem_cons, not_or] at h
    rw [closeComment?_cons fun t _ hs => h.2 (by simp [hs]), ih h.2, Option.map_none]

/-- A comment that a text leaves open is not closed by a text without slashes. -/
theorem closeComment?_append_none {s r : Text} (hr : '/' ∉ r) (h : closeComment? s = none) :
    closeComment? (s ++ r) = none := by
  fun_induction closeComment? s with
  | case1 => exact closeComment?_of_not_mem hr
  | case2 => cases h
  | case3 c s hne ih =>
    rw [List.cons_append, closeComment?_cons, ih (Option.map_eq_none_iff.1 h), Option.map_none]
    intro t hc hs
    cases s with
    | nil => exact hr (by rw [← List.nil_append r, hs]; exact List.mem_cons_self)
    | cons d s => exact hne s hc (by rw [(List.cons.inj hs).1])

/-- What is left of a head behind its first characters. -/
theorem inFront_append_eq_ok_iff {front a b : Text} {cut : Except Stop (Text × Text)} :
    inFront front cut = .ok (front ++ a, b) ↔ cut = .ok (a, b) := by
  rw [inFront_eq_ok_iff]
  constructor
  · rintro ⟨x, hx, he⟩
    rw [hx, List.append_cancel_left he]
  · intro h
    exact ⟨a, h, rfl⟩

/-- A head that ends behind a text without quotes and escapes goes on through the text. -/
theorem exists_depthAfter?_of_splitHead {depth : Nat} {opened w r x y : Text}
    (hw : ∀ c ∈ w, c ≠ '"' ∧ c ≠ '\'' ∧ c ≠ '\\') (hr : ∀ c ∈ r, c ≠ '/' ∧ c ≠ '*')
    (h : splitHead depth opened (w ++ r) = .ok (w ++ x, y)) :
    ∃ k, depthAfter? depth w = some k := by
  have hstar : r.head? ≠ some '*' := fun hs => (hr _ (List.mem_of_mem_head? hs)).2 rfl
  fun_induction depthAfter? depth w generalizing opened with
  | case1 depth => exact ⟨depth, rfl⟩
  | case2 => exact absurd rfl (hw _ List.mem_cons_self).2.2
  | case3 => exact absurd rfl (hw _ List.mem_cons_self).2.2
  | case4 depth s hi =>
    have hnone := closeComment?_append_none (fun hm => (hr _ hm).1 rfl) hi
    rw [List.cons_append, List.cons_append, splitHead_openComment _ _ _ hnone] at h
    cases h
  | case5 depth s a b hi ih =>
    have hs := closeComment?_eq hi
    rw [List.cons_append, List.cons_append,
      splitHead_comment (closeComment?_append_right hi r)] at h
    refine ih (fun c hc => hw c ?_) (inFront_append_eq_ok_iff.1 (h.trans ?_))
    · simp [← hs, hc]
    · simp [← hs]
  | case6 depth c s hlast hb hc hq =>
    have := hw c List.mem_cons_self
    exact absurd hq (by simp [this])
  | case7 depth c s hlast hb hc hq =>
    have := hw c List.mem_cons_self
    exact absurd hq (by simp [this])
  | case8 depth c s hlast hb hc hq hopen ih =>
    have halone := standsAlone_append hlast hb hc fun _ => hstar
    rw [List.cons_append, splitHead_cons halone, if_neg hq, if_pos hopen] at h
    exact ih (fun d hd => hw d (List.mem_cons_of_mem c hd)) (inFront_append_eq_ok_iff.1 h)
  | case9 depth c s hlast hb hc hq hopen hclose ih =>
    have halone := standsAlone_append hlast hb hc fun _ => hstar
    rw [List.cons_append, splitHead_cons halone, if_neg hq, if_neg hopen, if_pos hclose] at h
    exact ih (fun d hd => hw d (List.mem_cons_of_mem c hd)) (inFront_append_eq_ok_iff.1 h)
  | case10 depth c s hlast hb hc hq hopen hclose hend =>
    have halone := standsAlone_append hlast hb hc fun _ => hstar
    rw [List.cons_append, splitHead_cons halone, if_neg hq, if_neg hopen, if_neg hclose,
      if_pos hend] at h
    cases h
  | case11 depth c s hlast hb hc hq hopen hclose hend ih =>
    have halone := standsAlone_append hlast hb hc fun _ => hstar
    rw [List.cons_append, splitHead_cons halone, if_neg hq, if_neg hopen, if_neg hclose,
      if_neg hend] at h
    exact ih (fun d hd => hw d (List.mem_cons_of_mem c hd)) (inFront_append_eq_ok_iff.1 h)

/-! ## Imports -/

/-- The name of an import. -/
def importName : Text := "import".toList

/-- The text of an import with given parameters. -/
def importOf (params : Text) : Text := '@' :: importName ++ ' ' :: params ++ [';']

/-- The sheet is an at-rule `import` with the parameters and without a block, and nothing else. -/
def Document.IsImport (params : Text) (d : Document) : Prop :=
  ∃ n, d.root.children = [n] ∧ n.kind = .atRule { name := importName, params } ∧
    n.children = []

/-- An import with the parameters is read as such, and in front of every other sheet as well. -/
def ReadBack (params : Text) : Prop :=
  ∃ d, parse (importOf params) = .ok d ∧ d.IsImport params ∧
    ∀ s₂ d₂, parse s₂ = .ok d₂ → parse (importOf params ++ s₂) = .ok (d.join d₂)

/-- The node of an import. -/
def importNode (params : Text) : Node where
  id := 1
  kind := .atRule { name := importName, params }
  trivia := { sigil := ['@'], afterName := [' '] }
  offset := some 0

theorem AtName.read_import {s : Text} (hs : ∀ c, s.head? = some c → isBlank c = false) :
    AtName.read (importName ++ ' ' :: s) = ⟨importName, false, [' '], s⟩ := by
  have hblank : Blank [' '] := by decide
  obtain ⟨hlead, hdrop⟩ := lead_blank_append hblank hs
  have hread : AtName.read (importName ++ ' ' :: s)
      = ⟨importName, false, Text.lead ([' '] ++ s), Text.dropLead ([' '] ++ s)⟩ := rfl
  rw [hread, hlead, hdrop]

theorem readPiece_importOf (params : Text) :
    readPiece (importOf params) = readAtRule [] (importName ++ ' ' :: (params ++ [';'])) := rfl

theorem piecesOf_importNode (params : Text) :
    piecesOf true [importNode params]
      = [.node (importNode params).kind (importNode params).trivia .semicolon] := by
  rw [piecesOf_cons, piecesOf_nil, Node.pieces_eq]
  rfl

theorem shapedIn_importNode (params : Text) : ShapedIn [importNode params] := by
  exact shapedIn_cons.2 ⟨⟨nofun, fun _ => rfl, nofun⟩, shapedIn_nil, shapedIn_nil⟩

theorem importOf_eq (params : Text) : importOf params = renderAll true [importNode params] := by
  rw [← textOf_piecesOf _ _ (shapedIn_importNode params), piecesOf_importNode, textOf_cons,
    textOf_nil]
  simp [importOf, Piece.text, importNode, Kind.head, Ending.text]

section Import

variable {params : Text} (hfirst : ∀ c, params.head? = some c → isBlank c = false)
include hfirst

theorem AtName.read_params :
    AtName.read (importName ++ ' ' :: (params ++ [';']))
      = ⟨importName, false, [' '], params ++ [';']⟩ := by
  refine AtName.read_import fun c hc => ?_
  cases params with
  | nil => rw [← Option.some.inj hc]; rfl
  | cons d params => exact hfirst c hc

/-- The head of an import that is read back is its parameters. -/
theorem splitHead_of_readBack (h : ReadBack params) :
    splitHead 0 [] (params ++ [';']) = .ok (params, [';']) := by
  obtain ⟨d, hd, ⟨n, hn, hk, _⟩, _⟩ := h
  obtain ⟨⟨hshaped, _, hfit⟩, hs, _⟩ := readable_of_parse hd
  generalize d.root.trivia.semicolon = closed at hfit hs
  generalize d.root.trivia.after = after at hfit hs
  rw [hn] at hshaped hfit hs
  -- The only piece of the sheet is the at-rule.
  obtain ⟨e, hpieces⟩ : ∃ e, piecesOf closed [n] = [.node n.kind n.trivia e] := by
    rw [piecesOf_cons, piecesOf_nil, Node.pieces_eq, hk]
    exact ⟨_, rfl⟩
  rw [← textOf_piecesOf closed [n] hshaped, hpieces, textOf_cons, textOf_nil, List.append_nil] at hs
  rw [hpieces] at hfit
  have hread : readAtRule [] (importName ++ ' ' :: (params ++ [';']))
      = .ok (.piece (.node n.kind n.trivia e) after) := by
    rw [← readPiece_importOf, hs]
    exact hfit.1
  obtain ⟨head, b, hsplit, hpiece⟩ := readAtRule_inv hread
  rw [AtName.read_params hfirst] at hsplit hpiece
  have hparams : params = Text.dropTrail head := by
    rw [hk] at hpiece
    injections
  have htrail : Text.trail head ++ b = [';'] := by
    have heq := splitHead_eq hsplit
    rw [← Text.dropTrail_append_trail head, ← hparams, List.append_assoc] at heq
    exact List.append_cancel_left heq
  cases ht : Text.trail head with
  | nil =>
    rw [ht] at htrail
    rw [← Text.dropTrail_append_trail head, ht, ← hparams, List.append_nil] at hsplit
    rw [hsplit, ← htrail]
    rfl
  | cons c t =>
    rw [ht] at htrail
    have hblank := Text.isBlank_of_mem_trail (ht ▸ List.mem_cons_self : c ∈ Text.trail head)
    rw [(List.cons.inj htrail).1] at hblank
    cases hblank

/-- An import is read back when its head is its parameters. -/
theorem readBack_of_splitHead (hlast : ∀ c, params.getLast? = some c → isBlank c = false)
    (h : splitHead 0 [] (params ++ [';']) = .ok (params, [';'])) : ReadBack params := by
  have hblank : Blank [] := by decide
  obtain ⟨htail, htrail⟩ := trail_append_blank hlast hblank
  rw [List.append_nil] at htail htrail
  have hread : readPiece (importOf params)
      = .ok (.piece (.node (importNode params).kind (importNode params).trivia .semicolon) []) := by
    rw [readPiece_importOf, readAtRule, AtName.read_params hfirst]
    simp only [h, bind, Except.bind, htail, htrail]
    rfl
  have htext : importOf params = renderAll true [importNode params] ++ [] := by
    rw [List.append_nil, importOf_eq]
  have hreadable : Readable true [importNode params] [] := by
    refine ⟨shapedIn_importNode params, rfl, ?_⟩
    rw [piecesOf_importNode]
    refine ⟨?_, fun _ hc => absurd hc List.not_mem_nil⟩
    rw [importOf_eq, ← textOf_piecesOf _ _ (shapedIn_importNode params), piecesOf_importNode,
      textOf_cons] at hread
    exact hread
  have hended : Ended true [importNode params] := fun _ _ _ => rfl
  refine ⟨sheetOf true [importNode params] [], ?_, ⟨importNode params, ?_, rfl, rfl⟩, ?_⟩
  · rw [htext]
    exact parse_of_readable hreadable
  · rw [sheetOf, settleAll_cons, settleAll_nil, Node.settle_eq]
    rfl
  · intro s₂ d₂ hd₂
    obtain ⟨h₂, hs₂, hd⟩ := readable_of_parse hd₂
    have hjoin := parse_append_of_readable hreadable hended h₂
    rwa [← htext, ← hs₂, ← hd] at hjoin

end Import

/-! ## Bodies of urls -/

/-- The parameters that are an unquoted `url(…)` with a given body. -/
def urlParams (body : Text) : Text := ['u', 'r', 'l', '('] ++ body ++ [')']

/-- The characters that an unquoted `url(…)` may have between its parentheses: no blanks, quotes,
    parentheses or backslashes. -/
def isUrlChar (c : Char) : Bool := !isBlank c && !(['"', '\'', '(', ')', '\\'].contains c)

theorem isUrlChar_spec {c : Char} (h : isUrlChar c) :
    (c ≠ '"' ∧ c ≠ '\'' ∧ c ≠ '\\') ∧ c ≠ '(' ∧ c ≠ ')' := by
  refine ⟨⟨?_, ?_, ?_⟩, ?_, ?_⟩ <;> rintro rfl <;> exact absurd h (by decide)

theorem readBack_urlParams_iff (body : Text) :
    ReadBack (urlParams body)
      ↔ splitHead 0 [] (urlParams body ++ [';']) = .ok (urlParams body, [';']) := by
  have hfirst : ∀ c, (urlParams body).head? = some c → isBlank c = false := by
    intro c hc
    rw [← Option.some.inj hc]
    rfl
  have hlast : ∀ c, (urlParams body).getLast? = some c → isBlank c = false := by
    intro c hc
    rw [urlParams, List.getLast?_append, List.getLast?_singleton] at hc
    rw [← Option.some.inj hc]
    rfl
  exact ⟨splitHead_of_readBack hfirst, readBack_of_splitHead hfirst hlast⟩

/-- The body of a url is inside of one bracket, and its head goes on there. -/
theorem splitHead_urlParams (body : Text) :
    ∃ opened, splitHead 0 [] (urlParams body ++ [';'])
      = inFront ['u', 'r', 'l', '('] (splitHead 1 opened (body ++ [')', ';'])) := by
  have hopen : depthAfter? 0 ['u', 'r', 'l', '('] = some 1 := by cbv
  obtain ⟨opened, ho⟩ := splitHead_through hopen (r := body ++ [')', ';']) (by simp) []
  refine ⟨opened, ?_⟩
  rw [← ho, urlParams]
  simp

/-- Behind the body one bracket is closed, and the semicolon ends the head if none is open then. -/
theorem splitHead_urlClose (depth : Nat) (opened : Text) :
    splitHead depth opened [')', ';'] = .ok ([')'], [';']) ↔ depth = 0 ∨ depth = 1 := by
  have hclose : splitHead depth opened [')', ';']
      = inFront [')'] (splitHead (depth - 1) opened [';']) := by
    rw [splitHead_cons ⟨by simp, by simp⟩]
    simp
  rw [hclose, inFront_eq_ok_iff, splitHead_cons ⟨by simp, by simp⟩]
  by_cases hd : depth - 1 = 0
  · have : depth = 0 ∨ depth = 1 := by omega
    simp [hd, this]
  · have : ¬ (depth = 0 ∨ depth = 1) := by omega
    simp [hd, this, splitHead, inFront, Except.map]

theorem readBack_iff_of_depthAfter? {body : Text} {k : Nat} (h : depthAfter? 1 body = some k) :
    ReadBack (urlParams body) ↔ k = 0 ∨ k = 1 := by
  obtain ⟨opened, ho⟩ := splitHead_urlParams body
  obtain ⟨opened', ho'⟩ := splitHead_through h (r := [')', ';']) (by simp) opened
  rw [readBack_urlParams_iff, ho, ho', urlParams, List.append_assoc, inFront_append_eq_ok_iff,
    inFront_append_eq_ok_iff, splitHead_urlClose]

theorem exists_depthAfter?_of_readBack {body : Text} (h : ∀ c ∈ body, isUrlChar c)
    (hr : ReadBack (urlParams body)) : ∃ k, depthAfter? 1 body = some k := by
  obtain ⟨opened, ho⟩ := splitHead_urlParams body
  rw [readBack_urlParams_iff, ho, urlParams, List.append_assoc, inFront_append_eq_ok_iff] at hr
  exact exists_depthAfter?_of_splitHead (fun c hc => (isUrlChar_spec (h c hc)).1) (by simp) hr

/-- A body without square brackets in which no comment is opened leaves the brackets as they are. -/
theorem depthAfter?_of_urlChars {depth : Nat} {body : Text} (hdepth : depth ≠ 0)
    (h : ∀ c ∈ body, isUrlChar c ∧ c ≠ '[' ∧ c ≠ ']') (hcomment : ¬ ['/', '*'] <:+: body) :
    depthAfter? depth body = some depth := by
  induction body with
  | nil => rw [depthAfter?]
  | cons c s ih =>
    obtain ⟨hc, hsquare⟩ := h c List.mem_cons_self
    obtain ⟨⟨hquote, hquote', hescape⟩, hround⟩ := isUrlChar_spec hc
    have hs := ih (fun d hd => h d (List.mem_cons_of_mem c hd)) fun hi =>
      hcomment (hi.trans (List.suffix_cons c s).isInfix)
    have halone : StandsAlone c s := by
      refine ⟨fun he => absurd he hescape, fun he hstar => hcomment ?_⟩
      obtain ⟨t, ht⟩ := List.head?_eq_some_iff.1 hstar
      exact ⟨[], t, by rw [he, ht]; rfl⟩
    rw [depthAfter?_cons depth hescape halone, if_neg (by simp [hquote, hquote']),
      if_neg (by simp [hsquare, hround]), if_neg (by simp [hsquare, hround]),
      if_neg (by simp [hdepth])]
    exact hs

/-- Such a body is read back, whatever semicolons, braces and colons there are in it. -/
theorem readBack_of_urlChars {body : Text}
    (h : ∀ c ∈ body, isUrlChar c ∧ c ≠ '[' ∧ c ≠ ']') (hcomment : ¬ ['/', '*'] <:+: body) :
    ReadBack (urlParams body) :=
  (readBack_iff_of_depthAfter? (depthAfter?_of_urlChars (by decide) h hcomment)).2 (Or.inr rfl)

/-- An import of an unquoted `url(…)` is read back if and only if a head that is inside of one
    bracket goes on through the body and leaves no bracket open but that. -/
theorem url_bodies_are_read_back_iff {body : Text} (h : ∀ c ∈ body, isUrlChar c) :
    ReadBack (urlParams body) ↔ depthAfter? 1 body = some 0 ∨ depthAfter? 1 body = some 1 := by
  constructor
  · intro hr
    obtain ⟨k, hk⟩ := exists_depthAfter?_of_readBack h hr
    rcases (readBack_iff_of_depthAfter? hk).1 hr with rfl | rfl
    · exact Or.inl hk
    · exact Or.inr hk
  · rintro (hk | hk)
    · exact (readBack_iff_of_depthAfter? hk).2 (Or.inl rfl)
    · exact (readBack_iff_of_depthAfter? hk).2 (Or.inr rfl)

/-- A body with a host in brackets, a semicolon, braces and a comment. -/
theorem url_bodies_are_read_back_iff_hostInBrackets :
    (∀ c ∈ "//[::1]/a;b\x7b/*c*/\x7d".toList, isUrlChar c) ∧
      ReadBack (urlParams "//[::1]/a;b\x7b/*c*/\x7d".toList) := by
  have hchars : ∀ c ∈ "//[::1]/a;b\x7b/*c*/\x7d".toList, isUrlChar c := by decide +kernel
  have hdepth : depthAfter? 1 "//[::1]/a;b\x7b/*c*/\x7d".toList = some 1 := by cbv
  exact ⟨hchars, (url_bodies_are_read_back_iff hchars).2 (Or.inr hdepth)⟩

/-- A bracket in the body that was not opened there closes that of the url, and a semicolon behind
    it cuts the body off. -/
theorem url_bodies_are_cut :
    ¬ ∀ body, body ≠ [] → (∀ c ∈ body, isUrlChar c) → ReadBack (urlParams body) := by
  intro h
  obtain ⟨d, hd, _⟩ := h "a];b".toList (by decide) (by decide +kernel)
  have hfail : (parse (importOf (urlParams "a];b".toList))).toBool = false := by decide +kernel
  rw [hd] at hfail
  cases hfail

end SheetLint
