import SheetLint.Glob.Pattern

/-
  Reading path patterns. Two stars stand for directories only where they are a whole component of
  the path; elsewhere each of them is a star of its own.
-/

namespace SheetLint.Glob

/-- What reading the inside of a class gives. -/
inductive ClassRead
  | closed (t : Token) (rest : Text)
  /-- A range whose end comes before its start. -/
  | reversed
  | unclosed

/-- Reads a class up to its closing bracket. The ranges so far are held latest first; in an `open`
    one the next character is the end of the latest range. The first character of a class is always
    part of it. -/
def readRanges (negated first isOpen : Bool) (ranges : List (Char × Char)) : Text → ClassRead
  | [] => .unclosed
  | c :: s =>
    if c = ']' ∧ !first then
      .closed (.oneOf negated ((if isOpen then ('-', '-') :: ranges else ranges).reverse)) s
    else if c = '-' ∧ !first ∧ !isOpen then readRanges negated false true ranges s
    else
      match isOpen, ranges with
      | true, (low, _) :: earlier =>
        if c < low then .reversed else readRanges negated false false ((low, c) :: earlier) s
      | _, ranges => readRanges negated false false ((c, c) :: ranges) s

/-- Reads a class after its opening bracket. -/
def readClass : Text → ClassRead
  | '!' :: s => readRanges true true false [] s
  | '^' :: s => readRanges true true false [] s
  | s => readRanges false true false [] s

theorem length_lt_of_readRanges {negated first isOpen : Bool} {ranges : List (Char × Char)}
    {s r : Text} {t : Token} (h : readRanges negated first isOpen ranges s = .closed t r) :
    r.length < s.length := by
  fun_induction readRanges negated first isOpen ranges s with
  | case1 => simp at h
  | case2 =>
    simp only [ClassRead.closed.injEq] at h
    simp [h.2]
  | case4 => simp at h
  | case3 _ _ _ _ _ _ _ ih => exact Nat.lt_succ_of_lt (ih h)
  | case5 _ _ _ _ _ _ _ _ _ ih => exact Nat.lt_succ_of_lt (ih h)
  | case6 _ _ _ _ _ _ _ _ ih => exact Nat.lt_succ_of_lt (ih h)

theorem length_lt_of_readClass {s r : Text} {t : Token} (h : readClass s = .closed t r) :
    r.length < s.length := by
  unfold readClass at h
  split at h
  · exact Nat.lt_succ_of_lt (length_lt_of_readRanges h)
  · exact Nat.lt_succ_of_lt (length_lt_of_readRanges h)
  · exact length_lt_of_readRanges h

/-- Alternatives that are not closed yet: the tokens before them and the branches that are
    complete, each latest first. -/
structure Group where
  before : List Token
  branches : List (List Token) := []

/-- Whether a character separates the components of a path. -/
def isSeparator (c : Option Char) : Bool := c == some '/'

/-- Puts the token for two stars in place of the separator before them. -/
def putDirs (last : Bool) : List Token → List Token
  | .anyDirsFirst :: ts => .anyDirsFirst :: ts
  | .anyDirsLast :: ts => .anyDirsLast :: ts
  | _ :: ts => (if last then .anyDirsLast else .anyDirs) :: ts
  | [] => []

/-- Reads two stars, given the character before them, the tokens before them, latest first, and
    the text after them. Gives the tokens and whether a separator after the stars belongs to
    them. -/
def readStars (prev : Option Char) (inGroup : Bool) (tokens : List Token) (rest : Text) :
    List Token × Bool :=
  let two := (.star :: .star :: tokens, false)
  if tokens.isEmpty then
    if rest.isEmpty then ([.anyDirsFirst], false)
    else if isSeparator rest.head? then ([.anyDirsFirst], true)
    else two
  else if !isSeparator prev && !(inGroup && (prev == some ',' || prev == some '{')) then two
  else if rest.isEmpty then (putDirs true tokens, false)
  else if inGroup && (rest.head? == some ',' || rest.head? == some '}') then
    (putDirs true tokens, false)
  else if isSeparator rest.head? then (putDirs false tokens, true)
  else two

/-- Reads a pattern: `prev` is the character before the text, `tokens` the tokens before it, latest
    first, and `groups` the alternatives that are open. If `lenient`, a bracket that is never
    closed stands for itself. -/
def parseFrom (lenient : Bool) (prev : Option Char) (tokens : List Token) (groups : List Group)
    (s : Text) : Option (List Token) :=
  match s with
  | [] => if groups.isEmpty then some tokens.reverse else none
  | '*' :: '*' :: s =>
    match readStars prev (!groups.isEmpty) tokens s, s with
    | (tokens, true), c :: s => parseFrom lenient (some c) tokens groups s
    | (tokens, _), s => parseFrom lenient (some '*') tokens groups s
  | ['\\'] => none
  | '\\' :: c :: s => parseFrom lenient (some c) (.literal c :: tokens) groups s
  | c :: s =>
    if c = '?' then parseFrom lenient (some c) (.any :: tokens) groups s
    else if c = '*' then parseFrom lenient (some c) (.star :: tokens) groups s
    else if c = '[' then
      match _h : readClass s with
      | .closed t r => parseFrom lenient (some ']') (t :: tokens) groups r
      | .reversed => none
      | .unclosed =>
        if lenient then parseFrom lenient (some c) (.literal c :: tokens) groups s else none
    else if c = '{' then parseFrom lenient (some c) [] ({ before := tokens } :: groups) s
    else if c = '}' then
      match groups with
      | [] => none
      | g :: groups =>
        parseFrom lenient (some c)
          (.alternates (tokens.reverse :: g.branches).reverse :: g.before) groups s
    else if c = ',' then
      match groups with
      | [] => parseFrom lenient (some c) (.literal c :: tokens) groups s
      | g :: groups =>
        let g := { g with branches := tokens.reverse :: g.branches }
        parseFrom lenient (some c) [] (g :: groups) s
    else parseFrom lenient (some c) (.literal c :: tokens) groups s
termination_by s.length
decreasing_by
  all_goals simp only [List.length_cons]
  all_goals try omega
  have := length_lt_of_readClass _h
  omega

/-- A pattern whose stars match separators, and which has no brackets that are left open. -/
def parse? (pattern : Text) : Option (List Token) := parseFrom false none [] [] pattern

end SheetLint.Glob
