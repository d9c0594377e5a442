import SheetLint.Glob.Pattern

/-
  What patterns match. Matching goes on from what earlier tokens leave of a path
  (`mem_listRests_cons`), and a token leaves of a longer path what it leaves of the path with the
  rest behind it (`rests_append`). From this come two facts about whole patterns. One that ends
  open, with a star or with any directories, matches whatever a path that it matches goes on with
  (`matchesAll_append`). One that floats, since it begins with a star or with any directories and
  then with no dot or separator of its own, matches a path with `./` in front where it matches the
  path (`matchesAll_dotSlash`).
-/

namespace SheetLint.Glob

variable {separate : Bool} {t : Token} {ts : List Token} {s r u : Bytes}

/-! ## Ends of a text -/

theorem after?_eq_some {a : Bytes} : after? a s = some r ↔ s = a ++ r := by
  induction a generalizing s with
  | nil => rw [after?, Option.some.injEq, List.nil_append]
  | cons b a ih =>
    cases s with
    | nil => simp [after?]
    | cons c s =>
      rw [after?]
      split
      · rename_i h
        rw [ih, h, List.cons_append, List.cons_inj_right]
      · rename_i h
        simp [Ne.symm h]

theorem mem_ends : r ∈ ends s ↔ r <:+ s := by
  induction s with
  | nil => simp [ends]
  | cons b s ih => rw [ends, List.mem_cons, ih, List.suffix_cons_iff]

theorem mem_afterSlashes : r ∈ afterSlashes s ↔ slash :: r <:+ s := by
  rw [afterSlashes, List.mem_filterMap]
  constructor
  · rintro ⟨_ | ⟨b, m⟩, hm, h⟩
    · cases h
    · simp only [Option.ite_none_right_eq_some, Option.some.injEq] at h
      rw [← h.1, ← h.2]
      exact mem_ends.1 hm
  · intro h
    exact ⟨slash :: r, mem_ends.2 h, by simp⟩

theorem mem_starEnds : r ∈ starEnds false s ↔ r <:+ s := by
  induction s with
  | nil => simp [starEnds]
  | cons b s ih =>
    rw [starEnds, List.mem_cons, Bool.false_and, if_neg Bool.false_ne_true, ih,
      List.suffix_cons_iff]

theorem starEnds_append (h : r ∈ starEnds separate s) (u : Bytes) :
    r ++ u ∈ starEnds separate (s ++ u) := by
  induction s with
  | nil =>
    rw [starEnds, List.mem_singleton] at h
    rw [h, List.nil_append]
    cases u with
    | nil => simp [starEnds]
    | cons b u => exact List.mem_cons_self
  | cons b s ih =>
    rw [starEnds, List.mem_cons] at h
    rw [List.cons_append, starEnds, List.mem_cons]
    refine h.imp (fun h => by rw [h, List.cons_append]) fun h => ?_
    split at h
    · cases h
    · rename_i hb
      rw [if_neg hb]
      exact ih h

/-! ## Tokens one after the other -/

theorem mem_listRests {ss : List Bytes} :
    r ∈ listRests separate ts ss ↔ ∃ s ∈ ss, r ∈ listRests separate ts [s] := by
  induction ts generalizing ss with
  | nil => simp [listRests]
  | cons t ts ih =>
    simp only [listRests]
    rw [ih]
    constructor
    · rintro ⟨m, hm, hr⟩
      obtain ⟨s, hs, hm⟩ := List.mem_flatMap.1 (List.mem_eraseDups.1 hm)
      refine ⟨s, hs, ih.2 ⟨m, List.mem_eraseDups.2 ?_, hr⟩⟩
      rwa [List.flatMap_singleton]
    · rintro ⟨s, hs, hr⟩
      obtain ⟨m, hm, hr⟩ := ih.1 hr
      rw [List.mem_eraseDups, List.flatMap_singleton] at hm
      exact ⟨m, List.mem_eraseDups.2 (List.mem_flatMap.2 ⟨s, hs, hm⟩), hr⟩

theorem listRests_nil (separate : Bool) (s : Bytes) : listRests separate [] [s] = [s] := by
  rw [listRests]

theorem mem_listRests_cons :
    r ∈ listRests separate (t :: ts) [s] ↔
      ∃ m ∈ t.rests separate s, r ∈ listRests separate ts [m] := by
  rw [listRests, mem_listRests]
  simp only [List.mem_eraseDups, List.flatMap_singleton]

theorem mem_branchRests {bs : List (List Token)} :
    r ∈ branchRests separate bs s ↔
      ∃ b ∈ bs, ¬isVoidList b ∧ r ∈ listRests separate b [s] := by
  induction bs with
  | nil => simp [branchRests]
  | cons b bs ih =>
    rw [branchRests, List.mem_append, ih]
    cases hb : isVoidList b <;> simp [hb]

theorem matchesAll_iff :
    matchesAll separate ts s ↔ ts = [.anyDirsFirst] ∨ [] ∈ listRests separate ts [s] := by
  unfold matchesAll
  split
  · simp
  · rename_i h
    rw [List.contains_iff_mem]
    exact (or_iff_right h).symm

/-- Induction over a token: alternatives after the tokens of their branches. -/
theorem Token.byBranches {P : Token → Prop}
    (hplain : ∀ t, (∀ bs, t ≠ .alternates bs) → P t)
    (halternates : ∀ bs, (∀ b ∈ bs, ∀ t ∈ b, P t) → P (.alternates bs)) (t : Token) : P t :=
  @Token.rec P (fun bs => ∀ b ∈ bs, ∀ t ∈ b, P t) (fun ts => ∀ t ∈ ts, P t)
    (fun _ => hplain _ nofun) (hplain _ nofun) (hplain _ nofun) (hplain _ nofun) (hplain _ nofun)
    (hplain _ nofun) (fun _ _ => hplain _ nofun) halternates
    (fun _ hb => (List.not_mem_nil hb).elim) (fun _ _ h hs => List.forall_mem_cons.2 ⟨h, hs⟩)
    (fun _ ht => (List.not_mem_nil ht).elim) (fun _ _ h hs => List.forall_mem_cons.2 ⟨h, hs⟩) t

theorem listRests_append_of (h : ∀ t ∈ ts, ∀ s r, r ∈ t.rests separate s →
    r ++ u ∈ t.rests separate (s ++ u)) (hr : r ∈ listRests separate ts [s]) :
    r ++ u ∈ listRests separate ts [s ++ u] := by
  induction ts generalizing s with
  | nil =>
    rw [listRests_nil, List.mem_singleton] at *
    rw [hr]
  | cons t ts ih =>
    obtain ⟨ht, hts⟩ := List.forall_mem_cons.1 h
    obtain ⟨m, hm, hr⟩ := mem_listRests_cons.1 hr
    exact mem_listRests_cons.2 ⟨m ++ u, ht s m hm, ih hts hr⟩

/-- What a token leaves of a text it leaves of a longer one, with the rest behind it. -/
theorem rests_append (h : r ∈ t.rests separate s) (u : Bytes) :
    r ++ u ∈ t.rests separate (s ++ u) := by
  induction t using Token.byBranches generalizing s r with
  | hplain t hplain =>
    cases t with
    | literal c =>
      rw [Token.rests, Option.mem_toList, after?_eq_some] at *
      rw [h, List.append_assoc]
    | any =>
      cases s with
      | nil => simp [Token.rests] at h
      | cons b s =>
        simp only [Token.rests, List.cons_append] at *
        split at h
        · cases h
        · rename_i hb
          rw [if_neg hb, List.mem_singleton] at *
          rw [h]
    | star =>
      rw [Token.rests] at *
      exact starEnds_append h u
    | anyDirsFirst =>
      rw [Token.rests, List.mem_cons, mem_afterSlashes] at *
      exact h.imp (congrArg (· ++ u)) fun ⟨m, hm⟩ => ⟨m, by rw [← hm]; simp⟩
    | anyDirsLast =>
      cases s with
      | nil => simp [Token.rests] at h
      | cons b s =>
        simp only [Token.rests, List.cons_append] at *
        split at h
        · rename_i hb
          rw [if_pos hb, mem_ends] at *
          exact h.imp fun m hm => by rw [← hm]; simp
        · cases h
    | anyDirs =>
      cases s with
      | nil => simp [Token.rests] at h
      | cons b s =>
        simp only [Token.rests, List.cons_append] at *
        split at h
        · rename_i hb
          rw [if_pos hb, List.mem_cons, mem_afterSlashes] at *
          exact h.imp (congrArg (· ++ u)) fun ⟨m, hm⟩ => ⟨m, by rw [← hm]; simp⟩
        · cases h
    | oneOf negated ranges =>
      cases s with
      | nil => simp [Token.rests] at h
      | cons b s =>
        simp only [Token.rests, List.cons_append] at *
        split at h
        · cases h
        · rename_i hb
          rw [if_neg hb, List.mem_singleton] at *
          rw [h]
    | alternates bs => exact absurd rfl (hplain bs)
  | halternates bs ih =>
    rw [Token.rests] at *
    split at h
    · rename_i hvoid
      rw [if_pos hvoid, List.mem_singleton] at *
      rw [h]
    · rename_i hvoid
      rw [if_neg hvoid, mem_branchRests] at *
      obtain ⟨b, hb, hfull, hr⟩ := h
      exact ⟨b, hb, hfull, listRests_append_of (fun t ht s r h => ih b hb t ht h) hr⟩

/-! ## Patterns that end open -/

mutual

/-- Whether a token matches all that a text it matches can go on with. -/
def Token.isOpen : Token → Bool
  | .star => true
  | .anyDirsLast => true
  | .alternates branches => !allVoid branches && allOpen branches
  | _ => false

/-- Whether the last token of a list is open. -/
def endsOpen : List Token → Bool
  | [] => false
  | [t] => t.isOpen
  | _ :: t :: ts => endsOpen (t :: ts)

/-- Whether all alternatives that count end open. -/
def allOpen : List (List Token) → Bool
  | [] => true
  | b :: bs => (isVoidList b || endsOpen b) && allOpen bs

end

theorem endsOpen_of_allOpen {bs : List (List Token)} (h : allOpen bs) :
    ∀ b ∈ bs, ¬isVoidList b → endsOpen b := by
  induction bs with
  | nil => exact fun _ hb => (List.not_mem_nil hb).elim
  | cons b bs ih =>
    rw [allOpen, Bool.and_eq_true, Bool.or_eq_true] at h
    exact List.forall_mem_cons.2 ⟨h.1.resolve_left, ih h.2⟩

theorem nil_mem_listRests_of (h : ∀ t ∈ ts, t.isOpen → ∀ s r, r ∈ t.rests false s →
    [] ∈ t.rests false (s ++ u)) (hts : endsOpen ts) (hr : r ∈ listRests false ts [s]) :
    [] ∈ listRests false ts [s ++ u] := by
  induction ts generalizing s with
  | nil => cases hts
  | cons t ts ih =>
    obtain ⟨ht, hin⟩ := List.forall_mem_cons.1 h
    obtain ⟨m, hm, hr⟩ := mem_listRests_cons.1 hr
    cases ts with
    | nil =>
      refine mem_listRests_cons.2 ⟨[], ht hts s m hm, ?_⟩
      rw [listRests_nil]
      exact List.mem_singleton_self []
    | cons t' ts => exact mem_listRests_cons.2 ⟨m ++ u, rests_append hm u, ih hin hts hr⟩

/-- What an open token takes up it can take up to the end of a longer text. -/
theorem nil_mem_rests (ht : t.isOpen) (h : r ∈ t.rests false s) (u : Bytes) :
    [] ∈ t.rests false (s ++ u) := by
  induction t using Token.byBranches generalizing s r with
  | hplain t hplain =>
    cases t with
    | star =>
      rw [Token.rests, mem_starEnds]
      exact List.nil_suffix
    | anyDirsLast =>
      cases s with
      | nil => simp [Token.rests] at h
      | cons b s =>
        simp only [Token.rests, List.cons_append] at *
        split at h
        · rename_i hb
          rw [if_pos hb, mem_ends]
          exact List.nil_suffix
        · cases h
    | alternates bs => exact absurd rfl (hplain bs)
    | literal | any | anyDirsFirst | anyDirs | oneOf => cases ht
  | halternates bs ih =>
    rw [Token.isOpen, Bool.and_eq_true, Bool.not_eq_true'] at ht
    rw [Token.rests, ht.1] at *
    obtain ⟨b, hb, hfull, hr⟩ := mem_branchRests.1 h
    exact mem_branchRests.2 ⟨b, hb, hfull, nil_mem_listRests_of
      (fun t htb hopen s r h => ih b hb t htb hopen h) (endsOpen_of_allOpen ht.2 b hb hfull) hr⟩

/-- Whether a pattern that matches a text matches all that the text can go on with: it ends open, or
    it is any directories alone. -/
def isOpenEnded : List Token → Bool
  | [.anyDirsFirst] => true
  | ts => endsOpen ts

theorem isOpenEnded_iff : isOpenEnded ts ↔ ts = [.anyDirsFirst] ∨ endsOpen ts := by
  unfold isOpenEnded
  split
  · simp
  · rename_i h
    exact (or_iff_right h).symm

/-- An open pattern that matches a text matches every longer one. -/
theorem matchesAll_append (hts : isOpenEnded ts) (h : matchesAll false ts s) (u : Bytes) :
    matchesAll false ts (s ++ u) := by
  rw [matchesAll_iff] at *
  rcases isOpenEnded_iff.1 hts with hall | hopen
  · exact Or.inl hall
  · exact h.imp_right
      (nil_mem_listRests_of (fun _ _ ht _ _ hr => nil_mem_rests ht hr u) hopen)

/-! ## Patterns that float -/

/-- The byte of a dot. -/
def dot : UInt8 := 46

/-- Whether a token takes up something that does not begin with a given byte. -/
def Token.bars (b : UInt8) : Token → Bool
  | .literal c => (String.utf8EncodeChar c).head?.any (· ≠ b)
  | .oneOf negated ranges => ranges.any (inRange · b) == negated
  | _ => false

/-- Whether tokens that match a text with `./` or `/` in front match the text as well. -/
def passesFront : List Token → Bool
  | [] => true
  | .star :: ts => passesFront ts
  | .literal '.' :: t :: _ => t.bars slash
  | t :: _ => t.bars slash && t.bars dot

/-- Whether a pattern begins with a star or any directories, and does not name the start of a path
    that begins with `./`. -/
def floats : List Token → Bool
  | .star :: ts => passesFront ts
  | .anyDirsFirst :: ts => passesFront ts
  | _ => false

theorem rests_of_bars {b : UInt8} (h : t.bars b) (s : Bytes) : t.rests separate (b :: s) = [] := by
  cases t with
  | literal c =>
    rw [Token.bars] at h
    rw [Token.rests]
    cases hc : String.utf8EncodeChar c with
    | nil => rw [hc] at h; cases h
    | cons a as =>
      rw [hc] at h
      rw [after?, if_neg (by simpa using h)]
      rfl
  | oneOf negated ranges =>
    rw [Token.bars] at h
    rw [Token.rests, h, Bool.or_true, if_pos rfl]
  | _ => cases h

theorem nil_mem_listRests_of_front (hts : passesFront ts) {m : Bytes}
    (hm : m = slash :: s ∨ m = dot :: slash :: s) (h : [] ∈ listRests false ts [m]) :
    [] ∈ listRests false ts [s] := by
  fun_induction passesFront ts generalizing m with
  | case1 =>
    rw [listRests_nil, List.mem_singleton] at h
    rcases hm with rfl | rfl <;> cases h
  | case2 ts ih =>
    -- A star passes over the front, or leaves some of it to the tokens behind it.
    obtain ⟨n, hn, hr⟩ := mem_listRests_cons.1 h
    rw [Token.rests, mem_starEnds] at hn
    have hcases : n <:+ s ∨ n = slash :: s ∨ n = dot :: slash :: s := by
      rcases hm with rfl | rfl
      · exact (List.suffix_cons_iff.1 hn).symm.imp_right Or.inl
      · rcases List.suffix_cons_iff.1 hn with hn | hn
        · exact Or.inr (Or.inr hn)
        · exact (List.suffix_cons_iff.1 hn).symm.imp_right Or.inl
    have hstar {n : Bytes} (hn : n <:+ s) (hr : [] ∈ listRests false ts [n]) :
        [] ∈ listRests false (.star :: ts) [s] :=
      mem_listRests_cons.2 ⟨n, by rwa [Token.rests, mem_starEnds], hr⟩
    rcases hcases with hn | hn
    · exact hstar hn hr
    · exact hstar List.suffix_rfl (ih hts hn hr)
  | case3 t ts =>
    obtain ⟨n, hn, hr⟩ := mem_listRests_cons.1 h
    obtain ⟨k, hk, _⟩ := mem_listRests_cons.1 hr
    have hdot : String.utf8EncodeChar '.' = [dot] := by decide
    rw [Token.rests, Option.mem_toList, after?_eq_some, hdot, List.singleton_append] at hn
    rcases hm with rfl | rfl
    · exact absurd (List.cons.inj hn).1 (by decide)
    · rw [← (List.cons.inj hn).2, rests_of_bars hts] at hk
      cases hk
  | case4 t ts =>
    rw [Bool.and_eq_true] at hts
    obtain ⟨n, hn, _⟩ := mem_listRests_cons.1 h
    rcases hm with rfl | rfl
    · rw [rests_of_bars hts.1] at hn
      cases hn
    · rw [rests_of_bars hts.2] at hn
      cases hn

/-- A floating pattern matches a path with `./` in front where it matches the path. -/
theorem matchesAll_dotSlash (hts : floats ts) (s : Bytes) :
    matchesAll false ts (dot :: slash :: s) ↔ matchesAll false ts s := by
  rw [matchesAll_iff, matchesAll_iff]
  refine or_congr_right ?_
  unfold floats at hts
  split at hts
  · rename_i ts
    have hstar : passesFront (.star :: ts) := hts
    refine ⟨nil_mem_listRests_of_front hstar (Or.inr rfl), fun h => ?_⟩
    obtain ⟨m, hm, hr⟩ := mem_listRests_cons.1 h
    rw [Token.rests, mem_starEnds] at hm
    refine mem_listRests_cons.2 ⟨m, ?_, hr⟩
    rw [Token.rests, mem_starEnds]
    exact (hm.trans (List.suffix_cons slash s)).trans (List.suffix_cons dot _)
  · rename_i ts
    simp only [mem_listRests_cons, Token.rests, List.mem_cons, mem_afterSlashes]
    constructor
    · rintro ⟨m, rfl | hm, hr⟩
      · exact ⟨s, Or.inl rfl, nil_mem_listRests_of_front hts (Or.inr rfl) hr⟩
      · -- What follows a separator in the longer path is the path or follows a separator in it.
        rcases List.suffix_cons_iff.1 hm with hm | hm
        · cases hm
        · rcases List.suffix_cons_iff.1 hm with hm | hm
          · exact ⟨m, Or.inl (List.cons.inj hm).2, hr⟩
          · exact ⟨m, Or.inr hm, hr⟩
    · rintro ⟨m, rfl | hm, hr⟩
      · exact ⟨m, Or.inr (List.suffix_cons dot _), hr⟩
      · refine ⟨m, Or.inr ?_, hr⟩
        exact (hm.trans (List.suffix_cons slash s)).trans (List.suffix_cons dot _)
  · cases hts

end SheetLint.Glob
