import Mathlib.Data.List.TakeWhile
import SheetLint.Proofs.Report.Lines
import SheetLint.Report.Format

/-
  Reports with colors. A terminal is told how text looks by codes: the escape character, a bracket,
  digits and an `m`. Codes do not overlap (`Text.IsCode.eq_or_behind`), so they can be taken out of
  a text one after the other (`Text.withoutCodes`), and what stands between them stays. A span with
  a style is written between two codes, and only a path or a message can bring another escape
  character into a report. Without one, taking the codes out of a report with colors gives the
  report without colors; and each style ends in the line where it starts, unless a path or a message
  brings a line feed (`colors_are_presentation`).
-/

namespace SheetLint

namespace Text

/-! ## Codes -/

/-- A code for a terminal: the escape character, a bracket, digits and an `m`. -/
def IsCode (t : Text) : Prop :=
  ∃ ds : Text, ds ≠ [] ∧ (∀ d ∈ ds, d.isDigit) ∧ t = '\x1b' :: '[' :: (ds ++ ['m'])

/-- What comes behind the code that a text starts with, if it starts with one. -/
def afterCode? : Text → Option Text
  | '\x1b' :: '[' :: s =>
    match s.takeWhile Char.isDigit, s.dropWhile Char.isDigit with
    | _ :: _, 'm' :: rest => some rest
    | _, _ => none
  | _ => none

theorem IsCode.afterCode?_append {c : Text} (hc : IsCode c) (s : Text) :
    afterCode? (c ++ s) = some s := by
  obtain ⟨ds, hne, hdigits, rfl⟩ := hc
  have htake : (ds ++ 'm' :: s).takeWhile Char.isDigit = ds := by
    rw [List.takeWhile_append_of_pos hdigits, List.takeWhile_cons_of_neg (by decide),
      List.append_nil]
  have hdrop : (ds ++ 'm' :: s).dropWhile Char.isDigit = 'm' :: s := by
    rw [List.dropWhile_append_of_pos hdigits, List.dropWhile_cons_of_neg (by decide)]
  obtain ⟨d, ds', rfl⟩ := List.exists_cons_of_ne_nil hne
  simp only [List.cons_append, List.append_assoc, List.nil_append] at htake hdrop ⊢
  rw [afterCode?, htake, hdrop]
  rfl

theorem afterCode?_eq_some_iff {s t : Text} :
    afterCode? s = some t ↔ ∃ c, IsCode c ∧ s = c ++ t := by
  constructor
  · intro h
    unfold afterCode? at h
    split at h
    · rename_i r
      split at h
      · rename_i d ds rest htake hdrop
        obtain rfl := Option.some.inj h
        refine ⟨_, ⟨d :: ds, by simp, fun c hc => ?_, rfl⟩, ?_⟩
        · exact List.mem_takeWhile_imp (htake ▸ hc)
        · have hr := List.takeWhile_append_dropWhile (p := Char.isDigit) (l := r)
          rw [htake, hdrop] at hr
          simp [← hr]
      · cases h
    · cases h
  · rintro ⟨c, hc, rfl⟩
    exact hc.afterCode?_append t

/-- A code is its escape character and a text without one. -/
theorem IsCode.exists_eq_cons {c : Text} (hc : IsCode c) : ∃ t, c = '\x1b' :: t ∧ '\x1b' ∉ t := by
  obtain ⟨ds, -, hdigits, rfl⟩ := hc
  have hescape : '\x1b' ∉ ds := fun h => absurd (hdigits _ h) (by decide)
  exact ⟨_, rfl, by simpa using hescape⟩

theorem IsCode.append_inj {c c' s s' : Text} (hc : IsCode c) (hc' : IsCode c')
    (h : c ++ s = c' ++ s') : c = c' ∧ s = s' := by
  have hs : s = s' := by
    have hafter := hc.afterCode?_append s
    rw [h, hc'.afterCode?_append] at hafter
    exact (Option.some.inj hafter).symm
  rw [hs] at h
  exact ⟨List.append_cancel_right h, hs⟩

/-- Behind a text without escape characters a code stands in what follows the text. -/
theorem IsCode.exists_of_append_eq {c x s a b : Text} (hc : IsCode c) (hx : '\x1b' ∉ x)
    (h : x ++ s = a ++ c ++ b) : ∃ a', a = x ++ a' ∧ s = a' ++ c ++ b := by
  obtain ⟨t, rfl, -⟩ := hc.exists_eq_cons
  rw [List.append_assoc] at h
  rcases List.append_eq_append_iff.1 h with ⟨a', ha, hs⟩ | ⟨x', hx', hs⟩
  · exact ⟨a', ha, by rw [hs, List.append_assoc]⟩
  · cases x' with
    | nil => exact ⟨[], by rw [hx', List.append_nil, List.append_nil], by simpa using hs.symm⟩
    | cons d x' =>
      obtain ⟨rfl, -⟩ := List.cons.inj hs
      exact absurd (by rw [hx']; simp) hx

/-- Codes do not overlap: in a text that starts with a code, each code is this one or stands behind
    it. -/
theorem IsCode.eq_or_behind {c c' s a b : Text} (hc : IsCode c) (hc' : IsCode c')
    (h : c ++ s = a ++ c' ++ b) : (c' = c ∧ b = s) ∨ ∃ a', s = a' ++ c' ++ b := by
  cases a with
  | nil => exact Or.inl (hc'.append_inj hc h.symm)
  | cons d a =>
    obtain ⟨t, rfl, ht⟩ := hc.exists_eq_cons
    obtain ⟨-, htail⟩ := List.cons.inj h
    obtain ⟨a', -, hs⟩ := hc'.exists_of_append_eq ht htail
    exact Or.inr ⟨a', hs⟩

/-! ## Texts without their codes -/

/-- A text without the codes in it. -/
def withoutCodes (s : Text) : Text :=
  match _h : afterCode? s with
  | some rest => withoutCodes rest
  | none =>
    match s with
    | [] => []
    | c :: s => c :: withoutCodes s
termination_by s.length
decreasing_by
  · obtain ⟨c, ⟨_, _, _, rfl⟩, rfl⟩ := afterCode?_eq_some_iff.1 _h
    simp only [List.length_append, List.length_cons]
    omega
  · exact Nat.lt_succ_self _

@[simp] theorem withoutCodes_nil : withoutCodes [] = [] := by
  rw [withoutCodes]
  rfl

theorem IsCode.withoutCodes_append {c : Text} (hc : IsCode c) (s : Text) :
    withoutCodes (c ++ s) = withoutCodes s := by
  rw [withoutCodes]
  split
  · rename_i rest h
    rw [hc.afterCode?_append] at h
    rw [Option.some.inj h]
  · rename_i h
    rw [hc.afterCode?_append] at h
    cases h

theorem withoutCodes_cons {c : Char} {s : Text} (h : ∀ k t, IsCode k → c :: s ≠ k ++ t) :
    withoutCodes (c :: s) = c :: withoutCodes s := by
  rw [withoutCodes]
  split
  · rename_i hcode
    obtain ⟨k, hk, heq⟩ := afterCode?_eq_some_iff.1 hcode
    exact absurd heq (h k _ hk)
  · rfl

theorem withoutCodes_append {s : Text} (hs : '\x1b' ∉ s) (t : Text) :
    withoutCodes (s ++ t) = s ++ withoutCodes t := by
  induction s with
  | nil => rfl
  | cons c s ih =>
    rw [List.mem_cons, not_or] at hs
    obtain ⟨hc, hs⟩ := hs
    rw [List.cons_append, withoutCodes_cons, ih hs, List.cons_append]
    rintro k r hk heq
    obtain ⟨k, rfl, -⟩ := hk.exists_eq_cons
    exact hc (List.cons.inj heq).1.symm

/-! ## Texts that end their styles -/

/-- Whether a text ends each style that it starts: the next code behind one that starts a style is
    the one that ends all styles. -/
def EndsStyles (t : Text) : Prop :=
  ∀ a c b, t = a ++ c ++ b → IsCode c → c ≠ plainCode →
    ∃ m e, b = m ++ plainCode ++ e ∧ '\x1b' ∉ m

theorem isCode_plainCode : IsCode plainCode := ⟨['0'], by decide, by decide, by decide⟩

theorem endsStyles_nil : EndsStyles [] := by
  intro a c b h hc
  obtain ⟨t, rfl, -⟩ := hc.exists_eq_cons
  simp at h

theorem EndsStyles.append_left {s t : Text} (ht : EndsStyles t) (hs : '\x1b' ∉ s) :
    EndsStyles (s ++ t) := by
  intro a c b h hc
  obtain ⟨a', -, ht'⟩ := hc.exists_of_append_eq hs h
  exact ht a' c b ht' hc

/-- A text between a code and the one that ends all styles. -/
theorem EndsStyles.styled {k s t : Text} (ht : EndsStyles t) (hk : IsCode k) (hs : '\x1b' ∉ s) :
    EndsStyles (k ++ (s ++ (plainCode ++ t))) := by
  intro a c b h hc hne
  rcases hk.eq_or_behind hc h with ⟨-, rfl⟩ | ⟨a₁, h₁⟩
  · exact ⟨s, t, (List.append_assoc ..).symm, hs⟩
  · obtain ⟨a₂, -, h₂⟩ := hc.exists_of_append_eq hs h₁
    rcases isCode_plainCode.eq_or_behind hc h₂ with ⟨heq, -⟩ | ⟨a₃, h₃⟩
    · exact absurd heq hne
    · exact ht a₃ c b h₃ hc hne

end Text

open Text

/-! ## Lines with styles -/

theorem Style.isCode (s : Style) : IsCode s.code := by
  cases s with
  | red => exact ⟨['3', '1'], by decide, by decide, by decide⟩
  | green => exact ⟨['3', '2'], by decide, by decide, by decide⟩
  | yellow => exact ⟨['3', '3'], by decide, by decide, by decide⟩
  | dim => exact ⟨['2'], by decide, by decide, by decide⟩

namespace Span

variable {s : Span} (hs : '\x1b' ∉ s.text) (t : Text)
include hs

theorem withoutCodes_render_append :
    withoutCodes (s.render true ++ t) = s.text ++ withoutCodes t := by
  unfold render
  split
  · rename_i style _
    rw [if_pos rfl, List.append_assoc, List.append_assoc, style.isCode.withoutCodes_append,
      withoutCodes_append hs, isCode_plainCode.withoutCodes_append]
  · exact withoutCodes_append hs t

theorem endsStyles_render_append {t : Text} (ht : EndsStyles t) :
    EndsStyles (s.render true ++ t) := by
  unfold render
  split
  · rename_i style _
    rw [if_pos rfl, List.append_assoc, List.append_assoc]
    exact ht.styled style.isCode hs
  · exact ht.append_left hs

end Span

section Lines

variable {l : Line} (hl : '\x1b' ∉ Plain.lineText l) (t : Text)
include hl

theorem withoutCodes_line_append :
    withoutCodes (l.flatMap (·.render true) ++ t) = Plain.lineText l ++ withoutCodes t := by
  unfold Plain.lineText at hl ⊢
  induction l with
  | nil => rfl
  | cons s l ih =>
    rw [List.flatMap_cons, List.mem_append, not_or] at hl
    rw [List.flatMap_cons, List.flatMap_cons, List.append_assoc, List.append_assoc,
      s.withoutCodes_render_append hl.1, ih hl.2]

theorem endsStyles_line : EndsStyles (l.flatMap (·.render true)) := by
  unfold Plain.lineText at hl
  induction l with
  | nil => exact endsStyles_nil
  | cons s l ih =>
    rw [List.flatMap_cons, List.mem_append, not_or] at hl
    exact s.endsStyles_render_append hl.1 (ih hl.2)

end Lines

theorem withoutCodes_renderLines {ls : List Line} (h : ∀ l ∈ ls, '\x1b' ∉ Plain.lineText l) :
    withoutCodes (renderLines true ls) = renderLines false ls := by
  rw [Plain.renderLines_eq]
  unfold renderLines
  induction ls with
  | nil => exact withoutCodes_nil
  | cons l ls ih =>
    obtain ⟨hl, hls⟩ := List.forall_mem_cons.1 h
    rw [List.flatMap_cons, List.append_assoc, withoutCodes_line_append hl,
      withoutCodes_append (by decide), ih hls, List.map_cons, List.flatMap_cons,
      List.append_assoc]

/-- The codes of styles have no line feeds. -/
theorem newline_not_mem_line {l : Line} (hl : '\n' ∉ Plain.lineText l) :
    '\n' ∉ l.flatMap (·.render true) := by
  intro h
  obtain ⟨s, hs, h⟩ := List.mem_flatMap.1 h
  have htext : '\n' ∉ s.text := fun hm => hl (List.mem_flatMap.2 ⟨s, hs, hm⟩)
  have hplain : '\n' ∉ plainCode := by decide
  unfold Span.render at h
  split at h
  · rename_i style _
    have hcode : '\n' ∉ style.code := by cases style <;> decide
    simp [hcode, htext, hplain] at h
  · exact htext h

theorem split_renderLines {ls : List Line} (h : ∀ l ∈ ls, '\n' ∉ Plain.lineText l) :
    split '\n' (renderLines true ls) = ls.map (fun l => l.flatMap (·.render true)) ++ [[]] := by
  have hlines : renderLines true ls
      = (ls.map fun l => l.flatMap (·.render true)).flatMap (· ++ ['\n']) := by
    rw [List.flatMap_map]
    rfl
  rw [hlines, split_lines_iff, List.forall_mem_map]
  exact fun l hl => newline_not_mem_line (h l hl)

/-! ## Reports -/

/-- Whether a character is neither in the path of a report nor in one of its messages. -/
def FileReport.IsFreeOf (c : Char) (r : FileReport) : Prop :=
  c ∉ r.path ∧ ∀ d ∈ r.report.diagnostics, c ∉ d.message.toList

instance (c : Char) : DecidablePred (FileReport.IsFreeOf c) :=
  fun _ => inferInstanceAs (Decidable (_ ∧ _))

namespace Plain

theorem control_not_mem_lines {c : Char} (hc : c < ' ') {rs : List FileReport}
    (h : ∀ r ∈ rs, r.IsFreeOf c) (verbose : Nat) : ∀ l ∈ lines verbose rs, c ∉ lineText l :=
  (control_not_mem_lines_iff hc fun r hr => (h r hr).1).2 fun r hr => (h r hr).2

/-- When no path and no message has an escape character, the text with colors is the text without
    them and codes. When none has a line feed either, every line ends the styles that it starts. -/
theorem colors_are_presentation {rs : List FileReport} (hescape : ∀ r ∈ rs, r.IsFreeOf '\x1b')
    (verbose : Nat) :
    withoutCodes (Format.text.write ColorChoice.always.isColored verbose rs)
        = Format.text.write ColorChoice.never.isColored verbose rs ∧
      ((∀ r ∈ rs, r.IsFreeOf '\n') →
        ∀ line ∈ split '\n' (Format.text.write ColorChoice.always.isColored verbose rs),
          EndsStyles line) := by
  have hlines := control_not_mem_lines (by decide) hescape verbose
  refine ⟨withoutCodes_renderLines hlines, fun hnewline line hline => ?_⟩
  have hsplit := split_renderLines (control_not_mem_lines (by decide) hnewline verbose)
  have hmem : line ∈ split '\n' (renderLines true (lines verbose rs)) := hline
  rw [hsplit, List.mem_append, List.mem_map, List.mem_singleton] at hmem
  rcases hmem with ⟨l, hl, rfl⟩ | rfl
  · exact endsStyles_line (hlines l hl)
  · exact endsStyles_nil

/-- Reports whose paths and messages would have codes in them if the escape character stood before
    the bracket. -/
def bracketReports : List FileReport :=
  [⟨"[31m.css".toList, { diagnostics := [
      { rule := "r", message := "no [0m", kind := .violation, position := some ⟨1, 13⟩ },
      { rule := "r", message := "[2m", kind := .violation, severity := .warning }] }⟩,
    ⟨"[0m.css".toList, { fixed := 2 }⟩]

theorem colors_are_presentation_bracketReports :
    (∀ r ∈ bracketReports, r.IsFreeOf '\x1b') ∧ (∀ r ∈ bracketReports, r.IsFreeOf '\n') ∧
      split '\n' (Format.text.write ColorChoice.always.isColored 2 bracketReports)
        = ["[31m.css:1:13  \x1b[31merror\x1b[0m  no [0m".toList,
          "[31m.css  \x1b[33mwarning\x1b[0m  [2m".toList,
          "\x1b[32m[0m.css: fixed 2\x1b[0m".toList, "\x1b[2m[0m.css: ok\x1b[0m".toList,
          "Summary: 2 files checked, \x1b[31m2\x1b[0m problems in 1 files, 2 fixed".toList, []] ∧
      withoutCodes (Format.text.write ColorChoice.always.isColored 2 bracketReports)
        = ("[31m.css:1:13  error  no [0m\n[31m.css  warning  [2m\n[0m.css: fixed 2\n"
          ++ "[0m.css: ok\nSummary: 2 files checked, 2 problems in 1 files, 2 fixed\n").toList ∧
      ∀ line ∈ split '\n' (Format.text.write ColorChoice.always.isColored 2 bracketReports),
        EndsStyles line :=
  have hescape : ∀ r ∈ bracketReports, r.IsFreeOf '\x1b' := by decide
  have hnewline : ∀ r ∈ bracketReports, r.IsFreeOf '\n' := by decide
  ⟨hescape, hnewline, by decide +kernel,
    (colors_are_presentation hescape 2).1.trans (by decide +kernel),
    (colors_are_presentation hescape 2).2 hnewline⟩

end Plain

end SheetLint
