import SheetLint.Config.Rules
import SheetLint.Proofs.Rule.Sources

/-
  What a configuration makes of the value that it has for the rule. `false` turns the rule off, and
  the option is the text of a string or the written form of any other value. A written form starts
  with a digit, a sign, a bracket, or the first letter of `true`, `false`, `inf` or `nan`
  (`Toml.startsForm_write`), so of all values only the string `always` gives the option that the
  rule accepts (`Setting.ofValue_eq_always`). Every other value but `false` is refused, and the
  sheet is neither reported on nor fixed (`only_always_activates`).
-/

namespace SheetLint

/-! ## How written forms start -/

namespace Toml

/-- The characters that the written form of a value other than a string can start with. -/
def isFormStart (c : Char) : Bool :=
  c.isDigit || c == '-' || c == '[' || c == '{' || c == 't' || c == 'f' || c == 'i' || c == 'n'

/-- A text that starts as written forms do. -/
def StartsForm (s : Text) : Prop := ∃ c t, s = c :: t ∧ isFormStart c

theorem StartsForm.append {s : Text} (h : StartsForm s) (t : Text) : StartsForm (s ++ t) := by
  obtain ⟨c, u, rfl, hc⟩ := h
  exact ⟨c, u ++ t, rfl, hc⟩

theorem StartsForm.take {s : Text} (h : StartsForm s) {n : Nat} (hn : 0 < n) :
    StartsForm (s.take n) := by
  obtain ⟨c, u, rfl, hc⟩ := h
  obtain ⟨m, rfl⟩ : ∃ m, n = m + 1 := ⟨n - 1, by omega⟩
  exact ⟨c, u.take m, rfl, hc⟩

theorem StartsForm.sign {s : Text} (h : StartsForm s) (negative : Bool) :
    StartsForm ((if negative then ['-'] else []) ++ s) := by
  cases negative with
  | true => exact ⟨'-', s, rfl, rfl⟩
  | false => exact h

theorem startsForm_toDigits (n : Nat) : StartsForm (Nat.toDigits 10 n) := by
  obtain ⟨c, t, hs⟩ := List.exists_cons_of_ne_nil (Nat.toDigits_ne_nil (n := n) (b := 10))
  have hc : c ∈ Nat.toDigits 10 n := by
    rw [hs]
    exact List.mem_cons_self
  have hd : c.isDigit = true := Nat.isDigit_of_mem_toDigits (by decide) (by decide) hc
  exact ⟨c, t, hs, by simp [isFormStart, hd]⟩

/-- Numbers may be written with zeros in front. -/
theorem startsForm_padded (k n : Nat) :
    StartsForm (List.replicate k '0' ++ Nat.toDigits 10 n) := by
  cases k with
  | zero => exact startsForm_toDigits n
  | succ k => exact ⟨'0', _, rfl, by decide⟩

theorem startsForm_writeInteger (i : Int) : StartsForm (writeInteger i) := by
  unfold writeInteger
  split
  · exact ⟨'-', _, rfl, by decide⟩
  · exact startsForm_toDigits _

theorem startsForm_writeDecimal (d : Binary64.Decimal) : StartsForm (writeDecimal d) := by
  unfold writeDecimal
  dsimp only
  split
  · apply StartsForm.append
    apply StartsForm.append
    exact startsForm_toDigits d.digits
  · -- There are more digits than places, so at least one comes before the point.
    apply StartsForm.append
    apply StartsForm.append
    apply (startsForm_padded _ d.digits).take
    simp only [List.length_append, List.length_replicate]
    omega

theorem startsForm_writeFloat (x : Binary64) : StartsForm (writeFloat x) := by
  unfold writeFloat
  split
  · exact StartsForm.sign ⟨'0', _, rfl, by decide⟩ _
  · exact (startsForm_writeDecimal _).sign _
  · exact StartsForm.sign ⟨'i', _, rfl, by decide⟩ _
  · exact ⟨'n', _, rfl, by decide⟩

theorem startsForm_writeDatetime (t : Datetime) : StartsForm (writeDatetime t) := by
  have hdate (d : Date) : StartsForm (writeDate d) := by
    unfold writeDate fourDigits
    simp only [List.append_assoc]
    rw [← List.append_assoc]
    exact (startsForm_padded _ d.year).append _
  cases t with
  | date d => exact hdate d
  | time t =>
    unfold writeDatetime writeTime twoDigits
    simp only [List.append_assoc]
    rw [← List.append_assoc]
    exact (startsForm_padded _ t.hour).append _
  | both d t z =>
    unfold writeDatetime
    simp only [List.append_assoc]
    exact (hdate d).append _

/-- The written form of a value that is no string starts with no other letter than those. -/
theorem startsForm_write {v : Value} (h : ∀ s, v ≠ .string s) : StartsForm v.write := by
  cases v with
  | string s => exact absurd rfl (h s)
  | integer i => rw [Value.write]; exact startsForm_writeInteger i
  | float x => rw [Value.write]; exact startsForm_writeFloat x
  | boolean b => cases b <;> exact ⟨_, _, by rw [Value.write]; rfl, by decide⟩
  | datetime t => rw [Value.write]; exact startsForm_writeDatetime t
  | array vs => exact ⟨'[', _, by rw [Value.write]; rfl, by decide⟩
  | table es =>
    cases es with
    | nil => exact ⟨'{', ['}'], by rw [Value.write], by decide⟩
    | cons e es => exact ⟨'{', _, by rw [Value.write]; rfl, by decide⟩

end Toml

/-! ## Settings -/

namespace Setting

/-- The option of a value that is neither a string nor a truth value is its written form. -/
theorem ofValue_of_not_word {v : Toml.Value} (hs : ∀ s, v ≠ .string s) (hb : ∀ b, v ≠ .boolean b) :
    ofValue v = enabled (some (String.ofList v.write)) := by
  cases v with
  | string s => exact absurd rfl (hs s)
  | boolean b => exact absurd rfl (hb b)
  | _ => rfl

theorem ofValue_eq_disabled {v : Toml.Value} : ofValue v = disabled ↔ v = .boolean false := by
  constructor
  · intro h
    cases v with
    | boolean b =>
      cases b with
      | false => rfl
      | true => cases h
    | _ => cases h
  · rintro rfl
    rfl

/-- Only the string itself gives the option that the rule accepts. -/
theorem ofValue_eq_always {v : Toml.Value} :
    ofValue v = enabled (some "always") ↔ v = .string "always" := by
  constructor
  · intro h
    by_cases hs : ∃ s, v = .string s
    · obtain ⟨s, rfl⟩ := hs
      injection h with h
      rw [Option.some.inj h]
    · by_cases hb : ∃ b, v = .boolean b
      · obtain ⟨b, rfl⟩ := hb
        cases b <;> cases h
      · have hs' : ∀ s, v ≠ .string s := fun s he => hs ⟨s, he⟩
        rw [ofValue_of_not_word hs' fun b he => hb ⟨b, he⟩] at h
        injection h with h
        have hwrite := congrArg String.toList (Option.some.inj h)
        rw [String.toList_ofList] at hwrite
        obtain ⟨c, t, ht, hc⟩ := Toml.startsForm_write hs'
        rw [hwrite] at ht
        -- The letter `a` is none that a written form starts with.
        obtain ⟨rfl, _⟩ := List.cons.inj ht
        exact absurd hc (by decide)
  · rintro rfl
    rfl

end Setting

namespace NewlineAfterSemicolon

/-! ## Linting with a value -/

/-- The checks that a setting of the rule asks for. -/
def checksOf : Setting → Linter
  | .disabled => []
  | .enabled option => .instances [option]

/-- A configuration without rules asks for no check, one with a value for the rule for what the
    value says. -/
theorem linter_of_value {c : Config} {value : Option Toml.Value}
    (hc : c.rules = (value.map fun v => (name, v)).toList) :
    c.linter = .ok ((value.map fun v => checksOf (Setting.ofValue v)).getD []) := by
  unfold Config.linter
  rw [hc]
  cases value with
  | none => rfl
  | some v =>
    have hname : Rule.ofName? name = some .newlineAfterSemicolon := by decide
    show Config.checks [(name, v)] = .ok (checksOf (Setting.ofValue v))
    rw [Config.checks, Config.check?]
    cases Setting.ofValue v with
    | disabled => rfl
    | enabled option =>
      rw [hname]
      rfl

/-- What a single run of the rule on a document has to report. -/
def runReport (mode : Mode) (d : Document) : SourceReport :=
  let (fixed, outcome) := run (some "always") mode d
  { diagnostics := outcome.diagnostics
    fixed := outcome.fixed
    output := if mode = .fix ∧ 0 < outcome.fixed then some fixed.render else none }

theorem lintDocument_always (mode : Mode) (d : Document) :
    ((Linter.instances [some "always"]).lintDocument mode d).2 = runReport mode d := by
  simp [Linter.instances, Linter.lintDocument, Linter.runAll, Rule.run, runReport]

/-- An option that is refused is all that is reported, and the document is not looked at. -/
theorem lintDocument_refused {option : Option String} (h : option ≠ some "always") (mode : Mode)
    (d : Document) :
    (Linter.instances [option]).lintDocument mode d = (d, { diagnostics := [refusal option] }) := by
  simp [Linter.instances, Linter.lintDocument, Linter.runAll, Rule.run, run_of_ne_always h,
    Outcome.diagnostics, Outcome.fixed]

/-- With at most the one rule in the configuration, a sheet is linted as the value of the rule
    says: the string `always` runs the rule, `false` and no value at all report nothing, and every
    other value is reported itself, once, whether findings were to be reported or to be fixed. -/
theorem only_always_activates {s : Text} {d : Document} (h : parse s = .ok d) {c : Config}
    {value : Option Toml.Value} (hc : c.rules = (value.map fun v => (name, v)).toList)
    (mode : Mode) :
    ∃ l report, c.linter = .ok l ∧ l.lintSource mode s = .ok report ∧
      (value = some (.string "always") → report = runReport mode d) ∧
      (value = none ∨ value = some (.boolean false) → report = {}) ∧
      ∀ v, value = some v → v ≠ .string "always" → v ≠ .boolean false →
        ∃ option, Setting.ofValue v = .enabled option ∧
          report = { diagnostics := [refusal option], fixed := 0, output := none } ∧
          (refusal option).kind = .invalidOption ∧ report.hasViolations = false := by
  refine ⟨_, _, linter_of_value hc, lintSource_of_parse h, ?_, ?_, ?_⟩
  · rintro rfl
    exact lintDocument_always mode d
  · rintro (rfl | rfl)
    · simp [Linter.lintDocument, Linter.runAll]
    · simp [Setting.ofValue, checksOf, Linter.lintDocument, Linter.runAll]
  · rintro v rfl hstring hfalse
    cases hv : Setting.ofValue v with
    | disabled => exact absurd (Setting.ofValue_eq_disabled.1 hv) hfalse
    | enabled option =>
      have hne : option ≠ some "always" := by
        rintro rfl
        exact hstring (Setting.ofValue_eq_always.1 hv)
      have hreport := congrArg Prod.snd (lintDocument_refused hne mode d)
      refine ⟨option, rfl, ?_, rfl, ?_⟩
      · rw [Option.map_some, hv]
        exact hreport
      · rw [Option.map_some, hv]
        exact congrArg SourceReport.hasViolations hreport

/-- A configuration that has the accepted option in an array. -/
def listedOption : Config where
  rules := [(name, .array [.string "always"])]

theorem only_always_activates_listedOption :
    ∃ d l, parse "@a b;@c d;".toList = .ok d ∧ listedOption.linter = .ok l ∧
      l.lintSource .fix "@a b;@c d;".toList
        = .ok { diagnostics := [refusal (some "[\"always\"]")], fixed := 0, output := none } := by
  obtain ⟨d, hd⟩ : ∃ d, parse "@a b;@c d;".toList = .ok d :=
    exists_of_toBool_parse (by decide +kernel)
  have hc : listedOption.rules
      = ((some (.array [.string "always"])).map fun v : Toml.Value => (name, v)).toList := rfl
  obtain ⟨l, report, hl, hlint, _, _, hrefused⟩ := only_always_activates hd hc .fix
  obtain ⟨option, hoption, hreport, _, _⟩ := hrefused _ rfl (by simp) (by simp)
  have hwritten : Setting.ofValue (.array [.string "always"])
      = .enabled (some "[\"always\"]") := by decide +kernel
  rw [hwritten] at hoption
  injection hoption with hoption
  refine ⟨d, l, hd, hl, ?_⟩
  rw [hlint, hreport, hoption]

end NewlineAfterSemicolon

end SheetLint
