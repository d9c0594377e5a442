import SheetLint.Config.Rules
import SheetLint.Proofs.Rule.Walk
import SheetLint.Proofs.Sheet.Padding

/-
  Fixing the text of a sheet once is enough (`fix_is_idempotent`). The text of the fixed document
  is read as that document, with new offsets, because putting newlines before nodes is padding;
  and what is found in a document does not depend on its offsets.
-/

namespace SheetLint

theorem map_raw_firstNonComment?_settleAll (closed : Bool) (start number : Nat) (ns : List Node) :
    (firstNonComment? (settleAll closed start number ns)).map Node.raw
      = (firstNonComment? ns).map Node.raw := by
  induction ns generalizing start number with
  | nil => rw [settleAll_nil]
  | cons n ns ih =>
    rw [settleAll_cons, firstNonComment?, firstNonComment?, List.find?_cons, List.find?_cons,
      Node.kind_settle]
    cases n.kind.isComment with
    | false => exact congrArg some (Node.raw_settle start number n)
    | true => exact ih _ _

namespace NewlineAfterSemicolon

/-! ## Findings do not depend on offsets -/

theorem isSome_finding?_eq (n : Node) (ns : List Node) :
    (finding? n ns).isSome
      = (n.isEligible ns && (firstNonComment? ns).any lacksNewline) := by
  unfold finding?
  cases firstNonComment? ns with
  | none => simp
  | some m => cases n.isEligible ns <;> cases hl : lacksNewline m <;> simp [hl]

theorem isSome_finding?_settle (closed : Bool) (start number start' number' : Nat) (n : Node)
    (ns : List Node) :
    (finding? (n.settle start number) (settleAll closed start' number' ns)).isSome
      = (finding? n ns).isSome := by
  have heligible : (n.settle start number).isEligible (settleAll closed start' number' ns)
      = n.isEligible ns := by
    unfold Node.isEligible Node.isStandardAtRule
    rw [isEmpty_settleAll, Node.kind_settle, Node.trivia_settle]
  have hlacks : (firstNonComment? (settleAll closed start' number' ns)).any lacksNewline
      = (firstNonComment? ns).any lacksNewline := by
    have hraw := map_raw_firstNonComment?_settleAll closed start' number' ns
    cases hm : firstNonComment? (settleAll closed start' number' ns) <;>
      cases hn : firstNonComment? ns <;> simp [hm, hn] at hraw
    · rfl
    · exact lacksNewline_congr (congrArg (List.take 2) hraw)
  rw [isSome_finding?_eq, isSome_finding?_eq, heligible, hlacks]

theorem length_findingsIn_settleAll (closed : Bool) (start number : Nat) (ns : List Node) :
    (findingsIn (settleAll closed start number ns)).length = (findingsIn ns).length := by
  induction ns using forestInduction generalizing closed start number with
  | nil => rw [settleAll_nil]
  | cons n ns below after =>
    have hhead := isSome_finding?_settle closed start number
      (start + Text.bytes (n.span (closed || !ns.isEmpty)))
      (number + 1 + (preorder n.children).length) n ns
    rw [settleAll_cons, findingsIn_cons, findingsIn_cons, Node.children_settle]
    simp only [List.length_append, below, after, Option.length_toList, hhead]

/-! ## The fixed text -/

theorem pads_putNewline {newline : Text} (h : newline = lineFeed ∨ newline = crLf) :
    Pads (putNewline newline) := by
  refine ⟨inPlace_putNewline newline, fun n => ⟨newline, ?_, rfl⟩⟩
  rcases h with rfl | rfl <;> simp [lineFeed, crLf, isFiller, isBlank]

section Fixed

variable {s : Text} {d : Document} (h : parse s = .ok d)
include h

/-- The root of a sheet is no node that a newline is missing before. -/
theorem root_broken :
    (broken d (lacking d)).root
      = { d.root with
          children := updateAll (fun i => decide (i ∈ lacking d)) (putNewline d.newline)
            d.root.children } := by
  have hnodup := (Document.numbered_of_parse h).nodup
  rw [Document.ids_eq, List.nodup_cons] at hnodup
  have hselect : decide (d.root.id ∈ lacking d) = false :=
    decide_eq_false fun hi => hnodup.1 (mem_idsIn_of_mem_lackingIn hi)
  unfold broken Document.updateWhere
  rw [(inPlace_putNewline _).updateWhere_eq, hselect]
  rfl

theorem render_broken :
    (broken d (lacking d)).render
      = renderAll d.root.trivia.semicolon
          (updateAll (fun i => decide (i ∈ lacking d)) (putNewline d.newline) d.root.children)
        ++ d.root.trivia.after := by
  have hroot : d.root.kind = .root := by
    obtain ⟨_, _, hd⟩ := readable_of_parse h
    rw [hd]
    rfl
  unfold Document.render
  rw [Node.render_eq, root_broken h, hroot]
  rfl

/-- The fixed document is read from its own text, with nothing to be found in it. -/
theorem exists_parse_fixed :
    ∃ e, parse (broken d (lacking d)).render = .ok e ∧ findings e = [] := by
  have hnone : findings (broken d (lacking d)) = [] :=
    findings_broken (Document.numbered_of_parse h) (fun _ hi => hi) (fun _ hi => hi)
  have hfixed := (pads_putNewline d.newline_eq).readable (fun i => decide (i ∈ lacking d))
    (readable_of_parse h).1
  rw [render_broken h]
  refine ⟨_, parse_of_readable hfixed, ?_⟩
  rw [findings, root_broken h] at hnone
  rw [← List.length_eq_zero_iff, findings, sheetOf, length_findingsIn_settleAll, hnone]
  rfl

end Fixed

/-- A text that is read as a document in which nothing is to be reported or to be fixed, neither by
    the rule nor by the linter that there is by default. -/
structure Clean (t : Text) (e : Document) : Prop where
  parse_eq : parse t = .ok e
  report : run (some "always") .report e = (e, .completed [] 0)
  fix : run (some "always") .fix e = (e, .completed [] 0)
  render_eq : e.render = t
  byDefault : ∃ l, ({} : Config).linter = .ok l ∧
    l.lintSource .fix t = .ok { diagnostics := [], fixed := 0, output := none }

theorem clean_of_findings_eq_nil {t : Text} {e : Document} (h : parse t = .ok e)
    (hnone : findings e = []) : Clean t e := by
  have hnum := Document.numbered_of_parse h
  have hfix : run (some "always") .fix e = (e, .completed [] 0) := by
    rw [run_always, walk_fix hnum, lacking, hnone, List.map_nil, broken_nil]
    rfl
  refine ⟨h, ?_, hfix, ?_, [⟨.newlineAfterSemicolon, some "always"⟩], rfl, ?_⟩
  · rw [run_always, walk_report hnum, hnone]
    rfl
  · obtain ⟨_, ht, he⟩ := readable_of_parse h
    rw [he, render_sheetOf, ht]
    rfl
  · simp [Linter.lintSource, h, Linter.lintDocument, Linter.runAll, Rule.run, hfix,
      Outcome.diagnostics, Outcome.fixed]

/-- The text of a sheet that was fixed has nothing left to fix, and fixing it again changes
    nothing. -/
theorem fix_is_idempotent {s : Text} {d : Document} (h : parse s = .ok d) :
    ∃ e, Clean (run (some "always") .fix d).1.render e := by
  obtain ⟨e, he, hnone⟩ := exists_parse_fixed h
  refine ⟨e, clean_of_findings_eq_nil ?_ hnone⟩
  rw [run_always, walk_fix (Document.numbered_of_parse h)]
  exact he

/-- A sheet with statements that share a line with what follows them, behind a comment and a stray
    semicolon, in a block, and before a carriage return that is no line ending. -/
def crowdedSheet : Text :=
  "@a b;/* c */;@d e;\r\n@media f \x7b@g h; i: j; @k l\x7d@m n;\ro\x7b\x7d".toList

theorem fix_is_idempotent_crowdedSheet :
    ∃ d e, parse crowdedSheet = .ok d ∧ (run (some "always") .fix d).2.fixed = 3 ∧
      Clean (run (some "always") .fix d).1.render e := by
  have hfixed : (parse crowdedSheet).toOption.map (fun d => (run (some "always") .fix d).2.fixed)
      = some 3 := by decide +kernel
  cases hd : parse crowdedSheet with
  | error e =>
    rw [hd] at hfixed
    cases hfixed
  | ok d =>
    rw [hd] at hfixed
    obtain ⟨e, he⟩ := fix_is_idempotent hd
    exact ⟨d, e, rfl, Option.some.inj hfixed, he⟩

end NewlineAfterSemicolon

end SheetLint
