import Mathlib.Data.List.Induction
import SheetLint.Proofs.Rule.Findings

/-
  Runs of the rule over a whole document. A run that reports gives the findings of the document in
  their order (`walk_report`). A run that fixes looks at each at-rule in a document that has changed
  meanwhile, and still fixes those findings and no others (`walk_fix`): what was fixed so far is a
  selection of the nodes that a newline was missing before, and the node to come is not in it.
-/

namespace SheetLint

theorem Document.newline_eq (d : Document) : d.newline = lineFeed ∨ d.newline = crLf := by
  unfold newline
  split
  · exact Or.inr rfl
  · exact Or.inl rfl

namespace NewlineAfterSemicolon

/-- What the rule finds in a document. -/
def findings (d : Document) : List Finding := findingsIn d.root.children

/-- The numbers of the nodes that a newline is missing before. -/
def lacking (d : Document) : List Nat := (findings d).map (·.inspected.id)

/-! ## The at-rules of a document -/

/-- The at-rules of a document with the siblings that follow them. -/
def atRuleSites (d : Document) : List Site :=
  (sitesIn d.root.children).filter (·.node.kind.isAtRule)

theorem map_id_atRules (d : Document) :
    d.atRules.map (·.id) = (atRuleSites d).map (·.node.id) := by
  rw [Document.atRules, Node.descendants_eq, ← map_node_sitesIn, List.filter_map, List.map_map]
  rfl

theorem findingAt?_of_site {d : Document} (h : d.Numbered) {s : Site}
    (hs : s ∈ sitesIn d.root.children) : findingAt? d s.node.id = finding? s.node s.following := by
  rw [findingAt?, Document.node?_of_site h hs, Option.bind_some, Document.following_of_site h hs]

theorem filterMap_atRuleSites (d : Document) :
    (atRuleSites d).filterMap (fun s => finding? s.node s.following) = findings d := by
  rw [atRuleSites, List.filterMap_filter, findings, findingsIn]
  apply List.filterMap_congr
  intro s _
  split
  · rfl
  · rename_i hs
    rw [eq_comm, Option.eq_none_iff_forall_ne_some]
    intro f hf
    obtain ⟨_, he, _⟩ := finding?_eq_some.1 hf
    obtain ⟨_, r, hr, _⟩ := Node.isEligible_iff.1 he
    rw [hr] at hs
    exact hs rfl

/-! ## Reporting -/

theorem run_always (mode : Mode) (d : Document) :
    run (some "always") mode d
      = ((walk mode d).document, .completed (walk mode d).diagnostics (walk mode d).fixed) := rfl

section Visit

variable {p : Progress} {id : Nat} {f : Finding}

theorem visit_of_none (h : findingAt? p.document id = none) (mode : Mode) :
    visit mode p id = p := by
  simp [visit, h]

theorem visit_report (h : findingAt? p.document id = some f) :
    visit .report p id = { p with diagnostics := p.diagnostics ++ [f.diagnostic p.document] } := by
  simp [visit, h]

theorem visit_fix (h : findingAt? p.document id = some f) :
    visit .fix p id
      = { p with
          document := p.document.update f.inspected.id (putNewline p.document.newline)
          fixed := p.fixed + 1 } := by
  simp [visit, h]

end Visit

theorem foldl_visit_report (ids : List Nat) (p : Progress) :
    ids.foldl (visit .report) p
      = { p with
          diagnostics := p.diagnostics
            ++ (ids.filterMap (findingAt? p.document)).map (·.diagnostic p.document) } := by
  induction ids generalizing p with
  | nil => simp
  | cons id ids ih =>
    rw [List.foldl_cons, List.filterMap_cons, ih]
    cases hf : findingAt? p.document id with
    | none => rw [visit_of_none hf]
    | some f => rw [visit_report hf]; simp

/-- Reporting changes nothing and reports every finding, in document order. -/
theorem walk_report {d : Document} (h : d.Numbered) :
    walk .report d
      = { document := d, diagnostics := (findings d).map (·.diagnostic d) } := by
  have hfind : (d.atRules.map (·.id)).filterMap (findingAt? d) = findings d := by
    rw [map_id_atRules, List.filterMap_map, ← filterMap_atRuleSites]
    apply List.filterMap_congr
    intro s hs
    exact findingAt?_of_site h (List.mem_of_mem_filter hs)
  rw [walk, foldl_visit_report, hfind]
  rfl

/-! ## Fixing -/

/-- A document with newlines put before the nodes of some numbers. -/
def broken (d : Document) (is : List Nat) : Document :=
  d.updateWhere (fun i => decide (i ∈ is)) (putNewline d.newline)

theorem broken_nil (d : Document) : broken d [] = d :=
  Document.updateWhere_of_none (fun _ => decide_eq_false List.not_mem_nil) _ d

/-- Putting one more newline. -/
theorem update_broken (d : Document) {is : List Nat} {i : Nat} (hi : i ∉ is) :
    (broken d is).update i (putNewline d.newline) = broken d (is ++ [i]) := by
  have hdisj (j : Nat) (hj : decide (j ∈ is) = true) : (j == i) = false := by
    rw [beq_eq_false_iff_ne]
    intro he
    exact hi (he ▸ of_decide_eq_true hj)
  unfold broken Document.update
  rw [Document.updateWhere_updateWhere (inPlace_putNewline _) hdisj]
  congr 1
  funext j
  rw [Bool.eq_iff_iff]
  simp

section Broken

variable {d : Document} (h : d.Numbered) {is : List Nat} (hi : ∀ i ∈ is, i ∈ lacking d)
include h hi

theorem selects_broken : Selects (fun i => decide (i ∈ is)) d.root.children :=
  ⟨h.nodup_children, fun i _ hs => hi i (of_decide_eq_true hs)⟩

/-- What is found at a site of a document in which some of the newlines were put already. -/
theorem findingAt?_broken {s : Site} (hs : s ∈ sitesIn d.root.children) :
    findingAt? (broken d is) s.node.id
      = ((finding? s.node s.following).filter fun f => !decide (f.inspected.id ∈ is)).map
          (Finding.updateWhere (fun i => decide (i ∈ is)) (putNewline d.newline)) := by
  have hc := inPlace_putNewline d.newline
  rw [findingAt?, broken, Document.node?_updateWhere hc, Document.node?_of_site h hs,
    Document.following_updateWhere hc, Document.following_of_site h hs]
  exact finding?_updateWhere d.newline_eq (selects_broken h hi) hs

/-- Nothing is found in a document in which all of the newlines were put. -/
theorem findings_broken (hall : ∀ i ∈ lacking d, i ∈ is) : findings (broken d is) = [] := by
  rw [findings, broken, Document.updateWhere, (inPlace_putNewline _).children_updateWhere]
  exact findingsIn_updateAll_eq_nil d.newline_eq (selects_broken h hi)
    fun i hi => decide_eq_true (hall i hi)

end Broken

/-- A step of a run that fixes: a newline is put where it is missing after the at-rule, if it is
    not there yet. -/
theorem visit_broken {d : Document} (h : d.Numbered) {is : List Nat}
    (hi : ∀ i ∈ is, i ∈ lacking d) {s : Site} (hs : s ∈ sitesIn d.root.children)
    (hfresh : ∀ f, finding? s.node s.following = some f → f.inspected.id ∉ is) (k : Nat) :
    visit .fix { document := broken d is, fixed := k } s.node.id
      = { document :=
            broken d (is ++ (finding? s.node s.following).toList.map (·.inspected.id))
          fixed := k + (finding? s.node s.following).toList.length } := by
  have hat := findingAt?_broken h hi hs
  cases hf : finding? s.node s.following with
  | none =>
    rw [hf] at hat
    rw [Option.toList_none, List.map_nil, List.append_nil]
    exact visit_of_none hat .fix
  | some f =>
    have hf' := hfresh f hf
    rw [hf, Option.filter_some, decide_eq_false hf'] at hat
    rw [Option.toList_some, List.map_singleton, ← update_broken d hf']
    refine (visit_fix hat).trans ?_
    rw [Finding.updateWhere, (inPlace_putNewline d.newline).id_updateWhere]
    rfl

/-- The state of a run that fixes, after it looked at some at-rules: newlines are put where they
    were missing after those, and nowhere else. -/
theorem foldl_visit_fix {d : Document} (h : d.Numbered) {ss : List Site}
    (hs : ∀ s ∈ ss, s ∈ sitesIn d.root.children) {fs : List Finding}
    (hfs : ss.filterMap (fun s => finding? s.node s.following) = fs)
    (hd : (fs.map (·.inspected.id)).Nodup) :
    (ss.map (·.node.id)).foldl (visit .fix) { document := d }
      = { document := broken d (fs.map (·.inspected.id)), fixed := fs.length } := by
  induction ss using List.reverseRecOn generalizing fs with
  | nil =>
    subst hfs
    simp [broken_nil]
  | append_singleton ss s ih =>
    obtain ⟨gs, hgs⟩ : ∃ gs, ss.filterMap (fun s => finding? s.node s.following) = gs := ⟨_, rfl⟩
    have hss : ∀ t ∈ ss, t ∈ sitesIn d.root.children :=
      fun t ht => hs t (List.mem_append_left _ ht)
    have hsite := hs s (List.mem_append_right _ (List.mem_singleton_self s))
    have hsplit : fs = gs ++ (finding? s.node s.following).toList := by
      rw [← hfs, List.filterMap_append, hgs, List.filterMap_cons]
      cases finding? s.node s.following <;> rfl
    have hlack : ∀ i ∈ gs.map (·.inspected.id), i ∈ lacking d := by
      intro i hi
      obtain ⟨f, hf, rfl⟩ := List.mem_map.1 hi
      rw [← hgs, List.mem_filterMap] at hf
      obtain ⟨t, ht, hf⟩ := hf
      exact List.mem_map_of_mem (mem_findingsIn_iff.2 ⟨t, hss t ht, hf⟩)
    rw [hsplit, List.map_append, List.nodup_append] at hd
    obtain ⟨hgd, _, hdisj⟩ := hd
    -- No newline was put yet before the node that this finding is about.
    have hfresh : ∀ f, finding? s.node s.following = some f →
        f.inspected.id ∉ gs.map (·.inspected.id) := by
      intro f hf hi
      refine hdisj _ hi f.inspected.id ?_ rfl
      rw [hf]
      exact List.mem_singleton_self _
    rw [List.map_append, List.foldl_append, ih hss hgs hgd, hsplit, List.map_append,
      List.length_append]
    exact visit_broken h hlack hsite hfresh gs.length

/-- Fixing puts a newline before each node that a finding is about. -/
theorem walk_fix {d : Document} (h : d.Numbered) :
    walk .fix d
      = { document := broken d (lacking d), fixed := (findings d).length } := by
  have hs : ∀ s ∈ atRuleSites d, s ∈ sitesIn d.root.children :=
    fun s hs => List.mem_of_mem_filter hs
  rw [walk, map_id_atRules]
  exact foldl_visit_fix h hs (filterMap_atRuleSites d) (nodup_lackingIn h.nodup_children)

end NewlineAfterSemicolon

end SheetLint
