import SheetLint.Command.Check
import SheetLint.Proofs.Files.Places

/-
  Writing fixed texts into the files that they are of. Every text is written, each into its file,
  and no other file is touched (`exists_writeFixes`); a file that is named twice gets the same text
  twice. What one write keeps, all of them keep.
-/

namespace SheetLint.Check

/-- The files of some reports are there, and reports of the same file have the same text for it. -/
structure Writable (rs : List FileReport) (d : Disk) : Prop where
  there : ∀ r ∈ rs, ∃ ns c, d.locate? r.path = some ns ∧ d.tree.contentAt? ns = some c
  same : ∀ r ∈ rs, ∀ r' ∈ rs, d.locate? r.path = d.locate? r'.path →
    r.report.output = r'.report.output

theorem Writable.tail {r : FileReport} {rs : List FileReport} {d : Disk}
    (h : Writable (r :: rs) d) : Writable rs d :=
  ⟨fun r' hr => h.there r' (List.mem_cons_of_mem r hr),
    fun r₁ h₁ r₂ h₂ => h.same r₁ (List.mem_cons_of_mem r h₁) r₂ (List.mem_cons_of_mem r h₂)⟩

theorem Writable.of_sameLayout {rs : List FileReport} {d e : Disk} (h : Writable rs d)
    (hl : d.SameLayout e) : Writable rs e := by
  refine ⟨?_, ?_⟩
  · intro r hr
    obtain ⟨ns, c, hloc, hc⟩ := h.there r hr
    have hsome := hl.files ns
    rw [hc] at hsome
    obtain ⟨c', hc'⟩ := Option.isSome_iff_exists.1 hsome
    exact ⟨ns, c', by rw [hl.locate?_eq, hloc], hc'⟩
  · intro r hr r' hr' hloc
    rw [hl.locate?_eq, hl.locate?_eq] at hloc
    exact h.same r hr r' hr' hloc

/-- What writing the texts of some reports makes of a disk. -/
structure Written (rs : List FileReport) (d e : Disk) : Prop where
  layout : d.SameLayout e
  changed : ∀ r ∈ rs, ∀ s ns, r.report.output = some s → d.locate? r.path = some ns →
    e.tree.contentAt? ns = some (.text s)
  kept : ∀ ns, (∀ r ∈ rs, d.locate? r.path = some ns → r.report.output = none) →
    e.tree.contentAt? ns = d.tree.contentAt? ns

theorem Written.nil (d : Disk) : Written [] d d :=
  ⟨.refl d, fun _ hr => (List.not_mem_nil hr).elim, fun _ _ => rfl⟩

/-- A report without a text writes nothing. -/
theorem Written.skip {r : FileReport} {rs : List FileReport} {d e : Disk} (h : Written rs d e)
    (hr : r.report.output = none) : Written (r :: rs) d e := by
  refine ⟨h.layout, ?_, ?_⟩
  · intro r' hr' s ns ho hloc
    rcases List.mem_cons.1 hr' with rfl | hr'
    · rw [hr] at ho
      cases ho
    · exact h.changed r' hr' s ns ho hloc
  · intro ns hnone
    exact h.kept ns fun r' hr' => hnone r' (List.mem_cons_of_mem r hr')

/-- One text is written first. Where a later report is of the same file, it has the same text. -/
theorem Written.cons {r : FileReport} {rs : List FileReport} {d e : Disk} {s : Text}
    {ns : List Text} {u : FileTree} {c : Content} (hw : Writable (r :: rs) d)
    (hr : r.report.output = some s) (hloc : d.locate? r.path = some ns)
    (hfile : d.tree.contentAt? ns = some c) (hu : d.tree.write? (.text s) ns = some u)
    (h : Written rs { d with tree := u } e) : Written (r :: rs) d e := by
  have hlayout := Disk.sameLayout_write? hfile hu
  have hput := FileTree.contentAt?_write? hfile hu
  have hchanged : ∀ r' ∈ rs, ∀ s' ms, r'.report.output = some s' → d.locate? r'.path = some ms →
      e.tree.contentAt? ms = some (.text s') := by
    intro r' hr' s' ms ho hloc'
    exact h.changed r' hr' s' ms ho (by rw [hlayout.locate?_eq, hloc'])
  have hkept : ∀ ms, (∀ r' ∈ rs, d.locate? r'.path = some ms → r'.report.output = none) →
      e.tree.contentAt? ms = u.contentAt? ms := by
    intro ms hnone
    refine h.kept ms fun r' hr' hloc' => hnone r' hr' ?_
    rwa [hlayout.locate?_eq] at hloc'
  refine ⟨hlayout.trans h.layout, ?_, ?_⟩
  · intro r' hr' s' ms ho hloc'
    rcases List.mem_cons.1 hr' with rfl | hr'
    · rw [hr, Option.some.injEq] at ho
      rw [hloc, Option.some.injEq] at hloc'
      subst ho hloc'
      by_cases hlater : ∃ r'' ∈ rs, d.locate? r''.path = some ns
      · obtain ⟨r'', hr'', hloc''⟩ := hlater
        have hsame := hw.same r'' (List.mem_cons_of_mem _ hr'') r' hr' (hloc''.trans hloc.symm)
        exact hchanged r'' hr'' s ns (hsame.trans hr) hloc''
      · rw [hkept ns fun r'' hr'' hloc'' => (hlater ⟨r'', hr'', hloc''⟩).elim, hput, if_pos rfl]
    · exact hchanged r' hr' s' ms ho hloc'
  · intro ms hnone
    have hne : ms ≠ ns := by
      rintro rfl
      have := hnone r List.mem_cons_self hloc
      rw [hr] at this
      cases this
    rw [hkept ms fun r' hr' => hnone r' (List.mem_cons_of_mem r hr'), hput, if_neg hne]

/-- All texts are written, and what every write keeps is kept. -/
theorem exists_writeFixes {P : Disk → Prop} {rs : List FileReport} {d : Disk} (h : Writable rs d)
    (hd : P d)
    (hstep : ∀ r ∈ rs, ∀ s ns, r.report.output = some s → d.locate? r.path = some ns →
      ∀ e u, d.SameLayout e → P e → e.tree.write? (.text s) ns = some u → P { e with tree := u }) :
    ∃ e, writeFixes d rs = (e, none) ∧ Written rs d e ∧ P e := by
  induction rs generalizing d with
  | nil => exact ⟨d, rfl, .nil d, hd⟩
  | cons r rs ih =>
    obtain ⟨ns, c, hloc, hfile⟩ := h.there r List.mem_cons_self
    cases hr : r.report.output with
    | none =>
      obtain ⟨e, he, hwritten, hP⟩ :=
        ih h.tail hd fun r' hr' => hstep r' (List.mem_cons_of_mem r hr')
      refine ⟨e, ?_, hwritten.skip hr, hP⟩
      rw [writeFixes, hr]
      exact he
    | some s =>
      obtain ⟨u, hu, hw⟩ := Disk.write?_of_file hloc hfile s
      have hlayout := Disk.sameLayout_write? hfile hu
      have hd' := hstep r List.mem_cons_self s ns hr hloc d u (.refl d) hd hu
      obtain ⟨e, he, hwritten, hP⟩ := ih (h.tail.of_sameLayout hlayout) hd' (by
        intro r' hr' s' ns' ho hloc' e' u' hl
        rw [hlayout.locate?_eq] at hloc'
        exact hstep r' (List.mem_cons_of_mem r hr') s' ns' ho hloc' e' u' (hlayout.trans hl))
      refine ⟨e, ?_, hwritten.cons h hr hloc hfile hu, hP⟩
      rw [writeFixes, hr]
      dsimp only
      rw [hw]
      exact he

end SheetLint.Check
