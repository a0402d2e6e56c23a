/-
Loading in different languages.

The language in which texts are read decides on nothing but descriptions.  So two loadings from
one source, each in its own language, go the same way: they ask for the texts of the same idents
in the same order, have the same things to warn of, and end with the same specs up to what is
said about them, and with the same fault where there is one.

* `Corpus.bare`: a corpus without descriptions;
* `Corpus.readNext_bare`: a text brings the same bare specs;
* `Corpus.run_bare`: two loadings end alike.
-/
import Mathlib.Tactic
import EditorSchema.Proofs.Corpus.Registration
import EditorSchema.Proofs.Spec.Bare

namespace EditorSchema

lemma SpecEntry.tasks_bare (e : SpecEntry) : e.bare.tasks = e.tasks := by
  rw [tasks, tasks, bare, Spec.memberships_bare, Spec.ident_bare]

lemma SpecEntry.flatMap_tasks_bare {entries others : List SpecEntry}
    (h : entries.map bare = others.map bare) : entries.flatMap tasks = others.flatMap tasks := by
  have htasks (entries : List SpecEntry) :
      (entries.map bare).flatMap tasks = entries.flatMap tasks := by
    rw [List.flatMap_map]
    exact List.flatMap_congr fun e _ => e.tasks_bare
  rw [← htasks, h, htasks]

namespace Corpus

variable {language other textIdent : String} {source : Source} {c c' : Corpus}

/-- A corpus without descriptions. -/
def bare (c : Corpus) : Corpus := { c with table := c.table.bare }

/-! ### Registration -/

lemma put_bare (t : Table) (spec : Spec) : (t.put spec).bare = t.bare.put spec.bare := by
  refine Table.ext_get? fun ident => ?_
  rw [Table.get?_bare, get?_put, get?_put, Table.get?_bare, Spec.ident_bare]
  split <;> rfl

lemma withEntry_bare (e : SpecEntry) (c : Corpus) :
    (withEntry e c).bare = withEntry e.bare c.bare := by
  simp only [bare, withEntry, put_bare, SpecEntry.bare, Spec.ident_bare]

/-- Bare entries are registered as the entries are. -/
lemma registerAll_bare (entries : List SpecEntry) (c : Corpus) :
    registerAll textIdent (entries.map SpecEntry.bare) c.bare =
      ((registerAll textIdent entries c).1.bare,
        (registerAll textIdent entries c).2.map SpecEntry.bare) := by
  induction entries generalizing c with
  | nil => rfl
  | cons e rest ih =>
      have hident : e.bare.spec.ident = e.spec.ident := e.spec.ident_bare
      have hcontains : c.bare.table.contains e.bare.spec.ident = c.table.contains e.spec.ident := by
        rw [hident]
        exact c.table.contains_bare _
      rw [List.map_cons]
      by_cases hin : c.table.contains e.spec.ident = true
      · rw [registerAll_of_contains hin, registerAll_of_contains (hcontains.trans hin), hident]
        exact ih { c with warnings := c.warnings ++ [.duplicate e.spec.ident textIdent] }
      · rw [registerAll_of_not_contains hin, registerAll_of_not_contains (hcontains ▸ hin),
          ← withEntry_bare, ih]
        rfl

/-- **A text brings the same bare specs**, to corpora that are the same without descriptions. -/
lemma readNext_bare (ident : String) (entries : List SpecEntry) (c : Corpus) :
    readNext ident (entries.map SpecEntry.bare) c.bare =
      ((readNext ident entries c).1.bare, (readNext ident entries c).2.map SpecEntry.bare) := by
  have hdefined : (entries.map SpecEntry.bare).any (·.spec.ident == ident) =
      entries.any (·.spec.ident == ident) := by
    rw [List.any_map]
    refine congrArg (entries.any ·) (funext fun e => ?_)
    rw [Function.comp_apply, SpecEntry.bare, Spec.ident_bare]
  rw [readNext, readNext, register, register, hdefined, ← registerAll_bare]
  split <;> rfl

lemma readNext_alike (ident : String) (h : c.bare = c'.bare) {entries others : List SpecEntry}
    (hentries : entries.map SpecEntry.bare = others.map SpecEntry.bare) :
    (readNext ident entries c).1.bare = (readNext ident others c').1.bare ∧
      (readNext ident entries c).2.map SpecEntry.bare =
        (readNext ident others c').2.map SpecEntry.bare := by
  have hboth := readNext_bare ident entries c
  rw [h, hentries, readNext_bare] at hboth
  exact ⟨(congrArg Prod.fst hboth).symm, (congrArg Prod.snd hboth).symm⟩

/-! ### Loading -/

section Alike

variable (h : c.bare = c'.bare)
include h

lemma reads_of_bare : c.reads = c'.reads := (congrArg reads h : c.bare.reads = c'.bare.reads)

lemma memberships_of_bare : c.memberships = c'.memberships :=
  (congrArg memberships h : c.bare.memberships = c'.bare.memberships)

/-- The same idents are there or were asked for. -/
lemma reached_iff_of_bare (ident : String) :
    (c.table.contains ident = true ∨ ident ∈ c.reads) ↔
      (c'.table.contains ident = true ∨ ident ∈ c'.reads) := by
  have htable : c.table.bare = c'.table.bare := congrArg table h
  rw [← Table.contains_bare, htable, Table.contains_bare, reads_of_bare h]

/-- **Two loadings in different languages end alike.**  Each step of the one is a step of the
other, so the induction is on the steps of the one. -/
theorem run_bare {tasks : List Task} :
    (run language source tasks c).1.bare = (run other source tasks c').1.bare ∧
      (run language source tasks c).2 = (run other source tasks c').2 := by
  induction tasks, c using run.induct language source generalizing c' with
  | case1 c =>
      rw [run_nil, run_nil]
      exact ⟨h, rfl⟩
  | case2 member group tasks c hcycle =>
      rw [run_join_circle hcycle, run_join_circle (memberships_of_bare h ▸ hcycle)]
      exact ⟨h, rfl⟩
  | case3 member group tasks c hcycle ih =>
      rw [Bool.not_eq_true] at hcycle
      rw [run_join hcycle, run_join (memberships_of_bare h ▸ hcycle)]
      exact ih (congrArg (fun c => { c with memberships := c.memberships.add member group }) h)
  | case4 ident tasks c hdone ih =>
      have hdone : c.table.contains ident = true ∨ ident ∈ c.reads := by simpa using hdone
      rw [run_visit_done hdone, run_visit_done ((reached_iff_of_bare h ident).mp hdone)]
      exact ih h
  | case5 ident tasks c hnew fault htext =>
      have hnew : ¬ (c.table.contains ident = true ∨ ident ∈ c.reads) := by simpa using hnew
      have hnew' := (reached_iff_of_bare h ident).not.mp hnew
      rw [run_visit_unread hnew htext, run_visit_unread hnew' htext]
      exact ⟨congrArg (fun c => { c with reads := c.reads ++ [ident] }) h, rfl⟩
  | case6 ident tasks c hnew text htext fault hentries =>
      have hnew : ¬ (c.table.contains ident = true ∨ ident ∈ c.reads) := by simpa using hnew
      have hnew' := (reached_iff_of_bare h ident).not.mp hnew
      rcases Outcome.alike_of_map (SpecEntry.ofText_bare language other text) with
        ⟨fault', hentries', hothers⟩ | ⟨entries, _, hentries', -⟩
      · cases hentries.symm.trans hentries'
        rw [run_visit_invalid hnew htext hentries, run_visit_invalid hnew' htext hothers]
        exact ⟨congrArg (fun c => { c with reads := c.reads ++ [ident] }) h, rfl⟩
      · cases hentries.symm.trans hentries'
  | case7 ident tasks c hnew asked text htext entries hentries registered =>
      rename_i ih
      have hnew : ¬ (c.table.contains ident = true ∨ ident ∈ c.reads) := by simpa using hnew
      obtain ⟨htable, hreads⟩ := not_or.mp hnew
      obtain ⟨htable', hreads'⟩ := not_or.mp ((reached_iff_of_bare h ident).not.mp hnew)
      rcases Outcome.alike_of_map (SpecEntry.ofText_bare language other text) with
        ⟨fault, hentries', -⟩ | ⟨_, others, hentries', hothers, hbare⟩
      · cases hentries.symm.trans hentries'
      · cases hentries.symm.trans hentries'
        obtain ⟨hnext, hadded⟩ := readNext_alike ident h hbare
        rw [run_visit_new (Bool.not_eq_true _ ▸ htable) hreads htext hentries,
          run_visit_new (Bool.not_eq_true _ ▸ htable') hreads' htext hothers,
          ← SpecEntry.flatMap_tasks_bare hadded]
        exact ih hnext

end Alike

/-- The same is loaded for idents in all languages, up to what is said about specs. -/
lemma loadAll_bare (language other : String) (source : Source) (idents : List String) :
    (loadAll language source idents .empty).1.bare = (loadAll other source idents .empty).1.bare ∧
      (loadAll language source idents .empty).2 = (loadAll other source idents .empty).2 :=
  run_bare rfl

/-- The same comes of expanding what was loaded. -/
lemma loadExpanded_bare (language other : String) (source : Source) (idents : List String) :
    (loadExpanded language source idents).1.bare = (loadExpanded other source idents).1.bare ∧
      (loadExpanded language source idents).2.map Table.bare =
        (loadExpanded other source idents).2.map Table.bare := by
  obtain ⟨hcorpus, hresult⟩ := loadAll_bare language other source idents
  rw [loadExpanded, loadExpanded]
  rcases hload : loadAll language source idents .empty with ⟨c, result⟩
  rcases hload' : loadAll other source idents .empty with ⟨c', result'⟩
  rw [hload, hload'] at hcorpus hresult
  obtain rfl : result = result' := hresult
  cases result with
  | error fault => exact ⟨hcorpus, rfl⟩
  | ok _ =>
      -- only the tables are expanded, and they are the same without descriptions
      have htable : c.table.bare = c'.table.bare := congrArg Corpus.table hcorpus
      refine ⟨hcorpus, ?_⟩
      show c.table.expand.map Table.bare = c'.table.expand.map Table.bare
      rw [← Table.expand_bare, htable, Table.expand_bare]

end Corpus

end EditorSchema
