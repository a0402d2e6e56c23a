/-
What registering and loading do, step by step.

A text brings entries, and the first entry of each ident stays.  So the table of a corpus is
told from all entries that were read, in order: it holds the first of each ident.

* `SpecEntry.first`: the first entry of an ident;
* `Corpus.registerAll_first`: registration keeps the first entries, and tells which are new;
* `Corpus.Ends`: how a loading comes to its end, with success or without;
* `Corpus.run_ends`: what each step of a loading keeps, holds when it comes to its end;
* `Corpus.run_induct`: what each step of a loading keeps, a loading that succeeds keeps.
-/
import Mathlib.Tactic
import EditorSchema.Corpus.Basic

namespace EditorSchema

/-! ### The first entry of an ident -/

namespace SpecEntry

variable {entries others : List SpecEntry} {e : SpecEntry} {ident : String}

/-- The first entry of an ident. -/
def first (entries : List SpecEntry) (ident : String) : Option SpecEntry :=
  entries.find? (·.spec.ident == ident)

lemma first_append : first (entries ++ others) ident =
    (first entries ident).or (first others ident) :=
  List.find?_append

lemma first_cons : first (e :: entries) ident =
    if e.spec.ident = ident then some e else first entries ident := by
  by_cases h : e.spec.ident = ident <;> simp [first, h]

lemma ident_of_first (h : first entries ident = some e) : e.spec.ident = ident := by
  simpa using List.find?_some h

/-- What a spec depends on: its classes, and the macros that its content refers to. -/
def dependencies (e : SpecEntry) : List String := e.spec.memberships ++ e.macros

end SpecEntry

namespace Corpus

open SpecEntry (first)

variable {language textIdent : String} {source : Source} {tasks : List Task} {c c' : Corpus}

/-! ### Registration -/

/-- The table of a corpus holds the first entry of each ident among these. -/
def Holds (t : Table) (entries : List SpecEntry) : Prop :=
  ∀ ident, t.get? ident = (first entries ident).map (·.spec)

lemma Holds.contains_iff {t : Table} {entries : List SpecEntry} (h : Holds t entries)
    {ident : String} : t.contains ident = true ↔ ∃ e, first entries ident = some e := by
  have hget : t.contains ident = (t.get? ident).isSome := rfl
  rw [hget, h ident, Option.isSome_map, Option.isSome_iff_exists]

lemma holds_empty : Holds .empty [] := fun _ => rfl

lemma get?_put (t : Table) (spec : Spec) (ident : String) :
    (t.put spec).get? ident = if spec.ident = ident then some spec else t.get? ident :=
  Dictionary.get?_insert ..

section Entry

variable {e : SpecEntry} {rest old : List SpecEntry} {t : Table}

/-- An entry more makes no difference where there is one of its ident. -/
lemma Holds.append_known (h : Holds t old) (hin : t.contains e.spec.ident = true) :
    Holds t (old ++ [e]) := by
  obtain ⟨known, hknown⟩ := h.contains_iff.mp hin
  intro ident
  rw [h ident, SpecEntry.first_append, SpecEntry.first_cons]
  by_cases heq : e.spec.ident = ident
  · rw [← heq, hknown, Option.some_or]
  · rw [if_neg heq, show first [] ident = none from rfl, Option.or_none]

/-- The entry of an ident that is not there becomes the first. -/
lemma Holds.append_new (h : Holds t old) (hnone : first old e.spec.ident = none) :
    Holds (t.put e.spec) (old ++ [e]) := by
  intro ident
  rw [get?_put, h ident, SpecEntry.first_append, SpecEntry.first_cons]
  by_cases heq : e.spec.ident = ident
  · rw [if_pos heq, if_pos heq, ← heq, hnone]
    rfl
  · rw [if_neg heq, if_neg heq, show first [] ident = none from rfl, Option.or_none]

lemma registerAll_of_contains (h : c.table.contains e.spec.ident = true) :
    registerAll textIdent (e :: rest) c = registerAll textIdent rest
      { c with warnings := c.warnings ++ [.duplicate e.spec.ident textIdent] } := by
  rw [registerAll, if_pos h]

/-- A corpus with the spec of a new entry. -/
def withEntry (e : SpecEntry) (c : Corpus) : Corpus :=
  { c with
    table := c.table.put e.spec
    macros := if e.macros.isEmpty then c.macros else c.macros.insert e.spec.ident e.macros }

lemma registerAll_of_not_contains (h : ¬ c.table.contains e.spec.ident = true) :
    registerAll textIdent (e :: rest) c =
      ((registerAll textIdent rest (withEntry e c)).1,
        e :: (registerAll textIdent rest (withEntry e c)).2) := by
  rw [registerAll, if_neg h]
  rfl

end Entry

/-- **Registration keeps the first entries**: the table holds the first of all, those that were
there before included, and the entries that are told to be new are the first of idents that
were not there. -/
theorem registerAll_first {entries old : List SpecEntry} (h : Holds c.table old) :
    (registerAll textIdent entries c).1.reads = c.reads ∧
      Holds (registerAll textIdent entries c).1.table (old ++ entries) ∧
      ∀ e, e ∈ (registerAll textIdent entries c).2 ↔
        first old e.spec.ident = none ∧ first entries e.spec.ident = some e := by
  induction entries generalizing c old with
  | nil => exact ⟨rfl, by simpa [registerAll] using h, by simp [first, registerAll]⟩
  | cons e rest ih =>
      by_cases hin : c.table.contains e.spec.ident = true
      · obtain ⟨known, hknown⟩ := h.contains_iff.mp hin
        rw [registerAll_of_contains hin]
        obtain ⟨hreads, hholds, hnew⟩ := ih (c := { c with
          warnings := c.warnings ++ [.duplicate e.spec.ident textIdent] }) (h.append_known hin)
        refine ⟨hreads, by simpa using hholds, fun f => ?_⟩
        rw [hnew, SpecEntry.first_append, SpecEntry.first_cons, SpecEntry.first_cons]
        by_cases heq : e.spec.ident = f.spec.ident
        · simp [← heq, hknown]
        · simp [heq, first]
      · have hnone : first old e.spec.ident = none := by
          rw [h.contains_iff] at hin
          exact Option.eq_none_iff_forall_ne_some.mpr fun f hf => hin ⟨f, hf⟩
        rw [registerAll_of_not_contains hin]
        obtain ⟨hreads, hholds, hnew⟩ := ih (c := withEntry e c) (h.append_new hnone)
        refine ⟨hreads, by simpa using hholds, fun f => ?_⟩
        rw [List.mem_cons, hnew, SpecEntry.first_append, SpecEntry.first_cons,
          SpecEntry.first_cons]
        by_cases heq : e.spec.ident = f.spec.ident
        · rw [if_pos heq, if_pos heq, ← heq, hnone]
          simp [eq_comm]
        · have hne : f ≠ e := fun hfe => heq (hfe ▸ rfl)
          simp [heq, hne, first]

/-- Registration of a text keeps the first entries, and asks for nothing. -/
theorem register_first {entries old : List SpecEntry} (h : Holds c.table old) :
    (register textIdent entries c).1.reads = c.reads ∧
      Holds (register textIdent entries c).1.table (old ++ entries) ∧
      ∀ e, e ∈ (register textIdent entries c).2 ↔
        first old e.spec.ident = none ∧ first entries e.spec.ident = some e := by
  have hstart : Holds (if entries.any (·.spec.ident == textIdent) then c
      else { c with warnings := c.warnings ++ [.undefined textIdent] }).table old := by
    split <;> exact h
  obtain ⟨hreads, hholds, hnew⟩ := registerAll_first hstart
  refine ⟨hreads.trans ?_, hholds, hnew⟩
  split <;> rfl

/-- The entries of a text as they are registered, after it was asked for. -/
def readNext (ident : String) (entries : List SpecEntry) (c : Corpus) :
    Corpus × List SpecEntry :=
  register ident entries { c with reads := c.reads ++ [ident] }

lemma readNext_first (ident : String) (entries : List SpecEntry) {old : List SpecEntry}
    (h : Holds c.table old) :
    (readNext ident entries c).1.reads = c.reads ++ [ident] ∧
      Holds (readNext ident entries c).1.table (old ++ entries) ∧
      ∀ e, e ∈ (readNext ident entries c).2 ↔
        first old e.spec.ident = none ∧ first entries e.spec.ident = some e :=
  register_first h

/-! ### Steps of a loading -/

section Steps

variable {ident member group text : String} {entries : List SpecEntry}

lemma run_nil : run language source [] c = (c, .ok ()) := by rw [run]

lemma run_join (h : c.memberships.closesCycle member group = false) :
    run language source (.join member group :: tasks) c = run language source
      (.visit group :: tasks) { c with memberships := c.memberships.add member group } := by
  rw [run, if_neg (by simp [h])]

lemma run_join_circle (h : c.memberships.closesCycle member group = true) :
    run language source (.join member group :: tasks) c =
      (c, .error (.circularMembership member group)) := by
  rw [run, if_pos h]

lemma run_visit_done (h : c.table.contains ident = true ∨ ident ∈ c.reads) :
    run language source (.visit ident :: tasks) c = run language source tasks c := by
  rw [run, if_pos (by simpa using h)]

lemma run_visit_new (htable : c.table.contains ident = false) (hreads : ident ∉ c.reads)
    (htext : source.read ident = .ok text)
    (hentries : SpecEntry.ofText language text = .ok entries) :
    run language source (.visit ident :: tasks) c =
      run language source ((readNext ident entries c).2.flatMap SpecEntry.tasks ++ tasks)
        (readNext ident entries c).1 := by
  rw [run, if_neg (by simp [htable, hreads])]
  split
  · next fault htext' => cases htext.symm.trans htext'
  · next text' htext' =>
    cases htext.symm.trans htext'
    split
    · next fault hentries' => cases hentries.symm.trans hentries'
    · next entries' hentries' =>
      cases hentries.symm.trans hentries'
      rfl

lemma run_visit_unread (hnew : ¬ (c.table.contains ident = true ∨ ident ∈ c.reads))
    {fault : SpecFault} (htext : source.read ident = .error fault) :
    run language source (.visit ident :: tasks) c =
      ({ c with reads := c.reads ++ [ident] }, .error fault) := by
  rw [run, if_neg (by simpa using hnew)]
  split
  · next fault' htext' =>
    cases htext.symm.trans htext'
    rfl
  · next text' htext' => cases htext.symm.trans htext'

lemma run_visit_invalid (hnew : ¬ (c.table.contains ident = true ∨ ident ∈ c.reads))
    {fault : TextFault} (htext : source.read ident = .ok text)
    (hentries : SpecEntry.ofText language text = .error fault) :
    run language source (.visit ident :: tasks) c =
      ({ c with reads := c.reads ++ [ident] }, .error (fault.of ident)) := by
  rw [run, if_neg (by simpa using hnew)]
  split
  · next fault' htext' => cases htext.symm.trans htext'
  · next text' htext' =>
    cases htext.symm.trans htext'
    split
    · next fault' hentries' =>
      cases hentries.symm.trans hentries'
      rfl
    · next entries' hentries' => cases hentries.symm.trans hentries'

end Steps

/-- **How a loading comes to its end**: with nothing left to do, with a membership that closes a
circle, with an ident that there is no text for, or with a text that describes no specs. -/
inductive Ends (language : String) (source : Source) :
    List Task → Corpus → Corpus × Except SpecFault Unit → Prop
  | done (c : Corpus) : Ends language source [] c (c, .ok ())
  | circle {member group : String} {tasks : List Task} {c : Corpus}
      (h : c.memberships.closesCycle member group = true) :
      Ends language source (.join member group :: tasks) c
        (c, .error (.circularMembership member group))
  | unread {ident : String} {tasks : List Task} {c : Corpus} {fault : SpecFault}
      (hnew : ¬ (c.table.contains ident = true ∨ ident ∈ c.reads))
      (h : source.read ident = .error fault) :
      Ends language source (.visit ident :: tasks) c
        ({ c with reads := c.reads ++ [ident] }, .error fault)
  | invalid {ident text : String} {tasks : List Task} {c : Corpus} {fault : TextFault}
      (hnew : ¬ (c.table.contains ident = true ∨ ident ∈ c.reads))
      (htext : source.read ident = .ok text)
      (h : SpecEntry.ofText language text = .error fault) :
      Ends language source (.visit ident :: tasks) c
        ({ c with reads := c.reads ++ [ident] }, .error (fault.of ident))

section Induction

variable {Keeps : List Task → Corpus → Prop}

/-- **What each step of a loading keeps**, holds when the loading comes to its end: making a
spec a member of a class that does not reach it, passing over an ident that is there or was
asked for, and reading the text for an ident. -/
theorem run_ends
    (join : ∀ member group tasks c, c.memberships.closesCycle member group = false →
      Keeps (.join member group :: tasks) c →
      Keeps (.visit group :: tasks) { c with memberships := c.memberships.add member group })
    (skip : ∀ ident tasks c, c.table.contains ident = true ∨ ident ∈ c.reads →
      Keeps (.visit ident :: tasks) c → Keeps tasks c)
    (read : ∀ ident tasks c text entries, c.table.contains ident = false → ident ∉ c.reads →
      source.read ident = .ok text → SpecEntry.ofText language text = .ok entries →
      Keeps (.visit ident :: tasks) c →
      Keeps ((readNext ident entries c).2.flatMap SpecEntry.tasks ++ tasks)
        (readNext ident entries c).1)
    (start : Keeps tasks c) :
    ∃ left last, Keeps left last ∧
      Ends language source left last (run language source tasks c) := by
  induction tasks, c using run.induct language source with
  | case1 c =>
      rw [run_nil]
      exact ⟨[], c, start, .done c⟩
  | case2 member group tasks c hcycle =>
      rw [run_join_circle hcycle]
      exact ⟨_, c, start, .circle hcycle⟩
  | case3 member group tasks c hcycle ih =>
      rw [Bool.not_eq_true] at hcycle
      rw [run_join hcycle]
      exact ih (join _ _ _ _ hcycle start)
  | case4 ident tasks c hdone ih =>
      have hdone : c.table.contains ident = true ∨ ident ∈ c.reads := by simpa using hdone
      rw [run_visit_done hdone]
      exact ih (skip _ _ _ hdone start)
  | case5 ident tasks c hnew fault htext =>
      have hnew : ¬ (c.table.contains ident = true ∨ ident ∈ c.reads) := by simpa using hnew
      rw [run_visit_unread hnew htext]
      exact ⟨_, c, start, .unread hnew htext⟩
  | case6 ident tasks c hnew text htext fault hentries =>
      have hnew : ¬ (c.table.contains ident = true ∨ ident ∈ c.reads) := by simpa using hnew
      rw [run_visit_invalid hnew htext hentries]
      exact ⟨_, c, start, .invalid hnew htext hentries⟩
  | case7 ident tasks c hnew asked text htext entries hentries registered ih =>
      have ⟨htable, hreads⟩ : c.table.contains ident = false ∧ ident ∉ c.reads := by
        simpa using hnew
      rw [run_visit_new htable hreads htext hentries]
      exact ih (read _ _ _ _ _ htable hreads htext hentries start)

/-- **What each step keeps, a loading keeps** that succeeds. -/
theorem run_induct
    (join : ∀ member group tasks c, c.memberships.closesCycle member group = false →
      Keeps (.join member group :: tasks) c →
      Keeps (.visit group :: tasks) { c with memberships := c.memberships.add member group })
    (skip : ∀ ident tasks c, c.table.contains ident = true ∨ ident ∈ c.reads →
      Keeps (.visit ident :: tasks) c → Keeps tasks c)
    (read : ∀ ident tasks c text entries, c.table.contains ident = false → ident ∉ c.reads →
      source.read ident = .ok text → SpecEntry.ofText language text = .ok entries →
      Keeps (.visit ident :: tasks) c →
      Keeps ((readNext ident entries c).2.flatMap SpecEntry.tasks ++ tasks)
        (readNext ident entries c).1)
    (start : Keeps tasks c) (hrun : run language source tasks c = (c', .ok ())) :
    Keeps [] c' := by
  obtain ⟨left, last, hkeeps, hends⟩ := run_ends join skip read start
  rw [hrun] at hends
  cases hends
  exact hkeeps

end Induction

/-- Idents are loaded and expanded if they are loaded and what was loaded is expanded. -/
lemma loadExpanded_eq_ok {idents : List String} {t : Table} :
    loadExpanded language source idents = (c, .ok t) ↔
      loadAll language source idents .empty = (c, .ok ()) ∧ c.table.expand = .ok t := by
  rw [loadExpanded]
  rcases loadAll language source idents .empty with ⟨last, fault | _⟩
  · simp
  · simp only [Prod.mk.injEq, and_true]
    refine and_congr_right ?_
    rintro rfl
    rfl

end Corpus

end EditorSchema
