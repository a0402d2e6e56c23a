/-
What a corpus holds when a loading has succeeded.

Loading follows memberships and references to macros, so in the end nothing that a loaded spec
depends on is left out, and nothing is read that no loaded spec depends on.  While the work
goes on, what a loaded spec depends on is there, or was asked for, or is the target of a task
that is left.

* `Corpus.Loading`: what holds while tasks are left;
* `Loading.read`: reading a text keeps it;
* `Corpus.loadAll_closed`: what holds in the end.
-/
import Mathlib.Tactic
import EditorSchema.Proofs.Corpus.Registration
import EditorSchema.Proofs.Spec.Described

namespace EditorSchema

/-- The ident that a task loads. -/
def Task.target : Task → String
  | .visit ident => ident
  | .join _ group => group

lemma SpecEntry.map_target_tasks (e : SpecEntry) : e.tasks.map Task.target = e.dependencies := by
  simp [tasks, dependencies, Task.target, Function.comp_def]

namespace Corpus

open SpecEntry (first)

variable {language : String} {source : Source} {seeds : List String} {tasks : List Task}
variable {c : Corpus} {ident : String}

/-- The entries of the text for an ident. -/
def entriesOf (language : String) (source : Source) (ident : String) : List SpecEntry :=
  match source.read ident with
  | .ok text =>
    match SpecEntry.ofText language text with
    | .ok entries => entries
    | .error _ => []
  | .error _ => []

lemma entriesOf_eq {text : String} {entries : List SpecEntry} (htext : source.read ident = .ok text)
    (hentries : SpecEntry.ofText language text = .ok entries) :
    entriesOf language source ident = entries := by
  simp [entriesOf, htext, hentries]

/-- The entries that were read, in order. -/
def found (language : String) (source : Source) (reads : List String) : List SpecEntry :=
  reads.flatMap (entriesOf language source)

/-- The descriptions in the texts that were read, in order. -/
def descriptions (source : Source) (reads : List String) : List Xml.Node :=
  reads.flatMap fun ident =>
    match source.read ident with
    | .ok text => ((Xml.Node.ofText? text).map SpecEntry.described).getD []
    | .error _ => []

/-- An ident is in the table, or its text was asked for. -/
def Reached (c : Corpus) (ident : String) : Prop :=
  c.table.contains ident = true ∨ ident ∈ c.reads

/-- What is wanted is loaded, or is the target of a task that is left. -/
def Pending (wanted : String → Prop) (tasks : List Task) (c : Corpus) : Prop :=
  ∀ ident, wanted ident → Reached c ident ∨ ∃ task ∈ tasks, task.target = ident

section Pending

variable {wanted wanted' : String → Prop} {task task' : Task} {entries : List SpecEntry}

/-- A task with the same target. -/
lemma Pending.retarget (h : Pending wanted (task :: tasks) c) (htarget : task'.target = task.target)
    (m : Memberships) : Pending wanted (task' :: tasks) { c with memberships := m } := by
  intro other hother
  have hp := h other hother
  rw [List.exists_mem_cons_iff] at hp ⊢
  exact htarget ▸ hp

/-- A task whose target is there already. -/
lemma Pending.skip (h : Pending wanted (task :: tasks) c) (hdone : Reached c task.target) :
    Pending wanted tasks c := by
  intro other hother
  rcases h other hother with hr | ⟨task', htask', rfl⟩
  · exact .inl hr
  · rcases List.mem_cons.mp htask' with rfl | hin
    · exact .inl hdone
    · exact .inr ⟨task', hin, rfl⟩

/-- What is there when a text was read: what was there before, and the ident of the text. -/
lemma reached_readNext {old : List SpecEntry} (h : Holds c.table old) {other : String}
    (hother : Reached c other ∨ other = ident) : Reached (readNext ident entries c).1 other := by
  obtain ⟨hreads, hholds, -⟩ := readNext_first ident entries h
  rw [Reached, hreads, List.mem_append, List.mem_singleton]
  rcases hother with (hin | hin) | rfl
  · -- a spec that is in the table stays there
    obtain ⟨e, he⟩ := h.contains_iff.mp hin
    refine .inl (hholds.contains_iff.mpr ⟨e, ?_⟩)
    rw [SpecEntry.first_append, he, Option.some_or]
  · exact .inr (.inl hin)
  · exact .inr (.inr rfl)

/-- What is wanted besides, when a text was read, is what its new specs depend on. -/
lemma Pending.read {old : List SpecEntry} (hold : Holds c.table old)
    (h : Pending wanted (.visit ident :: tasks) c)
    (hwanted : ∀ other, wanted' other →
      wanted other ∨ ∃ e ∈ (readNext ident entries c).2, other ∈ e.dependencies) :
    Pending wanted' ((readNext ident entries c).2.flatMap SpecEntry.tasks ++ tasks)
      (readNext ident entries c).1 := by
  intro other hother
  rcases hwanted other hother with hbefore | ⟨e, he, hdep⟩
  · rcases h other hbefore with hin | ⟨task, htask, rfl⟩
    · exact .inl (reached_readNext hold (.inl hin))
    · rcases List.mem_cons.mp htask with rfl | hin
      · exact .inl (reached_readNext hold (.inr rfl))
      · exact .inr ⟨task, List.mem_append_right _ hin, rfl⟩
  · rw [← e.map_target_tasks] at hdep
    obtain ⟨task, htask, htarget⟩ := List.mem_map.mp hdep
    exact .inr ⟨task, List.mem_append_left _ (List.mem_flatMap.mpr ⟨e, he, htask⟩), htarget⟩

end Pending

/-- There is a reason to load an ident: one asks for it, or a spec in the table depends on
it. -/
def Wanted (language : String) (source : Source) (seeds reads : List String) (ident : String) :
    Prop :=
  ident ∈ seeds ∨ ∃ other e, first (found language source reads) other = some e ∧
    ident ∈ e.dependencies

/-- **What holds while tasks are left.** -/
structure Loading (language : String) (source : Source) (seeds : List String)
    (tasks : List Task) (c : Corpus) : Prop where
  /-- All texts that were asked for were read. -/
  readable : ∀ ident ∈ c.reads, ∃ text entries, source.read ident = .ok text ∧
    SpecEntry.ofText language text = .ok entries
  /-- None was asked for twice. -/
  once : c.reads.Nodup
  /-- The table holds the first entry of each ident. -/
  holds : Holds c.table (found language source c.reads)
  /-- There is a reason for every text that was asked for. -/
  needed : ∀ ident ∈ c.reads, Wanted language source seeds c.reads ident
  /-- There is a reason for every task. -/
  queued : ∀ task ∈ tasks, Wanted language source seeds c.reads task.target
  /-- What there is a reason to load is loaded or is the target of a task. -/
  pending : ∀ ident, Wanted language source seeds c.reads ident →
    Reached c ident ∨ ∃ task ∈ tasks, task.target = ident

lemma loading_start : Loading language source seeds (seeds.map .visit) .empty where
  readable := by simp [empty]
  once := .nil
  holds := holds_empty
  needed := by simp [empty]
  queued := by
    simp only [List.mem_map, forall_exists_index, and_imp, forall_apply_eq_imp_iff₂]
    exact fun ident hident => .inl hident
  pending ident h := by
    rcases h with hseed | ⟨other, e, he, -⟩
    · exact .inr ⟨.visit ident, List.mem_map_of_mem hseed, rfl⟩
    · cases he

/-- A task with the same target. -/
lemma Loading.retarget {task task' : Task} (h : Loading language source seeds (task :: tasks) c)
    (htarget : task'.target = task.target) (m : Memberships) :
    Loading language source seeds (task' :: tasks) { c with memberships := m } where
  readable := h.readable
  once := h.once
  holds := h.holds
  needed := h.needed
  queued := by
    have hq := h.queued
    rw [List.forall_mem_cons] at hq ⊢
    exact ⟨htarget ▸ hq.1, hq.2⟩
  pending := Pending.retarget h.pending htarget m

/-- A task whose target is there already. -/
lemma Loading.skip {task : Task} (h : Loading language source seeds (task :: tasks) c)
    (hdone : Reached c task.target) : Loading language source seeds tasks c where
  readable := h.readable
  once := h.once
  holds := h.holds
  needed := h.needed
  queued := fun other hother => h.queued other (List.mem_cons_of_mem _ hother)
  pending := Pending.skip h.pending hdone

/-! ### Reading a text -/

section Read

variable {text : String} {entries : List SpecEntry} {reads : List String}

lemma found_append_singleton (htext : source.read ident = .ok text)
    (hentries : SpecEntry.ofText language text = .ok entries) :
    found language source (reads ++ [ident]) = found language source reads ++ entries := by
  simp [found, entriesOf_eq htext hentries]

/-- What was read says what the texts say. -/
lemma readOff_found (h : ∀ ident ∈ reads, ∃ text entries, source.read ident = .ok text ∧
    SpecEntry.ofText language text = .ok entries) :
    List.Forall₂ SpecEntry.ReadOff (found language source reads) (descriptions source reads) := by
  induction reads with
  | nil => exact .nil
  | cons ident reads ih =>
      obtain ⟨⟨text, entries, htext, hentries⟩, hreads⟩ := List.forall_mem_cons.mp h
      obtain ⟨root, hroot, hall⟩ := SpecEntry.readOff_of_ofText hentries
      simp only [found, descriptions, List.flatMap_cons, entriesOf, htext, hentries, hroot]
      exact List.rel_append hall (ih hreads)

/-- What there is a reason to load after a text was read: what there was before, and what its
new specs depend on. -/
lemma wanted_append_singleton (htext : source.read ident = .ok text)
    (hentries : SpecEntry.ofText language text = .ok entries) {other : String} :
    Wanted language source seeds (reads ++ [ident]) other ↔
      Wanted language source seeds reads other ∨ ∃ e : SpecEntry,
        (first (found language source reads) e.spec.ident = none ∧
          first entries e.spec.ident = some e) ∧ other ∈ e.dependencies := by
  rw [Wanted, Wanted, or_assoc, found_append_singleton htext hentries]
  refine or_congr_right ⟨?_, ?_⟩
  · rintro ⟨key, e, he, hother⟩
    rw [SpecEntry.first_append] at he
    cases hold : first (found language source reads) key with
    | some e' =>
        rw [hold, Option.some_or] at he
        cases he
        exact .inl ⟨key, e, hold, hother⟩
    | none =>
        rw [hold, Option.none_or] at he
        obtain rfl := SpecEntry.ident_of_first he
        exact .inr ⟨e, ⟨hold, he⟩, hother⟩
  · rintro (⟨key, e, he, hother⟩ | ⟨e, ⟨hold, he⟩, hother⟩)
    · exact ⟨key, e, by rw [SpecEntry.first_append, he, Option.some_or], hother⟩
    · exact ⟨_, e, by rw [SpecEntry.first_append, hold, he, Option.none_or], hother⟩

/-- The new specs are those that registration told to be new. -/
lemma wanted_readNext (h : Holds c.table (found language source c.reads))
    (htext : source.read ident = .ok text)
    (hentries : SpecEntry.ofText language text = .ok entries) {other : String} :
    Wanted language source seeds (readNext ident entries c).1.reads other ↔
      Wanted language source seeds c.reads other ∨
        ∃ e ∈ (readNext ident entries c).2, other ∈ e.dependencies := by
  obtain ⟨hreads, -, hadded⟩ := readNext_first ident entries h
  rw [hreads, wanted_append_singleton htext hentries]
  exact or_congr_right (exists_congr fun e => and_congr_left fun _ => (hadded e).symm)

/-- **Reading a text**: its entries are registered, and what the new ones depend on is left to
be done. -/
lemma Loading.read (h : Loading language source seeds (.visit ident :: tasks) c)
    (hnew : ident ∉ c.reads) (htext : source.read ident = .ok text)
    (hentries : SpecEntry.ofText language text = .ok entries) :
    Loading language source seeds
      ((readNext ident entries c).2.flatMap SpecEntry.tasks ++ tasks)
      (readNext ident entries c).1 := by
  obtain ⟨hreads, hholds, -⟩ := readNext_first ident entries h.holds
  have hmem (other : String) :
      other ∈ (readNext ident entries c).1.reads ↔ other ∈ c.reads ∨ other = ident := by
    rw [hreads, List.mem_append, List.mem_singleton]
  have hwanted {other : String} :
      Wanted language source seeds (readNext ident entries c).1.reads other ↔
        Wanted language source seeds c.reads other ∨
          ∃ e ∈ (readNext ident entries c).2, other ∈ e.dependencies :=
    wanted_readNext h.holds htext hentries
  constructor
  · intro other hother
    rcases (hmem other).mp hother with hin | rfl
    · exact h.readable other hin
    · exact ⟨text, entries, htext, hentries⟩
  · rw [hreads, ← List.concat_eq_append]
    exact h.once.concat hnew
  · rw [hreads, found_append_singleton htext hentries]
    exact hholds
  · intro other hother
    rcases (hmem other).mp hother with hin | rfl
    · exact hwanted.mpr (.inl (h.needed other hin))
    · exact hwanted.mpr (.inl (h.queued _ List.mem_cons_self))
  · intro task htask
    rcases List.mem_append.mp htask with hin | hin
    · obtain ⟨e, he, htask⟩ := List.mem_flatMap.mp hin
      refine hwanted.mpr (.inr ⟨e, he, ?_⟩)
      rw [← e.map_target_tasks]
      exact List.mem_map_of_mem htask
    · exact hwanted.mpr (.inl (h.queued task (List.mem_cons_of_mem _ hin)))
  · exact Pending.read h.holds h.pending fun other => hwanted.mp

end Read

/-! ### The end of a loading -/

/-- A loading that succeeds does all that was left to do. -/
lemma Loading.of_run {c' : Corpus} (h : Loading language source seeds tasks c)
    (hrun : run language source tasks c = (c', .ok ())) :
    Loading language source seeds [] c' := by
  refine run_induct (fun member group tasks c _ h => ?_) (fun ident tasks c hdone h => ?_)
    (fun ident tasks c text entries _ hnew htext hentries h => ?_) h hrun
  · have htarget : (Task.visit group).target = (Task.join member group).target := rfl
    exact h.retarget htarget _
  · exact h.skip hdone
  · exact h.read hnew htext hentries

/-- **What a corpus holds when a loading has succeeded.** -/
structure Closed (language : String) (source : Source) (seeds : List String) (c : Corpus) :
    Prop where
  /-- Every ident that was asked for is there or was read. -/
  seeds_reached : ∀ ident ∈ seeds, Reached c ident
  /-- So is every class and every macro that a spec in the table refers to. -/
  dependencies_reached : ∀ ident e, first (found language source c.reads) ident = some e →
    ∀ other ∈ e.spec.memberships ++ e.macros, Reached c other
  /-- Nothing else is read. -/
  reads_wanted : ∀ ident ∈ c.reads, ident ∈ seeds ∨ ∃ other e,
    first (found language source c.reads) other = some e ∧
      c.table.get? other = some e.spec ∧ ident ∈ e.spec.memberships ++ e.macros
  /-- Everything that was asked for was read, and once. -/
  reads_readable : ∀ ident ∈ c.reads, ∃ text entries, source.read ident = .ok text ∧
    SpecEntry.ofText language text = .ok entries
  reads_once : c.reads.Nodup
  /-- The entries that were read say what the descriptions in the texts say. -/
  entries_readOff : List.Forall₂ SpecEntry.ReadOff (found language source c.reads)
    (descriptions source c.reads)
  /-- The table holds the first entry of each ident that was read, and nothing else. -/
  table_first : ∀ ident, c.table.get? ident =
    (first (found language source c.reads) ident).map (·.spec)

/-- **A loading that succeeds is closed and minimal**: with every spec in the table, all that it
depends on is there or was read; only what was asked for or is depended on was read; and the
table holds the first definition of each ident among the texts in the order of reading.  What
a spec depends on is what its description names, at any depth of its content. -/
theorem loadAll_closed (h : loadAll language source seeds .empty = (c, .ok ())) :
    Closed language source seeds c := by
  have hend : Loading language source seeds [] c := loading_start.of_run h
  have hreached (ident : String) (hw : Wanted language source seeds c.reads ident) :
      Reached c ident :=
    (hend.pending ident hw).resolve_right (by simp)
  constructor
  · exact fun ident hseed => hreached ident (.inl hseed)
  · exact fun ident e he other hother => hreached other (.inr ⟨ident, e, he, hother⟩)
  · intro ident hread
    refine (hend.needed ident hread).imp_right ?_
    rintro ⟨other, e, he, hdep⟩
    exact ⟨other, e, he, by rw [hend.holds other, he, Option.map_some], hdep⟩
  · exact hend.readable
  · exact hend.once
  · exact readOff_found hend.readable
  · exact hend.holds

/-- An element that is a member of a class. -/
def elementText : String :=
  "<elementSpec ident=\"p\"><classes><memberOf key=\"c\"/></classes></elementSpec>"

/-- A class. -/
def classText : String := "<classSpec ident=\"c\"/>"

/-- The element and its class, each in a text of its own. -/
def pairSource : Source := .ofTexts (.ofList [("c", classText), ("p", elementText)])

lemma ofText_elementText : SpecEntry.ofText "en" elementText =
    .ok [⟨.ofElement { ident := "p", memberships := ["c"] }, []⟩] := by
  decide +kernel

lemma ofText_classText : SpecEntry.ofText "en" classText =
    .ok [⟨.ofClass { ident := "c", kind := .model }, []⟩] := by
  decide +kernel

/-- The element and its class are both loaded. -/
lemma loadAll_pair : loadAll "en" pairSource ["p"] .empty = (⟨.ofList [
    .ofElement { ident := "p", memberships := ["c"] }, .ofClass { ident := "c", kind := .model }],
    ["p", "c"], ⟨[("p", "c")]⟩, .empty, []⟩, .ok ()) := by
  rw [loadAll, List.map_singleton, run_visit_new rfl (by decide) rfl ofText_elementText]
  refine (run_join (by cbv)).trans ?_
  exact (run_visit_new rfl (by decide) rfl ofText_classText).trans run_nil

/-- Loading the element reads its class as well, and nothing else is needed. -/
theorem loadAll_closed_pair : ∃ c, c.reads = ["p", "c"] ∧
    loadAll "en" pairSource ["p"] .empty = (c, .ok ()) ∧ Closed "en" pairSource ["p"] c :=
  ⟨_, rfl, loadAll_pair, loadAll_closed loadAll_pair⟩

end Corpus

end EditorSchema
