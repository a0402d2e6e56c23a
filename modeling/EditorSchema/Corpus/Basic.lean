/-
A corpus: the specs that are loaded from a source for some idents, with all that they
depend on.

Loading an ident reads its text and registers what the text describes; then, for each newly
registered spec, come the classes that it is a member of and the macros that its content
refers to.  The work that is left is a list of tasks, the next one first.  An ident is read
at most once, and not at all when its spec is there.  A task that fails ends the loading;
the corpus keeps what was loaded until then.

* `Corpus.run`: doing a list of tasks, which comes to an end since every text that brings
  something new uses up one of the finitely many idents that the texts of the source define;
* `Corpus.load`, `Corpus.loadAll`: loading one ident, or several in order;
* `Corpus.loadExpanded`: the same with expanded contents.
-/
import EditorSchema.Membership
import EditorSchema.Source
import EditorSchema.Spec.Expansion
import EditorSchema.Spec.Reading

namespace EditorSchema

/-- Something odd about a text that does not end the loading. -/
inductive Warning where
  /-- The text for an ident does not define the ident. -/
  | undefined (ident : String)
  /-- The text for an ident defines once more what was defined before. -/
  | duplicate (ident textIdent : String)
deriving DecidableEq, Repr

/-- What is odd, in words. -/
def Warning.message : Warning → String
  | .undefined ident => "Spec file for '" ++ ident ++ "' does not define '" ++ ident ++ "'"
  | .duplicate ident textIdent =>
    "Ignoring duplicate definition of '" ++ ident ++ "' in spec file for '" ++ textIdent ++ "'"

/-- What has been loaded from a source. -/
structure Corpus where
  table : Table
  /-- The idents whose texts were asked for, in order. -/
  reads : List String
  memberships : Memberships
  /-- The macros that the content of each spec refers to. -/
  macros : Dictionary (List String)
  /-- What was odd, in order. -/
  warnings : List Warning
deriving DecidableEq

/-- A step of the loading. -/
inductive Task where
  /-- Load an ident. -/
  | visit (ident : String)
  /-- Make a spec a member of a class, and load the class. -/
  | join (member group : String)
deriving DecidableEq, Repr

/-- The number of steps that a task takes by itself. -/
def Task.weight : Task → Nat
  | .visit _ => 1
  | .join _ _ => 2

/-- The tasks that a newly registered spec brings: its classes, then its macros. -/
def SpecEntry.tasks (e : SpecEntry) : List Task :=
  e.spec.memberships.map (.join e.spec.ident) ++ e.macros.map .visit

namespace Corpus

/-- Nothing loaded. -/
def empty : Corpus := ⟨.empty, [], .empty, .empty, []⟩

instance : Inhabited Corpus := ⟨empty⟩

/-! ### Registration -/

/-- Register the specs of the text for an ident, and tell which of them are new. -/
def registerAll (textIdent : String) : List SpecEntry → Corpus → Corpus × List SpecEntry
  | [], c => (c, [])
  | e :: rest, c =>
    if c.table.contains e.spec.ident then
      registerAll textIdent rest
        { c with warnings := c.warnings ++ [.duplicate e.spec.ident textIdent] }
    else
      let c := { c with
        table := c.table.put e.spec
        macros := if e.macros.isEmpty then c.macros else c.macros.insert e.spec.ident e.macros }
      let (c, added) := registerAll textIdent rest c
      (c, e :: added)

/-- Register the specs of the text for an ident, after a warning where the ident is not among
them. -/
def register (textIdent : String) (entries : List SpecEntry) (c : Corpus) :
    Corpus × List SpecEntry :=
  registerAll textIdent entries <|
    if entries.any (·.spec.ident == textIdent) then c
    else { c with warnings := c.warnings ++ [.undefined textIdent] }

/-! ### What is left to define -/

/-- The idents that the texts of a source define. -/
def definable (language : String) (source : Source) : List String :=
  source.texts.flatMap fun text =>
    match SpecEntry.ofText language text with
    | .ok entries => entries.map (·.spec.ident)
    | .error _ => []

/-- The number of idents that a source defines and a table does not. -/
def missing (language : String) (source : Source) (t : Table) : Nat :=
  ((definable language source).filter fun ident => !t.contains ident).length

/-- Putting a spec into a table adds its ident and no other one. -/
theorem contains_put (t : Table) (spec : Spec) (ident : String) :
    (t.put spec).contains ident = (decide (spec.ident = ident) || t.contains ident) := by
  simp only [Table.contains, Dictionary.contains, Table.put, Dictionary.get?_insert]
  by_cases h : spec.ident = ident <;> simp [h]

/-- What a table contains it contains still when specs have been registered. -/
theorem contains_registerAll {textIdent : String} {entries : List SpecEntry} {c : Corpus}
    {ident : String} (h : c.table.contains ident = true) :
    (registerAll textIdent entries c).1.table.contains ident = true := by
  fun_induction registerAll textIdent entries c with
  | case1 => exact h
  | case2 _ _ _ _ ih => exact ih h
  | case3 e rest c hn c' c'' added hr ih =>
    rw [hr] at ih
    refine ih ?_
    simp only [c', contains_put, h, Bool.or_true]

/-- Where no spec is added, the table stays as it is. -/
theorem registerAll_eq_nil {textIdent : String} {entries : List SpecEntry} {c : Corpus}
    (h : (registerAll textIdent entries c).2 = []) :
    (registerAll textIdent entries c).1.table = c.table := by
  fun_induction registerAll textIdent entries c with
  | case1 => rfl
  | case2 _ _ _ _ ih => exact ih h
  | case3 => simp at h

/-- What is registered was neither in the table nor is it new: it is one of the entries. -/
theorem exists_of_registerAll_ne_nil {textIdent : String} {entries : List SpecEntry}
    {c : Corpus} (h : (registerAll textIdent entries c).2 ≠ []) :
    ∃ e ∈ entries, c.table.contains e.spec.ident = false ∧
      (registerAll textIdent entries c).1.table.contains e.spec.ident = true := by
  fun_induction registerAll textIdent entries c with
  | case1 => simp at h
  | case2 e rest c he ih =>
    obtain ⟨f, hf, hn, hc⟩ := ih h
    exact ⟨f, List.mem_cons_of_mem _ hf, hn, hc⟩
  | case3 e rest c hn c' c'' added hr ih =>
    refine ⟨e, List.mem_cons_self, by simpa using hn, ?_⟩
    have : (registerAll textIdent rest c').1.table.contains e.spec.ident = true :=
      contains_registerAll (by simp [c', contains_put])
    rw [hr] at this
    exact this

/-- A text is registered from the table as it is, whether there is a warning first or not. -/
theorem register_table_start (textIdent : String) (entries : List SpecEntry) (c : Corpus) :
    ∃ start : Corpus, start.table = c.table ∧
      register textIdent entries c = registerAll textIdent entries start :=
  ⟨_, by split <;> rfl, rfl⟩

/-- Every registration leaves less to define. -/
theorem missing_register_lt {language text : String} {source : Source}
    {entries : List SpecEntry} (htext : text ∈ source.texts)
    (hentries : SpecEntry.ofText language text = .ok entries) {textIdent : String}
    {c : Corpus} (h : (register textIdent entries c).2 ≠ []) :
    missing language source (register textIdent entries c).1.table <
      missing language source c.table := by
  obtain ⟨start, ht, hr⟩ := register_table_start textIdent entries c
  rw [hr] at h ⊢
  rw [← ht]
  obtain ⟨e, he, hn, hc⟩ := exists_of_registerAll_ne_nil h
  have hd : e.spec.ident ∈ definable language source :=
    List.mem_flatMap.2 ⟨text, htext, by rw [hentries]; exact List.mem_map.2 ⟨e, he, rfl⟩⟩
  let p := fun ident => !start.table.contains ident
  let q := fun ident => !(registerAll textIdent entries start).1.table.contains ident
  have hq : (definable language source).filter q =
      ((definable language source).filter p).filter q := by
    rw [List.filter_filter]
    refine List.filter_congr fun ident _ => ?_
    cases hqi : q ident with
    | false => rfl
    | true =>
      have : p ident = true := by
        refine Decidable.byContradiction fun hp => ?_
        have : start.table.contains ident = true := by simpa [p] using hp
        simp [q, contains_registerAll this] at hqi
      simp [this]
  rw [missing, missing]
  change ((definable language source).filter q).length <
    ((definable language source).filter p).length
  rw [hq]
  refine List.length_filter_lt_length_iff_exists.2 ⟨e.spec.ident, ?_, by simp [q, hc]⟩
  exact List.mem_filter.2 ⟨hd, by simp [p, hn]⟩

/-- Where a text adds no spec, the table stays as it is. -/
theorem register_table_eq {textIdent : String} {entries : List SpecEntry} {c : Corpus}
    (h : (register textIdent entries c).2 = []) :
    (register textIdent entries c).1.table = c.table := by
  obtain ⟨start, ht, hr⟩ := register_table_start textIdent entries c
  rw [hr] at h ⊢
  rw [registerAll_eq_nil h, ht]

/-! ### Loading -/

/-- The number of steps that tasks take by themselves. -/
def weight (tasks : List Task) : Nat := tasks.foldr (fun task n => task.weight + n) 0

/-- Do tasks one after the other, until one fails. -/
def run (language : String) (source : Source) :
    List Task → Corpus → Corpus × Except SpecFault Unit
  | [], c => (c, .ok ())
  | .join member group :: tasks, c =>
    if c.memberships.closesCycle member group then
      (c, .error (.circularMembership member group))
    else
      run language source (.visit group :: tasks)
        { c with memberships := c.memberships.add member group }
  | .visit ident :: tasks, c =>
    if c.table.contains ident || c.reads.contains ident then run language source tasks c
    else
      let asked := { c with reads := c.reads ++ [ident] }
      match _htext : source.read ident with
      | .error fault => (asked, .error fault)
      | .ok text =>
        match _hentries : SpecEntry.ofText language text with
        | .error fault => (asked, .error (fault.of ident))
        | .ok entries =>
          let registered := register ident entries asked
          run language source (registered.2.flatMap SpecEntry.tasks ++ tasks) registered.1
termination_by tasks c => (missing language source c.table, weight tasks)
decreasing_by
  · exact Prod.Lex.right _ (by simp [weight, Task.weight])
  · exact Prod.Lex.right _ (by simp [weight, Task.weight])
  · by_cases h : registered.2 = []
    · rw [h, show registered.1.table = c.table from register_table_eq h]
      exact Prod.Lex.right _ (by simp [weight, Task.weight])
    · exact Prod.Lex.left _ _
        (missing_register_lt (c := asked) (source.mem_texts _htext) _hentries h)

/-- Load an ident with all that it depends on. -/
def load (language : String) (source : Source) (ident : String) (c : Corpus) :
    Corpus × Except SpecFault Unit :=
  run language source [.visit ident] c

/-- Load idents one after the other, until one fails. -/
def loadAll (language : String) (source : Source) (idents : List String) (c : Corpus) :
    Corpus × Except SpecFault Unit :=
  run language source (idents.map .visit) c

/-- Load idents and expand the contents of what was loaded. -/
def loadExpanded (language : String) (source : Source) (idents : List String) :
    Corpus × Except SpecFault Table :=
  match loadAll language source idents .empty with
  | (c, .error fault) => (c, .error fault)
  | (c, .ok ()) => (c, c.table.expand)

end Corpus

end EditorSchema
