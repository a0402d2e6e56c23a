/-
What can still go wrong once a classification is elaborated.

Elaboration has collected the groups of every classified element, so all that the memberships
of these elements lead to is classes.  The attributes of records are collected along the same
memberships; so no spec is found missing there, and where memberships have no circle nothing is
left to go wrong but an attribute that is redefined before it is defined.  Loaded specs are
members of no circle, and expanding their contents changes no membership.

* `Elaboration.exists_recordOf`: a record is one of a classified element or is generated;
* `Elaboration.source_of_elaborate`: the spec of a record is that of a placed element;
* `Schema.circular_of_definitions`: what is collected for such a record, or the circle that it
  leads to;
* `Schema.late_faults`: the faults that are left.
-/
import Mathlib.Tactic
import EditorSchema.Proofs.Attributes.Ancestry
import EditorSchema.Proofs.Attributes.Faults
import EditorSchema.Proofs.Schema.Answers
import EditorSchema.Proofs.Schema.Reached
import EditorSchema.Proofs.Spec.Expanded
import EditorSchema.Schema.Basic

namespace EditorSchema

open Outcome
open Attributes (Collects FirstRedefined)

variable {c : Classification} {d : Decoration} {t u : Table} {all : List Record} {x : Record}
variable {fault : SchemaFault}

/-! ### The specs of records -/

namespace Elaboration

open References (ofPlaced)

/-- A record of an element has the attributes of the element, or none. -/
lemma source_of_mem_recordsOf {r : References} {category : Category} {e : ElementSpec}
    (h : x ∈ recordsOf r d category e) : x.source = none ∨ x.source = some e.ident := by
  cases category <;>
    simp only [recordsOf, List.mem_cons, List.not_mem_nil, or_false] at h <;>
    rcases h with rfl | rfl | rfl <;> simp

/-- **Where a record comes from**: it is one of a classified element, but for the leaf that it is
bound to, or it is generated, and then it has neither attributes nor groups. -/
lemma exists_recordOf (h : c.elaborate t d = .ok all) (hx : x ∈ all) :
    x.source = none ∧ x.group = none ∨ ∃ placed category e y, References.PlacedAs c t placed ∧
      (category, e.ident) ∈ c.entries ∧ t.element? e.ident = some e ∧
      y ∈ recordsOf (ofPlaced placed) d category e ∧ x = { y with content := x.content } := by
  obtain ⟨placed, own, hplaced, hown, rfl, -⟩ := exists_records h
  rcases List.mem_append.mp hx with hx | hwrapper
  · rcases List.mem_append.mp hx with hbound | hleaf
    · obtain ⟨y, hy, rfl⟩ := List.mem_map.mp hbound
      rcases List.mem_append.mp hy with hroot | hy
      · obtain ⟨_, -, rfl⟩ := List.mem_map.mp hroot
        rw [TextLeaves.bindOne_eq]
        exact .inl ⟨rfl, rfl⟩
      · obtain ⟨⟨category, ident⟩, hentry, e, he, hrecord⟩ := (mem_flatten_of_mapM hown).mp hy
        obtain rfl : e.ident = ident := (Table.ident_of_element? he).2
        exact .inr ⟨placed, category, e, y, hplaced, hentry, he, hrecord, TextLeaves.bindOne_eq _ y⟩
    · obtain ⟨n, r, -, rfl⟩ := TextLeaves.exists_of_mem_leaves hleaf
      exact .inl ⟨rfl, rfl⟩
  · rcases List.mem_append.mp hwrapper with hg | hi
    · obtain ⟨_, -, rfl⟩ := List.mem_map.mp hg
      exact .inl ⟨rfl, rfl⟩
    · obtain ⟨_, -, rfl⟩ := List.mem_map.mp hi
      exact .inl ⟨rfl, rfl⟩

/-- **The spec of a record is that of an element whose groups were collected.** -/
theorem source_of_elaborate (h : c.elaborate t d = .ok all) (hx : x ∈ all) {source : String}
    (hsource : x.source = some source) :
    ∃ e groups, t.element? source = some e ∧ References.modelClasses t e = .ok groups := by
  rcases exists_recordOf h hx with ⟨hnone, -⟩ | ⟨placed, category, e, y, hplaced, hentry, he,
    hrecord, hsame⟩
  · cases hnone.symm.trans hsource
  · obtain ⟨p, hp⟩ := (mem_of_mapM hplaced).2 _ hentry
    obtain ⟨e', groups, he', hgroups, -⟩ := References.place_eq_ok.mp hp
    obtain rfl := Option.some.inj (he.symm.trans he')
    have hy : y.source = some source := by
      rw [← hsource, hsame]
    rcases source_of_mem_recordsOf hrecord with hnone | hsome
    · cases hnone.symm.trans hy
    · obtain rfl := Option.some.inj (hsome.symm.trans hy)
      exact ⟨e, groups, he, hgroups⟩

/-- Where the references of a classification are built, each of its idents is an element. -/
lemma exists_mapM_recordsFor {r : References} (h : References.build c t = .ok r) :
    ∃ own, c.entries.mapM (recordsFor r d t) = .ok own := by
  obtain ⟨placed, hplaced, -⟩ := References.exists_placed h
  refine exists_mapM fun entry hentry => ?_
  obtain ⟨p, hp⟩ := (mem_of_mapM hplaced).2 entry hentry
  obtain ⟨e, -, he, -, -⟩ := References.place_eq_ok.mp hp
  exact ⟨recordsOf r d entry.1 e, by rw [recordsFor, he]⟩

end Elaboration

/-! ### Memberships after an expansion -/

namespace Table

/-- What does not depend on the content of a spec is the same after an expansion. -/
lemma InlinesTo.exists_iff (h : t.InlinesTo u) {ident : String} {P : Spec → Prop}
    (hP : ∀ s content, P (s.withContent content) ↔ P s) :
    (∃ s, u.get? ident = some s ∧ P s) ↔ ∃ s, t.get? ident = some s ∧ P s := by
  cases hold : t.get? ident with
  | none => simp [h.1 ident hold]
  | some s =>
      obtain ⟨content, hnew, -⟩ := h.2 ident s hold
      simp [hnew, hP s content]

/-- Expanding contents changes no membership. -/
lemma InlinesTo.memberOf_eq (h : t.InlinesTo u) : u.MemberOf = t.MemberOf := by
  funext member group
  exact propext (h.exists_iff fun s content => by cases s <;> rfl)

/-- **Memberships of loaded specs have no circle** once contents are expanded either. -/
lemma acyclic_of_expand {language : String} {source : Source} {seeds : List String}
    {corpus : Corpus} (hload : Corpus.loadAll language source seeds .empty = (corpus, .ok ()))
    (hexpand : corpus.table.expand = .ok t) : Acyclic t.MemberOf := by
  have hinlines : corpus.table.InlinesTo t := inlinesTo_of_expandIn (fun _ => .rfl) hexpand
  rw [hinlines.memberOf_eq]
  exact Corpus.acyclic_of_loadAll hload

end Table

/-! ### The faults that are left -/

namespace Schema

/-- A chain of memberships that comes back to one of its idents. -/
def Circular (t : Table) (fault : SchemaFault) : Prop :=
  ∃ path repeated, fault = .circularMembership (path ++ [repeated]) ∧
    List.IsChain t.MemberOf (path ++ [repeated]) ∧ repeated ∈ path

/-- **Nothing is missing in the ancestry of a record**: its definitions are collected unless its
memberships lead to a circle. -/
lemma circular_of_definitions (h : c.elaborate t d = .ok all) (hx : x ∈ all) {source : String}
    (hsource : x.source = some source) : ∃ s, t.get? source = some s ∧
      ∀ fault, Ancestry.definitions t s = .error fault → Circular t fault := by
  obtain ⟨e, groups, he, hgroups⟩ := Elaboration.source_of_elaborate h hx hsource
  obtain rfl : e.ident = source := (Table.ident_of_element? he).2
  have hget : t.get? e.ident = some (.ofElement e) := Table.get?_of_element? he
  refine ⟨.ofElement e, hget, fun fault hfault => ?_⟩
  have hbroken : t.Broken e.ident fault := Ancestry.broken_of_definitions hget hfault
  cases hbroken with
  | missing hway hmember hnone =>
      -- whatever memberships lead to was opened when the groups of the element were collected
      obtain ⟨s, hs⟩ := References.class_of_reached he hgroups _ (.tail' hway hmember)
      cases hnone.symm.trans (Table.get?_of_class? hs)
  | circle _ hchain hrepeated => exact ⟨_, _, rfl, hchain, hrepeated⟩

/-- Where memberships have no circle, the definitions of every record are collected. -/
lemma collects_of_acyclic (hacyclic : Acyclic t.MemberOf) (h : c.elaborate t d = .ok all) :
    ∀ x ∈ all, x.source = none ∨ ∃ ds, Collects t x ds := by
  intro x hx
  cases hsource : x.source with
  | none => exact .inl rfl
  | some source =>
      obtain ⟨s, hs, hfaults⟩ := circular_of_definitions h hx hsource
      cases hds : Ancestry.definitions t s with
      | ok ds => exact .inr ⟨ds, source, s, hsource, hs, hds⟩
      | error fault =>
          obtain ⟨path, repeated, -, hchain, hrepeated⟩ := hfaults fault hds
          exact absurd (transGen_of_isChain hchain hrepeated) (hacyclic repeated)

/-- A schema whose records are elaborated fails where their attributes do. -/
lemma ofTable_eq_error_iff {settings : Settings} (h : c.elaborate t d = .ok all) :
    ofTable settings c d t = .error fault ↔
      Attributes.resolveAll t .empty all = .error fault := by
  rw [ofTable, h, ← Attributes.resolve_eq_error_iff]
  show (Attributes.resolve t settings.hidden all >>= fun p => pure (describe p.2 p.1 t)) =
    .error fault ↔ _
  rw [bind_eq_error]
  exact or_iff_left fun ⟨_, _, h⟩ => nomatch h

/-- A schema whose specs were loaded and whose records are elaborated is that of the expanded
table. -/
lemma compile_eq {settings : Settings} {source : Source} {corpus : Corpus}
    (hvalid : validate c = .ok ())
    (hload : Corpus.loadAll settings.language source c.seeds .empty = (corpus, .ok ()))
    (hexpand : corpus.table.expand = .ok t) :
    compile settings source c d = (corpus, ofTable settings c d t) := by
  rw [compile, hvalid]
  simp only [Corpus.loadExpanded_eq_ok.mpr ⟨hload, hexpand⟩]

/-- An element of a class that is its own member by way of another one. -/
def circlingClasses : Table := .ofList [
  .ofElement { ident := "p", memberships := ["att.a"] },
  .ofClass { ident := "att.a", kind := .attributes, memberships := ["att.b"] },
  .ofClass { ident := "att.b", kind := .attributes, memberships := ["att.a"] }]

/-- **Late faults**: once the records of a classification are elaborated, there is no schema only
where a record meets an attribute that is redefined before it is defined.  If the specs were
loaded from a source, this is all that can happen; with specs at hand, memberships may also lead
to a circle.  Neither does a later definition of an attribute lack something to start from, nor
does elaboration lack an element, once the references are built. -/
theorem late_faults :
    (∀ settings source c d corpus t records, validate c = .ok () →
      Corpus.loadAll settings.language source c.seeds .empty = (corpus, .ok ()) →
      corpus.table.expand = .ok t → c.elaborate t d = .ok records →
      ∀ fault, compile settings source c d = (corpus, .error fault) ↔
        FirstRedefined t records fault) ∧
    (∀ settings c d t records, c.elaborate t d = .ok records →
      ∀ fault, ofTable settings c d t = .error fault →
        FirstRedefined t records fault ∨ Circular t fault) ∧
    (∀ name dictionary (before : List AttributeDef) (p : Attributes.Progress) ident,
      before.foldlM (Attributes.step name) { dictionary } = .ok p → ident ∈ p.met →
      ∃ base, p.dictionary.get? ident = some base) ∧
    (∀ c d t r, References.build c t = .ok r →
      ∃ own, c.entries.mapM (Elaboration.recordsFor r d t) = .ok own) ∧
    ∃ settings c d t records fault, c.elaborate t d = .ok records ∧
      ofTable settings c d t = .error fault ∧ Circular t fault := by
  refine ⟨?_, ?_, fun _ _ _ _ _ => Attributes.exists_base_of_run,
    fun c d t r => Elaboration.exists_mapM_recordsFor, ?_⟩
  · intro settings source c d corpus t records hvalid hload hexpand hrecords fault
    have hacyclic : Acyclic t.MemberOf := Table.acyclic_of_expand hload hexpand
    rw [compile_eq hvalid hload hexpand, Prod.mk.injEq, and_iff_right rfl,
      ofTable_eq_error_iff hrecords]
    exact Attributes.firstRedefined_iff (collects_of_acyclic hacyclic hrecords)
  · intro settings c d t records hrecords fault hfault
    rw [ofTable_eq_error_iff hrecords, Attributes.resolveAll_eq_error_iff] at hfault
    obtain ⟨earlier, r, later, rfl, hearlier, hfails⟩ := hfault
    have hr : r ∈ earlier ++ r :: later := by simp
    cases hfails with
    | lost hsource hnone =>
        obtain ⟨s, hs, -⟩ := circular_of_definitions hrecords hr hsource
        cases hnone.symm.trans hs
    | ancestry hsource hs hfault =>
        obtain ⟨s, hs', hfaults⟩ := circular_of_definitions hrecords hr hsource
        obtain rfl := Option.some.inj (hs.symm.trans hs')
        exact .inr (hfaults _ hfault)
    | baseless hds hfirst => exact .inl ⟨earlier, r, later, _, _, rfl, hearlier, hds, hfirst, rfl⟩
  · have hfault : ofTable {} { soft := ["p"] } {} circlingClasses =
        .error (.circularMembership ["p", "att.a", "att.b", "att.a"]) := by cbv
    have hrecords : ∃ records, Classification.elaborate { soft := ["p"] } circlingClasses {} =
        .ok records := ⟨_, by cbv⟩
    obtain ⟨records, hrecords⟩ := hrecords
    refine ⟨{}, _, {}, _, records, _, hrecords, hfault, ["p", "att.a", "att.b"], "att.a", rfl, ?_,
      by decide⟩
    have hp : circlingClasses.MemberOf "p" "att.a" := ⟨_, rfl, List.mem_singleton_self _⟩
    have ha : circlingClasses.MemberOf "att.a" "att.b" := ⟨_, rfl, List.mem_singleton_self _⟩
    have hb : circlingClasses.MemberOf "att.b" "att.a" := ⟨_, rfl, List.mem_singleton_self _⟩
    exact .cons_cons hp (.cons_cons ha (.cons_cons hb (.singleton _)))

/-- A paragraph that changes an attribute that none of its classes defines. -/
def changeText : String := "<elementSpec ident=\"p\"><attList>" ++
  "<attDef ident=\"rend\" mode=\"change\"/></attList></elementSpec>"

/-- The paragraph as the text describes it. -/
def changedTable : Table := .ofList [
  .ofElement { ident := "p", attributes := [.own { ident := "rend", mode := some .change }] }]

/-- It becomes a block of text. -/
def changing : Classification := { soft := ["p"] }

/-- The paragraph is loaded, expanded and made a record, and compiling then fails at the attribute
that it changes. -/
theorem late_faults_change :
    let source := Source.ofTexts (.ofList [("p", changeText)])
    let fault := SchemaFault.changeWithoutBase "rend" "p"
    (∃ corpus records, validate changing = .ok () ∧
      Corpus.loadAll "en" source changing.seeds .empty = (corpus, .ok ()) ∧
      corpus.table.expand = .ok changedTable ∧
      changing.elaborate changedTable {} = .ok records ∧
      compile {} source changing {} = (corpus, .error fault) ∧
      FirstRedefined changedTable records fault ∧
      (FirstRedefined changedTable records fault ∨ Circular changedTable fault)) ∧
    (∃ p base, [({ ident := "rend" } : AttributeDef)].foldlM (Attributes.step "p")
      { dictionary := .empty } = .ok p ∧ p.dictionary.get? "rend" = some base) ∧
    ∃ r own, References.build changing changedTable = .ok r ∧
      changing.entries.mapM (Elaboration.recordsFor r {} changedTable) = .ok own := by
  intro source fault
  have hvalid : validate changing = .ok () := rfl
  have hp : SpecEntry.ofText "en" changeText = .ok [⟨.ofElement { ident := "p", attributes :=
      [.own { ident := "rend", mode := some .change }] }, []⟩] := by decide +kernel
  have hload : Corpus.loadAll "en" source changing.seeds .empty =
      (⟨changedTable, ["p"], ⟨[]⟩, .empty, []⟩, .ok ()) :=
    (Corpus.run_visit_new rfl (by decide) rfl hp).trans Corpus.run_nil
  have hexpand : changedTable.expand = .ok changedTable := by cbv
  have hfault : ofTable {} changing {} changedTable = .error fault := by cbv
  have hcompile : compile {} source changing {} =
      (⟨changedTable, ["p"], ⟨[]⟩, .empty, []⟩, .error fault) := by
    rw [compile_eq hvalid hload hexpand, hfault]
  have hrun : [({ ident := "rend" } : AttributeDef)].foldlM (Attributes.step "p")
      { dictionary := .empty } =
        .ok ⟨.ofList [("rend", { ident := "rend" })], ⟨["rend"], []⟩, ["rend"]⟩ := rfl
  have hbuild : References.build changing changedTable =
      .ok (.ofPlaced [⟨.soft, "p", []⟩]) := by cbv
  obtain ⟨records, hrecords⟩ : ∃ records, changing.elaborate changedTable {} = .ok records :=
    ⟨_, by cbv⟩
  obtain ⟨base, hbase⟩ := late_faults.2.2.1 _ _ _ _ "rend" hrun (List.mem_singleton_self _)
  obtain ⟨own, hown⟩ := late_faults.2.2.2.1 changing {} _ _ hbuild
  refine ⟨⟨_, records, hvalid, hload, hexpand, hrecords, hcompile, ?_, ?_⟩, ⟨_, base, hrun, hbase⟩,
    _, own, hbuild, hown⟩
  · exact (late_faults.1 {} source changing {} _ _ _ hvalid hload hexpand hrecords fault).mp
      hcompile
  · exact late_faults.2.1 {} changing {} _ _ hrecords fault hfault

end Schema

end EditorSchema
