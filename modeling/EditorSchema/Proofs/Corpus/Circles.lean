/-
Memberships of loaded specs lead from no class back to itself.

A spec is registered before it is made a member of its classes, and other texts are read in
between.  So while the work goes on the memberships that are known are some of those that the
table tells, and each of the others is a task that is left.  A membership becomes known only
if it closes no circle; if it would close one, that circle runs along the table, and the
loading ends.

* `Table.MemberOf`: the memberships that a table tells;
* `Corpus.Joined`, `Corpus.Joining`: what holds while tasks are left, and what holds of a
  loading that succeeds besides;
* `Corpus.after`: what is there after loadings that succeeded or failed;
* `Corpus.loadAll_memberships`: what a loading that succeeds tells of memberships, and what one
  that reports a circle does.
-/
import Mathlib.Tactic
import EditorSchema.Files.Basic
import EditorSchema.Proofs.Corpus.Registration
import EditorSchema.Proofs.Dictionary
import EditorSchema.Proofs.Membership

namespace EditorSchema

open Relation (ReflTransGen)

/-- A table tells that a spec is a member of a class. -/
def Table.MemberOf (t : Table) (member group : String) : Prop :=
  ∃ spec, t.get? member = some spec ∧ group ∈ spec.memberships

lemma Table.mem_idents_of_get? {t : Table} {ident : String} {spec : Spec}
    (h : t.get? ident = some spec) : ident ∈ t.idents :=
  Dictionary.mem_keys_iff.mpr (Dictionary.contains_iff.mpr ⟨spec, h⟩)

lemma SpecEntry.join_mem_tasks {e : SpecEntry} {member group : String} :
    .join member group ∈ e.tasks ↔ e.spec.ident = member ∧ group ∈ e.spec.memberships := by
  simp only [tasks, List.mem_append, List.mem_map, Task.join.injEq, reduceCtorEq, and_false,
    exists_false, or_false]
  constructor
  · rintro ⟨other, hother, hident, rfl⟩
    exact ⟨hident, hother⟩
  · rintro ⟨hident, hgroup⟩
    exact ⟨group, hgroup, hident, rfl⟩

namespace Corpus

open SpecEntry (first)

variable {language textIdent ident member group : String} {source : Source}
variable {tasks : List Task} {entries old : List SpecEntry} {c : Corpus}

/-! ### Registration -/

/-- Registration makes nothing a member of a class. -/
lemma memberships_registerAll (entries : List SpecEntry) (c : Corpus) :
    (registerAll textIdent entries c).1.memberships = c.memberships := by
  induction entries generalizing c with
  | nil => rfl
  | cons e rest ih =>
      by_cases hin : c.table.contains e.spec.ident = true
      · rw [registerAll_of_contains hin, ih]
      · rw [registerAll_of_not_contains hin, ih]
        rfl

lemma memberships_readNext (ident : String) (entries : List SpecEntry) (c : Corpus) :
    (readNext ident entries c).1.memberships = c.memberships := by
  rw [readNext, register, memberships_registerAll]
  split <;> rfl

/-- The table after a text was read: what was there, and the new specs. -/
lemma get?_readNext (h : Holds c.table old) {spec : Spec} :
    (readNext textIdent entries c).1.table.get? ident = some spec ↔
      c.table.get? ident = some spec ∨
        ∃ e ∈ (readNext textIdent entries c).2, e.spec.ident = ident ∧ e.spec = spec := by
  obtain ⟨-, hholds, hnew⟩ := readNext_first textIdent entries h
  rw [hholds ident, h ident, SpecEntry.first_append]
  cases hold : first old ident with
  | some e =>
      rw [Option.some_or]
      refine ⟨.inl, fun hor => hor.resolve_right ?_⟩
      rintro ⟨f, hf, rfl, -⟩
      have hnone : first old f.spec.ident = none := ((hnew f).mp hf).1
      rw [hold] at hnone
      cases hnone
  | none =>
      rw [Option.none_or, Option.map_none]
      constructor
      · intro hspec
        rw [Option.map_eq_some_iff] at hspec
        obtain ⟨e, he, rfl⟩ := hspec
        obtain rfl := SpecEntry.ident_of_first he
        exact .inr ⟨e, (hnew e).mpr ⟨hold, he⟩, rfl, rfl⟩
      · rintro (hspec | ⟨e, he, rfl, rfl⟩)
        · cases hspec
        · rw [((hnew e).mp he).2, Option.map_some]

/-- The memberships that the table tells after a text was read: those from before, and those
that are tasks of the new specs. -/
lemma memberOf_readNext (h : Holds c.table old) :
    (readNext textIdent entries c).1.table.MemberOf member group ↔
      c.table.MemberOf member group ∨
        ∃ e ∈ (readNext textIdent entries c).2, .join member group ∈ e.tasks := by
  simp only [Table.MemberOf, get?_readNext h, SpecEntry.join_mem_tasks]
  constructor
  · rintro ⟨spec, hspec | ⟨e, he, hident, rfl⟩, hgroup⟩
    · exact .inl ⟨spec, hspec, hgroup⟩
    · exact .inr ⟨e, he, hident, hgroup⟩
  · rintro (⟨spec, hspec, hgroup⟩ | ⟨e, he, hident, hgroup⟩)
    · exact ⟨spec, .inl hspec, hgroup⟩
    · exact ⟨e.spec, .inr ⟨e, he, hident, rfl⟩, hgroup⟩

/-! ### While tasks are left -/

/-- **What holds of memberships while tasks are left.** -/
structure Joined (tasks : List Task) (c : Corpus) : Prop where
  /-- The table holds the first entry of each ident among some. -/
  holds : ∃ entries, Holds c.table entries
  /-- What is known, the table tells. -/
  told : ∀ member group, c.memberships.Edge member group → c.table.MemberOf member group
  /-- What is left to be made known, the table tells too. -/
  queued : ∀ member group, .join member group ∈ tasks → c.table.MemberOf member group
  /-- What is known has no circle. -/
  acyclic : Acyclic c.memberships.Edge

/-- Besides, every membership that the table tells is known or is left to be made known. -/
structure Joining (tasks : List Task) (c : Corpus) : Prop extends Joined tasks c where
  pending : ∀ member group, c.table.MemberOf member group →
    c.memberships.Edge member group ∨ .join member group ∈ tasks

lemma joining_start (seeds : List String) : Joining (seeds.map .visit) .empty where
  holds := ⟨[], holds_empty⟩
  told := nofun
  queued := by simp
  acyclic := by
    intro ident hcycle
    obtain ⟨other, hedge, -⟩ := Relation.TransGen.head'_iff.mp hcycle
    cases hedge
  pending := by
    rintro member group ⟨spec, hspec, -⟩
    cases hspec

/-- Other tasks that make nothing a member of a class. -/
lemma Joined.visits (h : Joined tasks c) (seeds : List String) :
    Joined (seeds.map .visit) c where
  holds := h.holds
  told := h.told
  queued := by simp
  acyclic := h.acyclic

lemma Joining.visits (h : Joining [] c) (seeds : List String) : Joining (seeds.map .visit) c where
  toJoined := h.toJoined.visits seeds
  pending := fun a b hmember => .inl ((h.pending a b hmember).resolve_right (by simp))

/-- A membership that closes no circle becomes known. -/
lemma Joined.join (h : Joined (.join member group :: tasks) c)
    (hno : c.memberships.closesCycle member group = false) :
    Joined (.visit group :: tasks) { c with memberships := c.memberships.add member group } where
  holds := h.holds
  told := by
    intro a b hedge
    rw [Memberships.edge_add] at hedge
    rcases hedge with hold | ⟨rfl, rfl⟩
    · exact h.told a b hold
    · exact h.queued a b List.mem_cons_self
  queued := by
    intro a b hin
    have htasks : .join a b ∈ tasks := (List.mem_cons.mp hin).resolve_left nofun
    exact h.queued a b (List.mem_cons_of_mem _ htasks)
  acyclic := Memberships.acyclic_add h.acyclic hno

lemma Joining.join (h : Joining (.join member group :: tasks) c)
    (hno : c.memberships.closesCycle member group = false) :
    Joining (.visit group :: tasks)
      { c with memberships := c.memberships.add member group } where
  toJoined := h.toJoined.join hno
  pending := by
    intro a b hmember
    rw [Memberships.edge_add]
    rcases h.pending a b hmember with hold | hin
    · exact .inl (.inl hold)
    · rcases List.mem_cons.mp hin with heq | hin
      · obtain ⟨rfl, rfl⟩ := Task.join.inj heq
        exact .inl (.inr ⟨rfl, rfl⟩)
      · exact .inr (List.mem_cons_of_mem _ hin)

lemma Joined.skip (h : Joined (.visit ident :: tasks) c) : Joined tasks c where
  holds := h.holds
  told := h.told
  queued := fun a b hin => h.queued a b (List.mem_cons_of_mem _ hin)
  acyclic := h.acyclic

lemma Joining.skip (h : Joining (.visit ident :: tasks) c) : Joining tasks c where
  toJoined := h.toJoined.skip
  pending := by
    intro a b hmember
    refine (h.pending a b hmember).imp_right fun hin => ?_
    exact (List.mem_cons.mp hin).resolve_left nofun

/-- Reading a text leaves the memberships of its new specs to be made known. -/
lemma Joined.read (h : Joined (.visit ident :: tasks) c) :
    Joined ((readNext ident entries c).2.flatMap SpecEntry.tasks ++ tasks)
      (readNext ident entries c).1 := by
  obtain ⟨old, hold⟩ := h.holds
  have htold {a b : String} (hmember : c.table.MemberOf a b) :
      (readNext ident entries c).1.table.MemberOf a b := (memberOf_readNext hold).mpr (.inl hmember)
  refine ⟨⟨_, (readNext_first ident entries hold).2.1⟩, fun a b hedge => ?_, fun a b hin => ?_, ?_⟩
  · rw [memberships_readNext] at hedge
    exact htold (h.told a b hedge)
  · rcases List.mem_append.mp hin with hin | hin
    · exact (memberOf_readNext hold).mpr (.inr (List.mem_flatMap.mp hin))
    · exact htold (h.queued a b (List.mem_cons_of_mem _ hin))
  · rw [memberships_readNext]
    exact h.acyclic

lemma Joining.read (h : Joining (.visit ident :: tasks) c) :
    Joining ((readNext ident entries c).2.flatMap SpecEntry.tasks ++ tasks)
      (readNext ident entries c).1 where
  toJoined := h.toJoined.read
  pending := by
    intro a b hmember
    obtain ⟨old, hold⟩ := h.holds
    rw [memberships_readNext]
    rcases (memberOf_readNext hold).mp hmember with hbefore | hnew
    · refine (h.pending a b hbefore).imp_right fun hin => List.mem_append_right _ ?_
      exact (List.mem_cons.mp hin).resolve_left nofun
    · exact .inr (List.mem_append_left _ (List.mem_flatMap.mpr hnew))

/-! ### The end of a loading -/

/-- What is there after lists of idents were loaded, one list after the other, whether a loading
succeeded or failed. -/
def after (language : String) (source : Source) (history : List (List String)) : Corpus :=
  history.foldl (fun c idents => (loadAll language source idents c).1) .empty

/-- How a loading ends of which `Joined` holds at the beginning. -/
lemma Joined.ends (h : Joined tasks c) (language : String) (source : Source) :
    ∃ left last, Joined left last ∧
      Ends language source left last (run language source tasks c) :=
  run_ends (fun _ _ _ _ hno h => h.join hno) (fun _ _ _ _ h => h.skip)
    (fun _ _ _ _ _ _ _ _ _ h => h.read) h

/-- A loading keeps what holds of memberships, also where it fails. -/
lemma Joined.of_run (h : Joined tasks c) (language : String) (source : Source) :
    Joined [] (run language source tasks c).1 := by
  obtain ⟨left, last, hlast, hends⟩ := h.ends language source
  have hleft : Joined [] last := hlast.visits []
  generalize run language source tasks c = result at hends ⊢
  cases hends with
  | done => exact hleft
  | circle => exact hleft
  | unread => exact ⟨hleft.holds, hleft.told, hleft.queued, hleft.acyclic⟩
  | invalid => exact ⟨hleft.holds, hleft.told, hleft.queued, hleft.acyclic⟩

lemma joined_after (history : List (List String)) : Joined [] (after language source history) := by
  induction history using List.reverseRecOn with
  | nil => exact (joining_start []).toJoined
  | append_singleton history idents ih =>
      rw [after, List.foldl_append]
      exact (ih.visits idents).of_run language source

/-- A loading that succeeds makes all memberships known that the table tells. -/
lemma Joining.of_run {c' : Corpus} (h : Joining tasks c)
    (hrun : run language source tasks c = (c', .ok ())) : Joining [] c' :=
  run_induct (fun _ _ _ _ hno h => h.join hno) (fun _ _ _ _ h => h.skip)
    (fun _ _ _ _ _ _ _ _ _ h => h.read) h hrun

/-- What is known has no circle, so what the table tells has none either. -/
lemma Joining.acyclic_table (h : Joining [] c) : Acyclic c.table.MemberOf :=
  h.acyclic.mono fun a b hmember => (h.pending a b hmember).resolve_right (by simp)

lemma acyclic_of_loadAll {seeds : List String}
    (h : loadAll language source seeds .empty = (c, .ok ())) : Acyclic c.table.MemberOf :=
  ((joining_start seeds).of_run h).acyclic_table

/-- A membership that is reported closes a circle along the table. -/
lemma Joined.circle (h : Joined tasks c) {c' : Corpus}
    (hrun : run language source tasks c = (c', .error (.circularMembership member group)))
    (hsource : ∀ ident, source.read ident ≠ .error (.circularMembership member group)) :
    c'.table.MemberOf member group ∧ ReflTransGen c'.table.MemberOf group member := by
  obtain ⟨left, last, hlast, hends⟩ := h.ends language source
  rw [hrun] at hends
  generalize hresult : (c', Except.error (SpecFault.circularMembership member group)) = result
    at hends
  cases hends with
  | done => cases hresult
  | circle hcycle =>
      cases hresult
      have hway := Memberships.closesCycle_iff.mp hcycle
      exact ⟨hlast.queued member group List.mem_cons_self,
        ReflTransGen.mono hlast.told group member hway⟩
  | unread _ hread =>
      cases hresult
      exact absurd hread (hsource _)
  | invalid _ htext hentries =>
      rename_i fault _
      cases fault <;> cases hresult

/-- Texts at hand report no circle: all that they may be is missing. -/
lemma read_ofTexts_ne (texts : Dictionary String) (ident member group : String) :
    (Source.ofTexts texts).read ident ≠ .error (.circularMembership member group) := by
  intro h
  rw [Source.ofTexts] at h
  dsimp only at h
  split at h <;> cases h

/-- The files of a folder report no circle: all that they may be is missing or unreadable. -/
lemma read_ofFolder_ne (files : Files) (folder extension ident member group : String) :
    (Source.ofFolder files folder extension).read ident ≠
      .error (.circularMembership member group) := by
  intro h
  rw [Source.ofFolder] at h
  dsimp only at h
  rw [Source.readIn] at h
  split at h <;> cases h

/-- **Memberships of loaded specs lead from no class back to itself**, where a loading succeeds.
Where one reports that a spec is a member of a class that it is reached from already, and not
just passes on what the source says, the table tells that membership, and its memberships lead
from the class back to the spec; so they have a circle.  The loadings before may have failed;
loading a single ident is loading a list of one. -/
theorem loadAll_memberships (language : String) (source : Source) :
    (∀ seeds c, loadAll language source seeds .empty = (c, .ok ()) →
      Acyclic c.table.MemberOf) ∧
    ∀ history idents c member group,
      loadAll language source idents (after language source history) =
        (c, .error (.circularMembership member group)) →
      (∀ ident, source.read ident ≠ .error (.circularMembership member group)) →
      c.table.MemberOf member group ∧ ReflTransGen c.table.MemberOf group member ∧
        ¬ Acyclic c.table.MemberOf := by
  refine ⟨fun seeds c h => acyclic_of_loadAll h, ?_⟩
  intro history idents c member group h hsource
  obtain ⟨hmember, hway⟩ := ((joined_after history).visits idents).circle h hsource
  exact ⟨hmember, hway, not_acyclic_of_edge hmember hway⟩

/-- An element that names its class twice. -/
def twiceText : String := "<elementSpec ident=\"p\"><classes><memberOf key=\"c\"/>" ++
  "<memberOf key=\"c\"/></classes></elementSpec>"

/-- Two classes that are members of each other. -/
def eachOtherText : String := "<specs><classSpec ident=\"a\"><classes><memberOf key=\"b\"/>" ++
  "</classes></classSpec><classSpec ident=\"b\"><classes><memberOf key=\"a\"/></classes>" ++
  "</classSpec></specs>"

lemma ofText_eachOtherText : SpecEntry.ofText "en" eachOtherText =
    .ok [⟨.ofClass { ident := "a", kind := .model, memberships := ["b"] }, []⟩,
      ⟨.ofClass { ident := "b", kind := .model, memberships := ["a"] }, []⟩] := by
  decide +kernel

/-- The element with its class in one text, and the two classes in another. -/
def circleSource : Source :=
  .ofTexts (.ofList [("a", eachOtherText), ("c", "<classSpec ident=\"c\"/>"), ("p", twiceText)])

/-- Naming a class twice is no circle.  Of two classes that are members of each other, the second
membership is told as the one that closes the circle, and the table holds both. -/
theorem loadAll_memberships_circle :
    (∃ c, loadAll "en" circleSource ["p"] .empty = (c, .ok ()) ∧ Acyclic c.table.MemberOf) ∧
    ∃ c, loadAll "en" circleSource ["a"] (after "en" circleSource [["x"]]) =
        (c, .error (.circularMembership "b" "a")) ∧
      (∀ ident, circleSource.read ident ≠ .error (.circularMembership "b" "a")) ∧
      c.table.MemberOf "b" "a" ∧ ReflTransGen c.table.MemberOf "a" "b" := by
  have hp : SpecEntry.ofText "en" twiceText =
      .ok [⟨.ofElement { ident := "p", memberships := ["c", "c"] }, []⟩] := by decide +kernel
  have hc : SpecEntry.ofText "en" "<classSpec ident=\"c\"/>" =
      .ok [⟨.ofClass { ident := "c", kind := .model }, []⟩] := by decide +kernel
  have hsource : ∀ ident, circleSource.read ident ≠ .error (.circularMembership "b" "a") :=
    fun ident => read_ofTexts_ne _ ident "b" "a"
  constructor
  · have hrun : loadAll "en" circleSource ["p"] .empty = (⟨.ofList [
        .ofElement { ident := "p", memberships := ["c", "c"] },
        .ofClass { ident := "c", kind := .model }], ["p", "c"], ⟨[("p", "c"), ("p", "c")]⟩,
        .empty, []⟩, .ok ()) := by
      rw [loadAll, List.map_singleton, run_visit_new rfl (by decide) rfl hp]
      refine (run_join (by cbv)).trans ((run_visit_new rfl (by decide) rfl hc).trans ?_)
      exact (run_join (by cbv)).trans ((run_visit_done (.inl rfl)).trans run_nil)
    exact ⟨_, hrun, (loadAll_memberships "en" circleSource).1 _ _ hrun⟩
  · have hafter : after "en" circleSource [["x"]] = ⟨.empty, ["x"], .empty, .empty, []⟩ := by
      rw [after, List.foldl_cons, List.foldl_nil, loadAll, List.map_singleton,
        run_visit_unread (by decide) rfl]
      rfl
    have hrun : loadAll "en" circleSource ["a"] (after "en" circleSource [["x"]]) =
        (⟨.ofList [.ofClass { ident := "a", kind := .model, memberships := ["b"] },
          .ofClass { ident := "b", kind := .model, memberships := ["a"] }], ["x", "a"],
          ⟨[("a", "b")]⟩, .empty, []⟩, .error (.circularMembership "b" "a")) := by
      rw [hafter, loadAll, List.map_singleton,
        run_visit_new rfl (by decide) rfl ofText_eachOtherText]
      refine (run_join (by cbv)).trans ((run_visit_done (.inl rfl)).trans ?_)
      exact run_join_circle (by cbv)
    obtain ⟨hmember, hway, -⟩ :=
      (loadAll_memberships "en" circleSource).2 _ _ _ _ _ hrun hsource
    exact ⟨_, hrun, hsource, hmember, hway⟩

end Corpus

end EditorSchema
