/-
A corpus over all its loadings, those that fail included.

A loading goes on step by step.  Each step leaves fewer idents to define or, where it defines
none, less to do; so a loading comes to its end, whatever circles there are in what the texts
describe.  No text is asked for twice, and none for an ident that is in the table by then.  At
every moment the table holds the first entries of the texts that were asked for so far.  What
it holds stays as it is, whether the loadings after that succeed or fail.

* `Corpus.Step`: one step of a loading that goes on;
* `Corpus.wellFounded_step`: steps do not go on forever;
* `Corpus.exists_steps`: a loading is what its steps lead to;
* `Corpus.Orderly`, `Corpus.Grows`: what holds at every moment, and what is kept from then on;
* `Corpus.loadings_orderly`: so it is over all loadings.
-/
import Mathlib.Tactic
import EditorSchema.Proofs.Corpus.Circles
import EditorSchema.Proofs.Corpus.Closure

namespace EditorSchema.Corpus

open Relation (ReflTransGen)
open SpecEntry (first)

variable {language ident : String} {source : Source} {tasks : List Task}
variable {c c' : Corpus} {s next : List Task × Corpus}

/-! ### Steps -/

/-- **One step of a loading that goes on**: a spec becomes a member of a class, which is then to
be loaded; an ident is passed over that is there or was asked for; or the text for an ident is
read. -/
inductive Step (language : String) (source : Source) :
    List Task × Corpus → List Task × Corpus → Prop
  | join {member group : String} {tasks : List Task} {c : Corpus}
      (hno : c.memberships.closesCycle member group = false) :
      Step language source (.join member group :: tasks, c)
        (.visit group :: tasks, { c with memberships := c.memberships.add member group })
  | skip {ident : String} {tasks : List Task} {c : Corpus} (hdone : Reached c ident) :
      Step language source (.visit ident :: tasks, c) (tasks, c)
  | read {ident text : String} {tasks : List Task} {c : Corpus} {entries : List SpecEntry}
      (hnew : ¬ Reached c ident) (htext : source.read ident = .ok text)
      (hentries : SpecEntry.ofText language text = .ok entries) :
      Step language source (.visit ident :: tasks, c)
        ((readNext ident entries c).2.flatMap SpecEntry.tasks ++ tasks,
          (readNext ident entries c).1)

/-- The idents that are left to define, and the steps that tasks take by themselves. -/
def remaining (language : String) (source : Source) (s : List Task × Corpus) : ℕ ×ₗ ℕ :=
  toLex (missing language source s.2.table, weight s.1)

lemma weight_cons (task : Task) (tasks : List Task) :
    weight (task :: tasks) = task.weight + weight tasks := rfl

/-- A step leaves fewer idents to define, or as many and less to do. -/
lemma Step.remaining_lt (h : Step language source s next) :
    remaining language source next < remaining language source s := by
  rw [remaining, remaining, Prod.Lex.toLex_lt_toLex]
  cases h with
  | join =>
      refine .inr ⟨rfl, ?_⟩
      simp only [weight_cons, Task.weight]
      omega
  | skip =>
      refine .inr ⟨rfl, ?_⟩
      simp only [weight_cons, Task.weight]
      omega
  | @read ident text tasks c entries _ htext hentries =>
      by_cases hnone : (readNext ident entries c).2 = []
      · -- a text that defines nothing new leaves the table as it is
        have htable : (readNext ident entries c).1.table = c.table := register_table_eq hnone
        refine .inr ⟨by rw [htable], ?_⟩
        simp only [hnone, List.flatMap_nil, List.nil_append, weight_cons, Task.weight]
        omega
      · exact .inl (missing_register_lt (source.mem_texts htext) hentries hnone)

/-- **Steps do not go on forever**, wherever they begin. -/
theorem wellFounded_step (language : String) (source : Source) :
    WellFounded fun next s => Step language source s next :=
  Subrelation.wf Step.remaining_lt (InvImage.wf (remaining language source) wellFounded_lt)

/-- **A loading is what its steps lead to.** -/
theorem exists_steps (language : String) (source : Source) (tasks : List Task) (c : Corpus) :
    ∃ last, ReflTransGen (Step language source) (tasks, c) last ∧
      Ends language source last.1 last.2 (run language source tasks c) := by
  have hends : ∃ left last, ReflTransGen (Step language source) (tasks, c) (left, last) ∧
      Ends language source left last (run language source tasks c) :=
    run_ends (fun _ _ _ _ hno h => h.tail (.join hno)) (fun _ _ _ hdone h => h.tail (.skip hdone))
      (fun _ _ _ _ _ htable hreads htext hentries h =>
        h.tail (.read (by simp [Reached, htable, hreads]) htext hentries)) .refl
  obtain ⟨left, last, hsteps, hends⟩ := hends
  exact ⟨(left, last), hsteps, hends⟩

/-! ### What holds at every moment -/

/-- **What holds at every moment.** -/
structure Orderly (language : String) (source : Source) (c : Corpus) : Prop where
  /-- No text was asked for twice, -/
  once : c.reads.Nodup
  /-- and none for an ident that the texts asked for before had defined. -/
  unknown : ∀ before ident rest, c.reads = before ++ ident :: rest →
    first (found language source before) ident = none
  /-- The table holds the first entries of the texts that were asked for. -/
  holds : Holds c.table (found language source c.reads)

/-- What was asked for or is in the table stays there, as it is. -/
structure Grows (c c' : Corpus) : Prop where
  reads : c.reads <+: c'.reads
  table : ∀ ident spec, c.table.get? ident = some spec → c'.table.get? ident = some spec

lemma orderly_empty : Orderly language source .empty where
  once := .nil
  unknown := by simp [empty]
  holds := holds_empty

/-- A text that is asked for, whether it is there or not. -/
lemma Orderly.ask (h : Orderly language source c) (hnew : ¬ Reached c ident)
    (hreads : c'.reads = c.reads ++ [ident])
    (hholds : Holds c'.table (found language source c'.reads)) : Orderly language source c' := by
  rw [Reached, h.holds.contains_iff, not_or] at hnew
  refine ⟨?_, fun before other rest hsplit => ?_, hholds⟩
  · rw [hreads, ← List.concat_eq_append]
    exact h.once.concat hnew.2
  · rw [hreads] at hsplit
    rcases List.eq_nil_or_concat' rest with rfl | ⟨rest, last, rfl⟩
    · obtain ⟨rfl, rfl⟩ := List.append_singleton_inj.mp hsplit
      exact Option.eq_none_iff_forall_ne_some.mpr fun e he => hnew.1 ⟨e, he⟩
    · rw [← List.cons_append, ← List.append_assoc] at hsplit
      exact h.unknown before other rest (List.append_singleton_inj.mp hsplit).1

/-- A text that is not there or describes nothing defines nothing. -/
lemma found_append_of_entriesOf_eq_nil {reads : List String}
    (h : entriesOf language source ident = []) :
    found language source (reads ++ [ident]) = found language source reads := by
  simp [found, h]

/-- Where more was asked for, the first entry of an ident is still the first. -/
lemma first_found_mono {reads more : List String} (h : reads <+: more) {e : SpecEntry}
    (he : first (found language source reads) ident = some e) :
    first (found language source more) ident = some e := by
  obtain ⟨rest, rfl⟩ := h
  rw [found] at he
  rw [found, List.flatMap_append, SpecEntry.first_append, he, Option.some_or]

/-- Where more was asked for, what is in the table is still there. -/
lemma Orderly.grows (h : Orderly language source c) (h' : Orderly language source c')
    (hreads : c.reads <+: c'.reads) : Grows c c' := by
  refine ⟨hreads, fun ident spec hspec => ?_⟩
  rw [h.holds ident] at hspec
  obtain ⟨e, he, rfl⟩ := Option.map_eq_some_iff.mp hspec
  rw [h'.holds ident, first_found_mono hreads he, Option.map_some]

/-- A text that is read brings its entries. -/
lemma Orderly.read (h : Orderly language source c) {text : String} {entries : List SpecEntry}
    (hnew : ¬ Reached c ident) (htext : source.read ident = .ok text)
    (hentries : SpecEntry.ofText language text = .ok entries) :
    Orderly language source (readNext ident entries c).1 := by
  obtain ⟨hreads, hholds, -⟩ := readNext_first ident entries h.holds
  refine h.ask hnew hreads ?_
  rw [hreads, found_append_singleton htext hentries]
  exact hholds

/-- **What one step keeps.** -/
lemma Orderly.step (h : Orderly language source s.2) (hstep : Step language source s next) :
    Orderly language source next.2 ∧ s.2.reads <+: next.2.reads := by
  cases hstep with
  | join => exact ⟨⟨h.once, h.unknown, h.holds⟩, List.prefix_rfl⟩
  | skip => exact ⟨h, List.prefix_rfl⟩
  | @read ident text tasks c entries hnew htext hentries =>
      refine ⟨h.read hnew htext hentries, ?_⟩
      rw [(readNext_first ident entries h.holds).1]
      exact List.prefix_append _ _

/-- **What steps keep**, one after the other. -/
lemma Orderly.steps (h : Orderly language source s.2)
    (hsteps : ReflTransGen (Step language source) s next) :
    Orderly language source next.2 ∧ s.2.reads <+: next.2.reads := by
  induction hsteps with
  | refl => exact ⟨h, List.prefix_rfl⟩
  | tail _ hstep ih =>
      obtain ⟨hnext, hmore⟩ := ih.1.step hstep
      exact ⟨hnext, ih.2.trans hmore⟩

/-- A loading that comes to its end may have asked for a text that gives nothing. -/
lemma Orderly.ends (h : Orderly language source c) {result : Corpus × Except SpecFault Unit}
    (hends : Ends language source tasks c result) :
    Orderly language source result.1 ∧ c.reads <+: result.1.reads := by
  have hnothing {ident : String} (hnew : ¬ Reached c ident)
      (hnone : entriesOf language source ident = []) :
      Orderly language source { c with reads := c.reads ++ [ident] } := by
    refine h.ask hnew rfl ?_
    rw [found_append_of_entriesOf_eq_nil hnone]
    exact h.holds
  cases hends with
  | done => exact ⟨h, List.prefix_rfl⟩
  | circle => exact ⟨h, List.prefix_rfl⟩
  | unread hnew hread =>
      exact ⟨hnothing hnew (by simp [entriesOf, hread]), List.prefix_append _ _⟩
  | invalid hnew htext hentries =>
      exact ⟨hnothing hnew (by simp [entriesOf, htext, hentries]), List.prefix_append _ _⟩

/-! ### All loadings -/

/-- **What a loading keeps**, whether it succeeds or fails. -/
lemma Orderly.run (h : Orderly language source c) (tasks : List Task) :
    Orderly language source (run language source tasks c).1 ∧
      Grows c (Corpus.run language source tasks c).1 := by
  obtain ⟨last, hsteps, hends⟩ := exists_steps language source tasks c
  have hlast : Orderly language source last.2 ∧ c.reads <+: last.2.reads := h.steps hsteps
  obtain ⟨hresult, hmore⟩ := hlast.1.ends hends
  exact ⟨hresult, h.grows hresult (hlast.2.trans hmore)⟩

lemma Grows.refl (c : Corpus) : Grows c c := ⟨List.prefix_rfl, fun _ _ h => h⟩

lemma Grows.trans {c'' : Corpus} (h : Grows c c') (h' : Grows c' c'') : Grows c c'' :=
  ⟨h.reads.trans h'.reads, fun ident spec hspec => h'.table ident spec (h.table ident spec hspec)⟩

lemma after_append_singleton (history : List (List String)) (idents : List String) :
    after language source (history ++ [idents]) =
      (loadAll language source idents (after language source history)).1 := by
  rw [after, after, List.foldl_append]
  rfl

lemma orderly_after (language : String) (source : Source) (history : List (List String)) :
    Orderly language source (after language source history) := by
  induction history using List.reverseRecOn with
  | nil => exact orderly_empty
  | append_singleton history idents ih =>
      rw [after_append_singleton]
      exact (ih.run _).1

lemma grows_after (language : String) (source : Source) (history more : List (List String)) :
    Grows (after language source history) (after language source (history ++ more)) := by
  induction more using List.reverseRecOn with
  | nil =>
      rw [List.append_nil]
      exact .refl _
  | append_singleton more idents ih =>
      rw [← List.append_assoc, after_append_singleton]
      exact ih.trans ((orderly_after language source (history ++ more)).run _).2

/-- **A corpus over all its loadings**, those that fail included; loading a single ident is
loading a list of one.  There is no endless row of steps, and each loading is what its steps lead
to.  At every moment of a loading, and at its end, no text was asked for twice or for an ident
that had been defined by then, and the table holds the first entries of the texts that were asked
for, each under its own ident; and what was in the table at any time before is still there. -/
theorem loadings_orderly (language : String) (source : Source) :
    (¬ ∃ states : ℕ → List Task × Corpus,
      ∀ n, Step language source (states n) (states (n + 1))) ∧
    ∀ history : List (List String),
      (∀ idents : List String, ∃ last, ReflTransGen (Step language source)
          (idents.map .visit, after language source history) last ∧
        Ends language source last.1 last.2
          (loadAll language source idents (after language source history))) ∧
      (∀ (idents : List String) s, ReflTransGen (Step language source)
          (idents.map .visit, after language source history) s →
        Orderly language source s.2 ∧ Grows (after language source history) s.2) ∧
      Orderly language source (after language source history) ∧
      (∀ more, Grows (after language source history) (after language source (history ++ more))) ∧
      ∀ ident spec, (after language source history).table.get? ident = some spec →
        spec.ident = ident := by
  refine ⟨?_, fun history => ⟨fun idents => exists_steps language source _ _,
    fun idents s hsteps => ?_, orderly_after language source history,
    grows_after language source history, fun ident spec hspec => ?_⟩⟩
  · rintro ⟨states, hsteps⟩
    obtain ⟨n, hn⟩ := @WellFounded.not_rel_apply_succ _ _ ⟨wellFounded_step language source⟩ states
    exact hn (hsteps n)
  · have hstart := orderly_after language source history
    obtain ⟨hs, hreads⟩ := hstart.steps hsteps
    exact ⟨hs, hstart.grows hs hreads⟩
  · rw [(orderly_after language source history).holds ident] at hspec
    obtain ⟨e, he, rfl⟩ := Option.map_eq_some_iff.mp hspec
    exact SpecEntry.ident_of_first he

/-- Two classes that are members of each other are both there when the loading has failed. -/
lemma after_eachOther : after "en" circleSource [["a"]] = ⟨.ofList [
    .ofClass { ident := "a", kind := .model, memberships := ["b"] },
    .ofClass { ident := "b", kind := .model, memberships := ["a"] }], ["a"], ⟨[("a", "b")]⟩,
    .empty, []⟩ := by
  rw [after, List.foldl_cons, List.foldl_nil, loadAll, List.map_singleton,
    run_visit_new rfl (by decide) rfl ofText_eachOtherText]
  refine (congrArg Prod.fst (run_join (by cbv))).trans ?_
  exact (congrArg Prod.fst (run_visit_done (.inl rfl))).trans
    (congrArg Prod.fst (run_join_circle (by cbv)))

/-- What was there when a circle was found is still there after more loadings, and none of these
goes on for ever. -/
theorem loadings_orderly_circle : ∃ spec,
    (after "en" circleSource [["a"]]).table.get? "b" = some spec ∧ spec.ident = "b" ∧
    (after "en" circleSource ([["a"]] ++ [["x"], ["a", "b"]])).table.get? "b" = some spec ∧
    (∃ s, ReflTransGen (Step "en" circleSource)
        (["x", "b"].map .visit, after "en" circleSource [["a"]]) s ∧
      Orderly "en" circleSource s.2) ∧
    ¬ ∃ states : ℕ → List Task × Corpus,
      ∀ n, Step "en" circleSource (states n) (states (n + 1)) := by
  obtain ⟨hends, hall⟩ := loadings_orderly "en" circleSource
  obtain ⟨hloading, hmoment, -, hgrows, hkeyed⟩ := hall [["a"]]
  have hspec : (after "en" circleSource [["a"]]).table.get? "b" =
      some (.ofClass { ident := "b", kind := .model, memberships := ["a"] }) := by
    rw [after_eachOther]
    rfl
  obtain ⟨last, hsteps, -⟩ := hloading ["x", "b"]
  exact ⟨_, hspec, hkeyed _ _ hspec, (hgrows [["x"], ["a", "b"]]).table _ _ hspec,
    ⟨last, hsteps, (hmoment ["x", "b"] last hsteps).1⟩, hends⟩

end EditorSchema.Corpus
