/-
What a loading that succeeds vouches for, when others may have failed before it.

A loading vouches for the idents that it was asked to load and for what the specs depend on that
it found itself.  It passes over what was asked for before, whether that could be read or not.
So its success says that nothing is lacking only where no loading has failed so far; once one
has, something is lacking for good, and loading the same ident again succeeds and does nothing.

* `Corpus.Whole`: nothing is lacking of what the specs depend on;
* `Corpus.Broken`: why something is lacking for good;
* `Corpus.Vouches`: what a loading that succeeds vouches for;
* `Corpus.loadings_vouch`: a corpus is whole as long as no loading has failed, and what that
  says of the next one;
* `Corpus.load_forgets_failure`: a failure that is forgotten.
-/
import Mathlib.Tactic
import EditorSchema.Proofs.Corpus.Steps

namespace EditorSchema.Corpus

open Relation (ReflTransGen)
open SpecEntry (first)

variable {language ident other : String} {source : Source} {idents before : List String}
variable {tasks : List Task} {c c' start : Corpus}

/-- The text for an ident is there and describes specs. -/
def Readable (language : String) (source : Source) (ident : String) : Prop :=
  ∃ text entries, source.read ident = .ok text ∧ SpecEntry.ofText language text = .ok entries

/-- An ident is in the table, or its text was read. -/
def Obtained (language : String) (source : Source) (c : Corpus) (ident : String) : Prop :=
  c.table.contains ident = true ∨ ident ∈ c.reads ∧ Readable language source ident

/-- A spec that an ident stands for, or that the text for the ident brought, depends on another
ident. -/
def LeadsTo (language : String) (source : Source) (c : Corpus) (ident other : String) : Prop :=
  ∃ e : SpecEntry, first (found language source c.reads) e.spec.ident = some e ∧
    (e.spec.ident = ident ∨ ident ∈ c.reads ∧ e ∈ entriesOf language source ident) ∧
    other ∈ e.dependencies

/-- **Nothing is lacking.** -/
structure Whole (language : String) (source : Source) (c : Corpus) : Prop where
  /-- All texts that were asked for were read. -/
  readable : ∀ ident ∈ c.reads, Readable language source ident
  /-- What a spec in the table depends on is there or was read. -/
  reached : ∀ other e, first (found language source c.reads) other = some e →
    ∀ ident ∈ e.dependencies, Reached c ident
  /-- Memberships lead from no class back to itself. -/
  acyclic : Acyclic c.table.MemberOf

/-- **Something is lacking for good**: a text that was asked for is not there or describes no
specs, or memberships lead from a class back to itself. -/
def Broken (language : String) (source : Source) (c : Corpus) : Prop :=
  (∃ ident ∈ c.reads, ¬ Readable language source ident) ∨ ¬ Acyclic c.table.MemberOf

/-- Where nothing is lacking, whatever an ident leads to is there or was read. -/
lemma Whole.obtained (h : Whole language source c) (hident : Reached c ident)
    (hway : ReflTransGen (LeadsTo language source c) ident other) :
    Obtained language source c other := by
  have hreached : Reached c other := by
    induction hway with
    | refl => exact hident
    | tail _ hedge _ =>
        obtain ⟨e, he, -, hdep⟩ := hedge
        exact h.reached _ e he _ hdep
  exact hreached.imp_right fun hread => ⟨hread, h.readable _ hread⟩

lemma Whole.not_broken (h : Whole language source c) : ¬ Broken language source c := by
  rintro (⟨ident, hread, hnot⟩ | hcircle)
  · exact hnot (h.readable ident hread)
  · exact hcircle h.acyclic

lemma Reached.grows (h : Reached c ident) (hgrows : Grows c c') : Reached c' ident := by
  refine h.imp (fun hin => ?_) fun hread => hgrows.reads.subset hread
  obtain ⟨spec, hspec⟩ := Option.isSome_iff_exists.mp hin
  exact Option.isSome_iff_exists.mpr ⟨spec, hgrows.table ident spec hspec⟩

/-- What is lacking stays so. -/
lemma Broken.grows (h : Broken language source c) (hgrows : Grows c c') :
    Broken language source c' := by
  refine h.imp (fun ⟨ident, hread, hnot⟩ => ⟨ident, hgrows.reads.subset hread, hnot⟩)
    fun hcircle hno => hcircle (hno.mono ?_)
  rintro a b ⟨spec, hspec, hgroup⟩
  exact ⟨spec, hgrows.table a spec hspec, hgroup⟩

/-! ### Loadings that fail -/

/-- **A loading that fails leaves something lacking for good**: what it failed of. -/
lemma Joined.broken (h : Joined tasks c) {fault : SpecFault}
    (hrun : run language source tasks c = (c', .error fault)) : Broken language source c' := by
  obtain ⟨left, last, hlast, hends⟩ := h.ends language source
  rw [hrun] at hends
  cases hends with
  | circle hcycle =>
      have hway := Memberships.closesCycle_iff.mp hcycle
      exact .inr (not_acyclic_of_edge (hlast.queued _ _ List.mem_cons_self)
        (ReflTransGen.mono hlast.told _ _ hway))
  | unread _ hread =>
      refine .inl ⟨_, List.mem_append_right _ (List.mem_singleton_self _), ?_⟩
      rintro ⟨text, entries, htext, -⟩
      cases hread.symm.trans htext
  | invalid _ htext hentries =>
      refine .inl ⟨_, List.mem_append_right _ (List.mem_singleton_self _), ?_⟩
      rintro ⟨text', entries, htext', hentries'⟩
      cases htext.symm.trans htext'
      cases hentries.symm.trans hentries'

/-! ### Loadings that succeed -/

/-- There is a reason to load an ident: one asks for it, or a spec depends on it that was not
there before. -/
def Due (language : String) (source : Source) (idents before reads : List String)
    (ident : String) : Prop :=
  ident ∈ idents ∨ ∃ other e, first (found language source before) other = none ∧
    first (found language source reads) other = some e ∧ ident ∈ e.dependencies

/-- **What holds while tasks are left**, of a loading that begins where others have ended. -/
structure Vouching (language : String) (source : Source) (idents : List String)
    (start : Corpus) (tasks : List Task) (c : Corpus) : Prop where
  orderly : Orderly language source c
  /-- The texts that it asks for are there and describe specs. -/
  readable : ∀ ident ∈ c.reads, ident ∈ start.reads ∨ Readable language source ident
  /-- What there is a reason to load is loaded or is the target of a task. -/
  pending : Pending (Due language source idents start.reads c.reads) tasks c

lemma Orderly.vouching (h : Orderly language source start) (idents : List String) :
    Vouching language source idents start (idents.map .visit) start where
  orderly := h
  readable ident hread := .inl hread
  pending ident hdue := by
    rcases hdue with hin | ⟨other, e, hnone, hsome, -⟩
    · exact .inr ⟨.visit ident, List.mem_map_of_mem hin, rfl⟩
    · cases hnone.symm.trans hsome

/-- What is due after a text was read: what was due before, and what its new specs depend on. -/
lemma Orderly.due_readNext (h : Orderly language source c) {text : String}
    {entries : List SpecEntry} (htext : source.read ident = .ok text)
    (hentries : SpecEntry.ofText language text = .ok entries)
    (hdue : Due language source idents before (readNext ident entries c).1.reads other) :
    Due language source idents before c.reads other ∨
      ∃ e ∈ (readNext ident entries c).2, other ∈ e.dependencies := by
  obtain ⟨hreads, -, hnew⟩ := readNext_first ident entries h.holds
  rw [hreads, Due, found_append_singleton htext hentries] at hdue
  rcases hdue with hin | ⟨key, e, hnone, hsome, hdep⟩
  · exact .inl (.inl hin)
  rw [SpecEntry.first_append, Option.or_eq_some_iff] at hsome
  rcases hsome with hold | ⟨hold, hsome⟩
  · exact .inl (.inr ⟨key, e, hnone, hold, hdep⟩)
  · obtain rfl := SpecEntry.ident_of_first hsome
    exact .inr ⟨e, (hnew e).mpr ⟨hold, hsome⟩, hdep⟩

lemma Vouching.read {text : String} {entries : List SpecEntry}
    (h : Vouching language source idents start (.visit ident :: tasks) c)
    (hnew : ¬ Reached c ident) (htext : source.read ident = .ok text)
    (hentries : SpecEntry.ofText language text = .ok entries) :
    Vouching language source idents start
      ((readNext ident entries c).2.flatMap SpecEntry.tasks ++ tasks)
      (readNext ident entries c).1 where
  orderly := h.orderly.read hnew htext hentries
  readable other hother := by
    rw [(readNext_first ident entries h.orderly.holds).1, List.mem_append,
      List.mem_singleton] at hother
    rcases hother with hin | rfl
    · exact h.readable other hin
    · exact .inr ⟨text, entries, htext, hentries⟩
  pending := Pending.read h.orderly.holds h.pending fun other hdue =>
    h.orderly.due_readNext htext hentries hdue

/-- **What a loading that succeeds vouches for.** -/
structure Vouches (language : String) (source : Source) (idents : List String)
    (start c : Corpus) : Prop where
  /-- What it was asked to load is there or was asked for, -/
  asked : ∀ ident ∈ idents, Reached c ident
  /-- the texts that it asked for itself were there and described specs, -/
  readable : ∀ ident ∈ c.reads, ident ∈ start.reads ∨ Readable language source ident
  /-- and so is what the specs depend on that it found. -/
  reached : ∀ other e, first (found language source start.reads) other = none →
    first (found language source c.reads) other = some e →
      ∀ ident ∈ e.dependencies, Reached c ident

lemma Orderly.vouches (h : Orderly language source start)
    (hload : loadAll language source idents start = (c, .ok ())) :
    Vouches language source idents start c := by
  have hend : Vouching language source idents start [] c := by
    refine run_induct (fun member group tasks c _ h => ?_) (fun ident tasks c hdone h => ?_)
      (fun ident tasks c text entries htable hreads htext hentries h => ?_)
      (h.vouching idents) hload
    · have htarget : (Task.visit group).target = (Task.join member group).target := rfl
      exact ⟨⟨h.orderly.once, h.orderly.unknown, h.orderly.holds⟩, h.readable,
        Pending.retarget h.pending htarget _⟩
    · exact ⟨h.orderly, h.readable, Pending.skip h.pending hdone⟩
    · exact h.read (by simp [Reached, htable, hreads]) htext hentries
  have hreached (ident : String) (hdue : Due language source idents start.reads c.reads ident) :
      Reached c ident := (hend.pending ident hdue).resolve_right (by simp)
  exact ⟨fun ident hin => hreached ident (.inl hin), hend.readable,
    fun other e hnone hsome ident hdep => hreached ident (.inr ⟨other, e, hnone, hsome, hdep⟩)⟩

/-- A loading that succeeds leaves whole what was whole. -/
lemma Whole.of_vouches (h : Whole language source start) (hgrows : Grows start c)
    (hvouches : Vouches language source idents start c) (hacyclic : Acyclic c.table.MemberOf) :
    Whole language source c where
  readable ident hread := (hvouches.readable ident hread).elim (h.readable ident) id
  reached other e he := by
    cases hold : first (found language source start.reads) other with
    | none => exact hvouches.reached other e hold he
    | some known =>
        -- what was found before is still the first
        cases (first_found_mono hgrows.reads hold).symm.trans he
        exact fun ident hdep => (h.reached other e hold ident hdep).grows hgrows
  acyclic := hacyclic

/-! ### All loadings -/

/-- No loading of these has failed. -/
def Unfailing (language : String) (source : Source) (history : List (List String)) : Prop :=
  ∀ before idents rest, history = before ++ idents :: rest →
    ∃ c, loadAll language source idents (after language source before) = (c, .ok ())

lemma grows_loadAll {history : List (List String)} {result : Except SpecFault Unit}
    (h : loadAll language source idents (after language source history) = (c, result)) :
    Grows (after language source history) c := by
  have hgrows := grows_after language source history [idents]
  rwa [after_append_singleton, h] at hgrows

lemma whole_empty : Whole language source .empty where
  readable := by simp [empty]
  reached := nofun
  acyclic := (joining_start []).acyclic_table

/-- **A corpus stays whole as long as no loading has failed.** -/
lemma Unfailing.whole {history : List (List String)} (h : Unfailing language source history) :
    Whole language source (after language source history) ∧
      Joining [] (after language source history) := by
  induction history using List.reverseRecOn with
  | nil => exact ⟨whole_empty, joining_start []⟩
  | append_singleton history idents ih =>
      obtain ⟨hwhole, hjoining⟩ := ih fun before idents' rest hsplit =>
        h before idents' (rest ++ [idents]) (by rw [hsplit]; simp)
      obtain ⟨c, hload⟩ := h history idents [] rfl
      have hnext : Joining [] c := (hjoining.visits idents).of_run hload
      have hvouches := (orderly_after language source history).vouches hload
      rw [after_append_singleton, hload]
      exact ⟨hwhole.of_vouches (grows_loadAll hload) hvouches hnext.acyclic_table, hnext⟩

/-- Once a loading has failed, something is lacking for good. -/
lemma broken_after {history : List (List String)} {fault : SpecFault}
    (h : loadAll language source idents (after language source history) = (c, .error fault))
    (more : List (List String)) :
    Broken language source (after language source (history ++ idents :: more)) := by
  have hbroken : Broken language source (after language source (history ++ [idents])) := by
    rw [after_append_singleton, h]
    exact ((joined_after history).visits idents).broken h
  have hgrows := grows_after language source (history ++ [idents]) more
  rw [List.append_assoc, List.singleton_append] at hgrows
  exact hbroken.grows hgrows

lemma whole_after_iff {history : List (List String)} :
    Whole language source (after language source history) ↔
      Unfailing language source history := by
  refine ⟨fun h before idents rest hsplit => ?_, fun h => h.whole.1⟩
  rcases hload : loadAll language source idents (after language source before) with ⟨c, _ | _⟩
  · subst hsplit
    exact absurd (broken_after hload rest) h.not_broken
  · exact ⟨c, rfl⟩

/-- An ident that was loaded, or whose loading has failed, is there or was asked for. -/
lemma Orderly.reached_load (h : Orderly language source c) (ident : String) :
    Reached (load language source ident c).1 ident := by
  by_cases hdone : Reached c ident
  · exact hdone.grows (h.run [.visit ident]).2
  rw [load]
  have hasked : Reached { c with reads := c.reads ++ [ident] } ident :=
    .inr (List.mem_append_right _ (List.mem_singleton_self _))
  rcases htext : source.read ident with fault | text
  · rw [run_visit_unread hdone htext]
    exact hasked
  rcases hentries : SpecEntry.ofText language text with fault | entries
  · rw [run_visit_invalid hdone htext hentries]
    exact hasked
  have ⟨htable, hreads⟩ : c.table.contains ident = false ∧ ident ∉ c.reads := by
    simpa [Reached] using hdone
  rw [run_visit_new htable hreads htext hentries]
  have hnext := h.read hdone htext hentries
  exact (reached_readNext h.holds (.inr rfl)).grows (hnext.run _).2

/-- **What is passed over**: an ident that was loaded before, or whose loading has failed. -/
lemma load_again {history : List (List String)} (h : [ident] ∈ history) :
    load language source ident (after language source history) =
      (after language source history, .ok ()) := by
  obtain ⟨before, rest, rfl⟩ := List.append_of_mem h
  have hreached : Reached (after language source (before ++ [[ident]])) ident := by
    rw [after_append_singleton]
    exact (orderly_after language source before).reached_load ident
  have hgrows := grows_after language source (before ++ [[ident]]) rest
  rw [List.append_assoc, List.singleton_append] at hgrows
  rw [load, run_visit_done (hreached.grows hgrows), run_nil]

/-- **What the success of a loading says**, after any loadings; loading a single ident is loading
a list of one.  A corpus is whole just when no loading has failed so far, and something is lacking
for good once one has.  A loading that succeeds vouches for what it was asked to load and for what
the specs depend on that it found; in a corpus that was whole it vouches for all that the idents
lead to.  An ident that was loaded before, or whose loading has failed, is passed over. -/
theorem loadings_vouch (language : String) (source : Source) (history : List (List String)) :
    (Whole language source (after language source history) ↔
      Unfailing language source history) ∧
    (∀ idents c fault,
      loadAll language source idents (after language source history) = (c, .error fault) →
      ∀ more, Broken language source (after language source (history ++ idents :: more))) ∧
    (∀ idents c, loadAll language source idents (after language source history) = (c, .ok ()) →
      Vouches language source idents (after language source history) c ∧
      (Unfailing language source history → ∀ ident ∈ idents, ∀ other,
        ReflTransGen (LeadsTo language source c) ident other →
          Obtained language source c other)) ∧
    ∀ ident, [ident] ∈ history → load language source ident (after language source history) =
      (after language source history, .ok ()) := by
  refine ⟨whole_after_iff, fun idents c fault => broken_after, fun idents c hload => ?_,
    fun ident => load_again⟩
  have hvouches := (orderly_after language source history).vouches hload
  refine ⟨hvouches, fun hunfailing ident hin other hway => ?_⟩
  obtain ⟨hwhole, hjoining⟩ := hunfailing.whole
  have hacyclic : Acyclic c.table.MemberOf := ((hjoining.visits idents).of_run hload).acyclic_table
  have hnext : Whole language source c :=
    hwhole.of_vouches (grows_loadAll hload) hvouches hacyclic
  exact hnext.obtained (hvouches.asked ident hin) hway

/-- The element without its class. -/
def lackingSource : Source := .ofTexts (.ofList [("p", elementText)])

/-- The element is there when its class is found to be lacking. -/
lemma load_lacking : load "en" lackingSource "p" .empty = (⟨.ofList [
    .ofElement { ident := "p", memberships := ["c"] }], ["p", "c"], ⟨[("p", "c")]⟩, .empty, []⟩,
    .error (.notFound "c" "<memory>")) := by
  rw [load, run_visit_new rfl (by decide) rfl ofText_elementText]
  exact (run_join (by cbv)).trans (run_visit_unread (by decide) rfl)

/-- Loading the element vouches for its class.  Where the class is lacking, the corpus stays broken,
and the element is passed over when it is asked for again. -/
theorem loadings_vouch_pair :
    (∃ c, loadAll "en" pairSource ["p"] (after "en" pairSource []) = (c, .ok ()) ∧
      Unfailing "en" pairSource [] ∧ "p" ∈ ["p"] ∧ LeadsTo "en" pairSource c "p" "c" ∧
      Obtained "en" pairSource c "c") ∧
    (∃ c fault, loadAll "en" lackingSource ["p"] (after "en" lackingSource []) =
        (c, .error fault) ∧ Broken "en" lackingSource (after "en" lackingSource [["p"], ["p"]])) ∧
    ["p"] ∈ [["p"]] ∧ load "en" lackingSource "p" (after "en" lackingSource [["p"]]) =
      (after "en" lackingSource [["p"]], .ok ()) := by
  refine ⟨?_, ?_, List.mem_singleton_self _, ?_⟩
  · have hunfailing : Unfailing "en" pairSource [] := fun before idents rest hsplit => by
      simp at hsplit
    obtain ⟨c, hreads, hload⟩ : ∃ c, c.reads = ["p", "c"] ∧
        loadAll "en" pairSource ["p"] (after "en" pairSource []) = (c, .ok ()) :=
      ⟨_, rfl, loadAll_pair⟩
    have hp : entriesOf "en" pairSource "p" = _ := entriesOf_eq rfl ofText_elementText
    have hedge : LeadsTo "en" pairSource c "p" "c" := by
      refine ⟨⟨.ofElement { ident := "p", memberships := ["c"] }, []⟩, ?_, .inl rfl,
        List.mem_singleton_self _⟩
      rw [hreads, found, List.flatMap_cons, hp]
      rfl
    obtain ⟨-, hall⟩ := (loadings_vouch "en" pairSource []).2.2.1 ["p"] c hload
    exact ⟨c, hload, hunfailing, List.mem_singleton_self _, hedge,
      hall hunfailing "p" (List.mem_singleton_self _) "c" (.single hedge)⟩
  · exact ⟨_, _, load_lacking,
      (loadings_vouch "en" lackingSource []).2.1 ["p"] _ _ load_lacking [["p"]]⟩
  · exact (loadings_vouch "en" lackingSource [["p"]]).2.2.2 "p" (List.mem_singleton_self _)

/-- **A failure that is forgotten**: when the element without its class was loaded, which failed
since the class is lacking, loading the class succeeds, and so does loading the element again. -/
theorem load_forgets_failure : ∃ c,
    load "en" lackingSource "p" .empty = (c, .error (.notFound "c" "<memory>")) ∧
    load "en" lackingSource "c" c = (c, .ok ()) ∧ ¬ Obtained "en" lackingSource c "c" ∧
    load "en" lackingSource "p" c = (c, .ok ()) := by
  refine ⟨_, load_lacking, ?_, ?_, ?_⟩
  · rw [load, run_visit_done (by decide), run_nil]
  · rintro (hin | ⟨-, text, -, htext, -⟩)
    · cases hin
    · cases htext
  · rw [load, run_visit_done (by decide), run_nil]

end EditorSchema.Corpus
