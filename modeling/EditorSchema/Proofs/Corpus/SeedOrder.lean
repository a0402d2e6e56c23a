/-
The order in which idents are loaded makes no difference, where each text defines one spec.

Where the text for an ident defines a spec of that ident and no other, what an ident needs can
be told from the source alone, without any loading: the idents that its spec depends on, with all
that they need.  A loading asks for nothing else, and when it succeeds it has asked for all of
it.  What it may fail of, it finds among what is needed too.  So whether it succeeds and what it
brings is told by what the idents need together, in whatever order they come and how often.

* `Corpus.OneEach`: each text defines one spec;
* `Corpus.Needed`: what idents need;
* `Corpus.Loadable`: all that idents need can be loaded;
* `Corpus.loadAll_ok_iff`: these idents are loaded and no others;
* `Corpus.seed_order`: the order of idents makes no difference.
-/
import Mathlib.Tactic
import EditorSchema.Proofs.Corpus.Whole

namespace EditorSchema.Corpus

open Relation (ReflTransGen)
open SpecEntry (first)

variable {language ident other : String} {source : Source} {seeds others reads : List String}
variable {tasks : List Task} {c : Corpus} {s next : List Task × Corpus} {e : SpecEntry}

/-! ### What idents need -/

/-- **Each text defines one spec**, of the ident that the text is for. -/
def OneEach (language : String) (source : Source) : Prop :=
  ∀ ident text entries, source.read ident = .ok text →
    SpecEntry.ofText language text = .ok entries → ∃ e, entries = [e] ∧ e.spec.ident = ident

/-- The text for an ident describes a spec that depends on another ident. -/
def Needs (language : String) (source : Source) (ident other : String) : Prop :=
  ∃ e ∈ entriesOf language source ident, other ∈ e.dependencies

/-- **What idents need**: themselves, and what their texts lead to. -/
def Needed (language : String) (source : Source) (seeds : List String) (ident : String) : Prop :=
  ∃ seed ∈ seeds, ReflTransGen (Needs language source) seed ident

/-- The text for an ident that is needed makes it a member of a class. -/
def NeededMember (language : String) (source : Source) (seeds : List String)
    (member group : String) : Prop :=
  Needed language source seeds member ∧
    ∃ e ∈ entriesOf language source member, group ∈ e.spec.memberships

/-- **All that idents need can be loaded.** -/
structure Loadable (language : String) (source : Source) (seeds : List String) : Prop where
  /-- Every ident that is needed has a text that describes specs. -/
  readable : ∀ ident, Needed language source seeds ident → Readable language source ident
  /-- Memberships among what is needed lead from no class back to itself. -/
  acyclic : Acyclic (NeededMember language source seeds)

lemma Needed.tail (h : Needed language source seeds ident)
    (hneeds : Needs language source ident other) : Needed language source seeds other := by
  obtain ⟨seed, hseed, hway⟩ := h
  exact ⟨seed, hseed, hway.tail hneeds⟩

/-- What idents need together does not depend on their order. -/
lemma needed_congr (h : ∀ ident, ident ∈ seeds ↔ ident ∈ others) :
    Needed language source seeds = Needed language source others := by
  funext ident
  exact propext (exists_congr fun seed => and_congr_left fun _ => h seed)

lemma loadable_congr (h : ∀ ident, ident ∈ seeds ↔ ident ∈ others) :
    Loadable language source seeds ↔ Loadable language source others := by
  have hmember : NeededMember language source seeds = NeededMember language source others := by
    funext member group
    rw [NeededMember, NeededMember, needed_congr h]
  constructor
  · exact fun hload => ⟨needed_congr h ▸ hload.readable, hmember ▸ hload.acyclic⟩
  · exact fun hload => ⟨needed_congr h ▸ hload.readable, hmember ▸ hload.acyclic⟩

/-! ### One spec for each text -/

lemma readable_of_mem (h : e ∈ entriesOf language source ident) :
    Readable language source ident := by
  rw [entriesOf] at h
  split at h
  · next text htext =>
    split at h
    · next entries hentries => exact ⟨text, entries, htext, hentries⟩
    · cases h
  · cases h

lemma OneEach.exists_entriesOf (h : OneEach language source)
    (hread : Readable language source ident) :
    ∃ e, entriesOf language source ident = [e] ∧ e.spec.ident = ident := by
  obtain ⟨text, entries, htext, hentries⟩ := hread
  rw [entriesOf_eq htext hentries]
  exact h ident text entries htext hentries

lemma OneEach.entriesOf_eq (h : OneEach language source)
    (he : e ∈ entriesOf language source ident) :
    entriesOf language source ident = [e] ∧ e.spec.ident = ident := by
  obtain ⟨e', hone, hident⟩ := h.exists_entriesOf (readable_of_mem he)
  rw [hone, List.mem_singleton] at he
  subst he
  exact ⟨hone, hident⟩

/-- The first entry of an ident is the one that its text describes. -/
lemma OneEach.first_found_iff (h : OneEach language source) :
    first (found language source reads) ident = some e ↔
      ident ∈ reads ∧ e ∈ entriesOf language source ident := by
  have hmem {e : SpecEntry} (he : first (found language source reads) ident = some e) :
      ident ∈ reads ∧ e ∈ entriesOf language source ident := by
    obtain ⟨asked, hasked, hin⟩ := List.mem_flatMap.mp (List.mem_of_find?_eq_some he)
    obtain rfl : asked = ident := (h.entriesOf_eq hin).2.symm.trans (SpecEntry.ident_of_first he)
    exact ⟨hasked, hin⟩
  refine ⟨hmem, fun ⟨hasked, hin⟩ => ?_⟩
  have hfound : e ∈ found language source reads := List.mem_flatMap.mpr ⟨ident, hasked, hin⟩
  have hsome : (first (found language source reads) ident).isSome = true := by
    rw [first, List.find?_isSome]
    exact ⟨e, hfound, by simpa using (h.entriesOf_eq hin).2⟩
  obtain ⟨e', he'⟩ := Option.isSome_iff_exists.mp hsome
  have hsame : [e'] = [e] :=
    (h.entriesOf_eq (hmem he').2).1.symm.trans (h.entriesOf_eq hin).1
  rw [he', (List.cons.inj hsame).1]

/-- The table holds what the texts for its idents describe. -/
lemma OneEach.get?_iff (h : OneEach language source) (horderly : Orderly language source c)
    {spec : Spec} : c.table.get? ident = some spec ↔
      ident ∈ c.reads ∧ ∃ e ∈ entriesOf language source ident, e.spec = spec := by
  rw [horderly.holds ident, Option.map_eq_some_iff]
  constructor
  · rintro ⟨e, he, hspec⟩
    obtain ⟨hasked, hin⟩ := h.first_found_iff.mp he
    exact ⟨hasked, e, hin, hspec⟩
  · rintro ⟨hasked, e, hin, hspec⟩
    exact ⟨e, h.first_found_iff.mpr ⟨hasked, hin⟩, hspec⟩

lemma OneEach.memberOf_iff (h : OneEach language source) (horderly : Orderly language source c)
    {member group : String} : c.table.MemberOf member group ↔
      member ∈ c.reads ∧ ∃ e ∈ entriesOf language source member, group ∈ e.spec.memberships := by
  simp only [Table.MemberOf, h.get?_iff horderly]
  constructor
  · rintro ⟨_, ⟨hasked, e, hin, rfl⟩, hgroup⟩
    exact ⟨hasked, e, hin, hgroup⟩
  · rintro ⟨hasked, e, hin, hgroup⟩
    exact ⟨e.spec, ⟨hasked, e, hin, rfl⟩, hgroup⟩

/-- What is there was asked for. -/
lemma OneEach.mem_reads (h : OneEach language source) (horderly : Orderly language source c)
    (hreached : Reached c ident) : ident ∈ c.reads := by
  rcases hreached with hin | hasked
  · obtain ⟨e, he⟩ := horderly.holds.contains_iff.mp hin
    exact (h.first_found_iff.mp he).1
  · exact hasked

/-! ### What a loading asks for -/

/-- **Nothing is asked for that is not needed**, and nothing else is left to do. -/
structure Sparing (language : String) (source : Source) (seeds : List String)
    (s : List Task × Corpus) : Prop where
  orderly : Orderly language source s.2
  joined : Joined s.1 s.2
  asked : ∀ ident ∈ s.2.reads, Needed language source seeds ident
  queued : ∀ task ∈ s.1, Needed language source seeds task.target

lemma sparing_start : Sparing language source seeds (seeds.map .visit, .empty) where
  orderly := orderly_empty
  joined := (joining_start seeds).toJoined
  asked := by simp [empty]
  queued task htask := by
    obtain ⟨seed, hseed, rfl⟩ := List.mem_map.mp htask
    exact ⟨seed, hseed, .refl⟩

lemma Joined.step (h : Joined s.1 s.2) (hstep : Step language source s next) :
    Joined next.1 next.2 := by
  cases hstep with
  | join hno => exact h.join hno
  | skip => exact h.skip
  | read => exact h.read

/-- What the new specs of a text depend on is needed where the ident of the text is. -/
lemma Needed.of_readNext {text : String} {entries : List SpecEntry} {task : Task}
    (h : Needed language source seeds ident) (horderly : Orderly language source c)
    (htext : source.read ident = .ok text) (hentries : SpecEntry.ofText language text = .ok entries)
    (htask : task ∈ (readNext ident entries c).2.flatMap SpecEntry.tasks) :
    Needed language source seeds task.target := by
  obtain ⟨e, he, htask⟩ := List.mem_flatMap.mp htask
  obtain ⟨-, -, hnew⟩ := readNext_first ident entries horderly.holds
  refine h.tail ⟨e, ?_, ?_⟩
  · rw [Corpus.entriesOf_eq htext hentries]
    exact List.mem_of_find?_eq_some ((hnew e).mp he).2
  · rw [← e.map_target_tasks]
    exact List.mem_map_of_mem htask

/-- **What one step keeps.** -/
lemma Sparing.step (h : Sparing language source seeds s) (hstep : Step language source s next) :
    Sparing language source seeds next := by
  have horderly := (h.orderly.step hstep).1
  have hjoined := h.joined.step hstep
  have hqueued := h.queued
  cases hstep with
  | join =>
      -- the class is the target of both tasks
      exact ⟨horderly, hjoined, h.asked,
        List.forall_mem_cons.mpr (List.forall_mem_cons.mp hqueued)⟩
  | skip => exact ⟨horderly, hjoined, h.asked, (List.forall_mem_cons.mp hqueued).2⟩
  | @read ident text tasks c entries _ htext hentries =>
      obtain ⟨hident, hrest⟩ := List.forall_mem_cons.mp hqueued
      refine ⟨horderly, hjoined, fun other hother => ?_, fun task htask => ?_⟩
      · rw [(readNext_first ident entries h.orderly.holds).1, List.mem_append,
          List.mem_singleton] at hother
        rcases hother with hin | rfl
        · exact h.asked other hin
        · exact hident
      · rcases List.mem_append.mp htask with hin | hin
        · exact hident.of_readNext h.orderly htext hentries hin
        · exact hrest task hin

/-- **What steps keep**, one after the other. -/
lemma Sparing.steps (h : Sparing language source seeds s)
    (hsteps : ReflTransGen (Step language source) s next) : Sparing language source seeds next := by
  induction hsteps with
  | refl => exact h
  | tail _ hstep ih => exact ih.step hstep

/-! ### How a loading ends -/

lemma orderly_of_loadAll {result : Except SpecFault Unit}
    (hload : loadAll language source seeds .empty = (c, result)) : Orderly language source c := by
  have horderly := orderly_after language source [seeds]
  rwa [show after language source [seeds] = _ from congrArg Prod.fst hload] at horderly

/-- A loading has asked for nothing that is not needed when it comes to its end. -/
lemma exists_sparing {result : Except SpecFault Unit}
    (hload : loadAll language source seeds .empty = (c, result)) :
    ∃ left last, Sparing language source seeds (left, last) ∧
      Ends language source left last (c, result) := by
  obtain ⟨⟨left, last⟩, hsteps, hends⟩ := exists_steps language source (seeds.map .visit) .empty
  exact ⟨left, last, sparing_start.steps hsteps, hload ▸ hends⟩

/-- **A loading fails only of what is needed.** -/
lemma OneEach.not_loadable (h : OneEach language source) {fault : SpecFault}
    (hload : loadAll language source seeds .empty = (c, .error fault)) :
    ¬ Loadable language source seeds := by
  intro hloadable
  obtain ⟨left, last, hlast, hends⟩ := exists_sparing hload
  -- a circle runs along memberships of what was asked for, so of what is needed
  have htold (member group : String) (hmember : last.table.MemberOf member group) :
      NeededMember language source seeds member group := by
    obtain ⟨hasked, hgroup⟩ := (h.memberOf_iff hlast.orderly).mp hmember
    exact ⟨hlast.asked member hasked, hgroup⟩
  cases hends with
  | circle hcycle =>
      have hway := Memberships.closesCycle_iff.mp hcycle
      refine not_acyclic_of_edge (htold _ _ (hlast.joined.queued _ _ List.mem_cons_self)) ?_
        hloadable.acyclic
      exact ReflTransGen.mono (fun a b hedge => htold a b (hlast.joined.told a b hedge)) _ _ hway
  | unread _ hread =>
      obtain ⟨text, entries, htext, -⟩ :=
        hloadable.readable _ (hlast.queued _ List.mem_cons_self)
      cases hread.symm.trans htext
  | invalid _ htext hentries =>
      obtain ⟨text, entries, htext', hentries'⟩ :=
        hloadable.readable _ (hlast.queued _ List.mem_cons_self)
      cases htext.symm.trans htext'
      cases hentries.symm.trans hentries'

section Succeeds

variable (h : OneEach language source) (hload : loadAll language source seeds .empty = (c, .ok ()))

include h hload

/-- A loading that succeeds has asked for what is needed and for nothing else. -/
lemma OneEach.mem_reads_iff : ident ∈ c.reads ↔ Needed language source seeds ident := by
  have hvouches : Vouches language source seeds .empty c := orderly_empty.vouches hload
  have horderly := orderly_of_loadAll hload
  constructor
  · obtain ⟨left, last, hlast, hends⟩ := exists_sparing hload
    cases hends
    exact hlast.asked ident
  · rintro ⟨seed, hseed, hway⟩
    induction hway with
    | refl => exact h.mem_reads horderly (hvouches.asked _ hseed)
    | tail _ hneeds ih =>
        obtain ⟨e, he, hdep⟩ := hneeds
        exact h.mem_reads horderly
          (hvouches.reached _ e rfl (h.first_found_iff.mpr ⟨ih, he⟩) _ hdep)

lemma OneEach.loadable : Loadable language source seeds where
  readable ident hneeded := by
    have hasked : ident ∈ c.reads := (h.mem_reads_iff hload).mpr hneeded
    exact ((orderly_empty.vouches hload).readable ident hasked).resolve_left List.not_mem_nil
  acyclic := (acyclic_of_loadAll hload).mono fun _ _ ⟨hneeded, hgroup⟩ =>
    (h.memberOf_iff (orderly_of_loadAll hload)).mpr ⟨(h.mem_reads_iff hload).mpr hneeded, hgroup⟩

/-- The table holds what the texts describe for the idents that are needed. -/
lemma OneEach.get?_of_loadAll {spec : Spec} : c.table.get? ident = some spec ↔
    Needed language source seeds ident ∧
      ∃ e ∈ entriesOf language source ident, e.spec = spec := by
  rw [h.get?_iff (orderly_of_loadAll hload), h.mem_reads_iff hload]

lemma OneEach.contains_of_loadAll : c.table.contains ident = true ↔
    Needed language source seeds ident := by
  rw [show c.table.contains ident = (c.table.get? ident).isSome from rfl,
    Option.isSome_iff_exists]
  constructor
  · rintro ⟨spec, hspec⟩
    exact ((h.get?_of_loadAll hload).mp hspec).1
  · intro hneeded
    obtain ⟨e, he, -⟩ := h.exists_entriesOf ((h.loadable hload).readable ident hneeded)
    have hin : e ∈ entriesOf language source ident := he ▸ List.mem_singleton_self e
    exact ⟨e.spec, (h.get?_of_loadAll hload).mpr ⟨hneeded, e, hin, rfl⟩⟩

end Succeeds

/-- **What can be loaded**: idents of which all that they need can be. -/
lemma OneEach.loadAll_ok_iff (h : OneEach language source) :
    (∃ c, loadAll language source seeds .empty = (c, .ok ())) ↔
      Loadable language source seeds := by
  refine ⟨fun ⟨c, hload⟩ => h.loadable hload, fun hloadable => ?_⟩
  rcases hload : loadAll language source seeds .empty with ⟨c, fault | _⟩
  · exact absurd hloadable (h.not_loadable hload)
  · exact ⟨c, rfl⟩

/-! ### The order of idents -/

lemma OneEach.loadExpanded_of_same (h : OneEach language source)
    (hsame : ∀ ident, ident ∈ seeds ↔ ident ∈ others) {t : Table}
    (hload : (loadExpanded language source seeds).2 = .ok t) :
    (loadExpanded language source others).2 = .ok t := by
  obtain ⟨hload, hexpand⟩ := loadExpanded_eq_ok.mp (Prod.ext rfl hload)
  obtain ⟨c', hload'⟩ := h.loadAll_ok_iff.mpr ((loadable_congr hsame).mp (h.loadable hload))
  have htable : c'.table = (loadExpanded language source seeds).1.table := by
    refine Table.ext_get? fun ident => Option.ext fun spec => ?_
    rw [h.get?_of_loadAll hload, h.get?_of_loadAll hload', needed_congr hsame]
  exact congrArg Prod.snd (loadExpanded_eq_ok.mpr ⟨hload', htable ▸ hexpand⟩)

/-- **The order of idents makes no difference**, where each text defines one spec.  Idents can be
loaded just when every ident that they need has a text that describes specs and memberships among
these lead from no class back to itself.  The table then holds what is needed and nothing else,
each ident with the spec that its text describes.  Other lists of the same idents, in any order
and however often, are loaded and expanded to the same table, or none of them is. -/
theorem seed_order (h : OneEach language source) (seeds : List String) :
    ((∃ c, loadAll language source seeds .empty = (c, .ok ())) ↔
      Loadable language source seeds) ∧
    (∀ c, loadAll language source seeds .empty = (c, .ok ()) →
      (∀ ident, c.table.contains ident = true ↔ Needed language source seeds ident) ∧
      ∀ ident spec, c.table.get? ident = some spec →
        ∃ e ∈ entriesOf language source ident, e.spec = spec) ∧
    ∀ others, (∀ ident, ident ∈ seeds ↔ ident ∈ others) → ∀ t,
      (loadExpanded language source seeds).2 = .ok t ↔
        (loadExpanded language source others).2 = .ok t := by
  refine ⟨h.loadAll_ok_iff, fun c hload => ⟨fun ident => h.contains_of_loadAll hload,
    fun ident spec hspec => ((h.get?_of_loadAll hload).mp hspec).2⟩, fun others hsame t => ?_⟩
  exact ⟨h.loadExpanded_of_same hsame, h.loadExpanded_of_same fun ident => (hsame ident).symm⟩

lemma oneEach_pair : OneEach "en" pairSource := by
  intro ident text entries htext hentries
  have hin : (ident, text) ∈ [("c", classText), ("p", elementText)] := by
    rw [pairSource, Source.ofTexts] at htext
    dsimp only at htext
    split at htext
    · next t ht =>
      cases htext
      exact Dictionary.get?_eq_some_iff.mp ht
    · cases htext
  simp only [List.mem_cons, Prod.mk.injEq, List.not_mem_nil, or_false] at hin
  rcases hin with ⟨rfl, rfl⟩ | ⟨rfl, rfl⟩
  · cases ofText_classText.symm.trans hentries
    exact ⟨_, rfl, rfl⟩
  · cases ofText_elementText.symm.trans hentries
    exact ⟨_, rfl, rfl⟩

/-- The element and its class come to the same table, whichever is asked for first and however
often. -/
theorem seed_order_pair : OneEach "en" pairSource ∧ Loadable "en" pairSource ["p"] ∧
    (∃ c, loadAll "en" pairSource ["p"] .empty = (c, .ok ()) ∧
      c.table.contains "c" = true ∧ Needed "en" pairSource ["p"] "c") ∧
    (∀ ident, ident ∈ ["p", "c"] ↔ ident ∈ ["c", "p", "c"]) ∧
    ∀ t, (loadExpanded "en" pairSource ["p", "c"]).2 = .ok t ↔
      (loadExpanded "en" pairSource ["c", "p", "c"]).2 = .ok t := by
  obtain ⟨hok, htable, -⟩ := seed_order oneEach_pair ["p"]
  have hsame : ∀ ident, ident ∈ ["p", "c"] ↔ ident ∈ ["c", "p", "c"] := by
    simp [or_comm]
  refine ⟨oneEach_pair, hok.mp ⟨_, loadAll_pair⟩, ⟨_, loadAll_pair, rfl, ?_⟩, hsame,
    (seed_order oneEach_pair ["p", "c"]).2.2 _ hsame⟩
  exact ((htable _ loadAll_pair).1 "c").mp rfl

end EditorSchema.Corpus
