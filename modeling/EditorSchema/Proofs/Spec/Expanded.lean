/-
When the contents of a table can be expanded, and what the expanded table is.

Only two things can be wrong with a table: content names a macro that is not there, or a macro
refers to itself by way of others.  Neither is ever found in a table in which they do not
occur, and an expansion that succeeds shows that they do not occur.  What comes of it is the
table with every content inlined throughout.  There is one such table, so it makes no
difference in which order the specs are taken, and an expanded table is its own expansion.

* `Table.Expandable`: neither is wrong with a table;
* `Table.expand_ok_iff`: these tables and no others can be expanded;
* `Table.InlinesTo`: a table with every content inlined throughout;
* `Table.expand_inlines`: an expanded table is such a table.
-/
import Mathlib.Tactic
import EditorSchema.Proofs.Spec.Expansion

namespace EditorSchema

open Outcome

variable {t u : Table} {ident : String} {specs : List Spec}

namespace Spec

/-- The content of a spec matters only if its kind has content. -/
lemma withContent_congr {s : Spec} {c d : Content} (h : ∀ e, s.content? = some e → c = d) :
    s.withContent c = s.withContent d := by
  cases s with
  | ofClass spec => rfl
  | ofElement spec => rw [h spec.content rfl]
  | ofMacro spec => rw [h spec.content rfl]
  | ofData ident => rfl

lemma withContent_eq_self {s : Spec} {d : Content} (h : ∀ c, s.content? = some c → c = d) :
    s.withContent d = s := by
  cases s with
  | ofClass spec => rfl
  | ofElement spec => rw [← h spec.content rfl]; rfl
  | ofMacro spec => rw [← h spec.content rfl]; rfl
  | ofData ident => rfl

lemma content?_withContent {s : Spec} {c d : Content} (h : (s.withContent d).content? = some c) :
    c = d ∧ ∃ e, s.content? = some e := by
  cases s with
  | ofClass spec => cases h
  | ofElement spec => exact ⟨(Option.some.inj h).symm, _, rfl⟩
  | ofMacro spec => exact ⟨(Option.some.inj h).symm, _, rfl⟩
  | ofData ident => cases h

end Spec

/-- Content is plain with respect to macros of the same idents. -/
lemma Content.plain_congr (h : u.isMacro = t.isMacro) {c : Content} : c.Plain u ↔ c.Plain t := by
  have hreferences : c.references u = c.references t := by
    cases c with
    | empty => rfl
    | ofMacro ident => rfl
    | model p => rw [Content.references, Content.references, Particle.references, h]; rfl
  constructor
  · exact fun hplain => ⟨hreferences ▸ hplain.references, hplain.filled⟩
  · exact fun hplain => ⟨hreferences.symm ▸ hplain.references, hplain.filled⟩

namespace Table

/-! ### Tables that can be expanded -/

/-- A table with nothing wrong in it: every macro that content names is there, and no macro
leads back to itself. -/
structure Expandable (t : Table) : Prop where
  named : ∀ ident, t.Has (.ofMacro ident) → t.isMacro ident = true
  acyclic : Acyclic t.Refers

/-- A macro that refers to itself by way of others leads back to itself. -/
lemma Circle.not_acyclic {chain : List String} {repeated : String}
    (h : t.Circle chain repeated) : ¬ Acyclic t.Refers :=
  fun hacyclic => hacyclic repeated (transGen_of_isChain h.refers h.repeated_mem)

/-- Nothing is found that is not there. -/
lemma Expandable.not_faulty (h : t.Expandable) {fault : SpecFault} : ¬ t.Faulty fault := by
  intro hfault
  cases hfault with
  | missing hcontent hnone =>
      obtain ⟨m, hm⟩ := isMacro_iff.mp (h.named _ hcontent)
      cases hnone.symm.trans hm
  | circle hcircle => exact hcircle.not_acyclic h.acyclic

/-! ### Tables that are inlined throughout -/

/-- **A table with every content inlined throughout**: it has the same idents, and the spec of
each is the same up to its content. -/
def InlinesTo (t u : Table) : Prop :=
  (∀ ident, t.get? ident = none → u.get? ident = none) ∧
    ∀ ident s, t.get? ident = some s →
      ∃ d, u.get? ident = some (s.withContent d) ∧ ∀ c, s.content? = some c → t.Inlines c d

/-- There is one table with every content inlined throughout. -/
theorem InlinesTo.unique (h : t.InlinesTo u) {u' : Table} (h' : t.InlinesTo u') : u = u' := by
  refine ext_get? fun ident => ?_
  cases hs : t.get? ident with
  | none => rw [h.1 ident hs, h'.1 ident hs]
  | some s =>
      obtain ⟨d, hd, hinlines⟩ := h.2 ident s hs
      obtain ⟨d', hd', hinlines'⟩ := h'.2 ident s hs
      rw [hd, hd', Spec.withContent_congr fun c hc => (hinlines c hc).unique (hinlines' c hc)]

/-- The same idents are those of macros. -/
lemma InlinesTo.isMacro (h : t.InlinesTo u) : u.isMacro = t.isMacro := by
  funext ident
  rw [Table.isMacro, Table.isMacro, macro?, macro?]
  cases hs : t.get? ident with
  | none => rw [h.1 ident hs]
  | some s =>
      obtain ⟨d, hd, -⟩ := h.2 ident s hs
      rw [hd]
      cases s <;> rfl

/-- Nothing is left to inline in a table with every content inlined throughout. -/
lemma InlinesTo.plain (h : t.InlinesTo u) {c : Content} (hc : u.Has c) : c.Plain u := by
  obtain ⟨r, hr, hc⟩ := hc
  have hget : u.get? r.ident = some r := mem_toList.mp hr
  cases hs : t.get? r.ident with
  | none => cases (h.1 _ hs).symm.trans hget
  | some s =>
      obtain ⟨d, hd, hinlines⟩ := h.2 _ s hs
      obtain rfl := Option.some.inj (hd.symm.trans hget)
      obtain ⟨rfl, e, he⟩ := Spec.content?_withContent hc
      exact (Content.plain_congr h.isMacro).mpr (hinlines e he).plain

/-- A table in which nothing is left to inline can be expanded. -/
lemma expandable_of_plain (h : ∀ c, t.Has c → c.Plain t) : t.Expandable where
  named ident hcontent := absurd (h _ hcontent).references (List.cons_ne_nil _ _)
  acyclic := by
    refine acyclic_of_inlines fun ident m hm => ?_
    exact ⟨m.content, inlines_self (h _ (has_of_macro? hm))⟩

/-- A table in which nothing is left to inline is inlined throughout as it is. -/
lemma inlinesTo_self (h : ∀ c, t.Has c → c.Plain t) : t.InlinesTo t := by
  refine ⟨fun _ hnone => hnone, fun ident s hs => ?_⟩
  cases hcontent : s.content? with
  | none => exact ⟨.empty, by rw [Spec.withContent_eq_self (by simp [hcontent]), hs], by simp⟩
  | some c =>
      refine ⟨c, by rw [Spec.withContent_eq_self (by simp [hcontent]), hs], fun e he => ?_⟩
      obtain rfl := Option.some.inj he
      exact inlines_self (h c ⟨s, mem_toList_of_get? hs, hcontent⟩)

/-! ### Expanding in any order -/

/-- The table with all contents expanded, where specs are taken in a given order. -/
def expandIn (t : Table) (specs : List Spec) : Except SpecFault Table := do
  let contents ← Expansion.ofSpecs t specs .empty
  return t.mapContent fun s => (contents.get? s.ident).getD .empty

lemma expand_eq (t : Table) : t.expand = t.expandIn t.toList := rfl

/-- What is found wrong is wrong with the table. -/
lemma faulty_of_expandIn (hspecs : ∀ s, s ∈ specs ↔ s ∈ t.toList) {fault : SpecFault}
    (h : t.expandIn specs = .error fault) : t.Faulty fault := by
  rcases bind_eq_error.mp h with h | ⟨_, _, h⟩
  · exact (Expansion.ofSpecs_right (fun s => (hspecs s).mp) Expansion.sound_empty).1 fault h
  · cases h

/-- What comes of an expansion is the table with every content inlined throughout. -/
lemma inlinesTo_of_expandIn (hspecs : ∀ s, s ∈ specs ↔ s ∈ t.toList)
    (h : t.expandIn specs = .ok u) : t.InlinesTo u := by
  obtain ⟨contents, hcontents, h⟩ := bind_eq_ok.mp h
  obtain rfl := pure_eq_ok.mp h
  have htold : Expansion.Told t specs contents :=
    (Expansion.ofSpecs_right (fun s => (hspecs s).mp) Expansion.sound_empty).2 contents hcontents
  refine ⟨fun ident hnone => by rw [get?_mapContent, hnone]; rfl, fun ident s hs => ?_⟩
  refine ⟨(contents.get? s.ident).getD .empty, by rw [get?_mapContent, hs]; rfl, fun c hc => ?_⟩
  have hmem : s ∈ specs := (hspecs s).mpr (mem_toList_of_get? hs)
  obtain ⟨d, hd, hinlines⟩ := htold s hmem c hc
  rw [hd]
  exact hinlines

/-- A table with nothing wrong in it can be expanded in any order. -/
lemma Expandable.expandIn (h : t.Expandable) (hspecs : ∀ s, s ∈ specs ↔ s ∈ t.toList) :
    ∃ u, t.expandIn specs = .ok u := by
  cases hexpand : t.expandIn specs with
  | ok u => exact ⟨u, rfl⟩
  | error fault => exact absurd (faulty_of_expandIn hspecs hexpand) h.not_faulty

/-- Nothing is wrong with a table that has been inlined throughout. -/
lemma InlinesTo.expandable (h : t.InlinesTo u) : t.Expandable where
  named ident hcontent := by
    obtain ⟨s, hs, hcontent⟩ := hcontent
    obtain ⟨d, -, hinlines⟩ := h.2 s.ident s (mem_toList.mp hs)
    obtain ⟨_, _, macros, _⟩ := hinlines _ hcontent
    exact macros ident (List.mem_singleton_self ident)
  acyclic := by
    refine acyclic_of_inlines fun ident m hm => ?_
    obtain ⟨d, -, hinlines⟩ := h.2 ident (.ofMacro m) (get?_of_macro? hm)
    exact ⟨d, hinlines m.content rfl⟩

/-! ### Expanding -/

/-- **The tables that can be expanded** are those in which every macro is there that the
content of a spec names, and in which no macro leads back to itself.  Of all other tables it
is said that a macro is missing, if it is one that the content of a spec names, or that macros
refer to each other in a circle, if they do. -/
theorem expand_ok_iff (t : Table) :
    ((∃ u, t.expand = .ok u) ↔
      (∀ s ∈ t.toList, ∀ ident, s.content? = some (.ofMacro ident) →
        ∃ m, t.macro? ident = some m) ∧ Acyclic t.Refers) ∧
    (∀ fault, t.expand = .error fault →
      (∃ ident, fault = .notFound ident Expansion.tablePlace ∧ t.macro? ident = none ∧
        ∃ s ∈ t.toList, s.content? = some (.ofMacro ident)) ∨
      ∃ chain repeated, fault = .circularReference chain repeated ∧ t.Circle chain repeated) ∧
    (Acyclic t.Refers → ∀ chain repeated,
      t.expand ≠ .error (.circularReference chain repeated)) := by
  have hspecs : ∀ s, s ∈ t.toList ↔ s ∈ t.toList := fun _ => .rfl
  refine ⟨⟨?_, ?_⟩, ?_, ?_⟩
  · rintro ⟨u, hu⟩
    have hexpandable : t.Expandable := (inlinesTo_of_expandIn hspecs hu).expandable
    refine ⟨fun s hs ident hcontent => ?_, hexpandable.acyclic⟩
    exact isMacro_iff.mp (hexpandable.named ident ⟨s, hs, hcontent⟩)
  · rintro ⟨hnamed, hacyclic⟩
    have hexpandable : t.Expandable :=
      ⟨fun ident ⟨s, hs, hcontent⟩ => isMacro_iff.mpr (hnamed s hs ident hcontent), hacyclic⟩
    exact hexpandable.expandIn hspecs
  · intro fault hfault
    cases faulty_of_expandIn hspecs hfault with
    | missing hcontent hnone => exact .inl ⟨_, rfl, hnone, hcontent⟩
    | circle hcircle => exact .inr ⟨_, _, rfl, hcircle⟩
  · intro hacyclic chain repeated hfault
    cases faulty_of_expandIn hspecs hfault with
    | circle hcircle => exact hcircle.not_acyclic hacyclic

/-- A table in which two elements share macros, one of which names another and one of which
is empty. -/
def sharing : Table := .ofList [
  .ofMacro { ident := "macro.line", content := .model (.alternate [.group "p", .group "seg"]) },
  .ofMacro { ident := "macro.head", content := .ofMacro "macro.line" },
  .ofMacro { ident := "macro.none" },
  .ofElement {
    ident := "div"
    content := .model (.sequence
      [.group "macro.head", .alternate [.group "macro.none"], .group "macro.line"]) },
  .ofElement { ident := "gap", content := .model (.sequence [.group "macro.none"]) }]

/-- A table with two macros that refer to each other, and no element. -/
def circling : Table := .ofList [
  .ofMacro { ident := "macro.a", content := .ofMacro "macro.b" },
  .ofMacro { ident := "macro.b", content := .model (.sequence [.group "p", .group "macro.a"]) }]

/-- A table with an element whose content names a macro that is not there. -/
def lacking : Table := .ofList [.ofElement { ident := "p", content := .ofMacro "macro.a" }]

/-- Macros that are shared are no circle, and expanding succeeds.  It fails where two macros refer
to each other, with the way around, and where a macro is lacking, with its ident. -/
theorem expand_ok_iff_small :
    ((∃ u, sharing.expand = .ok u) ∧ Acyclic sharing.Refers) ∧
    (circling.expand = .error (.circularReference ["macro.b", "macro.a"] "macro.b") ∧
      circling.Circle ["macro.b", "macro.a"] "macro.b" ∧ ¬ Acyclic circling.Refers) ∧
    (lacking.expand = .error (.notFound "macro.a" Expansion.tablePlace) ∧
      ∃ s ∈ lacking.toList, s.content? = some (.ofMacro "macro.a")) := by
  have hsharing : ∃ u, sharing.expand = .ok u := ⟨_, by cbv⟩
  have hcircling : circling.expand =
      .error (.circularReference ["macro.b", "macro.a"] "macro.b") := by cbv
  have hlacking : lacking.expand = .error (.notFound "macro.a" Expansion.tablePlace) := by cbv
  refine ⟨⟨hsharing, ((expand_ok_iff sharing).1.mp hsharing).2⟩, ⟨hcircling, ?_, ?_⟩,
    hlacking, ?_⟩
  · rcases (expand_ok_iff circling).2.1 _ hcircling with ⟨_, hfault, _⟩ | ⟨_, _, hfault, hcircle⟩
    · cases hfault
    · cases hfault
      exact hcircle
  · exact fun hacyclic => (expand_ok_iff circling).2.2 hacyclic _ _ hcircling
  · rcases (expand_ok_iff lacking).2.1 _ hlacking with ⟨_, hfault, _, hcontent⟩ | ⟨_, _, hfault, _⟩
    · cases hfault
      exact hcontent
    · cases hfault

/-- **An expanded table is the table with every content inlined throughout.**  Its specs are
the same up to their contents, and each content is the one thing that the content of the spec
becomes when macros are inlined, in whichever order the specs are taken.  No macro is left in
any content, nor a sequence or choice without a part, and an expanded table is its own
expansion. -/
theorem expand_inlines (h : t.expand = .ok u) :
    u.idents = t.idents ∧
    (∀ ident s, t.get? ident = some s →
      (s.content? = none → u.get? ident = some s) ∧
      ∀ c, s.content? = some c →
        ∃ d, u.get? ident = some (s.withContent d) ∧ ∀ e, t.Inlines c e ↔ e = d) ∧
    (∀ specs, (∀ s, s ∈ specs ↔ s ∈ t.toList) → t.expandIn specs = .ok u) ∧
    (∀ s ∈ u.toList, ∀ c, s.content? = some c →
      (∀ ident, c ≠ .ofMacro ident) ∧
      ∀ p, c = .model p → p.Filled ∧ ∀ ident ∈ p.leaves, u.macro? ident = none) ∧
    u.expand = .ok u := by
  have hinlines : t.InlinesTo u := inlinesTo_of_expandIn (fun _ => .rfl) h
  have hplain : ∀ c, u.Has c → c.Plain u := fun c => hinlines.plain
  refine ⟨?_, fun ident s hs => ⟨fun hnone => ?_, fun c hc => ?_⟩, fun specs hspecs => ?_,
    fun s hs c hc => ⟨?_, ?_⟩, ?_⟩
  · obtain ⟨contents, -, h⟩ := bind_eq_ok.mp h
    obtain rfl := pure_eq_ok.mp h
    simp [idents, mapContent, Dictionary.keys, Dictionary.map]
  · obtain ⟨d, hd, -⟩ := hinlines.2 ident s hs
    rw [hd, Spec.withContent_eq_self (by simp [hnone])]
  · obtain ⟨d, hd, hbecomes⟩ := hinlines.2 ident s hs
    refine ⟨d, hd, fun e => ⟨fun he => he.unique (hbecomes c hc), ?_⟩⟩
    rintro rfl
    exact hbecomes c hc
  · obtain ⟨u', hu'⟩ := hinlines.expandable.expandIn hspecs
    rw [hu', hinlines.unique (inlinesTo_of_expandIn hspecs hu')]
  · rintro ident rfl
    exact absurd (hplain _ ⟨s, hs, hc⟩).references (List.cons_ne_nil _ _)
  · rintro p rfl
    have hp : (Content.model p).Plain u := hplain _ ⟨s, hs, hc⟩
    refine ⟨hp.filled p rfl, fun ident hident => ?_⟩
    have hnot : u.isMacro ident = false := by
      have hreferences : p.leaves.filter u.isMacro = [] := hp.references
      simpa using List.filter_eq_nil_iff.mp hreferences ident hident
    exact Option.isNone_iff_eq_none.mp (by simpa [Table.isMacro] using hnot)
  · obtain ⟨u', hu'⟩ := (expandable_of_plain hplain).expandIn fun _ => .rfl
    have hself : u' = u := (inlinesTo_of_expandIn (fun _ => .rfl) hu').unique
      (inlinesTo_self hplain)
    rw [expand_eq, hu', hself]

/-- The table `sharing` with every content inlined throughout. -/
def shared : Table := .ofList [
  .ofMacro { ident := "macro.line", content := .model (.alternate [.group "p", .group "seg"]) },
  .ofMacro { ident := "macro.head", content := .model (.alternate [.group "p", .group "seg"]) },
  .ofMacro { ident := "macro.none" },
  .ofElement {
    ident := "div"
    content := .model (.sequence
      [.alternate [.group "p", .group "seg"], .alternate [.group "p", .group "seg"]]) },
  .ofElement { ident := "gap" }]

/-- The shared macros are inlined wherever they are named, in either order of the specs, and a
sequence of an empty macro is left with nothing. -/
theorem expand_inlines_sharing :
    sharing.expand = .ok shared ∧
    (∀ e, sharing.Inlines (.model (.sequence [.group "macro.none"])) e ↔ e = .empty) ∧
    sharing.expandIn sharing.toList.reverse = .ok shared ∧ shared.expand = .ok shared := by
  have hexpand : sharing.expand = .ok shared := by cbv
  obtain ⟨-, hcontents, horder, -, hagain⟩ := expand_inlines hexpand
  refine ⟨hexpand, ?_, horder _ fun s => List.mem_reverse, hagain⟩
  obtain ⟨d, hd, hbecomes⟩ := (hcontents "gap" (.ofElement {
    ident := "gap", content := .model (.sequence [.group "macro.none"]) }) (by decide)).2 _ rfl
  have hempty : shared.get? "gap" = some (.ofElement { ident := "gap" }) := by decide
  cases hempty.symm.trans hd
  exact hbecomes

end Table

end EditorSchema
