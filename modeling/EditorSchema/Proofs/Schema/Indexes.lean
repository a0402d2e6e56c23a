/-
The indexes of a schema: its records by group, and the elements of its table by module.

Under a group stand the names of the records that carry it, in the order of the records, and each
of them once.  What a record carries is told from memberships: the records of a classified element
carry the classes of models that its memberships lead to, those of inline nodes under names of
their own, and the records that are generated carry none.  On the way from memberships to the
index the groups of a record are written in a line and found again as its words, so all this
depends on the idents of classes being words.  Under a module stand the elements that its table
has in it, classified or not, in increasing order.

* `Schema.get?_gather_eq_some_iff`: what is gathered under a key;
* `Carries`: the groups of the record of a name, told from memberships;
* `Elaboration.mem_groups_iff`: these are the groups of a record;
* `Schema.Indexed`: a schema whose indexes say this;
* `Schema.indexes_exact`: every schema is one.
-/
import Mathlib.Tactic
import EditorSchema.Proofs.Schema.Anchored
import EditorSchema.Proofs.Schema.Apart
import EditorSchema.Proofs.Schema.ExactReferences
import EditorSchema.Proofs.Schema.LateFaults

namespace EditorSchema

open Outcome
open References (HasGroup PlacedAs ofPlaced)

/-! ### Gathering -/

namespace Schema

variable {pairs : List (String × String)} {key : String} {names : List String}
variable {records : List Record} {t : Table}

/-- The names under a key, in order. -/
def namesUnder (key : String) (pairs : List (String × String)) : List String :=
  (pairs.filter fun pair => pair.1 = key).map Prod.snd

lemma mem_namesUnder {name : String} : name ∈ namesUnder key pairs ↔ (key, name) ∈ pairs := by
  rw [namesUnder, List.mem_map]
  constructor
  · rintro ⟨⟨other, name⟩, hpair, rfl⟩
    obtain ⟨hpair, hkey⟩ := List.mem_filter.mp hpair
    exact of_decide_eq_true hkey ▸ hpair
  · exact fun hpair => ⟨(key, name), List.mem_filter.mpr ⟨hpair, by simp⟩, rfl⟩

lemma getD_get?_gather : ((gather pairs).get? key).getD [] = namesUnder key pairs := by
  induction pairs using List.reverseRecOn with
  | nil => rfl
  | append_singleton pairs pair ih =>
      have hlast : gather (pairs ++ [pair]) = (gather pairs).insert pair.1
          (((gather pairs).get? pair.1).getD [] ++ [pair.2]) := by
        rw [gather, List.foldl_append]
        rfl
      rw [hlast, Dictionary.get?_insert, namesUnder, List.filter_append, List.map_append,
        ← namesUnder, ← ih]
      by_cases h : pair.1 = key <;> simp [h]

/-- **What is gathered under a key**: the names that are given for it, if there are any. -/
lemma get?_gather_eq_some_iff :
    (gather pairs).get? key = some names ↔ names ≠ [] ∧ names = namesUnder key pairs := by
  have hnames : ((gather pairs).get? key).getD [] = namesUnder key pairs := getD_get?_gather
  have hthere : namesUnder key pairs ≠ [] ↔ (gather pairs).contains key = true := by
    rw [contains_gather, namesUnder, Ne, List.map_eq_nil_iff, List.filter_eq_nil_iff]
    simp
  cases hget : (gather pairs).get? key with
  | none =>
      rw [Dictionary.contains, hget] at hthere
      simp only [Option.isSome_none, Bool.false_eq_true, iff_false, not_not] at hthere
      simp [hthere]
  | some found =>
      rw [Dictionary.contains, hget] at hthere
      rw [hget, Option.getD_some] at hnames
      simp only [Option.isSome_some, iff_true] at hthere
      rw [Option.some.injEq, ← hnames]
      constructor
      · rintro rfl
        exact ⟨hnames ▸ hthere, rfl⟩
      · exact fun h => h.2.symm

/-- Under a group stand the records that carry it, if no record carries a group twice. -/
lemma namesUnder_groupPairs (h : ∀ r ∈ records, r.groups.Nodup) (group : String) :
    namesUnder group (groupPairs records) =
      (records.filter fun r => group ∈ r.groups).map Record.name := by
  induction records with
  | nil => rfl
  | cons r records ih =>
      obtain ⟨hr, hrest⟩ := List.forall_mem_cons.mp h
      have hone : namesUnder group (r.groups.map (·, r.name)) =
          if group ∈ r.groups then [r.name] else [] := by
        have hcount : namesUnder group (r.groups.map (·, r.name)) =
            List.replicate (r.groups.count group) r.name := by
          rw [namesUnder, List.filter_map, List.map_map]
          have hfilter : (r.groups.filter fun g => g = group) =
              List.replicate (r.groups.count group) group := List.filter_eq group
          exact (congrArg (List.map fun _ => r.name) hfilter).trans List.map_replicate
        rw [hcount, hr.count]
        split <;> rfl
      rw [groupPairs, List.flatMap_cons, namesUnder, List.filter_append, List.map_append,
        ← namesUnder, ← namesUnder, ← groupPairs, hone, ih hrest, List.filter_cons]
      by_cases hgroup : group ∈ r.groups <;> simp [hgroup]

end Schema

/-! ### Modules -/

namespace Table

variable {t u : Table} {ident key : String}

/-- An element in a module. -/
def InModule (t : Table) (ident key : String) : Prop :=
  ∃ e, t.element? ident = some e ∧ e.module? = some key

lemma inModule_iff : t.InModule ident key ↔
    ∃ s, t.get? ident = some s ∧ ∃ e, s = .ofElement e ∧ e.module? = some key := by
  constructor
  · rintro ⟨e, he, hmodule⟩
    exact ⟨_, get?_of_element? he, e, rfl, hmodule⟩
  · rintro ⟨_, hget, e, rfl, hmodule⟩
    exact ⟨e, by rw [element?, hget], hmodule⟩

/-- Specs are listed by their idents. -/
lemma map_ident_toList (t : Table) : t.toList.map Spec.ident = t.idents := by
  rw [toList, Dictionary.values, List.map_map, idents, Dictionary.keys]
  exact List.map_congr_left fun entry hentry => t.keyed (Dictionary.get?_eq_some_iff.mpr hentry)

end Table

namespace Schema

variable {t : Table} {ident key : String}

/-- What a spec has to say about modules. -/
def modulePair? : Spec → Option (String × String)
  | .ofElement e => e.module?.map (·, e.ident)
  | _ => none

lemma modulePair?_eq_some_iff {s : Spec} : modulePair? s = some (key, ident) ↔
    ∃ e, s = .ofElement e ∧ e.module? = some key ∧ e.ident = ident := by
  cases s <;> simp [modulePair?]

lemma modulePairs_eq (t : Table) : modulePairs t = t.toList.filterMap modulePair? := rfl

lemma mem_modulePairs : (key, ident) ∈ modulePairs t ↔ t.InModule ident key := by
  simp only [modulePairs_eq, List.mem_filterMap, modulePair?_eq_some_iff, Table.inModule_iff]
  constructor
  · rintro ⟨_, hs, e, rfl, hmodule, rfl⟩
    exact ⟨_, Table.mem_toList.mp hs, e, rfl, hmodule⟩
  · rintro ⟨_, hs, e, rfl, hmodule⟩
    exact ⟨_, Table.mem_toList_of_get? hs, e, rfl, hmodule, t.keyed hs⟩

/-- Elements come with their modules in increasing order. -/
lemma pairwise_modulePairs (t : Table) :
    (modulePairs t).Pairwise fun pair pair' => pair.2 < pair'.2 := by
  have hspecs : t.toList.Pairwise fun s s' => s.ident < s'.ident := by
    rw [← List.pairwise_map, t.map_ident_toList]
    exact t.specs.keys_pairwise
  rw [modulePairs_eq]
  refine List.pairwise_filterMap.mpr (hspecs.imp fun {s s'} hlt pair hpair pair' hpair' => ?_)
  obtain ⟨e, rfl, -, he⟩ := modulePair?_eq_some_iff.mp hpair
  obtain ⟨e', rfl, -, he'⟩ := modulePair?_eq_some_iff.mp hpair'
  rw [← he, ← he']
  exact hlt

/-- Under a module stand elements in increasing order. -/
lemma pairwise_namesUnder_modulePairs (t : Table) (key : String) :
    (namesUnder key (modulePairs t)).Pairwise (· < ·) :=
  List.pairwise_map.mpr ((pairwise_modulePairs t).filter _)

/-- **What stands under a module**: its elements in increasing order, if there are any. -/
lemma modules_eq_some_iff {records : List Record} {attributes : AttributeDictionary}
    {names : List String} : (describe records attributes t).modules.get? key = some names ↔
      names ≠ [] ∧ names.Pairwise (· < ·) ∧ ∀ ident, ident ∈ names ↔ t.InModule ident key := by
  rw [describe, get?_gather_eq_some_iff]
  refine and_congr_right fun _ => ⟨?_, ?_⟩
  · rintro rfl
    exact ⟨pairwise_namesUnder_modulePairs t key, fun ident => mem_namesUnder.trans mem_modulePairs⟩
  · rintro ⟨hsorted, hmem⟩
    refine hsorted.eq_of_mem_iff (pairwise_namesUnder_modulePairs t key) fun ident => ?_
    rw [hmem, mem_namesUnder, mem_modulePairs]

end Schema

/-! ### Groups -/

/-- How the groups of the records of a category end. -/
def Category.ending (category : Category) : String := if category.isInline then "_i" else ""

lemma Category.isSolid_ending (category : Category) : Text.IsSolid category.ending := by
  cases category <;> decide

/-- The names of the records that have the groups of an ident: its own, and for an element that
is also a block that of its mark.  The container and the document of a note have none. -/
def Elaboration.groupedNames : Category → String → List String
  | .inter, ident => [markName ident, ident]
  | _, ident => [ident]

/-- The idents of the classes of models are words. -/
def Table.ModelsAreWords (t : Table) : Prop :=
  ∀ ident, t.isModel ident = true → Text.IsWord ident

/-- **A group that the record of a name carries**: a class of models that the memberships of its
ident lead to, with the ending of the category. -/
def Carries (c : Classification) (t : Table) (name group : String) : Prop :=
  ∃ category ident model, ident ∈ c.idents category ∧
    name ∈ Elaboration.groupedNames category ident ∧ HasGroup t ident model ∧
    group = model ++ category.ending

/-- The groups of an ident, each once and with an ending. -/
structure ListsGroups (t : Table) (ident ending : String) (groups : List String) : Prop where
  nodup : groups.Nodup
  mem_iff : ∀ group, group ∈ groups ↔ ∃ model, HasGroup t ident model ∧ group = model ++ ending

namespace Elaboration

variable {c : Classification} {d : Decoration} {t : Table} {r : References} {all : List Record}
variable {category : Category} {e : ElementSpec} {x : Record} {name ident : String}
variable {placed : List References.Placed}

/-- A record of an element has the groups of the element if it goes by one of the names for that,
and otherwise none. -/
lemma grouped_of_mem (h : x ∈ recordsOf r d category e) : x.group = none ∨
    x.name ∈ groupedNames category e.ident ∧ x.group = r.groupLine e.ident category.ending := by
  cases category <;>
    simp only [recordsOf, List.mem_cons, List.not_mem_nil, or_false] at h <;>
    rcases h with rfl | rfl | rfl <;> simp [groupedNames, Category.ending, Category.isInline]

lemma exists_grouped (h : name ∈ groupedNames category e.ident) :
    ∃ x ∈ recordsOf r d category e, x.name = name ∧
      x.group = r.groupLine e.ident category.ending := by
  cases category with
  | inter =>
      rcases List.mem_pair.mp h with rfl | rfl
      · exact ⟨_, List.mem_cons_self, rfl, rfl⟩
      · exact ⟨_, List.mem_cons_of_mem _ (List.mem_singleton_self _), rfl, rfl⟩
  | hard | soft | aside | inline | mark =>
      obtain rfl := List.mem_singleton.mp h
      exact ⟨_, List.mem_cons_self, rfl, rfl⟩

/-- What a record has in a line for its ident is the groups of that. -/
lemma listsGroups_of_group (hplaced : PlacedAs c t placed) (hwords : t.ModelsAreWords)
    (hident : ident ∈ c.seeds)
    (hgroup : x.group = (ofPlaced placed).groupLine ident category.ending) :
    ListsGroups t ident category.ending x.groups := by
  have hexact := hplaced.exact
  have hgroups : x.groups = ((ofPlaced placed).groupsOf ident).map (· ++ category.ending) := by
    rw [Record.groups, hgroup]
    refine References.words_groupLine (fun g hg => ?_) category.isSolid_ending
    exact hwords g ((hexact.mem_groups ident hident g).mp hg).1
  rw [hgroups]
  constructor
  · refine (hexact.nodup_groups ident hident).map fun a b hab => ?_
    exact String.append_left_inj _ |>.mp hab
  · intro group
    simp only [List.mem_map, hexact.mem_groups ident hident, eq_comm]

/-- A record of a schema has no groups, or those of a classified ident by whose names it goes. -/
lemma groups_of_elaborate (hwords : t.ModelsAreWords) (h : c.elaborate t d = .ok all)
    (hx : x ∈ all) : x.groups = [] ∨ ∃ category ident, ident ∈ c.idents category ∧
      x.name ∈ groupedNames category ident ∧ ListsGroups t ident category.ending x.groups := by
  have hnone {y : Record} (hgroup : y.group = none) : y.groups = [] := by
    rw [Record.groups, hgroup]
    rfl
  rcases exists_recordOf h hx with ⟨-, hgroup⟩ | ⟨placed, category, e, y, hplaced, hentry, -,
    hrecord, hsame⟩
  · exact .inl (hnone hgroup)
  · have hname : x.name = y.name := by rw [hsame]
    have hgroups : x.group = y.group := by rw [hsame]
    have hident : e.ident ∈ c.idents category := Classification.mem_entries.mp hentry
    have hseed : e.ident ∈ c.seeds := Classification.mem_seeds.mpr ⟨category, hident⟩
    refine (grouped_of_mem hrecord).imp (fun hgroup => hnone (hgroups.trans hgroup)) ?_
    rintro ⟨hmem, hgroup⟩
    exact ⟨category, e.ident, hident, hname ▸ hmem,
      listsGroups_of_group hplaced hwords hseed (hgroups.trans hgroup)⟩

/-- Every classified ident has records of these names, with its groups. -/
lemma exists_of_groupedNames (hwords : t.ModelsAreWords) (h : c.elaborate t d = .ok all)
    (hident : ident ∈ c.idents category) (hname : name ∈ groupedNames category ident) :
    ∃ x ∈ all, x.name = name ∧ ListsGroups t ident category.ending x.groups := by
  obtain ⟨placed, own, hplaced, hown, rfl, -⟩ := exists_records h
  have hseed : ident ∈ c.seeds := Classification.mem_seeds.mpr ⟨category, hident⟩
  obtain ⟨e, he, -⟩ := hplaced.groupsOf_eq hseed
  obtain rfl : e.ident = ident := (Table.ident_of_element? he).2
  obtain ⟨y, hrecord, rfl, hgroup⟩ := exists_grouped (r := ofPlaced placed) (d := d) hname
  have hy : y ∈ own.flatten := (mem_flatten_of_mapM hown).mpr
    ⟨(category, e.ident), Classification.mem_entries.mpr hident, e, he, hrecord⟩
  refine ⟨TextLeaves.bindOne (TextLeaves.signatures (Record.documentRoots ++ own.flatten)) y,
    ?_, ?_⟩
  · exact List.mem_append_left _ (List.mem_append_left _
      (List.mem_map_of_mem (List.mem_append_right _ hy)))
  · rw [TextLeaves.bindOne_eq]
    exact ⟨rfl, listsGroups_of_group hplaced hwords hseed hgroup⟩

/-- **The groups of a record** are those that are told from memberships, each of them once. -/
theorem mem_groups_iff (hwords : t.ModelsAreWords) (h : c.elaborate t d = .ok all) (hx : x ∈ all) :
    x.groups.Nodup ∧ ∀ group, group ∈ x.groups ↔ Carries c t x.name group := by
  have hback : ∀ group, Carries c t x.name group → group ∈ x.groups := by
    rintro group ⟨category, ident, model, hident, hname, hmodel, rfl⟩
    obtain ⟨y, hy, hyname, hlists⟩ := exists_of_groupedNames hwords h hident hname
    obtain rfl : y = x := eq_of_name_eq h hy hx hyname
    exact (hlists.mem_iff _).mpr ⟨model, hmodel, rfl⟩
  rcases groups_of_elaborate hwords h hx with hnone | ⟨category, ident, hident, hname, hlists⟩
  · refine ⟨hnone ▸ List.nodup_nil, fun group => ⟨fun hgroup => ?_, hback group⟩⟩
    rw [hnone] at hgroup
    cases hgroup
  · refine ⟨hlists.nodup, fun group => ⟨fun hgroup => ?_, hback group⟩⟩
    obtain ⟨model, hmodel, rfl⟩ := (hlists.mem_iff group).mp hgroup
    exact ⟨category, ident, model, hident, hname, hmodel, rfl⟩

/-- Whatever carries a group is there. -/
lemma exists_of_carries (hwords : t.ModelsAreWords) (h : c.elaborate t d = .ok all) {group : String}
    (hcarries : Carries c t name group) : ∃ x ∈ all, x.name = name := by
  obtain ⟨category, ident, model, hident, hname, -⟩ := hcarries
  obtain ⟨x, hx, hxname, -⟩ := exists_of_groupedNames hwords h hident hname
  exact ⟨x, hx, hxname⟩

end Elaboration

/-! ### Expanded tables -/

namespace Table

variable {t u : Table} {ident key group : String}

lemma isModel_iff : t.isModel ident = true ↔
    ∃ s, t.get? ident = some s ∧ ∃ c, s = .ofClass c ∧ c.kind = .model := by
  rw [isModel, Option.any_eq_true]
  constructor
  · rintro ⟨c, hc, hkind⟩
    exact ⟨_, get?_of_class? hc, c, rfl, of_decide_eq_true hkind⟩
  · rintro ⟨_, hget, c, rfl, hkind⟩
    exact ⟨c, by rw [class?, hget], decide_eq_true hkind⟩

lemma InlinesTo.isModel_iff (h : t.InlinesTo u) :
    u.isModel ident = true ↔ t.isModel ident = true := by
  rw [Table.isModel_iff, Table.isModel_iff]
  exact h.exists_iff fun s content => by cases s <;> simp [Spec.withContent]

lemma InlinesTo.inModule_iff (h : t.InlinesTo u) : u.InModule ident key ↔ t.InModule ident key := by
  rw [Table.inModule_iff, Table.inModule_iff]
  exact h.exists_iff fun s content => by cases s <;> simp [Spec.withContent]

end Table

lemma Table.InlinesTo.carries_iff {c : Classification} {t u : Table} {name group : String}
    (h : t.InlinesTo u) : Carries c u name group ↔ Carries c t name group := by
  simp only [Carries, HasGroup, h.memberOf_eq, h.isModel_iff]

/-! ### Schemas -/

namespace Schema

variable {settings : Settings} {source : Source} {c : Classification} {d : Decoration}
variable {t u : Table} {corpus : Corpus} {s : Schema}

/-- **A schema whose indexes are exact.** -/
structure Indexed (c : Classification) (t : Table) (s : Schema) : Prop where
  /-- No two records have one name. -/
  distinct : (s.records.map Record.name).Nodup
  /-- Each record carries the groups that are told from memberships, -/
  carried : ∀ r ∈ s.records, ∀ group, group ∈ r.groups ↔ Carries c t r.name group
  /-- and whatever has a group has a record. -/
  there : ∀ name group, Carries c t name group → ∃ r ∈ s.records, r.name = name
  /-- Under a group stand the records that carry it, in their order; no entry is empty, -/
  elementGroups : ∀ group names, s.elementGroups.get? group = some names ↔
    names ≠ [] ∧ names = (s.records.filter fun r => group ∈ r.groups).map Record.name
  /-- and none repeats a name. -/
  nodup : ∀ group names, s.elementGroups.get? group = some names → names.Nodup
  /-- Under a module stand all elements of the table that are in it, in increasing order; no entry
  is empty. -/
  modules : ∀ key names, s.modules.get? key = some names ↔
    names ≠ [] ∧ names.Pairwise (· < ·) ∧ ∀ ident, ident ∈ names ↔ t.InModule ident key

/-- Records keep their names when they are given their attributes. -/
lemma map_name_of_same {records out : List Record}
    (h : List.Forall₂ Attributes.SameButAttributes records out) :
    out.map Record.name = records.map Record.name := by
  induction h with
  | nil => rfl
  | cons hsame _ ih => rw [List.map_cons, List.map_cons, ih, hsame]

/-- **The indexes of elaborated records** are exact. -/
lemma indexed_of_ofTable (hwords : t.ModelsAreWords) (h : ofTable settings c d t = .ok s) :
    Indexed c t s := by
  obtain ⟨all, hall, h⟩ := bind_eq_ok.mp h
  obtain ⟨⟨attributes, resolved⟩, hresolve, h⟩ := bind_eq_ok.mp h
  obtain rfl := pure_eq_ok.mp h
  obtain ⟨last, hgiven, rfl⟩ := Attributes.resolve_eq_ok_iff.mp hresolve
  obtain ⟨hforth, hback⟩ := Attributes.exists_same_of_resolveAll hgiven
  have hdistinct : (resolved.map Record.name).Nodup := by
    obtain ⟨-, -, -, -, -, hnone⟩ := Elaboration.exists_records hall
    rw [map_name_of_same (Attributes.sameButAttributes_of_resolveAll hgiven)]
    exact (Elaboration.repeatedName?_eq_none hnone).1
  have hgroups : ∀ r ∈ resolved, r.groups.Nodup ∧
      ∀ group, group ∈ r.groups ↔ Carries c t r.name group := by
    intro r' hr'
    obtain ⟨r, hr, hsame⟩ := hback r' hr'
    have hname : r'.name = r.name := by rw [hsame]
    have hgroups : r'.groups = r.groups := by
      rw [hsame]
      rfl
    rw [hname, hgroups]
    exact Elaboration.mem_groups_iff hwords hall hr
  have hindex : ∀ group names, (gather (groupPairs resolved)).get? group = some names ↔
      names ≠ [] ∧ names = (resolved.filter fun r => group ∈ r.groups).map Record.name := by
    intro group names
    rw [get?_gather_eq_some_iff, namesUnder_groupPairs fun r hr => (hgroups r hr).1]
  constructor
  · exact hdistinct
  · exact fun r hr => (hgroups r hr).2
  · intro name group hcarries
    obtain ⟨r, hr, rfl⟩ := Elaboration.exists_of_carries hwords hall hcarries
    obtain ⟨r', hr', hsame⟩ := hforth r hr
    exact ⟨r', hr', by rw [hsame]⟩
  · exact hindex
  · intro group names hnames
    rw [((hindex group names).mp hnames).2]
    exact hdistinct.sublist (List.filter_sublist.map _)
  · exact fun key names => modules_eq_some_iff

/-- The contents of specs make no difference to the indexes. -/
lemma Indexed.of_inlinesTo (h : Indexed c u s) (hinlines : t.InlinesTo u) : Indexed c t s where
  distinct := h.distinct
  carried r hr group := (h.carried r hr group).trans hinlines.carries_iff
  there name group hcarries := h.there name group (hinlines.carries_iff.mpr hcarries)
  elementGroups := h.elementGroups
  nodup := h.nodup
  modules key names := by simp only [h.modules, hinlines.inModule_iff]

/-- A schema that is compiled is that of the expanded table. -/
lemma exists_of_compile (h : compile settings source c d = (corpus, .ok s)) :
    ∃ t, corpus.table.expand = .ok t ∧ ofTable settings c d t = .ok s := by
  rw [compile] at h
  split at h
  · cases h
  split at h
  · cases h
  · next corpus t hloaded =>
    obtain ⟨rfl, hs⟩ := Prod.mk.inj h
    exact ⟨t, (Corpus.loadExpanded_eq_ok.mp hloaded).2, hs⟩

/-- **The indexes of a schema** are exact, where the idents of the classes of models are words:
both of a schema of specs at hand and of one whose specs were loaded from a source. -/
theorem indexes_exact :
    (∀ settings c d t s, t.ModelsAreWords → ofTable settings c d t = .ok s → Indexed c t s) ∧
    ∀ settings source c d corpus s, corpus.table.ModelsAreWords →
      compile settings source c d = (corpus, .ok s) → Indexed c corpus.table s := by
  refine ⟨fun settings c d t s => indexed_of_ofTable, ?_⟩
  intro settings source c d corpus s hwords hcompile
  obtain ⟨t, hexpand, hs⟩ := exists_of_compile hcompile
  have hinlines : corpus.table.InlinesTo t := Table.inlinesTo_of_expandIn (fun _ => .rfl) hexpand
  have hwords' : t.ModelsAreWords :=
    fun ident hmodel => hwords ident (hinlines.isModel_iff.mp hmodel)
  exact (indexed_of_ofTable hwords' hs).of_inlinesTo hinlines

/-- An element that is a phrase. -/
def phraseMemberText (ident : String) : String := "<elementSpec ident=\"" ++ ident ++
  "\" module=\"core\"><classes><memberOf key=\"phrase\"/></classes></elementSpec>"

/-- The class of phrases, and an element beside it. -/
def phraseText : String := "<specGrp><classSpec ident=\"phrase\" type=\"model\"/>" ++
  "<elementSpec ident=\"cb\" module=\"core\"/></specGrp>"

/-- Highlighted text, notes and column breaks, all in one module. -/
def phraseSource : Source := .ofTexts (.ofList [
  ("hi", phraseMemberText "hi"), ("note", phraseMemberText "note"), ("phrase", phraseText)])

/-- What the texts describe. -/
def phraseTable : Table := .ofList [
  .ofClass { ident := "phrase", kind := .model },
  .ofElement { ident := "hi", module? := some "core", memberships := ["phrase"] },
  .ofElement { ident := "note", module? := some "core", memberships := ["phrase"] },
  .ofElement { ident := "cb", module? := some "core" }]

/-- Column breaks are left out. -/
def highlights : Classification := { inter := ["hi"], asides := ["note"] }

lemma ofText_hiText : SpecEntry.ofText "en" (phraseMemberText "hi") = .ok [
    ⟨.ofElement { ident := "hi", module? := some "core", memberships := ["phrase"] }, []⟩] := by
  decide +kernel

lemma ofText_noteText : SpecEntry.ofText "en" (phraseMemberText "note") = .ok [
    ⟨.ofElement { ident := "note", module? := some "core", memberships := ["phrase"] }, []⟩] := by
  decide +kernel

lemma ofText_phraseText : SpecEntry.ofText "en" phraseText = .ok [
    ⟨.ofClass { ident := "phrase", kind := .model }, []⟩,
    ⟨.ofElement { ident := "cb", module? := some "core" }, []⟩] := by
  decide +kernel

lemma loadAll_highlights : Corpus.loadAll "en" phraseSource highlights.seeds .empty =
    (⟨phraseTable, ["hi", "phrase", "note"], ⟨[("hi", "phrase"), ("note", "phrase")]⟩, .empty, []⟩,
      .ok ()) := by
  refine (Corpus.run_visit_new rfl (by decide) rfl ofText_hiText).trans ?_
  refine (Corpus.run_join (by cbv)).trans ?_
  refine (Corpus.run_visit_new rfl (by decide) rfl ofText_phraseText).trans ?_
  refine (Corpus.run_visit_new rfl (by decide) rfl ofText_noteText).trans ?_
  refine (Corpus.run_join (by cbv)).trans ?_
  exact (Corpus.run_visit_done (by decide)).trans Corpus.run_nil

/-- Column breaks are in no group, but they are in their module.  The indexes are the same whether
the schema is made of the table or compiled from the texts. -/
theorem indexes_exact_highlights :
    phraseTable.ModelsAreWords ∧ ∃ corpus s, corpus.table = phraseTable ∧
      ofTable {} highlights {} phraseTable = .ok s ∧
      compile {} phraseSource highlights {} = (corpus, .ok s) ∧
      s.records.map Record.name = ["doc", "headerDoc", "markhi", "hi", "note", "noteX", "noteDoc",
        "phrase_g", "note_g"] ∧
      s.elementGroups = .ofList [("phrase", ["markhi", "hi"]), ("phrase_i", ["note"])] ∧
      s.modules = .ofList [("core", ["cb", "hi", "note"])] ∧
      Indexed highlights phraseTable s ∧ Indexed highlights corpus.table s := by
  have hwords : phraseTable.ModelsAreWords := by
    have hidents : ∀ ident ∈ phraseTable.idents, Text.IsWord ident := by decide
    intro ident hmodel
    obtain ⟨_, hget, -⟩ := Table.isModel_iff.mp hmodel
    exact hidents ident (Table.mem_idents_of_get? hget)
  have hexpand : phraseTable.expand = .ok phraseTable := by cbv
  have hshown : (ofTable {} highlights {} phraseTable).toOption.map (fun s =>
      (s.records.map Record.name, s.elementGroups, s.modules)) =
      some (["doc", "headerDoc", "markhi", "hi", "note", "noteX", "noteDoc", "phrase_g", "note_g"],
        .ofList [("phrase", ["markhi", "hi"]), ("phrase_i", ["note"])],
        .ofList [("core", ["cb", "hi", "note"])]) := by
    cbv
  cases hs : ofTable {} highlights {} phraseTable with
  | error fault =>
      rw [hs] at hshown
      cases hshown
  | ok s =>
      rw [hs] at hshown
      simp only [Except.toOption, Option.map_some, Option.some.injEq, Prod.mk.injEq] at hshown
      obtain ⟨hnames, hgroups, hmodules⟩ := hshown
      have hcompile : compile {} phraseSource highlights {} =
          (_, ofTable {} highlights {} phraseTable) := compile_eq rfl loadAll_highlights hexpand
      rw [hs] at hcompile
      exact ⟨hwords, _, s, rfl, rfl, hcompile, hnames, hgroups, hmodules,
        indexes_exact.1 _ _ _ _ _ hwords hs, indexes_exact.2 _ _ _ _ _ _ hwords hcompile⟩

end Schema

end EditorSchema
