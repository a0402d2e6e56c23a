/-
How the ancestry of a spec is gone through, and how that ends early.

Memberships are followed class by class, and the idents on the way from the spec to the class
at hand form a path, each of them a member of the next.  The fresh idents are those that are
not on the path, so a class that is not fresh when its turn comes is on the path already, and
with it the path has come back to itself.

* `Table.Broken`: what may be wrong with an ancestry;
* `Ancestry.Along`: a path that memberships are followed along;
* `Ancestry.broken_of_definitions`: nothing else is found wrong with an ancestry.
-/
import Mathlib.Tactic
import EditorSchema.Proofs.Corpus.Circles
import EditorSchema.Proofs.Spec.Expansion
import EditorSchema.Schema.Attributes

namespace EditorSchema

open Outcome
open Relation (ReflTransGen TransGen)

variable {t : Table} {ident referrer : String} {fresh path memberships : List String}
variable {s : Spec} {fault : SchemaFault}

namespace Table

/-- **What may be wrong with the ancestry of an ident**: a membership that it leads to names
an ident without a spec, or a chain of memberships that begins with it comes back to itself. -/
inductive Broken (t : Table) (ident : String) : SchemaFault → Prop
  | missing {group referrer : String} (hway : ReflTransGen t.MemberOf ident referrer)
      (hmember : t.MemberOf referrer group) (hnone : t.get? group = none) :
      Broken t ident (.notLoaded group referrer)
  | circle {path : List String} {repeated : String} (hfirst : path.head? = some ident)
      (hchain : List.IsChain t.MemberOf (path ++ [repeated])) (hrepeated : repeated ∈ path) :
      Broken t ident (.circularMembership (path ++ [repeated]))

end Table

namespace Ancestry

/-! ### The path -/

/-- A path that memberships are followed along: it leads from one ident to another, each a
member of the next, and every ident of the table is on it or fresh. -/
structure Along (t : Table) (start : String) (fresh path : List String) (last : String) :
    Prop where
  first : path.head? = some start
  chain : List.IsChain t.MemberOf path
  ends : path.getLast? = some last
  stale : ∀ ident ∈ t.idents, ident ∉ fresh → ident ∈ path

variable {start : String}

/-- A path begins with one ident. -/
lemma along_start (ident : String) :
    Along t ident (without ident t.idents) [ident] ident where
  first := rfl
  chain := .singleton _
  ends := rfl
  stale other hother hstale := by
    by_contra hne
    exact hstale (mem_without.mpr ⟨hother, fun heq => hne (heq ▸ List.mem_singleton_self _)⟩)

/-- The chain of a path with a class of its last ident. -/
lemma Along.isChain (h : Along t start fresh path referrer) (hmember : t.MemberOf referrer ident) :
    List.IsChain t.MemberOf (path ++ [ident]) := by
  refine List.isChain_append.mpr ⟨h.chain, .singleton _, fun last hlast next hnext => ?_⟩
  obtain rfl : referrer = last := Option.some.inj (h.ends.symm.trans hlast)
  obtain rfl : ident = next := Option.some.inj hnext
  exact hmember

/-- A path goes on with a fresh class of its last ident. -/
lemma Along.extend (h : Along t start fresh path referrer) (hmember : t.MemberOf referrer ident) :
    Along t start (without ident fresh) (path ++ [ident]) ident where
  first := by rw [List.head?_append, h.first, Option.some_or]
  chain := h.isChain hmember
  ends := by rw [List.getLast?_append, List.getLast?_singleton, Option.some_or]
  stale other hother hstale := by
    by_cases heq : other = ident
    · exact List.mem_append_right _ (heq ▸ List.mem_singleton_self _)
    · refine List.mem_append_left _ (h.stale other hother fun hfresh => hstale ?_)
      exact mem_without.mpr ⟨hfresh, heq⟩

/-- The first ident of a path leads to the last one. -/
lemma Along.reaches (h : Along t start fresh path referrer) :
    ReflTransGen t.MemberOf start referrer := by
  have hne : path ≠ [] := by
    rintro rfl
    exact nomatch h.first
  have hhead : path.head hne = start := (List.head_eq_iff_head?_eq_some hne).mpr h.first
  have hlast : path.getLast hne = referrer := (List.getLast_eq_iff_getLast?_eq_some hne).mpr h.ends
  rw [← hhead, ← hlast]
  exact List.relationReflTransGen_of_exists_isChain path h.chain hne

/-! ### Going through an ancestry -/

/-- What ends a way along memberships is wrong with the ancestry. -/
lemma broken_of_inherited (halong : Along t start fresh path referrer)
    (hmembers : ∀ group ∈ memberships, t.MemberOf referrer group)
    (h : inherited t fresh path referrer memberships = .error fault) : t.Broken start fault := by
  induction fresh, path, referrer, memberships using inherited.induct t with
  | case1 fresh path referrer =>
      rw [inherited] at h
      cases h
  | case2 fresh path referrer ident rest hnone =>
      rw [inherited, hnone] at h
      cases h
      exact .missing halong.reaches (hmembers ident List.mem_cons_self) hnone
  | case3 fresh path referrer ident rest s hs hfresh ihabove ihothers =>
      rw [inherited, hs] at h
      simp only [dif_pos hfresh] at h
      rcases bind_eq_error.mp h with habove | ⟨above, -, h⟩
      · refine ihabove (halong.extend (hmembers ident List.mem_cons_self)) ?_ habove
        exact fun group hgroup => ⟨s, hs, hgroup⟩
      · rcases bind_eq_error.mp h with hothers | ⟨others, -, h⟩
        · refine ihothers halong (fun group hgroup => ?_) hothers
          exact hmembers group (List.mem_cons_of_mem _ hgroup)
        · cases h
  | case4 fresh path referrer ident rest s hs hfresh =>
      rw [inherited, hs] at h
      simp only [dif_neg hfresh] at h
      cases h
      have hmember : t.MemberOf referrer ident := hmembers ident List.mem_cons_self
      exact .circle halong.first (halong.isChain hmember)
        (halong.stale ident (Table.mem_idents_of_get? hs) hfresh)

/-- **Nothing but a missing spec or a circle** is found wrong with an ancestry. -/
theorem broken_of_definitions (hs : t.get? s.ident = some s)
    (h : definitions t s = .error fault) : t.Broken s.ident fault := by
  rcases bind_eq_error.mp h with h | ⟨above, -, h⟩
  · exact broken_of_inherited (along_start s.ident) (fun group hgroup => ⟨s, hs, hgroup⟩) h
  · cases h

end Ancestry

end EditorSchema
