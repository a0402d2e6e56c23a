/-
Leaves of text: what binding the records to them does to the names of their contents.

A record that holds text names the leaf of its signature afterwards, and nothing else about
it changes.  Each leaf takes its inline nodes and its marks from a record with its signature.

* `TextLeaves.signature_eq_of_shown`: a leaf tells its signature;
* `TextLeaves.mem_names_bindOne`: the names in the content of a bound record;
* `TextLeaves.exists_of_mem_leaves`: where a leaf has its content and its marks from.
-/
import Mathlib.Tactic
import EditorSchema.Proofs.Content.Names
import EditorSchema.Proofs.Schema.Views
import EditorSchema.Schema.Generated

namespace EditorSchema.TextLeaves

open Naming

variable {records : List Record} {r : Record}

/-- A record that is bound to a leaf changes in its content only. -/
lemma bindOne_eq (known : List Signature) (r : Record) :
    bindOne known r = { r with content := (bindOne known r).content } := by
  rw [bindOne]
  split
  · split <;> rfl
  · rfl

/-- A record with text among the names in its content. -/
def NamesText (r : Record) : Prop :=
  ∃ content, r.content = some content ∧ Particle.textName ∈ names content

lemma holdsText_iff : holdsText r = true ↔ NamesText r := by
  rw [holdsText, NamesText]
  split
  · next content hc => simp [hc, mentions_iff]
  · next hc => simp [hc]

/-- The signature of a record that holds text is known. -/
lemma signature_mem (hr : r ∈ records) (h : holdsText r = true) :
    signature r ∈ signatures records := by
  rw [signatures, List.mem_eraseDups]
  exact List.mem_map_of_mem (List.mem_filter.mpr ⟨hr, h⟩)

/-- There is a leaf for every known signature. -/
lemma leaf_mem_leaves {known : List Signature} {s : Signature} (h : s ∈ known) :
    leaf (known.idxOf s) s ∈ leaves known := by
  have hlt : known.idxOf s < known.length := List.idxOf_lt_length_of_mem h
  refine List.mem_map.mpr ⟨(s, known.idxOf s), ?_, rfl⟩
  rw [List.mk_mem_zipIdx_iff_getElem?, List.getElem?_eq_getElem hlt, List.getElem_idxOf]

/-- What a leaf shows of inline nodes and marks tells its signature: a leaf with inline nodes
begins with a parenthesis, and one without them does not. -/
lemma signature_eq_of_shown {n m : ℕ} {s s' : Signature}
    (hcontent : (leaf n s).content = (leaf m s').content)
    (hmarks : (leaf n s).markContent = (leaf m s').markContent) : s = s' := by
  obtain ⟨inline, marks⟩ := s
  obtain ⟨inline', marks'⟩ := s'
  obtain rfl : marks = marks' := hmarks
  have htext := congrArg String.toList (Option.some.inj hcontent)
  cases inline with
  | none =>
      cases inline' with
      | none => rfl
      | some inline' => simp at htext
  | some inline =>
      cases inline' with
      | none => simp at htext
      | some inline' =>
          obtain rfl : inline = inline' := String.toList_inj.mp (by simpa using htext)
          rfl

/-- **The names in the content of a bound record** are those of the record before, but for
text, and the name of a leaf. -/
theorem mem_names_bindOne (hr : r ∈ records) {content : String}
    (h : (bindOne (signatures records) r).content = some content) :
    ∃ before, r.content = some before ∧ ∀ n ∈ names content,
      n ∈ names before ∧ n ≠ Particle.textName ∨
        ∃ x ∈ leaves (signatures records), x.name = n := by
  rw [bindOne] at h
  split at h
  · next before hbefore =>
    refine ⟨before, hbefore, fun n hn => ?_⟩
    split at h
    · next htext =>
      obtain rfl := Option.some.inj h
      rw [names_replace (isName_leafName _), List.mem_map] at hn
      obtain ⟨m, hm, rfl⟩ := hn
      split
      · exact .inr ⟨_, leaf_mem_leaves (signature_mem hr htext), rfl⟩
      · next hne => exact .inl ⟨hm, hne⟩
    · next htext =>
      rw [hbefore, Option.some.injEq] at h
      refine .inl ⟨h ▸ hn, fun heq => htext ?_⟩
      exact holdsText_iff.mpr ⟨before, hbefore, heq ▸ h ▸ hn⟩
  · next hnone => rw [hnone] at h; cases h

/-- A leaf has its inline nodes and its marks from a record. -/
theorem exists_of_mem_leaves {x : Record} (h : x ∈ leaves (signatures records)) :
    ∃ n, ∃ r ∈ records, x = leaf n (signature r) := by
  obtain ⟨⟨s, n⟩, hs, rfl⟩ := List.mem_map.mp h
  have hmem : s ∈ signatures records := by
    rw [List.mk_mem_zipIdx_iff_getElem?] at hs
    exact List.mem_of_getElem? hs
  rw [signatures, List.mem_eraseDups, List.mem_map] at hmem
  obtain ⟨r, hr, rfl⟩ := hmem
  exact ⟨n, r, List.mem_of_mem_filter hr, rfl⟩

/-- A leaf names the inline nodes of its record and character data. -/
lemma mem_names_leaf {n : ℕ} {content name : String}
    (h : (leaf n (signature r)).content = some content) (hmem : name ∈ names content) :
    name = "text" ∨ ∃ inline, r.inlineContent = some inline ∧ name ∈ names inline := by
  have htext : names "text" = ["text"] := names_of_isName (by decide)
  simp only [leaf, signature, Option.some.injEq] at h
  subst h
  split at hmem
  · next inline hinline =>
    have hsplit : "(" ++ inline ++ "|text)*" = "(" ++ (inline ++ "|" ++ ("text" ++ ")*")) := by
      simp [String.append_assoc]
    rw [hsplit, names_gap_append (by decide), names_append_append (by decide),
      names_append_gap (by decide), htext, List.mem_append, List.mem_singleton] at hmem
    exact hmem.symm.imp_right fun h => ⟨inline, hinline, h⟩
  · have hsplit : "text*" = "text" ++ "*" := by decide
    rw [hsplit, names_append_gap (by decide), htext, List.mem_singleton] at hmem
    exact .inl hmem

end EditorSchema.TextLeaves
