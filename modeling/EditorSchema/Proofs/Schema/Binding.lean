/-
Binding records to leaves of text.

Records are gone through in order.  One that names text is bound to the leaf of what it says
about inline nodes and marks, its signature; a signature that was not seen before gets a leaf
of its own, with the next number.  So a leaf is numbered by the records before the first one
that is bound to it, leaves differ in what they show, and the names and separators of a content
stay where they are, but for text.  As no record names text afterwards, binding them once more
does nothing.

* `TextLeaves.bind_append_singleton`: what one record more does;
* `TextLeaves.BoundTo`: what binding makes of one record;
* `TextLeaves.Binding`, `TextLeaves.bind_exact`: what it makes of all of them.
-/
import Mathlib.Tactic
import EditorSchema.Proofs.FirstOccurrences
import EditorSchema.Proofs.Schema.TextLeaves

namespace EditorSchema.TextLeaves

open Naming

variable {records : List Record} {r : Record} {known : List Signature} {s s' : Signature}

/-! ### Leaves and their numbers -/

lemma leafName_inj {n m : ℕ} : leafName n = leafName m ↔ n = m := by
  refine ⟨fun h => ?_, congrArg leafName⟩
  rw [leafName, leafName, String.append_right_inj, Nat.toString_eq_ofList_toDigits,
    Nat.toString_eq_ofList_toDigits, String.ofList_inj] at h
  have hvalue := congrArg (fun digits => Nat.ofDigitChars 10 digits 0) h
  simpa only [Nat.ofDigitChars_ten_toDigits] using hvalue

lemma leafName_ne_textName (n : ℕ) : leafName n ≠ Particle.textName := by
  intro h
  rw [leafName, String.append_eq_left_iff, Nat.toString_eq_ofList_toDigits] at h
  simp at h

/-- Records whose signatures are known have one leaf if they have one signature. -/
lemma leafName_idxOf_inj (hs : s ∈ known) :
    leafName (known.idxOf s) = leafName (known.idxOf s') ↔ s = s' :=
  leafName_inj.trans (List.idxOf_inj hs)

/-- Leaves are numbered from the first one on. -/
lemma names_leaves (known : List Signature) : (leaves known).map (·.name) =
    (List.range known.length).map fun n => Particle.textName ++ toString n := by
  calc (leaves known).map (·.name)
      = (known.zipIdx.map Prod.snd).map leafName := by rw [leaves, List.map_map, List.map_map]; rfl
    _ = (List.range known.length).map leafName := by
        rw [List.zipIdx_map_snd, List.range_eq_range']

/-- What is read off a leaf regardless of its number is read off the signatures. -/
lemma map_leaves {α : Type} {f : Record → α} {g : Signature → α} (h : ∀ n s, f (leaf n s) = g s)
    (known : List Signature) : (leaves known).map f = known.map g := by
  calc (leaves known).map f
      = known.zipIdx.map (g ∘ Prod.fst) := by
        rw [leaves, List.map_map]
        exact List.map_congr_left fun sn _ => h sn.2 sn.1
    _ = known.map g := by rw [← List.map_map, List.zipIdx_map_fst]

lemma content_leaf (n : ℕ) (s : Signature) : (leaf n s).content =
    some (s.1.elim "text*" fun inline => "(" ++ inline ++ "|text)*") := by
  obtain ⟨inline | inline, marks⟩ := s <;> rfl

/-- Leaves of different signatures differ in what they show. -/
lemma leaves_pairwise (hknown : known.Nodup) : (leaves known).Pairwise fun a b =>
    ¬ (a.content = b.content ∧ a.markContent = b.markContent) := by
  rw [leaves, List.pairwise_map]
  have hsignatures : known.zipIdx.Pairwise fun a b => a.1 ≠ b.1 := by
    rw [← List.pairwise_map (f := Prod.fst), List.zipIdx_map_fst]
    exact hknown
  exact hsignatures.imp fun hne h => hne (signature_eq_of_shown h.1 h.2)

/-! ### One record more -/

/-- The signatures of some records are the first of those of more records. -/
lemma signatures_append (records later : List Record) :
    signatures records <+: signatures (records ++ later) := by
  rw [signatures, signatures, List.filter_append, List.map_append, List.eraseDups_append]
  exact List.prefix_append ..

lemma signatures_append_singleton (records : List Record) (r : Record) :
    signatures (records ++ [r]) = if holdsText r ∧ signature r ∉ signatures records
      then signatures records ++ [signature r] else signatures records := by
  have happend : signatures (records ++ [r]) = ((records.filter holdsText).map signature ++
      ([r].filter holdsText).map signature).eraseDups := by
    rw [signatures, List.filter_append, List.map_append]
  cases hr : holdsText r with
  | false => simp [hr, signatures]
  | true =>
      have hone : ([r].filter holdsText).map signature = [signature r] := by simp [hr]
      rw [happend, hone]
      by_cases hseen : signature r ∈ (records.filter holdsText).map signature
      · rw [eraseDups_append_of_mem hseen, if_neg fun h => h.2 (List.mem_eraseDups.mpr hseen)]
        rfl
      · rw [eraseDups_append_singleton hseen,
          if_pos ⟨rfl, fun h => hseen (List.mem_eraseDups.mp h)⟩]
        rfl

/-- A record is bound to the same leaf, whatever signatures are seen after its own. -/
lemma bindOne_append (hr : holdsText r = true → signature r ∈ known) (more : List Signature) :
    bindOne (known ++ more) r = bindOne known r := by
  cases htext : holdsText r with
  | false => simp [bindOne, htext]
  | true => simp only [bindOne, htext, List.idxOf_append_of_mem (hr htext)]

lemma snd_bind (records : List Record) : (bind records).2 = leaves (signatures records) := rfl

/-- **One record more** does not change what the records before it are bound to.  If it names
text and nothing was seen of its signature, it adds a leaf with the next number. -/
theorem bind_append_singleton (records : List Record) (r : Record) :
    bind (records ++ [r]) =
      ((bind records).1 ++ [bindOne (signatures (records ++ [r])) r],
        if holdsText r ∧ signature r ∉ signatures records
          then (bind records).2 ++ [leaf (bind records).2.length (signature r)]
          else (bind records).2) := by
  obtain ⟨more, hmore⟩ := signatures_append records [r]
  have hbefore : records.map (bindOne (signatures (records ++ [r]))) = (bind records).1 := by
    refine List.map_congr_left fun e he => ?_
    rw [← hmore]
    exact bindOne_append (signature_mem he) more
  refine Prod.ext ?_ ?_
  · rw [← hbefore]
    exact List.map_append
  · rw [snd_bind, snd_bind, signatures_append_singleton]
    split
    · simp [leaves, List.zipIdx_append]
    · rfl

/-! ### What becomes of a record -/

/-- What becomes of a record that is bound to the leaf of its signature. -/
structure BoundTo (known : List Signature) (r r' : Record) : Prop where
  /-- A record that does not name text stays as it is. -/
  kept : ¬ NamesText r → r' = r
  /-- One that does changes in its content only, and there in the pieces that are text. -/
  named : ∀ content, r.content = some content → Particle.textName ∈ names content →
    ∃ bound, r' = { r with content := some bound } ∧
      pieces bound.toList = (pieces content.toList).map fun piece =>
        if piece = Particle.textName.toList
          then (leafName (known.idxOf (signature r))).toList else piece
  /-- Its content does not name text any more. -/
  gone : ¬ NamesText r'

lemma bindOne_of_not_holdsText (h : holdsText r = false) : bindOne known r = r := by
  rw [bindOne]
  split
  · rw [if_neg (by simp [h])]
  · rfl

lemma boundTo_bindOne (known : List Signature) (r : Record) :
    BoundTo known r (bindOne known r) := by
  cases htext : holdsText r with
  | false =>
      have hnot : ¬ NamesText r := fun h => by simp [holdsText_iff.mpr h] at htext
      rw [bindOne_of_not_holdsText htext]
      exact ⟨fun _ => rfl, fun content hc hmem => absurd ⟨content, hc, hmem⟩ hnot, hnot⟩
  | true =>
      obtain ⟨content, hc, hmem⟩ := holdsText_iff.mp htext
      set name := leafName (known.idxOf (signature r)) with hname
      have hisName : IsName name := isName_leafName _
      have hbound : bindOne known r =
          { r with content := some (replace content Particle.textName name) } := by
        rw [bindOne, hc]
        simp only [htext, if_true, hname]
      rw [hbound]
      refine ⟨fun hnot => absurd ⟨content, hc, hmem⟩ hnot, fun other hother _ => ?_, ?_⟩
      · obtain rfl := Option.some.inj (hc.symm.trans hother)
        refine ⟨_, rfl, ?_⟩
        rw [pieces_replace hisName]
        refine List.map_congr_left fun piece _ => ?_
        by_cases hpiece : piece = Particle.textName.toList
        · rw [hpiece, if_pos rfl, substitute, if_pos (by decide)]
        · simp [substitute, hpiece]
      · rintro ⟨bound, heq, htextName⟩
        obtain rfl := Option.some.inj heq
        rw [names_replace hisName, List.mem_map] at htextName
        obtain ⟨n, -, hn⟩ := htextName
        split at hn
        · exact leafName_ne_textName _ hn
        · next hne => exact hne hn

/-! ### All records -/

lemma mem_signatures : s ∈ signatures records ↔ ∃ r ∈ records, NamesText r ∧ signature r = s := by
  rw [signatures, List.mem_eraseDups, List.mem_map]
  refine exists_congr fun r => ?_
  rw [List.mem_filter, holdsText_iff, and_assoc]

/-- The leaves of some records are the first of those of more records. -/
lemma leaves_prefix (records later : List Record) :
    (bind records).2 <+: (bind (records ++ later)).2 := by
  obtain ⟨more, hmore⟩ := signatures_append records later
  rw [snd_bind, snd_bind, ← hmore, leaves, leaves, List.zipIdx_append, List.map_append]
  exact List.prefix_append _ _

/-- What becomes of records that are bound, where `made` are the leaves and `known` the signatures
that they are made for. -/
structure Binding (records out made : List Record) (known : List Signature) : Prop where
  /-- Each signature is known once. -/
  nodup : known.Nodup
  /-- Known are the signatures of the records that name text. -/
  mem_known : ∀ s, s ∈ known ↔ ∃ r ∈ records, NamesText r ∧ signature r = s
  /-- There is a leaf for each of them, and they are numbered in order, -/
  made_eq : made = leaves known
  /-- by their names, -/
  made_names : made.map (·.name) =
    (List.range known.length).map fun n => "textNode" ++ toString n
  /-- so that each holds the inline nodes of its signature beside text, or text alone, -/
  made_contents : made.map (·.content) =
    known.map fun s => some (s.1.elim "text*" fun inline => "(" ++ inline ++ "|text)*")
  /-- and its marks, -/
  made_marks : made.map (·.markContent) = known.map Prod.snd
  /-- which is the order in which they are first seen. -/
  first_seen : ∀ earlier r later, records = earlier ++ r :: later → NamesText r →
    (∀ e ∈ earlier, NamesText e → signature e ≠ signature r) →
      (bind earlier).2 ++ [leaf (bind earlier).2.length (signature r)] <+: made
  /-- No two leaves show the same. -/
  made_pairwise : made.Pairwise fun a b =>
    ¬ (a.content = b.content ∧ a.markContent = b.markContent)
  /-- A leaf names text only as the inline nodes of a record do. -/
  made_text : ∀ x ∈ made, NamesText x → ∃ r ∈ records, ∃ inline,
    r.inlineContent = some inline ∧ Particle.textName ∈ names inline
  /-- Each record is bound to the leaf of its signature, -/
  bound : List.Forall₂ (BoundTo known) records out
  /-- which is among the leaves, -/
  leaf_mem : ∀ r ∈ records, NamesText r → leaf (known.idxOf (signature r)) (signature r) ∈ made
  /-- and which it shares with the records of the same signature. -/
  shared : ∀ r ∈ records, ∀ e ∈ records, NamesText r → NamesText e →
    (leafName (known.idxOf (signature r)) = leafName (known.idxOf (signature e)) ↔
      signature r = signature e)

/-- Where no record names text, nothing is bound. -/
lemma bind_of_not_namesText (h : ∀ r ∈ records, ¬ NamesText r) : bind records = (records, []) := by
  have hnone (r : Record) (hr : r ∈ records) : holdsText r = false :=
    Bool.eq_false_iff.mpr fun htext => h r hr (holdsText_iff.mp htext)
  have hsignatures : signatures records = [] := by
    rw [signatures, List.filter_eq_nil_iff.mpr fun r hr => by simp [hnone r hr]]
    rfl
  refine Prod.ext ?_ ?_
  · exact (List.map_congr_left fun r hr => bindOne_of_not_holdsText (hnone r hr)).trans
      (List.map_id records)
  · rw [snd_bind, hsignatures]
    rfl

/-- **Binding is exact.**  The leaves are those of the signatures of the records that name text,
numbered as they are first seen, and no two of them show the same.  Each record that names text
names the leaf of its own signature instead, and stays as it is otherwise; all others stay as
they are.  No text is left to be bound once more. -/
theorem bind_exact (records : List Record) :
    (∃ known, Binding records (bind records).1 (bind records).2 known) ∧
      bind (bind records).1 = ((bind records).1, []) := by
  refine ⟨⟨signatures records, ?_⟩, bind_of_not_namesText fun r' hr' => ?_⟩
  · have hnodup : (signatures records).Nodup := nodup_eraseDups _
    refine ⟨hnodup, fun s => mem_signatures, rfl, names_leaves _, map_leaves content_leaf _,
      map_leaves (fun _ _ => rfl) _, ?_, leaves_pairwise hnodup, ?_,
      List.forall₂_map_right_iff.mpr (List.forall₂_same.mpr fun r _ => boundTo_bindOne _ r),
      fun r hr htext => ?_, fun r hr e _ htext _ => ?_⟩
    · intro earlier r later hrecords htext hnew
      have hsignature : signature r ∉ signatures earlier := fun hmem => by
        obtain ⟨e, he, hetext, heq⟩ := mem_signatures.mp hmem
        exact hnew e he hetext heq
      have hone : (bind (earlier ++ [r])).2 =
          (bind earlier).2 ++ [leaf (bind earlier).2.length (signature r)] := by
        rw [bind_append_singleton]
        exact if_pos ⟨holdsText_iff.mpr htext, hsignature⟩
      rw [← hone, hrecords, List.append_cons earlier r later]
      exact leaves_prefix (earlier ++ [r]) later
    · rintro x hx ⟨content, hcontent, hmem⟩
      obtain ⟨n, r, hr, rfl⟩ := exists_of_mem_leaves hx
      rcases mem_names_leaf hcontent hmem with htext | hinline
      · exact absurd htext (by decide)
      · exact ⟨r, hr, hinline⟩
    · exact leaf_mem_leaves (mem_signatures.mpr ⟨r, hr, htext, rfl⟩)
    · exact leafName_idxOf_inj (mem_signatures.mpr ⟨r, hr, htext, rfl⟩)
  · obtain ⟨r, -, rfl⟩ := List.mem_map.mp hr'
    exact (boundTo_bindOne _ r).gone

end EditorSchema.TextLeaves
