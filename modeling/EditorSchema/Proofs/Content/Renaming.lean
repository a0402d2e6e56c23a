/-
Renaming in an expression and in the particle that it writes.

An expression is made up of separators and names, where a name goes on as long as it can.  There
is one way to take it apart like this, and whoever replaces a name in the expression replaces
just those of its names that are this one, and leaves the separators where they are.  A particle
that is written has its leaves for names, so replacing a name in the text comes to renaming its
leaves.  A name that is replaced by one that the expression does not have can be put back.

* `Naming.MadeOf`: the separators and names that an expression is made of;
* `Naming.madeOf_iff`: what an expression is made of is found by cutting it;
* `Naming.replace_eq_text`: replacing a name goes through what an expression is made of;
* `Naming.replace_renames`: renaming in expressions and in particles.
-/
import Mathlib.Tactic
import EditorSchema.Proofs.Content.Written

namespace EditorSchema.Naming

/-! ### What an expression is made of -/

/-- A part of an expression, as it stands in it. -/
inductive Part where
  | separator (c : Char)
  | name (ident : String)
deriving DecidableEq

namespace Part

/-- The characters of a part. -/
def chars : Part → List Char
  | .separator c => [c]
  | .name ident => ident.toList

/-- A separator is one, and a name can be a name. -/
def Proper : Part → Prop
  | .separator c => isSeparator c = true
  | .name ident => IsName ident

/-- Whether a part is a name. -/
def isName : Part → Bool
  | .separator _ => false
  | .name _ => true

/-- A part in which one name is put for another. -/
def renamed (old new : String) : Part → Part
  | .separator c => .separator c
  | .name ident => .name (if ident = old then new else ident)

/-- The part of some characters. -/
def ofChars : List Char → Part
  | [c] => if isSeparator c then .separator c else .name (String.ofList [c])
  | cs => .name (String.ofList cs)

end Part

/-- The expression that parts make up. -/
def text (parts : List Part) : String := String.ofList (parts.flatMap Part.chars)

/-- **The parts that an expression is made of**: each of them is a separator or a name, and a name
goes on as long as it can, which means that no other name comes right after it. -/
structure MadeOf (expression : String) (parts : List Part) : Prop where
  text_eq : text parts = expression
  proper : ∀ p ∈ parts, p.Proper
  longest : parts.IsChain fun p q => ¬ (p.isName = true ∧ q.isName = true)

variable {expression old new : String} {parts : List Part} {p : Part}

lemma MadeOf.toList_eq (h : MadeOf expression parts) :
    expression.toList = parts.flatMap Part.chars := by
  rw [← h.text_eq, text, String.toList_ofList]

lemma Part.ofChars_chars (h : p.Proper) : Part.ofChars p.chars = p := by
  cases p with
  | separator c => rw [chars, ofChars, if_pos (show isSeparator c = true from h)]
  | name ident =>
      obtain ⟨hne, hwhole⟩ : IsName ident := h
      have hlist : String.ofList ident.toList = ident := String.ofList_toList
      rw [chars, ofChars.eq_def]
      split
      · next c hc =>
        have hc' : isSeparator c = false := hwhole c (by rw [hc]; exact List.mem_singleton_self c)
        rw [if_neg (by simp [hc']), ← hc, hlist]
      · rw [hlist]

/-- What comes after a name begins with a separator, if anything does. -/
lemma isSeparator_of_head? (hproper : ∀ q ∈ parts, q.Proper)
    (hlongest : (p :: parts).IsChain fun p q => ¬ (p.isName = true ∧ q.isName = true))
    (hp : p.isName = true) : ∀ c ∈ (parts.flatMap Part.chars).head?, isSeparator c = true := by
  cases parts with
  | nil => simp
  | cons q parts =>
      cases q with
      | separator d =>
          intro c hc
          obtain rfl : d = c := by simpa [Part.chars] using hc
          exact hproper (.separator d) List.mem_cons_self
      | name ident => exact absurd ⟨hp, rfl⟩ (List.isChain_cons_cons.mp hlongest).1

/-- **Cutting an expression** finds the parts that it is made of. -/
lemma pieces_flatMap (hproper : ∀ p ∈ parts, p.Proper)
    (hlongest : parts.IsChain fun p q => ¬ (p.isName = true ∧ q.isName = true)) :
    pieces (parts.flatMap Part.chars) = parts.map Part.chars := by
  induction parts with
  | nil => rw [List.flatMap_nil, pieces, List.map_nil]
  | cons p parts ih =>
      obtain ⟨hp, hrest⟩ := List.forall_mem_cons.mp hproper
      have hpieces := ih hrest hlongest.tail
      rw [List.flatMap_cons, List.map_cons, ← hpieces]
      cases p with
      | separator c =>
          rw [Part.chars, List.singleton_append, pieces, if_pos (show isSeparator c = true from hp)]
      | name ident =>
          obtain ⟨hne, hwhole⟩ : IsName ident := hp
          have hnil : ident.toList ≠ [] := by simpa using hne
          exact pieces_append_of_head hnil hwhole (isSeparator_of_head? hrest hlongest rfl)

/-- The parts that are found by cutting. -/
def cut (expression : String) : List Part := (pieces expression.toList).map Part.ofChars

/-- Where a separator comes first, no name does. -/
lemma isName_of_head? {l : List Char} (h : ∀ c ∈ l.head?, isSeparator c = true) :
    ∀ p ∈ ((pieces l).map Part.ofChars).head?, p.isName = false := by
  cases l with
  | nil => simp [pieces]
  | cons c l =>
      have hc : isSeparator c = true := h c rfl
      rw [pieces, if_pos hc, List.map_cons, Part.ofChars, if_pos hc]
      rintro p hp
      obtain rfl : Part.separator c = p := by simpa using hp
      rfl

lemma madeOf_cut (expression : String) : MadeOf expression (cut expression) := by
  have hparts (l : List Char) : ((pieces l).map Part.ofChars).flatMap Part.chars = l ∧
      (∀ p ∈ (pieces l).map Part.ofChars, p.Proper) ∧
      ((pieces l).map Part.ofChars).IsChain fun p q => ¬ (p.isName = true ∧ q.isName = true) := by
    fun_induction pieces l with
    | case1 => exact ⟨rfl, by simp, .nil⟩
    | case2 c rest hc ih =>
        obtain ⟨htext, hproper, hlongest⟩ := ih
        have hpart : Part.ofChars [c] = .separator c := if_pos hc
        rw [List.map_cons, hpart, List.flatMap_cons, htext, List.forall_mem_cons,
          List.isChain_cons]
        exact ⟨rfl, ⟨hc, hproper⟩, by simp [Part.isName], hlongest⟩
    | case3 c rest hc ih =>
        obtain ⟨htext, hproper, hlongest⟩ := ih
        have hrest : ∀ d ∈ (rest.dropWhile fun d => !isSeparator d).head?,
            isSeparator d = true := by
          intro d hd
          have h := List.head?_dropWhile_not (fun d => !isSeparator d) rest
          rw [Option.mem_def.mp hd] at h
          simpa using h
        have hname : IsName (String.ofList (c :: rest.takeWhile fun d => !isSeparator d)) := by
          refine ⟨by simp, fun d hd => ?_⟩
          rw [String.toList_ofList] at hd
          rcases List.mem_cons.mp hd with rfl | hd
          · simpa using hc
          · simpa using List.all_eq_true.mp List.all_takeWhile d hd
        have hpart := Part.ofChars_chars (p := .name _) hname
        rw [Part.chars, String.toList_ofList] at hpart
        rw [List.map_cons, hpart, List.flatMap_cons, htext, List.forall_mem_cons,
          List.isChain_cons, Part.chars, String.toList_ofList]
        refine ⟨?_, ⟨hname, hproper⟩, fun p hp => ?_, hlongest⟩
        · rw [List.cons_append, List.takeWhile_append_dropWhile]
        · simp [isName_of_head? hrest p hp]
  obtain ⟨htext, hproper, hlongest⟩ := hparts expression.toList
  exact ⟨by rw [text, cut, htext, String.ofList_toList], hproper, hlongest⟩

/-- **There is one way to take an expression apart.** -/
theorem madeOf_iff : MadeOf expression parts ↔ parts = cut expression := by
  constructor
  · intro h
    have hmap : (parts.map Part.chars).map Part.ofChars = parts := by
      rw [List.map_map]
      exact (List.map_congr_left fun p hp => Part.ofChars_chars (h.proper p hp)).trans
        (List.map_id parts)
    rw [cut, h.toList_eq, pieces_flatMap h.proper h.longest, hmap]
  · rintro rfl
    exact madeOf_cut expression

lemma Part.any_chars (h : p.Proper) : p.chars.any (fun c => !isSeparator c) = p.isName := by
  cases p with
  | separator c =>
      have hc : isSeparator c = true := h
      simp [chars, isName, hc]
  | name ident =>
      obtain ⟨hne, hwhole⟩ : IsName ident := h
      obtain ⟨c, rest, hlist⟩ := List.exists_cons_of_ne_nil (by simpa using hne : ident.toList ≠ [])
      have hc : isSeparator c = false := hwhole c (by simp [hlist])
      simp [chars, isName, hlist, hc]

/-- The names of an expression are those among its parts. -/
lemma mentions_iff_mem (h : MadeOf expression parts) {name : String} :
    mentions expression name = true ↔ Part.name name ∈ parts := by
  have hnames : names expression =
      (parts.filter Part.isName).map fun p => String.ofList p.chars := by
    rw [names, runs_eq_filter_pieces, h.toList_eq, pieces_flatMap h.proper h.longest,
      List.filter_map, List.map_map]
    refine congrArg _ (List.filter_congr fun p hp => ?_)
    exact Part.any_chars (h.proper p hp)
  rw [mentions_iff, hnames, List.mem_map]
  constructor
  · rintro ⟨p, hp, rfl⟩
    obtain ⟨hp, hname⟩ := List.mem_filter.mp hp
    cases p with
    | separator c => cases hname
    | name ident => rwa [Part.chars, String.ofList_toList]
  · intro hp
    exact ⟨.name name, List.mem_filter.mpr ⟨hp, rfl⟩, String.ofList_toList⟩

/-! ### Replacing a name -/

lemma Part.chars_renamed (h : p.Proper) :
    (p.renamed old new).chars = substitute old.toList new.toList p.chars := by
  cases p with
  | separator c => exact (substitute_separator h _ _).symm
  | name ident =>
      have hany : ident.toList.any (fun c => !isSeparator c) = true := any_chars h
      rw [renamed, chars, chars, substitute, hany, Bool.and_true, apply_ite String.toList]
      simp only [beq_iff_eq, String.toList_inj]

/-- **Replacing a name goes through the parts**: those names that are the sought one are replaced,
and nothing else changes. -/
theorem replace_eq_text (h : MadeOf expression parts) :
    replace expression old new = text (parts.map (Part.renamed old new)) := by
  rw [replace_eq, h.toList_eq, pieces_flatMap h.proper h.longest, text, List.map_map,
    List.flatMap_map, List.flatMap_def]
  refine congrArg (fun parts => String.ofList (List.flatten parts)) ?_
  exact List.map_congr_left fun p hp => (Part.chars_renamed (h.proper p hp)).symm

/-- Where a name is replaced by one that can be a name, the parts are replaced one by one. -/
lemma MadeOf.renamed (h : MadeOf expression parts) (hnew : IsName new) :
    MadeOf (replace expression old new) (parts.map (Part.renamed old new)) := by
  refine ⟨(replace_eq_text h).symm, fun q hq => ?_, ?_⟩
  · obtain ⟨p, hp, rfl⟩ := List.mem_map.mp hq
    cases p with
    | separator c => exact h.proper _ hp
    | name ident =>
        have hident : IsName ident := h.proper _ hp
        rw [Part.renamed, Part.Proper]
        split
        · exact hnew
        · exact hident
  · rw [List.isChain_map]
    refine h.longest.imp fun p q hpq => ?_
    cases p <;> cases q <;> exact hpq

/-- **A name that is replaced by a fresh one can be put back.** -/
theorem replace_replace (hnew : IsName new) (hfresh : mentions expression new = false) :
    replace (replace expression old new) new old = expression := by
  have h := madeOf_cut expression
  rw [replace_eq_text (h.renamed hnew), List.map_map]
  have hback : (cut expression).map (Part.renamed new old ∘ Part.renamed old new) =
      cut expression := by
    refine (List.map_congr_left fun p hp => ?_).trans (List.map_id _)
    cases p with
    | separator c => rfl
    | name ident =>
        have hne : ident ≠ new := by
          rintro rfl
          rw [(mentions_iff_mem h).mpr hp] at hfresh
          cases hfresh
        by_cases hold : ident = old <;> simp [Part.renamed, hold, hne]
  rw [hback, h.text_eq]

/-- **Renaming in expressions and in particles.**  In the expression of a particle it comes to
renaming leaves, and the expression has a name if the particle has it for a leaf.  Any expression
is made of separators and names in one way; of these, the names that are the sought one are
replaced, and nothing else is.  A name that is replaced by a fresh one can be put back. -/
theorem replace_renames :
    (∀ (t : Particle) (old new : String), (∀ n ∈ t.leaves, IsName n) →
      replace t.encode old new = (t.rename fun n => if n = old then new else n).encode ∧
      (mentions t.encode old = true ↔ old ∈ t.leaves)) ∧
    (∀ expression, ∃ parts, (∀ others, MadeOf expression others ↔ others = parts) ∧
      (∀ name, mentions expression name = true ↔ Part.name name ∈ parts) ∧
      ∀ old new, replace expression old new = text (parts.map (Part.renamed old new))) ∧
    ∀ expression old new, IsName new → mentions expression new = false →
      replace (replace expression old new) new old = expression := by
  refine ⟨fun t old new hnames => ⟨Particle.replace_encode hnames, ?_⟩, fun expression => ?_,
    fun expression old new => replace_replace⟩
  · rw [mentions_iff, names_encode hnames]
  · have h := madeOf_cut expression
    exact ⟨cut expression, fun others => madeOf_iff, fun name => mentions_iff_mem h,
      fun old new => replace_eq_text h⟩

/-- Text, next to a name that begins like it. -/
def besideText : Particle :=
  .sequence [.group "textNode", .group "textNodes", .alternate [.group "textNode", .group "x"]]

/-- Text is renamed wherever it stands, the name that begins like it stays, and renaming text back
restores the expression. -/
theorem replace_renames_besideText :
    (∀ n ∈ besideText.leaves, IsName n) ∧ IsName "textNode3" ∧
    besideText.encode = "textNode textNodes (textNode|x)" ∧
    replace besideText.encode "textNode" "textNode3" = "textNode3 textNodes (textNode3|x)" ∧
    mentions besideText.encode "textNode" = true ∧
    mentions besideText.encode "textNode3" = false ∧
    replace (replace besideText.encode "textNode" "textNode3") "textNode3" "textNode" =
      besideText.encode := by
  have hnames : ∀ n ∈ besideText.leaves, IsName n := by decide
  have hnew : IsName "textNode3" := by decide
  obtain ⟨hreplace, hmentions⟩ := replace_renames.1 besideText "textNode" "textNode3" hnames
  have hfresh : mentions besideText.encode "textNode3" = false := by
    rw [Bool.eq_false_iff, Ne, (replace_renames.1 besideText "textNode3" "" hnames).2]
    decide
  have hrenamed : (besideText.rename fun n => if n = "textNode" then "textNode3" else n).encode =
      "textNode3 textNodes (textNode3|x)" := by
    decide
  exact ⟨hnames, hnew, by decide, hreplace.trans hrenamed, hmentions.mpr (by decide), hfresh,
    replace_renames.2.2 _ _ _ hnew hfresh⟩

end EditorSchema.Naming
