/-
Dictionaries: finite maps from idents to values, kept in the order of their keys.

Tables of specs, attribute dictionaries, groups of elements and sets of idents are all
shown in the code point order of their idents.  The order is part of the type, so two
dictionaries with the same look-ups are equal, whatever the order of the writes was.

* `Dictionary.get?_insert`: a write is seen at its own key and nowhere else;
* `Dictionary.ext_get?`: a dictionary is determined by its look-ups.
-/

namespace EditorSchema

universe u v

/-- A finite map from idents to values, held as its entries in strictly increasing order
of their keys. -/
structure Dictionary (α : Type u) where
  /-- The entries, by key. -/
  entries : List (String × α)
  /-- Every key comes before all later ones, so none comes twice. -/
  sorted : entries.Pairwise (fun a b => a.1 < b.1)

namespace Dictionary

variable {α : Type u} {β : Type v}

instance [DecidableEq α] : DecidableEq (Dictionary α) := fun d e =>
  if h : d.entries = e.entries then
    .isTrue (by cases d; cases e; cases h; rfl)
  else .isFalse (fun he => h (he ▸ rfl))

instance [Repr α] : Repr (Dictionary α) := ⟨fun d n => reprPrec d.entries n⟩

/-! ### Reading -/

/-- The dictionary without entries. -/
def empty : Dictionary α := ⟨[], .nil⟩

instance : Inhabited (Dictionary α) := ⟨empty⟩

instance : EmptyCollection (Dictionary α) := ⟨empty⟩

/-- The value that a list of entries holds under a key. -/
def lookup (key : String) : List (String × α) → Option α
  | [] => none
  | e :: rest => if e.1 = key then some e.2 else lookup key rest

/-- The value under a key. -/
def get? (d : Dictionary α) (key : String) : Option α := lookup key d.entries

/-- Whether a key has a value. -/
def contains (d : Dictionary α) (key : String) : Bool := (d.get? key).isSome

/-- The keys, in increasing order. -/
def keys (d : Dictionary α) : List String := d.entries.map Prod.fst

/-- The values, in the order of their keys. -/
def values (d : Dictionary α) : List α := d.entries.map Prod.snd

/-- The number of entries. -/
def size (d : Dictionary α) : Nat := d.entries.length

/-- Whether there is no entry. -/
def isEmpty (d : Dictionary α) : Bool := d.entries.isEmpty

/-! ### Writing -/

/-- Put an entry at its place among sorted entries, in place of one with the same key. -/
def place (key : String) (value : α) : List (String × α) → List (String × α)
  | [] => [(key, value)]
  | e :: rest =>
    if key < e.1 then (key, value) :: e :: rest
    else if e.1 = key then (key, value) :: rest
    else e :: place key value rest

/-- Placing an entry brings in no other one. -/
theorem mem_place {key : String} {value : α} {l : List (String × α)} {e : String × α}
    (h : e ∈ place key value l) : e = (key, value) ∨ e ∈ l := by
  induction l with
  | nil => simpa [place] using h
  | cons a rest ih =>
    rw [place] at h
    split at h
    · simpa using h
    · split at h
      · rcases List.mem_cons.1 h with h | h
        · exact .inl h
        · exact .inr (List.mem_cons_of_mem _ h)
      · rcases List.mem_cons.1 h with h | h
        · exact .inr (h ▸ List.mem_cons_self)
        · exact (ih h).imp_right (List.mem_cons_of_mem _)

/-- Placing an entry among sorted ones leaves them sorted. -/
theorem place_sorted (key : String) (value : α) {l : List (String × α)}
    (h : l.Pairwise (fun a b => a.1 < b.1)) :
    (place key value l).Pairwise (fun a b => a.1 < b.1) := by
  induction l with
  | nil => simp [place]
  | cons a rest ih =>
    have ha := fun e (he : e ∈ rest) => List.rel_of_pairwise_cons h he
    rw [place]
    split
    · next hlt =>
      refine .cons (fun e he => ?_) h
      rcases List.mem_cons.1 he with rfl | he
      · exact hlt
      · exact String.lt_trans hlt (ha e he)
    · split
      · next heq => exact .cons (fun e he => heq ▸ ha e he) h.of_cons
      · next hnlt hne =>
        refine .cons (fun e he => ?_) (ih h.of_cons)
        rcases mem_place he with rfl | he
        · refine Decidable.byContradiction fun hn => hne ?_
          exact String.le_antisymm (String.not_lt.1 hnlt) (String.not_lt.1 hn)
        · exact ha e he

/-- The dictionary with `value` under `key`, in place of what was there. -/
def insert (d : Dictionary α) (key : String) (value : α) : Dictionary α :=
  ⟨place key value d.entries, place_sorted key value d.sorted⟩

/-- The dictionary with `value` under `key` where nothing was; otherwise itself. -/
def insertNew (d : Dictionary α) (key : String) (value : α) : Dictionary α :=
  if d.contains key then d else d.insert key value

/-- The entries of a list, the last of those with one key winning. -/
def ofList (l : List (String × α)) : Dictionary α :=
  l.foldl (fun d e => d.insert e.1 e.2) empty

/-- The same keys, each with its value passed through `f`. -/
def map (d : Dictionary α) (f : String → α → β) : Dictionary β :=
  ⟨d.entries.map (fun e => (e.1, f e.1 e.2)),
    List.Pairwise.map _ (fun _ _ h => h) d.sorted⟩

/-! ### Look-ups determine a dictionary -/

/-- What is placed is found under its own key and nowhere else. -/
theorem lookup_place (key other : String) (value : α) (l : List (String × α)) :
    lookup other (place key value l) = if key = other then some value else lookup other l := by
  induction l with
  | nil => simp [place, lookup]
  | cons a rest ih =>
    rw [place]
    split
    · simp [lookup]
    · split
      · next heq => by_cases h : key = other <;> simp [lookup, heq, h]
      · next hne =>
        by_cases h : a.1 = other
        · have : key ≠ other := fun hk => hne (h.trans hk.symm)
          simp [lookup, h, this]
        · simp [lookup, h, ih]

/-- A write is seen at its own key and nowhere else. -/
theorem get?_insert (d : Dictionary α) (key other : String) (value : α) :
    (d.insert key value).get? other = if key = other then some value else d.get? other :=
  lookup_place key other value d.entries

/-- Nothing is found in the empty dictionary. -/
theorem get?_empty (key : String) : (empty : Dictionary α).get? key = none := rfl

/-- What is found in a list of entries is passed through `f` with them. -/
theorem lookup_map (f : String → α → β) (key : String) (l : List (String × α)) :
    lookup key (l.map (fun e => (e.1, f e.1 e.2))) = (lookup key l).map (f key) := by
  induction l with
  | nil => rfl
  | cons a rest ih => by_cases h : a.1 = key <;> simp [lookup, h, ih]

/-- What is found in a dictionary is passed through `f` with it. -/
theorem get?_map (d : Dictionary α) (f : String → α → β) (key : String) :
    (d.map f).get? key = (d.get? key).map (f key) :=
  lookup_map f key d.entries

/-- Among sorted entries a look-up finds each under its key, as no two share one. -/
theorem lookup_eq_some_iff {l : List (String × α)}
    (h : l.Pairwise (fun a b => a.1 < b.1)) {key : String} {value : α} :
    lookup key l = some value ↔ (key, value) ∈ l := by
  induction l with
  | nil => simp [lookup]
  | cons a rest ih =>
    have ha := fun e (he : e ∈ rest) => List.rel_of_pairwise_cons h he
    rw [lookup]
    split
    · next heq =>
      constructor
      · intro hv
        obtain ⟨k, v⟩ := a
        simp_all
      · intro hm
        rcases List.mem_cons.1 hm with hm | hm
        · rw [← hm]
        · exact absurd (ha _ hm) (heq ▸ String.lt_irrefl _)
    · next hne =>
      rw [ih h.of_cons, List.mem_cons]
      exact ⟨.inr, fun hm => hm.resolve_left fun he => hne (he ▸ rfl)⟩

/-- The entries are the pairs that a look-up finds. -/
theorem get?_eq_some_iff {d : Dictionary α} {key : String} {value : α} :
    d.get? key = some value ↔ (key, value) ∈ d.entries :=
  lookup_eq_some_iff d.sorted

/-- The keys are those that a dictionary contains. -/
theorem mem_keys_iff {d : Dictionary α} {key : String} :
    key ∈ d.keys ↔ d.contains key = true := by
  rw [contains, Option.isSome_iff_exists, keys, List.mem_map]
  constructor
  · rintro ⟨⟨k, v⟩, hm, rfl⟩
    exact ⟨v, get?_eq_some_iff.2 hm⟩
  · rintro ⟨v, hv⟩
    exact ⟨(key, v), get?_eq_some_iff.1 hv, rfl⟩

/-- Sorted lists with the same members are equal. -/
theorem eq_of_same_members {l m : List (String × α)}
    (hl : l.Pairwise (fun a b => a.1 < b.1)) (hm : m.Pairwise (fun a b => a.1 < b.1))
    (h : ∀ e, e ∈ l ↔ e ∈ m) : l = m := by
  induction l generalizing m with
  | nil =>
    cases m with
    | nil => rfl
    | cons b _ => exact absurd ((h b).2 List.mem_cons_self) (by simp)
  | cons a l ih =>
    cases m with
    | nil => exact absurd ((h a).1 List.mem_cons_self) (by simp)
    | cons b m =>
      have hal := fun e (he : e ∈ l) => List.rel_of_pairwise_cons hl he
      have hbm := fun e (he : e ∈ m) => List.rel_of_pairwise_cons hm he
      -- the least entries agree, since each is found in the other list
      have hab : a = b := by
        rcases List.mem_cons.1 ((h a).1 List.mem_cons_self) with heq | ham
        · exact heq
        · rcases List.mem_cons.1 ((h b).2 List.mem_cons_self) with heq | hbl
          · exact heq.symm
          · exact absurd (hal b hbl) (String.lt_asymm (hbm a ham))
      subst hab
      congr 1
      refine ih hl.of_cons hm.of_cons fun e => ?_
      have he := h e
      rw [List.mem_cons, List.mem_cons] at he
      constructor
      · intro hel
        exact (he.1 (.inr hel)).resolve_left
          fun heq => absurd (heq ▸ hal e hel) (String.lt_irrefl _)
      · intro hem
        exact (he.2 (.inr hem)).resolve_left
          fun heq => absurd (heq ▸ hbm e hem) (String.lt_irrefl _)

/-- A dictionary is determined by its look-ups. -/
theorem ext_get? {d e : Dictionary α} (h : ∀ key, d.get? key = e.get? key) : d = e := by
  have : d.entries = e.entries := eq_of_same_members d.sorted e.sorted fun ⟨k, v⟩ => by
    rw [← get?_eq_some_iff, ← get?_eq_some_iff, h]
  cases d; cases e; cases this; rfl

end Dictionary

/-! ### Sets of idents -/

/-- A finite set of idents. -/
abbrev IdentSet := Dictionary Unit

namespace IdentSet

/-- The set of the idents in a list. -/
def ofIdents (idents : List String) : IdentSet :=
  idents.foldl (fun s ident => s.insert ident ()) Dictionary.empty

/-- The idents in increasing order, each once. -/
def toList (s : IdentSet) : List String := s.keys

/-- Inserting an ident adds it and no other one. -/
theorem contains_insert (s : IdentSet) (ident other : String) :
    (s.insert ident ()).contains other = (decide (ident = other) || s.contains other) := by
  simp only [Dictionary.contains, Dictionary.get?_insert]
  by_cases h : ident = other <;> simp [h]

/-- The set of the idents in a list contains these and no others. -/
theorem contains_ofIdents (idents : List String) (ident : String) :
    (ofIdents idents).contains ident = decide (ident ∈ idents) := by
  suffices h : ∀ s : IdentSet,
      (idents.foldl (fun s i => s.insert i ()) s).contains ident
        = (decide (ident ∈ idents) || s.contains ident) by
    simpa [ofIdents, Dictionary.contains, Dictionary.get?_empty] using h Dictionary.empty
  induction idents with
  | nil => simp
  | cons a rest ih =>
    intro s
    rw [List.foldl_cons, ih, contains_insert]
    by_cases h : a = ident
    · simp [h]
    · simp [h, Ne.symm h]

end IdentSet

end EditorSchema
