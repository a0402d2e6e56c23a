/-
What a walk has still to visit.

A walk over finitely many idents that are connected in any way comes to an end if it takes
each ident that it opens off a list of fresh ones and opens no other.

* `length_without_lt`: taking off what is there makes the list shorter.
-/

namespace EditorSchema

/-- A list of idents without one of them. -/
def without (ident : String) (idents : List String) : List String :=
  idents.filter (· ≠ ident)

/-- What is left without an ident are the other ones. -/
theorem mem_without {ident other : String} {idents : List String} :
    other ∈ without ident idents ↔ other ∈ idents ∧ other ≠ ident := by
  simp [without]

/-- There is less to visit without an ident that was there. -/
theorem length_without_lt {ident : String} {idents : List String} (h : ident ∈ idents) :
    (without ident idents).length < idents.length :=
  List.length_filter_lt_length_iff_exists.2 ⟨ident, h, by simp⟩

end EditorSchema
