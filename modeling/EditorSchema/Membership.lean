/-
Memberships: which classes the specs loaded so far are members of, and whether one more
membership would make a class its own member.

The search for a way from a class back to its new member keeps the idents whose classes it
has still to look at; it takes one of them off with every ident that it opens, so it ends.

* `Memberships.closesCycle`: whether a membership closes a circle.
-/
import EditorSchema.Fresh

namespace EditorSchema

/-- Memberships, each of a member in a class, in the order in which they became known. -/
structure Memberships where
  pairs : List (String × String)
deriving DecidableEq, Repr

namespace Memberships

/-- No memberships. -/
def empty : Memberships := ⟨[]⟩

instance : Inhabited Memberships := ⟨empty⟩

/-- The memberships with one more. -/
def add (m : Memberships) (member group : String) : Memberships :=
  ⟨m.pairs ++ [(member, group)]⟩

/-- The classes that an ident is directly a member of. -/
def classesOf (m : Memberships) (ident : String) : List String :=
  m.pairs.filterMap fun (member, group) => if member = ident then some group else none

/-- The idents that are members of something. -/
def members (m : Memberships) : List String := m.pairs.map Prod.fst

/-- Whether `target` is one of the pending idents or reached from them, where `fresh` are the
idents whose classes have not been looked at. -/
def search (m : Memberships) (target : String) (fresh : List String) : List String → Bool
  | [] => false
  | ident :: pending =>
    if ident = target then true
    else if _h : ident ∈ fresh then
      search m target (without ident fresh) (m.classesOf ident ++ pending)
    else search m target fresh pending
termination_by pending => (fresh.length, pending.length)
decreasing_by
  · exact Prod.Lex.left _ _ (length_without_lt _h)
  · exact Prod.Lex.right _ (Nat.lt_succ_self _)

/-- Whether memberships lead from one ident to another, or the two are one. -/
def reaches (m : Memberships) (source target : String) : Bool :=
  m.search target m.members [source]

/-- Whether a membership of `member` in `group` would make a class its own member. -/
def closesCycle (m : Memberships) (member group : String) : Bool := m.reaches group member

end Memberships

end EditorSchema
