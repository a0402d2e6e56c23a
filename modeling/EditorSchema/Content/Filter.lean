/-
Filtering a content particle: keeping the groups of interest and the shape around them.

Groups that are not kept disappear, and with them every sequence and choice that is left
without a part.  A sequence or a choice with one part left is that part.

* `Particle.filterAll_eq`: a list is filtered particle by particle.
-/
import EditorSchema.Dictionary
import EditorSchema.Content.Particle

namespace EditorSchema.Particle

/-- What remains of a sequence or a choice whose parts were filtered: nothing without a
part, a single part by itself, and otherwise the parts wrapped as before. -/
def collapse (wrap : List Particle → Particle) : List Particle → Option Particle
  | [] => none
  | [part] => some part
  | parts => some (wrap parts)

mutual

/-- What remains of a particle when only the groups that satisfy `keep` stay. -/
def filter (keep : String → Bool) : Particle → Option Particle
  | .group ident => if keep ident then some (.group ident) else none
  | .sequence parts => collapse .sequence (filterAll keep parts)
  | .alternate branches => collapse .alternate (filterAll keep branches)

/-- What remains of each particle of a list, where something does. -/
def filterAll (keep : String → Bool) : List Particle → List Particle
  | [] => []
  | p :: ps =>
    match filter keep p with
    | some kept => kept :: filterAll keep ps
    | none => filterAll keep ps

end

/-- The particles of a list are filtered one by one, and those of which nothing remains are left
out. -/
theorem filterAll_eq (keep : String → Bool) (ps : List Particle) :
    filterAll keep ps = ps.filterMap (filter keep) := by
  induction ps with
  | nil => rfl
  | cons p ps ih =>
    rw [filterAll, List.filterMap_cons, ih]
    cases filter keep p <;> rfl

/-- What remains of a particle when the groups of a set stay, or, to exclude them, when all
others do. -/
def filterGroups (targets : IdentSet) (exclude : Bool) : Particle → Option Particle :=
  filter fun ident => targets.contains ident != exclude

end EditorSchema.Particle
