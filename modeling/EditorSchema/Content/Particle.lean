/-
Content particles: the trees that say what an element may hold.

A particle is a reference to a group (a class or an element, by its ident), a sequence of
particles or a choice between particles.

* `Particle.ind`: what is inherited from the parts of a particle holds of every particle;
* `Particle.leavesAll_eq`, `Particle.renameAll_eq`: the functions on lists of particles are
  those on particles, one part after the other.
-/

namespace EditorSchema

/-- What an element may hold. -/
inductive Particle where
  /-- A class or an element, by its ident. -/
  | group (ident : String)
  /-- One part after the other. -/
  | sequence (parts : List Particle)
  /-- One of several branches. -/
  | alternate (branches : List Particle)
deriving Repr, Inhabited

namespace Particle

/-- The name that stands for character data. -/
def textName : String := "textNode"

/-- A property holds of every particle once it is inherited from the parts. -/
@[elab_as_elim]
theorem ind {P : Particle → Prop} (group : ∀ ident, P (.group ident))
    (sequence : ∀ parts, (∀ p ∈ parts, P p) → P (.sequence parts))
    (alternate : ∀ branches, (∀ p ∈ branches, P p) → P (.alternate branches))
    (t : Particle) : P t :=
  Particle.rec (motive_1 := P) (motive_2 := fun ps => ∀ p ∈ ps, P p)
    group sequence alternate
    (fun _ h => absurd h (by simp))
    (fun _ _ head tail p hp => by
      rcases List.mem_cons.1 hp with rfl | hp
      · exact head
      · exact tail p hp)
    t

/-! ### Equality -/

mutual

/-- Whether two particles are equal. -/
def same : Particle → Particle → Bool
  | .group a, .group b => a == b
  | .sequence ps, .sequence qs => sameAll ps qs
  | .alternate ps, .alternate qs => sameAll ps qs
  | _, _ => false

/-- Whether two lists of particles are equal. -/
def sameAll : List Particle → List Particle → Bool
  | [], [] => true
  | p :: ps, q :: qs => same p q && sameAll ps qs
  | _, _ => false

end

/-- The test decides whether two particles are equal. -/
theorem same_iff (p q : Particle) : same p q = true ↔ p = q := by
  have all : ∀ ps : List Particle, (∀ p ∈ ps, ∀ q, same p q = true ↔ p = q) →
      ∀ qs, sameAll ps qs = true ↔ ps = qs := by
    intro ps
    induction ps with
    | nil => intro _ qs; cases qs <;> simp [sameAll]
    | cons p ps ih =>
      intro h qs
      cases qs with
      | nil => simp [sameAll]
      | cons q qs =>
        simp [sameAll, h p List.mem_cons_self q,
          ih (fun r hr => h r (List.mem_cons_of_mem _ hr)) qs]
  induction p using ind generalizing q with
  | group a => cases q <;> simp [same]
  | sequence ps ih => cases q <;> simp [same, all ps ih]
  | alternate ps ih => cases q <;> simp [same, all ps ih]

instance : DecidableEq Particle := fun p q =>
  decidable_of_iff (same p q = true) (same_iff p q)

/-! ### Leaves and renaming -/

mutual

/-- The groups of a particle, in order and with repetitions. -/
def leaves : Particle → List String
  | .group ident => [ident]
  | .sequence parts => leavesAll parts
  | .alternate branches => leavesAll branches

/-- The groups of a list of particles, in order and with repetitions. -/
def leavesAll : List Particle → List String
  | [] => []
  | p :: ps => leaves p ++ leavesAll ps

end

/-- The leaves of a list of particles are those of each, one after the other. -/
theorem leavesAll_eq (ps : List Particle) : leavesAll ps = ps.flatMap leaves := by
  induction ps with
  | nil => rfl
  | cons p ps ih => simp [leavesAll, ih]

mutual

/-- The particle of the same shape with every group passed through `f`. -/
def rename (f : String → String) : Particle → Particle
  | .group ident => .group (f ident)
  | .sequence parts => .sequence (renameAll f parts)
  | .alternate branches => .alternate (renameAll f branches)

/-- Each particle of a list renamed by `f`. -/
def renameAll (f : String → String) : List Particle → List Particle
  | [] => []
  | p :: ps => rename f p :: renameAll f ps

end

/-- The particles of a list are renamed one by one. -/
theorem renameAll_eq (f : String → String) (ps : List Particle) :
    renameAll f ps = ps.map (rename f) := by
  induction ps with
  | nil => rfl
  | cons p ps ih => simp [renameAll, ih]

end Particle

end EditorSchema
