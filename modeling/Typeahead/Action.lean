namespace Typeahead

/-! What callbacks do.

A grammar calls back into the program that owns it: for every branch that a
parser yields, for every value that it emits, for every copy of a branch.  Such a
callback may read and change the owner's world, and may hand values to the
definition that encloses it. -/

/-- The types that the owner of a grammar brings along. -/
structure Host where
  World : Type
  Data : Type
  /-- What parsers hand to the definition that encloses them. -/
  Value : Type
  Slot : Type

structure Outcome (H : Host) (α : Type) where
  result : α
  /-- The values handed to the enclosing definition, in order. -/
  emitted : List H.Value
  world : H.World

/-- A step that depends on the owner's world. -/
def Action (H : Host) (α : Type) : Type := H.World → Outcome H α

namespace Action

variable {H : Host} {α β : Type}

def ret (result : α) : Action H α := fun world => ⟨result, [], world⟩

def followedBy (first : Action H α) (next : α → Action H β) : Action H β := fun world =>
  let before := first world
  let after := next before.result before.world
  ⟨after.result, before.emitted ++ after.emitted, after.world⟩

instance : Monad (Action H) where
  pure := ret
  bind := followedBy

/-- Hands a value to the enclosing definition. -/
def emit (value : H.Value) : Action H Unit := fun world => ⟨(), [value], world⟩

def change (f : H.World → H.World) : Action H Unit := fun world => ⟨(), [], f world⟩

def getWorld : Action H H.World := fun world => ⟨world, [], world⟩

/-- Keeps the values that an action emits from the enclosing definition, and
answers them beside the result. -/
def collecting (action : Action H α) : Action H (α × List H.Value) := fun world =>
  let outcome := action world
  ⟨(outcome.result, outcome.emitted), [], outcome.world⟩

theorem pure_def (result : α) (world : H.World) :
    (pure result : Action H α) world = ⟨result, [], world⟩ := rfl

theorem bind_def (first : Action H α) (next : α → Action H β) (world : H.World) :
    (first >>= next) world =
      ⟨(next (first world).result (first world).world).result,
        (first world).emitted ++ (next (first world).result (first world).world).emitted,
        (next (first world).result (first world).world).world⟩ := rfl

theorem map_def (f : α → β) (action : Action H α) (world : H.World) :
    (f <$> action) world =
      ⟨f (action world).result, (action world).emitted, (action world).world⟩ := by
  simp [Functor.map, followedBy, ret]

instance : LawfulMonad (Action H) := LawfulMonad.mk' (Action H)
  (by
    intro α action
    funext world
    simp [Functor.map, followedBy, ret])
  (by
    intro α β result next
    funext world
    simp [bind, pure, followedBy, ret])
  (by
    intro α β γ action first second
    funext world
    simp [bind, followedBy, List.append_assoc])

end Action

end Typeahead
