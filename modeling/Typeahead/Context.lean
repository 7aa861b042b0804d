import Typeahead.Action

namespace Typeahead

/-! Values that follow a branch.

Every branch sees the initial value of a context until a definition that runs on
it sets another; from then on that branch and its copies see the new one. -/

structure Context (H : Host) where
  key : Nat
  initial : H.Slot

/-- The values that were set on a branch, each key at most once. -/
structure Contexts (H : Host) where
  entries : List (Nat × H.Slot) := []

namespace Contexts

variable {H : Host}

def empty : Contexts H := {}

def get (contexts : Contexts H) (context : Context H) : H.Slot :=
  (contexts.entries.lookup context.key).getD context.initial

def set (contexts : Contexts H) (context : Context H) (value : H.Slot) : Contexts H :=
  ⟨(context.key, value) :: contexts.entries.filter (·.1 != context.key)⟩

theorem get_set_same (contexts : Contexts H) (context : Context H) (value : H.Slot) :
    (contexts.set context value).get context = value := by
  simp [get, set]

theorem get_set_other (contexts : Contexts H) {context other : Context H} (value : H.Slot)
    (different : other.key ≠ context.key) :
    (contexts.set context value).get other = contexts.get other := by
  have unaffected : ∀ entries : List (Nat × H.Slot),
      (entries.filter (·.1 != context.key)).lookup other.key = entries.lookup other.key := by
    intro entries
    induction entries with
    | nil => rfl
    | cons entry rest ih =>
        obtain ⟨key, slot⟩ := entry
        by_cases same : key = context.key
        · subst same
          simp [List.lookup_cons, ih, beq_eq_false_iff_ne.mpr different]
        · simp [same, List.lookup_cons, ih]
  simp [get, set, List.lookup_cons, beq_eq_false_iff_ne.mpr different, unaffected]

end Contexts

end Typeahead
