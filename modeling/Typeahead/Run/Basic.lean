import Typeahead.Action

namespace Typeahead

/-! Lazy sequences of items.

A run does nothing until it is pulled.  One pull acts on the owner's world and
gives either the end or one item and the rest of the run, so items that nobody
pulls cost nothing and call nobody back. -/

mutual

inductive Run (H : Host) (α : Type) : Type where
  | suspended (pull : H.World → Pull H α)

/-- What one pull gives, with the values it emitted and the world it left. -/
inductive Pull (H : Host) (α : Type) : Type where
  | ended (emitted : List H.Value) (world : H.World)
  | item (head : α) (emitted : List H.Value) (world : H.World) (rest : Run H α)

end

variable {H : Host} {α β : Type}

namespace Pull

def after (earlier : List H.Value) : Pull H α → Pull H α
  | .ended emitted world => .ended (earlier ++ emitted) world
  | .item head emitted world rest => .item head (earlier ++ emitted) world rest

def emitted : Pull H α → List H.Value
  | .ended emitted _ => emitted
  | .item _ emitted _ _ => emitted

def world : Pull H α → H.World
  | .ended _ world => world
  | .item _ _ world _ => world

def head? : Pull H α → Option α
  | .ended _ _ => none
  | .item head _ _ _ => some head

def rest? : Pull H α → Option (Run H α)
  | .ended _ _ => none
  | .item _ _ _ rest => some rest

end Pull

namespace Run

def pull : Run H α → H.World → Pull H α
  | .suspended pull => pull

def empty : Run H α := .suspended (.ended [])

def cons (head : α) (rest : Run H α) : Run H α :=
  .suspended fun world => .item head [] world rest

def one (item : α) : Run H α := cons item empty

def ofList : List α → Run H α
  | [] => empty
  | item :: rest => cons item (ofList rest)

/-- A run that is begun by the first pull. -/
def defer (begin : Action H (Run H α)) : Run H α := .suspended fun world =>
  let begun := begin world
  (begun.result.pull begun.world).after begun.emitted

/-- A run that is made by the first pull. -/
def delayed (make : Unit → Run H α) : Run H α :=
  .suspended fun world => (make ()).pull world

def orElse (run : Run H α) (fallback : Option α) : Run H α := .suspended fun world =>
  match run.pull world, fallback with
  | .ended emitted world, some item => .item item emitted world empty
  | pulled, _ => pulled

end Run

mutual

def Run.append : Run H α → Run H α → Run H α
  | .suspended pull, second => .suspended fun world => (pull world).append second

def Pull.append : Pull H α → Run H α → Pull H α
  | .ended emitted world, second => (second.pull world).after emitted
  | .item head emitted world rest, second => .item head emitted world (rest.append second)

end

mutual

/-- Every item in turn, changed by an action that its pull performs. -/
def Run.mapAction (f : α → Action H β) : Run H α → Run H β
  | .suspended pull => .suspended fun world => (pull world).mapAction f

def Pull.mapAction (f : α → Action H β) : Pull H α → Pull H β
  | .ended emitted world => .ended emitted world
  | .item head emitted world rest =>
      let changed := f head world
      .item changed.result (emitted ++ changed.emitted) changed.world (rest.mapAction f)

end

mutual

def Run.filterMap (f : α → Option β) : Run H α → Run H β
  | .suspended pull => .suspended fun world => (pull world).filterMap f

def Pull.filterMap (f : α → Option β) : Pull H α → Pull H β
  | .ended emitted world => .ended emitted world
  | .item head emitted world rest =>
      match f head with
      | some changed => .item changed emitted world (rest.filterMap f)
      | none => ((rest.filterMap f).pull world).after emitted

end

mutual

/-- The runs that the items lead to, one after the other. -/
def Run.flatMap (f : α → Action H (Run H β)) : Run H α → Run H β
  | .suspended pull => .suspended fun world => (pull world).flatMap f

def Pull.flatMap (f : α → Action H (Run H β)) : Pull H α → Pull H β
  | .ended emitted world => .ended emitted world
  | .item head emitted world rest =>
      let begun := f head world
      ((begun.result.append (rest.flatMap f)).pull begun.world).after (emitted ++ begun.emitted)

end

mutual

/-- The first items of a run; what follows them is never pulled. -/
def Run.take : Nat → Run H α → Run H α
  | 0, _ => .suspended (.ended [])
  | limit + 1, .suspended pull => .suspended fun world => (pull world).takeMore limit

def Pull.takeMore : Nat → Pull H α → Pull H α
  | _, .ended emitted world => .ended emitted world
  | limit, .item head emitted world rest => .item head emitted world (rest.take limit)

end

mutual

/-- Keeps the values that a run emits from the enclosing definition and hands them
to its items: each item that takes values gets all that were emitted since the
last one that did, beginning with those that are `waiting`. -/
def Run.collecting (takes : α → Bool) (waiting : List H.Value) :
    Run H α → Run H (α × List H.Value)
  | .suspended pull => .suspended fun world => (pull world).collecting takes waiting

def Pull.collecting (takes : α → Bool) (waiting : List H.Value) :
    Pull H α → Pull H (α × List H.Value)
  | .ended _ world => .ended [] world
  | .item head emitted world rest =>
      if takes head then
        .item (head, waiting ++ emitted) [] world (rest.collecting takes [])
      else .item (head, []) [] world (rest.collecting takes (waiting ++ emitted))

end

mutual

/-- A run up to the given number of items that count; nothing behind the last of
them is ever pulled. -/
def Run.capped (counts : α → Bool) : Nat → Run H α → Run H α
  | 0, _ => .suspended (.ended [])
  | cap + 1, .suspended pull => .suspended fun world => (pull world).cappedMore counts cap

def Pull.cappedMore (counts : α → Bool) : Nat → Pull H α → Pull H α
  | _, .ended emitted world => .ended emitted world
  | cap, .item head emitted world rest =>
      .item head emitted world (rest.capped counts (if counts head then cap else cap + 1))

end

mutual

/-- The results of a run, or its first error, behind which nothing is pulled. -/
def Run.collect {ε : Type} : Run H (Except ε α) → Action H (Except ε (List α))
  | .suspended pull => fun world => (pull world).collect

def Pull.collect {ε : Type} : Pull H (Except ε α) → Outcome H (Except ε (List α))
  | .ended emitted world => ⟨.ok [], emitted, world⟩
  | .item (.error cause) emitted world _ => ⟨.error cause, emitted, world⟩
  | .item (.ok result) emitted world rest =>
      let others := rest.collect world
      ⟨others.result.map (result :: ·), emitted ++ others.emitted, others.world⟩

end

mutual

def Run.toList : Run H α → Action H (List α)
  | .suspended pull => fun world => (pull world).toList

def Pull.toList : Pull H α → Outcome H (List α)
  | .ended emitted world => ⟨[], emitted, world⟩
  | .item head emitted world rest =>
      let others := rest.toList world
      ⟨head :: others.result, emitted ++ others.emitted, others.world⟩

end

namespace Run

/-- The runs that the members of a list lead to, one after the other. -/
def concatMap (f : β → Action H (Run H α)) : List β → Run H α
  | [] => empty
  | member :: others => defer do return (← f member).append (concatMap f others)

end Run

/-- A run that is being pulled item by item; nothing is left once the end came. -/
structure Cursor (H : Host) (α : Type) where
  rest : Option (Run H α)

namespace Cursor

def ofRun (run : Run H α) : Cursor H α := ⟨some run⟩

/-- The next item, if there is one.  After the end nothing is ever pulled again. -/
def next (cursor : Cursor H α) : Action H (Option α × Cursor H α) :=
  match cursor.rest with
  | none => pure (none, cursor)
  | some run => fun world =>
      match run.pull world with
      | .ended emitted world => ⟨(none, ⟨none⟩), emitted, world⟩
      | .item head emitted world rest => ⟨(some head, ⟨some rest⟩), emitted, world⟩

end Cursor

end Typeahead
