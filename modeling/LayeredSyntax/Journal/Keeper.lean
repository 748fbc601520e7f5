/-
  KEEPERS — the last events of a journal, held in memory.

  A keeper has room for a number of events; when it is full, the oldest event makes room for the
  newest.  It keeps what it is given; `offer` puts a level in front of it.
-/
import LayeredSyntax.Journal.Event

namespace LayeredSyntax

/-- The newest events of a journal. -/
structure Keeper where
  /-- How many events there is room for. -/
  capacity : Nat
  /-- The events kept, the oldest first. -/
  events : List Event
deriving DecidableEq, Inhabited, Repr

namespace Keeper

/-- An empty keeper; there is always room for one event. -/
def ofCapacity (capacity : Nat) : Keeper := ⟨max capacity 1, []⟩

/-- An empty keeper of the usual size. -/
def empty [Limits] : Keeper := ofCapacity Limits.journalEvents

/-- Keep an event. -/
def keep (k : Keeper) (e : Event) : Keeper :=
  let kept := if k.capacity ≤ k.events.length then k.events.drop 1 else k.events
  { k with events := kept ++ [e] }

/-- Keep an event if it is important enough. -/
def offer (k : Keeper) (least : EventLevel) (e : Event) : Keeper :=
  if e.level.isKept least then k.keep e else k

/-- Give up all events. -/
def clear (k : Keeper) : Keeper := { k with events := [] }

/-- The kept events of a code. -/
def withCode (k : Keeper) (c : Code) : List Event := k.events.filter (·.code == c)

end Keeper

end LayeredSyntax
