import BankedMemory.Fault
import BankedMemory.Bytes.Region
import BankedMemory.Entity.Entry

/-!
# Arenas

An arena is a byte region and the table of the entities that divide it up. Clients hold handles and
never addresses: every access goes through a row of the table and is checked against its capacity.
`Arena.entry` finds a live row, `Arena.contents` is what a client can read of an entity.

An operation that fails keeps what it has done up to there, so `ArenaM` carries the arena along a
fault too.
-/

namespace BankedMemory

structure Arena where
  region : Region
  /-- Row 0 is reserved, so handle 0 never owns storage. -/
  table : Array Entry
  /-- The free rows, the one freed earliest first. -/
  freed : List Handle
  /-- The region grows up to this many bytes. -/
  limit : Nat
  /-- How often storage was allocated in the collector's sight. -/
  collectable : Nat
  /-- The stack of save levels, once there is one. -/
  saves : Option Handle
deriving DecidableEq

/-- Operations on an arena. -/
abbrev ArenaM := EStateM Fault Arena

/-- Look at the arena without changing it. -/
def ArenaM.reading {α : Type} (f : Arena → Except Fault α) : ArenaM α := fun a =>
  match f a with
  | .ok x => .ok x a
  | .error e => .error e a

/-- Run `undo` if `act` fails, and then fail as `act` did; if `undo` itself fails, fail as it did.
If the program stops in `act` it does not come to `undo`. -/
def ArenaM.orUndo {α : Type} (act : ArenaM α) (undo : ArenaM Unit) : ArenaM α := fun a =>
  match act a with
  | .ok x a => .ok x a
  | .error e a =>
    if e.stops then .error e a
    else
      match undo a with
      | .ok _ a => .error e a
      | .error e' a => .error e' a

/-- Counts of an arena. -/
structure Usage where
  /-- Live entities, the reserved one left out. -/
  live : Nat
  free : Nat
  /-- The capacities of the live entities together. -/
  bytesInUse : Nat
  collectable : Nat
deriving DecidableEq, Repr

namespace Arena

/-- No region can be longer, whatever the limit says. -/
def longestRegion : Nat := 0x7FFFFFFFFFFFFFFF

/-- An arena with the reserved row alone. -/
def empty (limit : Nat) : Arena where
  region := .empty
  table := #[.reserved]
  freed := []
  limit
  collectable := 0
  saves := none

/-- The row of a live entity; the reserved row counts as live. -/
def entry (a : Arena) (h : Handle) : Except Fault Entry :=
  match a.table[h.toNat]? with
  | some e => if e.isFree then .error .noSuchEntity else .ok e
  | none => .error .noSuchEntity

/-- All the bytes of an entity, if the handle is live. -/
def contents (a : Arena) (h : Handle) : Option (List UInt8) :=
  match a.entry h with
  | .ok e => a.region.slice? e.address (e.address + e.capacity)
  | .error _ => none

/-- The rows that are not free, in the order of their handles. -/
def liveRows (a : Arena) : List Entry := a.table.toList.filter (!·.isFree)

def usage (a : Arena) : Usage where
  live := a.table.size - 1 - a.freed.length
  free := a.freed.length
  bytesInUse := a.liveRows.foldr (fun e n => e.capacity + n) 0
  collectable := a.collectable

end Arena

end BankedMemory
