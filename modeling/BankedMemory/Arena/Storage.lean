import BankedMemory.Arena.Allocation

/-!
# Reading and writing storage

An entity is read and written in elements: element `i` of width `w` is the bytes from `i * w` on.
Two entities can trade places, which swaps what their handles show without touching a byte.
-/

namespace BankedMemory.Arena

/-- A stretch of the region, from `start` up to `stop`. -/
structure Span where
  start : Nat
  stop : Nat
deriving DecidableEq, Repr

/-- Where element `offset` of width `width` lies. A product that is no word lies outside the entity;
after that, a sum that is none stops the program. -/
def span (a : Arena) (h : Handle) (offset width : Nat) : Except Fault Span := do
  let e ← a.entry h
  let start := offset * width
  if 0x10000000000000000 ≤ start then
    throw .outsideStorage
  else
    let stop ← addWords start width
    if e.capacity < stop then
      throw .outsideStorage
    else
      let first ← addWords e.address start
      return ⟨first, ← addWords first width⟩

/-- The bytes of element `offset`. Where the region does not have them the program stops; that is
nowhere, as every entity lies in the region. -/
def read (a : Arena) (h : Handle) (offset width : Nat) : Except Fault (List UInt8) := do
  let s ← a.span h offset width
  match a.region.slice? s.start s.stop with
  | some bytes => return bytes
  | none => throw .outsideRegion

/-- Write element `offset`; its width is that of `src`. -/
def write (h : Handle) (offset : Nat) (src : List UInt8) : ArenaM Unit := fun a =>
  match a.span h offset src.length with
  | .error e => .error e a
  | .ok s =>
    if a.region.Covers s.start s.stop then
      .ok () { a with region := a.region.overwrite s.start src }
    else .error .outsideRegion a

def setMark (h : Handle) (mark : Mark) : ArenaM Unit := fun a =>
  match a.entry h with
  | .error e => .error e a
  | .ok _ => .ok () { a with table := a.table.modify h.toNat fun e => { e with mark } }

/-- The row with its top level lowered to `level`, if it is live and above it. -/
def lowerRow (level : UInt32) (e : Entry) : Entry :=
  if !e.isFree && decide (level < e.mark.topLevel) then
    { e with mark := e.mark.withTopLevel level }
  else e

/-- Lower every live entity's top level to `level` at most, and count those lowered. An entity
stamped in a level that is gone must not look recorded in a later level of the same depth. -/
def lowerTopLevels (level : UInt32) : ArenaM Nat := fun a =>
  let lowered := a.liveRows.countP fun e => decide (level < e.mark.topLevel)
  .ok lowered { a with table := a.table.map (lowerRow level) }

/-- Copy all of `src` over the start of `dst`, which must not be smaller. -/
def copyContents (src dst : Handle) : ArenaM Unit := fun a =>
  match a.entry src, a.entry dst with
  | .error e, _ => .error e a
  | .ok _, .error e => .error e a
  | .ok e, .ok f =>
    if f.capacity < e.capacity then .error .destinationTooSmall a
    else
      match a.region.slice? e.address (e.address + e.capacity) with
      | some bytes => .ok () { a with region := a.region.overwrite f.address bytes }
      | none => .error .outsideRegion a

/-- Let two handles trade storage and marks. Kinds stay where they are. -/
def exchange (h k : Handle) : ArenaM Unit := fun a =>
  match a.entry h, a.entry k with
  | .error e, _ => .error e a
  | .ok _, .error e => .error e a
  | .ok e, .ok f =>
    .ok () { a with
      table := (a.table.modify h.toNat (·.withStorageOf f)).modify k.toNat (·.withStorageOf e) }

end BankedMemory.Arena
