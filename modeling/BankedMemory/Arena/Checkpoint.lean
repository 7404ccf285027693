import BankedMemory.Stack.Basic

/-!
# Save levels

An arena keeps a stack of save levels, and each level a stack of records. Before an entity is first
changed in a level it is copied aside and the copy recorded; `Arena.restore` undoes the latest level
by letting each entity trade storage with its copy, so a handle held anywhere shows the old contents
again and no value has to be rewritten.
-/

namespace BankedMemory.Arena

/-- The stack of save levels. Before the first save it is named by the reserved handle, and so has
no segment to be read. -/
def saveStack (a : Arena) : Stack := ⟨a.saves.getD 0⟩

/-- The number of open save levels. -/
def depth (a : Arena) : Except Fault UInt32 :=
  match a.saves with
  | none => return 0
  | some h => return UInt32.ofNat (← (Stack.mk h).count a)

/-- The number of the level that a save opens. -/
def nextLevel (a : Arena) : Except Fault UInt32 := do
  let level ← a.depth
  if level = 0xFFFFFFFF then throw .overflow else return level + 1

/-- No mark is made for a level deeper than a mark can hold. Only a forged save stack has such a
depth, and the program stops there. -/
def checkLevel (level : UInt32) : ArenaM Unit :=
  if Mark.maxLevel < level then throw .unmarkableLevel else return

/-- The save stack, made on first use. -/
def openSaveStack : ArenaM Unit := do
  if (← .reading fun a => .ok a.saves.isNone) then
    let s ← Stack.new
    modify fun a => { a with saves := some s.handle }

/-- Open a save level. -/
def save : ArenaM Object := do
  openSaveStack
  let level ← .reading nextLevel
  if Mark.maxLevel < level then
    throw .tooManyLevels
  let records ← Stack.new
  let saved := Object.save ⟨level, records.handle⟩
  let stack ← .reading fun a => .ok a.saveStack
  (stack.push saved).orUndo records.free
  return saved

/-- Whether the current level has no more need to copy the entity. -/
def preserved (a : Arena) (h : Handle) : Except Fault Bool := do
  let e ← a.entry h
  return e.mark.topLevel == (← a.depth)

/-- Note in the current level that `source` was copied to `copy`. -/
def addRecord (source copy : Handle) : ArenaM Unit := do
  match ← .reading fun a => a.saveStack.top 0 a with
  | .save level => (Stack.mk level.records).push (.record ⟨source, copy⟩)
  | _ => throw (.corruptSaveStack "stash")

/-- Copy an entity aside for the current level; `content` is what the copy is for. -/
def copyAside (content : Content) (h : Handle) (e : Entry) : ArenaM Unit := do
  let copy ← allocateCollectable e.capacity content
  copyContents h copy
  setMark copy e.mark
  (addRecord h copy).orUndo (free copy)

/-- Keep the entity's contents for the current level, and stamp it with the level. With no level
open there is nothing to return to, and it is only stamped. -/
def preserve (content : Content) (h : Handle) : ArenaM Unit := do
  let level ← .reading depth
  let e ← .reading (·.entry h)
  if 0 < level then
    copyAside content h e
  checkLevel level
  setMark h (e.mark.withTopLevel level)

/-- Give an entity back the storage recorded for it. The storage it had goes free with the copy. -/
def undo (r : Record) : ArenaM Unit := do
  exchange r.source r.copy
  free r.copy

/-- Undo the records of a level, the last one first, `n` at most. -/
def undoAll (records : Stack) : Nat → ArenaM Unit
  | 0 => throw .brokenChain
  | n + 1 => do
    if ← .reading records.isEmpty then
      return
    match ← records.pop with
    | .record r =>
      undo r
      undoAll records n
    | _ => throw .corruptRecord

/-- Undo the latest save level. Each record undone frees a row and none is taken into use, so a
level has fewer records to undo than the table has rows. -/
def restore : ArenaM Unit := do
  if (← .reading depth) = 0 then
    throw .nothingSaved
  let stack ← .reading fun a => .ok a.saveStack
  match ← stack.pop with
  | .save level =>
    let records := Stack.mk level.records
    undoAll records (← .reading fun a => .ok a.chainBound)
    records.free
    -- a level that calls itself 0 was forged, and there is no level before it to lower to
    if level.level = 0 then
      throw .overflow
    discard <| lowerTopLevels (level.level - 1)
  | _ => throw (.corruptSaveStack "restore")

end BankedMemory.Arena
