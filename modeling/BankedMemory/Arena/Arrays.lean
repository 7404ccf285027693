import BankedMemory.Arena.Checkpoint

/-!
# Arrays

An array is a view of an entity of slots. An empty array needs no entity and names the reserved one.
Writing an element keeps the entity's contents for the open save level first, once in each level.
-/

namespace BankedMemory

/-- The view of an array. -/
def Object.array? (o : Object) (op : String) : Except Fault View :=
  match o with
  | .composite .array v => .ok v
  | _ => .error (.notArray op)

/-- The slot of element `i`. -/
def View.slot (v : View) (i : Int32) (op : String) : Except Fault Nat :=
  if i < 0 ∨ v.size ≤ i.toUInt32 then .error (.indexOutOfRange op)
  else .ok (v.offset.toNat + i.toUInt32.toNat)

namespace Arena

/-- The greatest number of elements a view can count. -/
def longestArray : Nat := 0xFFFFFFFF

/-- The bytes of the longest array still fit a region. -/
theorem arrayBytes_le {size : Nat} (hsize : size ≤ longestArray) :
    size * Slot.width ≤ longestRegion := by
  unfold longestArray at hsize
  unfold longestRegion Slot.width
  omega

/-- Stamp new storage with the save level and fill `size` slots with nulls. -/
def fillNew (h : Handle) (size : Nat) : ArenaM Unit := do
  let level ← .reading depth
  checkLevel level
  setMark h (.ofLevel level)
  (List.range size).forM (writeSlot h · .null)

/-- A new array of `size` nulls. -/
def newArray (size : Nat) : ArenaM Object := do
  if size = 0 then
    return .composite .array { size := 0, ent := 0 }
  else if longestArray < size then
    throw .arrayTooLong
  else
    let h ← allocateCollectable (size * Slot.width) .array
    (fillNew h size).orUndo (free h)
    return .composite .array { size := UInt32.ofNat size, ent := h }

/-- Store an object in element `i` of an array. -/
def arrayPut (array : Object) (i : Int32) (o : Object) : ArenaM Unit := do
  let v ← .reading fun _ => array.array? "array_put"
  let slot ← .reading fun _ => v.slot i "array_put"
  if !(← .reading (·.preserved v.ent)) then
    preserve .array v.ent
  writeSlot v.ent slot o

/-- Element `i` of an array. -/
def arrayGet (array : Object) (i : Int32) (a : Arena) : Except Fault Object := do
  let v ← array.array? "array_get"
  a.readSlot v.ent (← v.slot i "array_get")

end Arena

end BankedMemory
