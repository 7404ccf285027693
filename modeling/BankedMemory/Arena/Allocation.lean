import BankedMemory.Arena.Basic

/-!
# Allocation

Storage is found first fit: the row freed earliest whose capacity suffices, as a whole, or else new
bytes at the end of the region. Either way it is clean, all zeros under a blank mark.
-/

namespace BankedMemory.Arena

/-- Sizes and addresses are words of 64 bits. Where their sum is none the program stops. -/
def addWords (m n : Nat) : Except Fault Nat :=
  if m + n < 0x10000000000000000 then .ok (m + n) else .error .overflow

/-- Whether the row `h`, free as it is, has room for `size` bytes. -/
def hasRoom (a : Arena) (size : Nat) (h : Handle) : Bool :=
  match a.table[h.toNat]? with
  | some e => decide (size ≤ e.capacity)
  | none => false

/-- Take the free row `h` into use, cleared. -/
def reuse (h : Handle) (content : Content) : Arena → Arena
  | ⟨region, table, freed, limit, collectable, saves⟩ =>
    match table[h.toNat]? with
    | none => ⟨region, table, freed, limit, collectable, saves⟩
    | some e =>
      ⟨region.clear e.address e.capacity,
        table.modify h.toNat fun e => { e with mark := .blank, kind := .used content },
        freed.erase h, limit, collectable, saves⟩

/-- Add a row for `size` new bytes at the end of the region. -/
def append (size : Nat) (content : Content) : Arena → Arena
  | ⟨region, table, freed, limit, collectable, saves⟩ =>
    let address := region.length
    ⟨region.resize (address + size), table.push ⟨address, size, .blank, .used content⟩,
      freed, limit, collectable, saves⟩

/-- Find storage for `size` bytes and give its handle. The limit may allow more than a region can
have; the program stops when the region would get so long. -/
def allocate (size : Nat) (content : Content) : ArenaM Handle := fun a =>
  match a.freed.find? (a.hasRoom size) with
  | some h => .ok h (a.reuse h content)
  | none =>
    match addWords a.region.length size with
    | .error e => .error e a
    | .ok length =>
      if a.limit < length then .error .arenaFull a
      else if 0x100000000 ≤ a.table.size then .error .tableFull a
      else if longestRegion < length then .error .regionTooLong a
      else
        let h := UInt32.ofNat a.table.size
        .ok h (a.append size content)

/-- Allocate in the collector's sight. -/
def allocateCollectable (size : Nat) (content : Content) : ArenaM Handle := do
  let h ← allocate size content
  modify fun a => { a with collectable := a.collectable + 1 }
  return h

/-- Give a row back. Its capacity and place stay with it. -/
def free (h : Handle) : ArenaM Unit := fun a =>
  match a.entry h with
  | .error e => .error e a
  | .ok e =>
    if e.kind = .reserved then .error .reservedEntity a
    else
      .ok () { a with
        table := a.table.modify h.toNat fun e => { e with kind := .free }
        freed := a.freed ++ [h] }

end BankedMemory.Arena
