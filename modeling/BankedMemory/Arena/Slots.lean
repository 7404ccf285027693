import BankedMemory.Arena.Storage
import BankedMemory.Object.Encoding

/-!
# Objects in storage

An entity seen as a row of slots, sixteen bytes each.
-/

namespace BankedMemory.Arena

/-- The object in slot `index` of an entity. -/
def readSlot (a : Arena) (h : Handle) (index : Nat) : Except Fault Object := do
  Object.decode (← a.read h index Slot.width)

/-- Store an object in slot `index`. -/
def writeSlot (h : Handle) (index : Nat) (o : Object) : ArenaM Unit :=
  write h index o.encode

end BankedMemory.Arena
