import BankedMemory.Entity.Mark

/-!
# Entities

An entity is a run of bytes known by its handle. `Entry` is its row in the entity table: where the
bytes are, how many there are, the mark and the kind.
-/

namespace BankedMemory

/-- The number of a row in the entity table. -/
abbrev Handle := UInt32

/-- What the storage of an entity in use is for. -/
inductive Content where
  | array
  | string
  | dict
  | stack
deriving DecidableEq, Repr

/-- Row 0 is `reserved`; every other row is in use or free. -/
inductive Kind where
  | reserved
  | free
  | used (content : Content)
deriving DecidableEq, Repr

structure Entry where
  address : Nat
  /-- The number of bytes, which for reused storage may exceed the size asked for. -/
  capacity : Nat
  mark : Mark
  kind : Kind
deriving DecidableEq, Repr

namespace Entry

/-- Row 0, which owns no storage. -/
def reserved : Entry := ⟨0, 0, .blank, .reserved⟩

def isFree (e : Entry) : Bool := e.kind == .free

/-- Take over where another row's bytes are, and its mark; the kind stays. -/
def withStorageOf (e other : Entry) : Entry :=
  { e with address := other.address, capacity := other.capacity, mark := other.mark }

end Entry

end BankedMemory
