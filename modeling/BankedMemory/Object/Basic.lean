import BankedMemory.Fault
import BankedMemory.Entity.Entry
import BankedMemory.Real.Single

/-!
# Objects

An object is a value of the machine. Immediates carry what they are; a composite carries a `View`,
a window onto the slots of an entity. Views are only ever narrowed: `Object.narrow` takes a window
out of a window and `Object.restrict` gives up rights.
-/

namespace BankedMemory

/-- Which of a context's two arenas a composite lives in. -/
inductive Bank where
  | localVM
  | globalVM
deriving DecidableEq, Repr

/-- What a composite allows to be done with its elements. -/
inductive Access where
  | nothing
  | writeOnly
  | readOnly
  | unlimited
deriving DecidableEq, Repr

namespace Access

def readable : Access → Bool
  | readOnly | unlimited => true
  | nothing | writeOnly => false

def writable : Access → Bool
  | writeOnly | unlimited => true
  | nothing | readOnly => false

end Access

/-- The `size` elements of entity `ent` from `offset` on. -/
structure View where
  access : Access := .unlimited
  bank : Bank := .localVM
  size : UInt32
  ent : Handle
  offset : UInt32 := 0
deriving DecidableEq, Repr

inductive Shape where
  | array
  | string
  | dict
deriving DecidableEq, Repr

/-- A save level: its depth and the stack of records made in it. -/
structure SaveLevel where
  level : UInt32
  records : Handle
deriving DecidableEq, Repr

/-- Entity `source` was copied to `copy` before its first change in a save level. -/
structure Record where
  source : Handle
  copy : Handle
deriving DecidableEq, Repr

inductive Object where
  | invalid
  | null
  | mark
  | boolean (b : Bool)
  | integer (i : Int32)
  | real (r : Single)
  | composite (shape : Shape) (view : View)
  | save (level : SaveLevel)
  | record (record : Record)
deriving DecidableEq, Repr

namespace Object

instance : Inhabited Object := ⟨null⟩

/-- Equality of values. It differs from being the same object in reals alone, which compare as
numbers. -/
def equals : Object → Object → Bool
  | real x, real y => x.equals y
  | o, p => o == p

def view? : Object → Option View
  | composite _ v => some v
  | _ => none

def isComposite (o : Object) : Bool := o.view?.isSome

/-- The bank a value lives in. An immediate lives in no arena and counts as local. -/
def bank : Object → Bank
  | composite _ v => v.bank
  | _ => .localVM

/-- The same composite in the other bank's name; an immediate as it is. -/
def inBank (o : Object) (bank : Bank) : Object :=
  match o with
  | composite shape v => composite shape { v with bank }
  | o => o

/-- Give up rights. No right is gained that the value does not have. -/
def restrict (o : Object) (access : Access) : Except Fault Object :=
  match o with
  | composite shape v =>
    if (access.readable && !v.access.readable) || (access.writable && !v.access.writable) then
      .error .rightsWidened
    else .ok (composite shape { v with access })
  | _ => .error (.notComposite "with_access")

/-- Fewer elements of the same storage: `size` of them, from `offset` elements further in. The
offset of a forged view may be so large that the sum is no word; the program stops there. -/
def narrow (o : Object) (offset size : Int32) : Except Fault Object :=
  match o with
  | composite shape v =>
    if offset < 0 ∨ size < 0 ∨ (v.size.toNat : Int) < offset.toInt + size.toInt then
      .error .windowGrows
    else if 0x100000000 ≤ v.offset.toNat + offset.toUInt32.toNat then
      .error .overflow
    else
      .ok (composite shape
        { v with offset := v.offset + offset.toUInt32, size := size.toUInt32 })
  | _ => .error (.notComposite "interval")

end Object

end BankedMemory
