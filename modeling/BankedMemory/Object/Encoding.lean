import BankedMemory.Bytes.Word
import BankedMemory.Object.Basic

/-!
# Stored objects

An object is stored in one slot. The tag word holds the type in its five lowest bits and, for a
composite, the rights in the next two and the bank in the one after; the other words hold what the
object carries. `Object.ofSlot?` reads more than `Object.toSlot` writes: it looks only at the bits
that the type uses. `Object.decode_encode` says that nothing of an object is lost.
-/

namespace BankedMemory

def Shape.code : Shape → UInt32
  | array => 6
  | string => 7
  | dict => 8

def Access.code : Access → UInt32
  | nothing => 0
  | writeOnly => 1
  | readOnly => 2
  | unlimited => 3

/-- The rights that the two lowest bits of a word stand for. -/
def Access.ofCode (w : UInt32) : Access :=
  match (w &&& 3).toNat with
  | 0 => nothing
  | 1 => writeOnly
  | 2 => readOnly
  | _ => unlimited

def Bank.code : Bank → UInt32
  | localVM => 0
  | globalVM => 1

/-- The bank that the lowest bit of a word stands for. -/
def Bank.ofCode (w : UInt32) : Bank :=
  if w &&& 1 = 0 then localVM else globalVM

namespace View

/-- The tag word of a composite: type, rights and bank side by side. -/
def tag (shape : Shape) (access : Access) (bank : Bank) : UInt32 :=
  shape.code ||| (access.code <<< 5) ||| (bank.code <<< 7)

def toSlot (shape : Shape) (v : View) : Slot :=
  ⟨tag shape v.access v.bank, v.size, v.ent, v.offset⟩

def ofSlot (s : Slot) : View where
  access := .ofCode (s.tag >>> 5)
  bank := .ofCode (s.tag >>> 7)
  size := s.first
  ent := s.second
  offset := s.third

theorem typeBits_tag (shape : Shape) (access : Access) (bank : Bank) :
    tag shape access bank &&& 0x1F = shape.code := by
  cases shape <;> cases access <;> cases bank <;> decide

theorem accessBits_tag (shape : Shape) (access : Access) (bank : Bank) :
    Access.ofCode (tag shape access bank >>> 5) = access := by
  cases shape <;> cases access <;> cases bank <;> decide

theorem bankBits_tag (shape : Shape) (access : Access) (bank : Bank) :
    Bank.ofCode (tag shape access bank >>> 7) = bank := by
  cases shape <;> cases access <;> cases bank <;> decide

@[simp] theorem ofSlot_toSlot (shape : Shape) (v : View) : ofSlot (v.toSlot shape) = v := by
  simp [ofSlot, toSlot, accessBits_tag, bankBits_tag]

end View

namespace Object

def toSlot : Object → Slot
  | invalid => { tag := 0 }
  | null => { tag := 1 }
  | mark => { tag := 2 }
  | boolean b => { tag := 3, first := if b then 1 else 0 }
  | integer i => { tag := 4, first := i.toUInt32 }
  | real r => { tag := 5, first := r.bits }
  | composite shape v => v.toSlot shape
  | save s => { tag := 9, first := s.level, second := s.records }
  | record r => { tag := 10, first := r.source, second := r.copy }

/-- The object a slot stands for, if its type is known. -/
def ofSlot? (s : Slot) : Option Object :=
  match (s.tag &&& 0x1F).toNat with
  | 0 => some invalid
  | 1 => some null
  | 2 => some mark
  | 3 => some (boolean (s.first != 0))
  | 4 => some (integer s.first.toInt32)
  | 5 => some (real ⟨s.first⟩)
  | 6 => some (composite .array (.ofSlot s))
  | 7 => some (composite .string (.ofSlot s))
  | 8 => some (composite .dict (.ofSlot s))
  | 9 => some (save ⟨s.first, s.second⟩)
  | 10 => some (record ⟨s.first, s.second⟩)
  | _ => none

def encode (o : Object) : List UInt8 := o.toSlot.bytes

def decode (bytes : List UInt8) : Except Fault Object :=
  match Slot.ofBytes? bytes with
  | none => .error .badWidth
  | some s =>
    match ofSlot? s with
    | none => .error .unknownTag
    | some o => .ok o

@[simp] theorem length_encode (o : Object) : o.encode.length = Slot.width :=
  Slot.length_bytes _

@[simp] theorem ofSlot?_toSlot (o : Object) : ofSlot? o.toSlot = some o := by
  cases o with
  | composite shape v =>
    have h : (v.toSlot shape).tag &&& 0x1F = shape.code := View.typeBits_tag ..
    simp only [toSlot, ofSlot?, h, View.ofSlot_toSlot]
    cases shape <;> rfl
  | boolean b => cases b <;> simp [toSlot, ofSlot?]
  | _ => simp [toSlot, ofSlot?]

@[simp] theorem decode_encode (o : Object) : decode o.encode = .ok o := by
  simp [decode, encode]

end Object

end BankedMemory
