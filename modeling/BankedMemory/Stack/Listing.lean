import BankedMemory.Object.Text
import BankedMemory.Stack.Basic

/-!
# Stack contents

`Stack.toList` reads a stack from the bottom up, segment by segment; `Stack.listing` writes it one
value a line.
-/

namespace BankedMemory

namespace Arena

/-- `n` objects of an entity, from slot `index` on. -/
def readSlots (a : Arena) (h : Handle) (index : Nat) : Nat → Except Fault (List Object)
  | 0 => return []
  | n + 1 => do
    let o ← a.readSlot h index
    return o :: (← a.readSlots h (index + 1) n)

/-- The objects in the segments from `seg` on, up to the first that is not full. -/
def valuesFrom (a : Arena) (seg : Handle) : Nat → Except Fault (List Object)
  | 0 => throw .brokenChain
  | n + 1 => do
    let h ← a.header seg
    let objects ← a.readSlots seg 1 h.top
    if h.isFull then
      match h.next with
      | none => throw .brokenChain
      | some next => return objects ++ (← a.valuesFrom next n)
    else
      return objects

end Arena

namespace Stack

/-- The values, the first one pushed first. -/
def toList (s : Stack) (a : Arena) : Except Fault (List Object) :=
  a.valuesFrom s.handle a.chainBound

/-- A line of a listing. -/
def line (i : Nat) (o : Object) : String :=
  toString i ++ ":" ++ o.text ++ "\n"

/-- One line per value, bottom first, numbered from `i`. -/
def lines (i : Nat) : List Object → String
  | [] => ""
  | o :: objects => line i o ++ lines (i + 1) objects

def listing (s : Stack) (a : Arena) : Except Fault String :=
  return lines 0 (← s.toList a)

end Stack

end BankedMemory
