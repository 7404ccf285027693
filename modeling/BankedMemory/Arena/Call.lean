import BankedMemory.Arena.Arrays
import BankedMemory.Stack.Listing

/-!
# Calls on an arena

Everything a client can ask of an arena, as data. `Call.run` performs a call, so a history of an
arena is a list of calls.
-/

namespace BankedMemory

/-- What a call gives back. -/
inductive Reply where
  | done
  | handle (h : Handle)
  | entry (e : Entry)
  | number (n : Nat)
  | flag (b : Bool)
  | bytes (bytes : List UInt8)
  | object (o : Object)
  | text (s : String)
  | usage (s : Usage)
deriving DecidableEq, Repr

namespace Arena

inductive Call where
  | usage
  | allocate (size : Nat) (content : Content)
  | allocateCollectable (size : Nat) (content : Content)
  | entry (h : Handle)
  | free (h : Handle)
  | setMark (h : Handle) (mark : Mark)
  | lowerTopLevels (level : UInt32)
  | read (h : Handle) (offset width : Nat)
  | write (h : Handle) (offset : Nat) (bytes : List UInt8)
  | readSlot (h : Handle) (index : Nat)
  | writeSlot (h : Handle) (index : Nat) (o : Object)
  | copyContents (src dst : Handle)
  | exchange (h k : Handle)
  | newArray (size : Nat)
  | arrayPut (array : Object) (i : Int32) (o : Object)
  | arrayGet (array : Object) (i : Int32)
  | save
  | restore
  | depth
  | preserved (h : Handle)
  | preserve (content : Content) (h : Handle)
  | newStack
  | push (s : Stack) (o : Object)
  | pop (s : Stack)
  | count (s : Stack)
  | isEmpty (s : Stack)
  | bottom (s : Stack) (i : Nat)
  | top (s : Stack) (i : Nat)
  | setBottom (s : Stack) (i : Nat) (o : Object)
  | setTop (s : Stack) (i : Nat) (o : Object)
  | freeStack (s : Stack)
  | listing (s : Stack)
deriving DecidableEq, Repr

/-- Perform a call. -/
def Call.run : Call → ArenaM Reply
  | usage => .reading fun a => return .usage a.usage
  | allocate size content => .handle <$> Arena.allocate size content
  | allocateCollectable size content => .handle <$> Arena.allocateCollectable size content
  | entry h => .reading fun a => return .entry (← a.entry h)
  | free h => do Arena.free h; return .done
  | setMark h mark => do Arena.setMark h mark; return .done
  | lowerTopLevels level => .number <$> Arena.lowerTopLevels level
  | read h offset width => .reading fun a => return .bytes (← a.read h offset width)
  | write h offset bytes => do Arena.write h offset bytes; return .done
  | readSlot h index => .reading fun a => return .object (← a.readSlot h index)
  | writeSlot h index o => do Arena.writeSlot h index o; return .done
  | copyContents src dst => do Arena.copyContents src dst; return .done
  | exchange h k => do Arena.exchange h k; return .done
  | newArray size => .object <$> Arena.newArray size
  | arrayPut array i o => do Arena.arrayPut array i o; return .done
  | arrayGet array i => .reading fun a => return .object (← Arena.arrayGet array i a)
  | save => .object <$> Arena.save
  | restore => do Arena.restore; return .done
  | depth => .reading fun a => return .number (← a.depth).toNat
  | preserved h => .reading fun a => return .flag (← a.preserved h)
  | preserve content h => do Arena.preserve content h; return .done
  | newStack => return .handle (← Stack.new).handle
  | push s o => do s.push o; return .done
  | pop s => .object <$> s.pop
  | count s => .reading fun a => return .number (← s.count a)
  | isEmpty s => .reading fun a => return .flag (← s.isEmpty a)
  | bottom s i => .reading fun a => return .object (← s.bottom i a)
  | top s i => .reading fun a => return .object (← s.top i a)
  | setBottom s i o => do s.setBottom i o; return .done
  | setTop s i o => do s.setTop i o; return .done
  | freeStack s => do s.free; return .done
  | listing s => .reading fun a => return .text (← s.listing a)

end Arena

end BankedMemory
