import BankedMemory.Stack.Segment

/-!
# Stacks

A stack of objects in an arena, known by the handle of its first segment. All segments before the
first that is not full are full, and all after it are empty, so counting and indexing go by whole
segments. Segments go back to the arena only with the whole stack.
-/

namespace BankedMemory

structure Stack where
  handle : Handle
deriving DecidableEq, Repr

/-- A place on a stack: slot `slot` of segment `segment`. -/
structure Stack.Place where
  segment : Handle
  slot : Nat
deriving DecidableEq, Repr

namespace Stack

/-- A new stack without values. -/
def new : ArenaM Stack := return ⟨← Arena.newSegment⟩

def count (s : Stack) (a : Arena) : Except Fault Nat :=
  return (← a.walk s.handle).count

def isEmpty (s : Stack) (a : Arena) : Except Fault Bool :=
  return (← s.count a) == 0

/-- The segment that follows one about to be filled: the one linked already, emptied, or else a
new one. -/
def nextSegment (h : Header) : ArenaM Handle :=
  match h.next with
  | none => Arena.newSegment
  | some next => do
    let n ← .reading (·.header next)
    Arena.setHeader next { n with top := 0 }
    return next

/-- Put a value on top. A push that fills its segment links the next one first, so that the last
segment of a chain is never full. -/
def push (s : Stack) (o : Object) : ArenaM Unit := do
  let w ← .reading (·.walk s.handle)
  let h ← if w.header.top + 1 = segmentSize then
      pure { w.header with next := some (← nextSegment w.header) }
    else
      pure w.header
  Arena.writeSlot w.segment (1 + h.top) o
  Arena.setHeader w.segment { h with top := h.top + 1 }

/-- The segment that holds the topmost value, with its header: the one the walk came to, or the one
before it if that one is empty. -/
def topSegment (s : Stack) (a : Arena) : Except Fault (Handle × Header) := do
  let w ← a.walk s.handle
  if w.header.top = 0 then
    match w.full.getLast? with
    | none => throw (.stackEmpty "pop")
    | some seg => return (seg, ← a.header seg)
  else
    return (w.segment, w.header)

/-- Take the topmost value away. The count goes down before the value is read. -/
def pop (s : Stack) : ArenaM Object := do
  let (seg, h) ← .reading s.topSegment
  Arena.setHeader seg { h with top := h.top - 1 }
  .reading (·.readSlot seg h.top)

/-- The segment `n` links after `seg`. -/
def segmentAfter (a : Arena) (seg : Handle) (op : String) : Nat → Except Fault Handle
  | 0 => return seg
  | n + 1 => do
    match (← a.header seg).next with
    | none => throw (.stackEmpty op)
    | some next => segmentAfter a next op n

/-- Where the `i`th value from the bottom is. -/
def place (s : Stack) (a : Arena) (i : Nat) (op : String) : Except Fault Place := do
  if (← s.count a) ≤ i then
    throw (.stackEmpty op)
  else
    return ⟨← segmentAfter a s.handle op (i / segmentSize), 1 + i % segmentSize⟩

/-- The `i`th value from the bottom; the first value pushed is number 0. -/
def bottom (s : Stack) (i : Nat) (a : Arena) : Except Fault Object := do
  let p ← s.place a i "bot"
  a.readSlot p.segment p.slot

/-- Replace the `i`th value from the bottom. -/
def setBottom (s : Stack) (i : Nat) (o : Object) : ArenaM Unit := do
  let p ← .reading (s.place · i "tob")
  Arena.writeSlot p.segment p.slot o

/-- The index from the bottom of the `i`th value from the top. -/
def indexFromTop (s : Stack) (a : Arena) (i : Nat) (op : String) : Except Fault Nat := do
  let n ← s.count a
  if n ≤ i then throw (.stackEmpty op) else return n - 1 - i

/-- The `i`th value from the top; the last value pushed is number 0. -/
def top (s : Stack) (i : Nat) (a : Arena) : Except Fault Object := do
  s.bottom (← s.indexFromTop a i "top") a

/-- Replace the `i`th value from the top. -/
def setTop (s : Stack) (i : Nat) (o : Object) : ArenaM Unit := do
  s.setBottom (← .reading (s.indexFromTop · i "pot")) o

/-- Give every segment of the chain back, the last one first. -/
def free (s : Stack) : ArenaM Unit := do
  let segs ← .reading (·.chain s.handle)
  segs.reverse.forM Arena.free

end Stack

end BankedMemory
