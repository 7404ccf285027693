import BankedMemory.Arena.Slots

/-!
# Segments

A stack is spread over segments of a fixed number of value slots. Slot 0 of a segment holds its
header: which segment comes next, and how many values this one has. `Arena.walk` follows the chain
past the full segments to the first that is not full.
-/

namespace BankedMemory

/-- Value slots in a segment. -/
def segmentSize : Nat := 20

/-- The bytes of a segment, header included. -/
def segmentBytes : Nat := (segmentSize + 1) * Slot.width

/-- The head of a segment. The last segment of a chain has no next one; it is stored as handle 0. -/
structure Header where
  next : Option Handle
  /-- The number of values in the segment. -/
  top : Nat
deriving DecidableEq, Repr

namespace Header

def toSlot (h : Header) : Slot :=
  { tag := h.next.getD 0, first := UInt32.ofNat h.top }

/-- Only the first two words of the slot matter. -/
def ofSlot (s : Slot) : Header where
  next := if s.tag = 0 then none else some s.tag
  top := s.first.toNat

def isFull (h : Header) : Bool := h.top == segmentSize

end Header

/-- Where a walk along the full segments of a chain comes to. -/
structure Walk where
  /-- The full segments passed, in order. -/
  full : List Handle
  segment : Handle
  header : Header
deriving DecidableEq, Repr

/-- The values in all the segments of a walk. -/
def Walk.count (w : Walk) : Nat := segmentSize * w.full.length + w.header.top

namespace Arena

def header (a : Arena) (seg : Handle) : Except Fault Header := do
  match Slot.ofBytes? (← a.read seg 0 Slot.width) with
  | some s => return .ofSlot s
  | none => throw .badWidth

def setHeader (seg : Handle) (h : Header) : ArenaM Unit :=
  write seg 0 h.toSlot.bytes

/-- A segment without values, at the end of its chain. -/
def newSegment : ArenaM Handle := do
  let seg ← allocate segmentBytes .stack
  setHeader seg ⟨none, 0⟩
  return seg

/-- A bound on the segments of a chain that never returns to one: each has a row of its own, and a
last handle may name none. -/
def chainBound (a : Arena) : Nat := a.table.size + 1

/-- Go on from a segment along `n` segments at most. -/
def walkFrom (a : Arena) (seg : Handle) : Nat → Except Fault Walk
  | 0 => throw .brokenChain
  | n + 1 => do
    let h ← a.header seg
    if h.isFull then
      match h.next with
      | none => throw .brokenChain
      | some next =>
        let w ← a.walkFrom next n
        return { w with full := seg :: w.full }
    else
      return ⟨[], seg, h⟩

/-- Go along the full segments from `seg` to the first that is not full. A chain that runs in a
circle counts as broken. -/
def walk (a : Arena) (seg : Handle) : Except Fault Walk :=
  a.walkFrom seg a.chainBound

/-- The segments linked from `seg` on, full or not, `n` at most. -/
def chainFrom (a : Arena) (seg : Handle) : Nat → Except Fault (List Handle)
  | 0 => throw .brokenChain
  | n + 1 => do
    match (← a.header seg).next with
    | none => return [seg]
    | some next => return seg :: (← a.chainFrom next n)

/-- All segments linked from `seg` on. -/
def chain (a : Arena) (seg : Handle) : Except Fault (List Handle) :=
  a.chainFrom seg a.chainBound

end Arena

end BankedMemory
