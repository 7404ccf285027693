/-!
# Marks

A mark packs four fields into one word: bit 0 is the collector's, bits 1 to 7 count references,
bits 8 to 19 hold the save level the entity was made at and bits 20 to 31 the level that last
recorded it. Writing one field leaves the others as they are.
-/

namespace BankedMemory

structure Mark where
  word : UInt32
deriving DecidableEq, Repr

namespace Mark

/-- The deepest save level a mark can hold: twelve bits, all set. -/
def maxLevel : UInt32 := 0xFFF

/-- The mark of new storage: every field zero. -/
def blank : Mark := ⟨0⟩

/-- Both levels are `level`, cut to twelve bits; the other fields are zero. No mark is made for a
level that does not fit: the program stops before. -/
def ofLevel (level : UInt32) : Mark :=
  ⟨((level &&& maxLevel) <<< 8) ||| ((level &&& maxLevel) <<< 20)⟩

def isMarked (m : Mark) : Bool := (m.word &&& 1) == 1

def refcount (m : Mark) : UInt32 := (m.word >>> 1) &&& 0x7F

/-- The save level the entity was made at. -/
def localLevel (m : Mark) : UInt32 := (m.word >>> 8) &&& maxLevel

/-- The save level that last recorded or stamped the entity. -/
def topLevel (m : Mark) : UInt32 := (m.word >>> 20) &&& maxLevel

def withMarked (m : Mark) (marked : Bool) : Mark :=
  if marked then ⟨m.word ||| 1⟩ else ⟨m.word &&& 0xFFFFFFFE⟩

/-- The mark with `level`, cut to twelve bits, for its top level. As with `ofLevel`, the program
stops before it makes a mark for a level that does not fit. -/
def withTopLevel (m : Mark) (level : UInt32) : Mark :=
  ⟨(m.word &&& 0x000FFFFF) ||| ((level &&& maxLevel) <<< (20 : UInt32))⟩

end Mark

end BankedMemory
