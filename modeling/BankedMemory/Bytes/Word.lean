/-!
# Words and slots

A word is stored as four bytes, the lowest first. A slot is four words, sixteen bytes: the unit in
which values and stack headers are stored. `Slot.ofBytes?_eq_some_iff` says that slots and lists of
sixteen bytes are the same thing.
-/

namespace BankedMemory

/-- The four bytes of a word, the lowest first. -/
def wordBytes (w : UInt32) : List UInt8 :=
  [w.toUInt8, (w >>> 8).toUInt8, (w >>> 16).toUInt8, (w >>> 24).toUInt8]

/-- The word that four bytes spell, the lowest first. -/
def wordOfBytes (b0 b1 b2 b3 : UInt8) : UInt32 :=
  b0.toUInt32 + 0x100 * b1.toUInt32 + 0x10000 * b2.toUInt32 + 0x1000000 * b3.toUInt32

theorem toNat_wordOfBytes (b0 b1 b2 b3 : UInt8) :
    (wordOfBytes b0 b1 b2 b3).toNat =
      b0.toNat + 256 * b1.toNat + 65536 * b2.toNat + 16777216 * b3.toNat := by
  have h0 := b0.toNat_lt
  have h1 := b1.toNat_lt
  have h2 := b2.toNat_lt
  have h3 := b3.toNat_lt
  simp only [wordOfBytes, UInt32.toNat_add, UInt32.toNat_mul, UInt8.toNat_toUInt32,
    UInt32.reduceToNat]
  omega

theorem wordOfBytes_wordBytes (w : UInt32) :
    wordOfBytes w.toUInt8 (w >>> 8).toUInt8 (w >>> 16).toUInt8 (w >>> 24).toUInt8 = w := by
  have h := w.toNat_lt
  apply UInt32.toNat_inj.mp
  simp [toNat_wordOfBytes, Nat.shiftRight_eq_div_pow]
  omega

theorem wordBytes_wordOfBytes (b0 b1 b2 b3 : UInt8) :
    wordBytes (wordOfBytes b0 b1 b2 b3) = [b0, b1, b2, b3] := by
  have h0 := b0.toNat_lt
  have h1 := b1.toNat_lt
  have h2 := b2.toNat_lt
  have h3 := b3.toNat_lt
  simp only [wordBytes, List.cons.injEq, and_true]
  refine ⟨?_, ?_, ?_, ?_⟩ <;>
    · apply UInt8.toNat_inj.mp
      simp [toNat_wordOfBytes, Nat.shiftRight_eq_div_pow]
      omega

structure Slot where
  tag : UInt32
  first : UInt32 := 0
  second : UInt32 := 0
  third : UInt32 := 0
deriving DecidableEq, Repr

namespace Slot

/-- The number of bytes of a slot. -/
def width : Nat := 16

def bytes (s : Slot) : List UInt8 :=
  wordBytes s.tag ++ wordBytes s.first ++ wordBytes s.second ++ wordBytes s.third

/-- The slot that sixteen bytes spell; no other number of bytes does. -/
def ofBytes? : List UInt8 → Option Slot
  | [a0, a1, a2, a3, b0, b1, b2, b3, c0, c1, c2, c3, d0, d1, d2, d3] =>
    some ⟨wordOfBytes a0 a1 a2 a3, wordOfBytes b0 b1 b2 b3, wordOfBytes c0 c1 c2 c3,
      wordOfBytes d0 d1 d2 d3⟩
  | _ => none

@[simp] theorem length_bytes (s : Slot) : s.bytes.length = width := rfl

@[simp] theorem ofBytes?_bytes (s : Slot) : ofBytes? s.bytes = some s := by
  simp [bytes, wordBytes, ofBytes?, wordOfBytes_wordBytes]

theorem ofBytes?_eq_some_iff {l : List UInt8} {s : Slot} : ofBytes? l = some s ↔ l = s.bytes := by
  constructor
  · intro h
    unfold ofBytes? at h
    split at h
    · cases h
      simp [bytes, wordBytes_wordOfBytes]
    · cases h
  · rintro rfl
    exact ofBytes?_bytes s

end Slot

end BankedMemory
