import BankedMemory.Entity.Mark

/-!
# The save levels of a mark

A level that fits into twelve bits is read back as it was written, whatever the rest of the mark.
-/

namespace BankedMemory.Mark

theorem toNat_topLevel (m : Mark) : m.topLevel.toNat = m.word.toNat / 0x100000 := by
  have h := m.word.toNat_lt
  simp only [topLevel, maxLevel, UInt32.toNat_and, UInt32.toNat_shiftRight, UInt32.reduceToNat,
    Nat.shiftRight_eq_div_pow]
  rw [show (0xFFF : Nat) = 2 ^ 12 - 1 from rfl, Nat.and_two_pow_sub_one_eq_mod,
    show 2 ^ (20 % 32) = 0x100000 from rfl]
  omega

theorem toNat_localLevel (m : Mark) : m.localLevel.toNat = m.word.toNat / 0x100 % 0x1000 := by
  simp only [localLevel, maxLevel, UInt32.toNat_and, UInt32.toNat_shiftRight, UInt32.reduceToNat,
    Nat.shiftRight_eq_div_pow]
  rw [show (0xFFF : Nat) = 2 ^ 12 - 1 from rfl, Nat.and_two_pow_sub_one_eq_mod,
    show 2 ^ (8 % 32) = 0x100 from rfl]

theorem topLevel_blank : blank.topLevel = 0 := rfl

/-- Twelve bits put on top of twenty. -/
theorem toNat_or_shiftLeft {low level : UInt32} (hlow : low.toNat < 0x100000) (h : level ≤ maxLevel) :
    (low ||| ((level &&& maxLevel) <<< (20 : UInt32))).toNat = level.toNat * 0x100000 + low.toNat := by
  have h' : level.toNat ≤ 0xFFF := h
  simp only [maxLevel, UInt32.toNat_or, UInt32.toNat_shiftLeft, UInt32.toNat_and, UInt32.reduceToNat]
  rw [show (0xFFF : Nat) = 2 ^ 12 - 1 from rfl, Nat.and_two_pow_sub_one_eq_mod,
    show 20 % 32 = 20 from rfl, Nat.mod_eq_of_lt (show level.toNat < 2 ^ 12 by omega),
    Nat.mod_eq_of_lt (show level.toNat <<< 20 < 2 ^ 32 by rw [Nat.shiftLeft_eq]; omega),
    Nat.or_comm, ← Nat.shiftLeft_add_eq_or_of_lt (show low.toNat < 2 ^ 20 from hlow),
    Nat.shiftLeft_eq]

theorem toNat_withTopLevel (m : Mark) {level : UInt32} (h : level ≤ maxLevel) :
    (m.withTopLevel level).word.toNat = level.toNat * 0x100000 + m.word.toNat % 0x100000 := by
  have hlow : (m.word &&& 0x000FFFFF).toNat = m.word.toNat % 0x100000 := by
    rw [UInt32.toNat_and]
    exact Nat.and_two_pow_sub_one_eq_mod m.word.toNat 20
  rw [withTopLevel, toNat_or_shiftLeft (hlow ▸ Nat.mod_lt _ (by decide)) h, hlow]

theorem topLevel_withTopLevel (m : Mark) {level : UInt32} (h : level ≤ maxLevel) :
    (m.withTopLevel level).topLevel = level := by
  apply UInt32.toNat_inj.mp
  rw [toNat_topLevel, toNat_withTopLevel m h]
  omega

theorem localLevel_withTopLevel (m : Mark) {level : UInt32} (h : level ≤ maxLevel) :
    (m.withTopLevel level).localLevel = m.localLevel := by
  apply UInt32.toNat_inj.mp
  rw [toNat_localLevel, toNat_localLevel, toNat_withTopLevel m h]
  omega

theorem toNat_ofLevel {level : UInt32} (h : level ≤ maxLevel) :
    (ofLevel level).word.toNat = level.toNat * 0x100000 + level.toNat * 0x100 := by
  have h' : level.toNat ≤ 0xFFF := h
  have hlow : ((level &&& maxLevel) <<< (8 : UInt32)).toNat = level.toNat * 0x100 := by
    simp only [maxLevel, UInt32.toNat_shiftLeft, UInt32.toNat_and, UInt32.reduceToNat]
    rw [show (0xFFF : Nat) = 2 ^ 12 - 1 from rfl, Nat.and_two_pow_sub_one_eq_mod,
      show 8 % 32 = 8 from rfl, Nat.shiftLeft_eq]
    omega
  rw [ofLevel, toNat_or_shiftLeft (by omega) h, hlow]

theorem topLevel_ofLevel {level : UInt32} (h : level ≤ maxLevel) :
    (ofLevel level).topLevel = level := by
  have h' : level.toNat ≤ 0xFFF := h
  apply UInt32.toNat_inj.mp
  rw [toNat_topLevel, toNat_ofLevel h]
  omega

theorem localLevel_ofLevel {level : UInt32} (h : level ≤ maxLevel) :
    (ofLevel level).localLevel = level := by
  have h' : level.toNat ≤ 0xFFF := h
  apply UInt32.toNat_inj.mp
  rw [toNat_localLevel, toNat_ofLevel h]
  omega

end BankedMemory.Mark
