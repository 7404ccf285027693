import BankedMemory.Proofs.Entity.Levels

/-!
# The fields of a mark

A mark is its four fields: `Mark.fields` reads them off the word, and no two words have the same
ones (`Mark.fields_injective`). An update of a mark changes the field it is for and no other, so
updates can be followed on the fields, where nothing is packed.
-/

namespace BankedMemory.Mark

/-- The fields of a mark side by side. -/
structure Fields where
  marked : Bool
  refcount : UInt32
  localLevel : UInt32
  topLevel : UInt32
deriving DecidableEq, Repr

def fields (m : Mark) : Fields := ⟨m.isMarked, m.refcount, m.localLevel, m.topLevel⟩

/-- What is written into a mark once it is made. -/
inductive Update where
  | marked (marked : Bool)
  | topLevel (level : UInt32)
deriving DecidableEq, Repr

namespace Update

/-- Twelve bits have room for the level. -/
def Fits : Update → Prop
  | marked _ => True
  | topLevel level => level ≤ maxLevel

/-- Both updates are for one field. -/
def SameField : Update → Update → Prop
  | marked _, marked _ | topLevel _, topLevel _ => True
  | _, _ => False

/-- What the update makes of the collector's bit. -/
def marked? : Update → Option Bool
  | marked b => some b
  | topLevel _ => none

/-- What the update makes of the top level. -/
def topLevel? : Update → Option UInt32
  | marked _ => none
  | topLevel level => some level

end Update

def update (m : Mark) : Update → Mark
  | .marked b => m.withMarked b
  | .topLevel level => m.withTopLevel level

def Fields.update (f : Fields) : Update → Fields
  | .marked marked => { f with marked }
  | .topLevel topLevel => { f with topLevel }

/-- The marks that come of a new one, made at `level`, by updates, the latest first. The mark of new
storage is one made at level 0. -/
inductive Built : UInt32 → List Update → Mark → Prop where
  | blank : Built 0 [] .blank
  | ofLevel {level : UInt32} (fits : level ≤ maxLevel) : Built level [] (.ofLevel level)
  | update {level : UInt32} {us : List Update} {m : Mark} (built : Built level us m) {u : Update}
      (fits : u.Fits) : Built level (u :: us) (m.update u)

variable {m : Mark} {level : UInt32} {u v : Update} {us : List Update}

/-! ## Reading -/

theorem toNat_refcount (m : Mark) : m.refcount.toNat = m.word.toNat / 2 % 0x80 := by
  simp only [refcount, UInt32.toNat_and, UInt32.toNat_shiftRight, UInt32.reduceToNat,
    Nat.shiftRight_eq_div_pow]
  exact Nat.and_two_pow_sub_one_eq_mod _ 7

theorem isMarked_iff (m : Mark) : m.isMarked = true ↔ m.word.toNat % 2 = 1 := by
  have hbit : (m.word &&& 1).toNat = m.word.toNat % 2 := by
    rw [UInt32.toNat_and]
    exact Nat.and_two_pow_sub_one_eq_mod _ 1
  unfold isMarked
  rw [beq_iff_eq, ← UInt32.toNat_inj, hbit]
  rfl

theorem toNat_isMarked (m : Mark) : m.isMarked.toNat = m.word.toNat % 2 := by
  have hiff := m.isMarked_iff
  cases hmarked : m.isMarked with
  | true => exact (hiff.mp hmarked).symm
  | false =>
    have hne : m.word.toNat % 2 ≠ 1 := fun h => by simp [hiff.mpr h] at hmarked
    show 0 = _
    omega

/-- The fields make up the word. -/
theorem toNat_word (m : Mark) : m.word.toNat = m.topLevel.toNat * 0x100000 +
    m.localLevel.toNat * 0x100 + m.refcount.toNat * 2 + m.isMarked.toNat := by
  have htop := m.toNat_topLevel
  have hlocal := m.toNat_localLevel
  have hcount := m.toNat_refcount
  have hmarked := m.toNat_isMarked
  omega

theorem fields_injective : Function.Injective fields := fun m n h => by
  obtain ⟨hmarked, hcount, hlocal, htop⟩ := Fields.mk.inj h
  have hword : m.word = n.word := by
    apply UInt32.toNat_inj.mp
    rw [m.toNat_word, n.toNat_word, htop, hlocal, hcount, hmarked]
  cases m
  cases n
  exact congrArg Mark.mk hword

theorem topLevel_le (m : Mark) : m.topLevel ≤ maxLevel := by
  have hword := m.word.toNat_lt
  have htop := m.toNat_topLevel
  show m.topLevel.toNat ≤ 0xFFF
  omega

/-! ## Writing -/

/-- Bits set outside a field are not seen in it. -/
theorem bits_or {w set k mask : UInt32} (h : (set >>> k) &&& mask = 0) :
    ((w ||| set) >>> k) &&& mask = (w >>> k) &&& mask := by
  have hdistrib : ((w >>> k) ||| (set >>> k)) &&& mask =
      ((w >>> k) &&& mask) ||| ((set >>> k) &&& mask) := by
    apply UInt32.toNat_inj.mp
    simp only [UInt32.toNat_and, UInt32.toNat_or, Nat.and_or_distrib_right]
  rw [UInt32.shiftRight_or, hdistrib, h, UInt32.or_zero]

/-- Bits cleared outside a field are not missed in it. -/
theorem bits_and {w keep k mask : UInt32} (h : (keep >>> k) &&& mask = mask) :
    ((w &&& keep) >>> k) &&& mask = (w >>> k) &&& mask := by
  rw [UInt32.shiftRight_and, UInt32.and_assoc, h]

theorem isMarked_withMarked (m : Mark) (marked : Bool) : (m.withMarked marked).isMarked = marked := by
  cases marked with
  | true =>
    rw [isMarked_iff]
    exact Nat.or_mod_two_eq_one.mpr (.inr rfl)
  | false =>
    rw [Bool.eq_false_iff, ne_eq, isMarked_iff]
    exact fun h => absurd (Nat.and_mod_two_eq_one.mp h).2 (by decide)

theorem fields_withMarked (m : Mark) (marked : Bool) :
    (m.withMarked marked).fields = { m.fields with marked } := by
  have hothers : (m.withMarked marked).refcount = m.refcount ∧
      (m.withMarked marked).localLevel = m.localLevel ∧
      (m.withMarked marked).topLevel = m.topLevel := by
    cases marked with
    | true => exact ⟨bits_or (by decide), bits_or (by decide), bits_or (by decide)⟩
    | false => exact ⟨bits_and (by decide), bits_and (by decide), bits_and (by decide)⟩
  obtain ⟨hcount, hlocal, htop⟩ := hothers
  rw [fields, isMarked_withMarked, hcount, hlocal, htop]
  rfl

theorem fields_withTopLevel (m : Mark) {topLevel : UInt32} (h : topLevel ≤ maxLevel) :
    (m.withTopLevel topLevel).fields = { m.fields with topLevel } := by
  have hword := m.toNat_withTopLevel h
  have hmarked : (m.withTopLevel topLevel).isMarked = m.isMarked := by
    rw [Bool.eq_iff_iff, isMarked_iff, isMarked_iff, hword]
    omega
  have hcount : (m.withTopLevel topLevel).refcount = m.refcount := by
    apply UInt32.toNat_inj.mp
    rw [toNat_refcount, toNat_refcount, hword]
    omega
  rw [fields, hmarked, hcount, m.localLevel_withTopLevel h, m.topLevel_withTopLevel h]
  rfl

theorem fields_ofLevel (h : level ≤ maxLevel) : (ofLevel level).fields = ⟨false, 0, level, level⟩ := by
  have hword := toNat_ofLevel h
  have hmarked : (ofLevel level).isMarked = false := by
    rw [Bool.eq_false_iff, ne_eq, isMarked_iff, hword]
    omega
  have hcount : (ofLevel level).refcount = 0 := by
    apply UInt32.toNat_inj.mp
    rw [toNat_refcount, hword, UInt32.toNat_zero]
    omega
  rw [fields, hmarked, hcount, localLevel_ofLevel h, topLevel_ofLevel h]

/-- An update of a mark is one of its fields. -/
theorem fields_update (m : Mark) (fits : u.Fits) : (m.update u).fields = m.fields.update u := by
  cases u with
  | marked b => exact m.fields_withMarked b
  | topLevel level => exact m.fields_withTopLevel fits

/-! ## Updates one after the other -/

theorem update_update_of_same (m : Mark) (hu : u.Fits) (hv : v.Fits) (same : u.SameField v) :
    (m.update u).update v = m.update v := by
  apply fields_injective
  rw [fields_update _ hv, fields_update _ hu, fields_update _ hv]
  cases u <;> cases v
  case marked.marked | topLevel.topLevel => rfl
  all_goals exact same.elim

theorem update_update_comm (m : Mark) (hu : u.Fits) (hv : v.Fits) (other : ¬u.SameField v) :
    (m.update u).update v = (m.update v).update u := by
  apply fields_injective
  rw [fields_update _ hv, fields_update _ hu, fields_update _ hu, fields_update _ hv]
  cases u <;> cases v
  case marked.topLevel | topLevel.marked => rfl
  all_goals exact absurd trivial other

/-- Each field reads what was last written into it, or what it was made with. -/
theorem Built.fields (built : Built level us m) : m.fields =
    ⟨(us.findSome? (·.marked?)).getD false, 0, level, (us.findSome? (·.topLevel?)).getD level⟩ := by
  induction built with
  | blank => rfl
  | ofLevel fits => exact fields_ofLevel fits
  | @update level us m built u fits ih =>
    rw [fields_update m fits, ih]
    cases u <;> rfl

end BankedMemory.Mark
