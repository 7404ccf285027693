import BankedMemory.Arena.Arrays

/-!
# Windows

Narrowing succeeds just when the view encloses the window, in the arithmetic of integers, and the
window's start is a word. Two windows taken one out of the other are one window taken at once:
`narrow_narrow`. A window taken out
of an array, and one taken out of that, stays on the array's entity and within the array's slots:
`WindowOf.array`.
-/

namespace BankedMemory

/-- The windows taken out of a value, and out of those. -/
inductive Object.WindowOf (o : Object) : Object → Prop where
  | self : WindowOf o o
  | narrow {p q : Object} {offset size : Int32} (window : WindowOf o p)
      (narrowed : p.narrow offset size = .ok q) : WindowOf o q

/-- An index of an element. -/
def View.InRange (v : View) (i : Int32) : Prop := 0 ≤ i ∧ i.toUInt32 < v.size

variable {v : View} {i : Int32} {o q : Object} {offset size : Int32} {op : String}

theorem View.slot_eq (hi : v.InRange i) :
    v.slot i op = .ok (v.offset.toNat + i.toUInt32.toNat) := by
  obtain ⟨hpos, hlt⟩ := hi
  unfold slot
  rw [if_neg]
  rintro (hneg | hge)
  · exact Int32.not_lt.mpr hpos hneg
  · exact UInt32.not_lt.mpr hge hlt

theorem View.slot_error (hi : ¬v.InRange i) : v.slot i op = .error (.indexOutOfRange op) := by
  unfold slot
  rw [if_pos]
  by_cases hneg : i < 0
  · exact .inl hneg
  · exact .inr (UInt32.not_lt.mp fun hlt => hi ⟨Int32.not_lt.mp hneg, hlt⟩)

/-- An integer that is not negative, as a word. -/
theorem toNat_word (hi : 0 ≤ i.toInt) : (i.toUInt32.toNat : Int) = i.toInt := by
  have hle : 0 ≤ i := Int32.le_iff_toInt_le.mpr hi
  rw [Int32.toNat_toUInt32_of_le hle, Int32.toInt_eq_toNatClampNeg hle]

theorem View.inRange_iff : v.InRange i ↔ 0 ≤ i.toInt ∧ i.toInt < v.size.toNat := by
  unfold InRange
  rw [Int32.le_iff_toInt_le, UInt32.lt_iff_toNat_lt, Int32.toInt_zero]
  refine and_congr_right fun hi => ?_
  rw [← toNat_word hi]
  exact Int.ofNat_lt.symm

/-- The window of `size` elements that starts `offset` elements further in. -/
def View.window (v : View) (offset size : Int32) : View :=
  { v with offset := v.offset + offset.toUInt32, size := size.toUInt32 }

/-- The window has none but elements of the view. The sum is one of integers. -/
def View.Encloses (v : View) (offset size : Int32) : Prop :=
  0 ≤ offset.toInt ∧ 0 ≤ size.toInt ∧ offset.toInt + size.toInt ≤ v.size.toNat

/-- As long as the view itself ends below the words' end, a window's start is a word. -/
theorem View.Encloses.start_lt (hin : v.Encloses offset size)
    (hword : v.offset.toNat + v.size.toNat < UInt32.size) :
    v.offset.toNat + offset.toUInt32.toNat < UInt32.size := by
  obtain ⟨hoffset, hsize, hend⟩ := hin
  have h := toNat_word hoffset
  omega

theorem View.toNat_offset_window
    (hword : v.offset.toNat + offset.toUInt32.toNat < UInt32.size) (size : Int32) :
    (v.window offset size).offset.toNat = v.offset.toNat + offset.toUInt32.toNat := by
  unfold window
  rw [UInt32.toNat_add]
  exact Nat.mod_eq_of_lt hword

theorem View.Encloses.toNat_offset (hin : v.Encloses offset size)
    (hword : v.offset.toNat + v.size.toNat < UInt32.size) :
    ((v.window offset size).offset.toNat : Int) = v.offset.toNat + offset.toInt := by
  rw [View.toNat_offset_window (hin.start_lt hword), Int.natCast_add, toNat_word hin.1]

theorem View.Encloses.toNat_size (hin : v.Encloses offset size) :
    ((v.window offset size).size.toNat : Int) = size.toInt :=
  toNat_word hin.2.1

namespace Object

variable {shape : Shape}

theorem narrow_of_encloses (hin : v.Encloses offset size)
    (hword : v.offset.toNat + offset.toUInt32.toNat < UInt32.size) :
    (composite shape v).narrow offset size = .ok (composite shape (v.window offset size)) := by
  obtain ⟨hoffset, hsize, hend⟩ := hin
  unfold narrow
  simp only
  rw [if_neg, if_neg (Nat.not_le.mpr hword)]
  · rfl
  · rw [Int32.lt_iff_toInt_lt, Int32.lt_iff_toInt_lt, Int32.toInt_zero]
    omega

theorem narrow_of_not_encloses (hnot : ¬v.Encloses offset size) :
    (composite shape v).narrow offset size = .error .windowGrows := by
  unfold narrow
  simp only
  rw [if_pos]
  rw [Int32.lt_iff_toInt_lt, Int32.lt_iff_toInt_lt, Int32.toInt_zero]
  unfold View.Encloses at hnot
  omega

theorem encloses_of_narrow (hn : (composite shape v).narrow offset size = .ok q) :
    v.Encloses offset size ∧ v.offset.toNat + offset.toUInt32.toNat < UInt32.size ∧
      q = composite shape (v.window offset size) := by
  by_cases hin : v.Encloses offset size
  · by_cases hword : v.offset.toNat + offset.toUInt32.toNat < UInt32.size
    · rw [narrow_of_encloses hin hword] at hn
      cases hn
      exact ⟨hin, hword, rfl⟩
    · unfold narrow at hn
      simp only at hn
      rw [if_pos (Nat.le_of_not_lt hword)] at hn
      split at hn <;> cases hn
  · rw [narrow_of_not_encloses hin] at hn
    cases hn

/-- A window out of a window is a window. -/
theorem narrow_narrow {p : Object} {offset' size' both : Int32} (hn : o.narrow offset size = .ok p)
    (hn' : p.narrow offset' size' = .ok q) (hboth : both.toInt = offset.toInt + offset'.toInt) :
    o.narrow both size' = .ok q := by
  cases o with
  | composite shape v =>
    obtain ⟨hin, hword, rfl⟩ := encloses_of_narrow hn
    obtain ⟨hin', hword', rfl⟩ := encloses_of_narrow hn'
    have hsize := hin.toNat_size
    have hoffset := toNat_word hin.1
    have hoffset' := toNat_word hin'.1
    obtain ⟨hpos, -, hend⟩ := hin
    obtain ⟨hpos', hsize', hend'⟩ := hin'
    have hencloses : v.Encloses both size' := ⟨by omega, hsize', by omega⟩
    have hsum : both.toUInt32 = offset.toUInt32 + offset'.toUInt32 := by
      apply UInt32.toNat_inj.mp
      have hsum := toNat_word hencloses.1
      have hlt := both.toUInt32.toNat_lt
      rw [UInt32.toNat_add]
      omega
    have hstart := View.toNat_offset_window hword size
    have hboth := toNat_word hencloses.1
    rw [narrow_of_encloses hencloses (by omega)]
    unfold View.window
    rw [hsum, UInt32.add_assoc]
  | _ => cases hn

theorem narrow_array (hn : (composite .array v).narrow offset size = .ok q) :
    ∃ w, q = .composite .array w ∧ w.ent = v.ent ∧
      w.offset.toNat + w.size.toNat ≤ v.offset.toNat + v.size.toNat := by
  obtain ⟨hin, hword, rfl⟩ := encloses_of_narrow hn
  refine ⟨_, rfl, rfl, ?_⟩
  have hstart := View.toNat_offset_window hword size
  have hsize := hin.toNat_size
  have hoffset := toNat_word hin.1
  have hend := hin.2.2
  omega

/-- A window is an array on the same entity, within the slots of the array it is taken from. -/
theorem WindowOf.array (hw : WindowOf (.composite .array v) o) :
    ∃ w, o = .composite .array w ∧ w.ent = v.ent ∧
      w.offset.toNat + w.size.toNat ≤ v.offset.toNat + v.size.toNat := by
  induction hw with
  | self => exact ⟨v, rfl, rfl, Nat.le_refl _⟩
  | narrow _ hn ih =>
    obtain ⟨w, rfl, hent, hin⟩ := ih
    obtain ⟨u, rfl, hent', hin'⟩ := narrow_array hn
    exact ⟨u, rfl, hent'.trans hent, by omega⟩

end Object

end BankedMemory
