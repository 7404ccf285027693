import BankedMemory.Object.Encoding
import BankedMemory.Proofs.Arena.Running
import Mathlib.Algebra.Group.Nat.Defs

/-!
# Canonical bytes

More bytes are read as objects than are ever written: a reader looks only at the bits and words that
the type uses. `Canonical` says of bytes that everything else is zero. Storing an object that was
read makes its bytes canonical, and the canonical bytes are just those that objects are stored as:
`decode_normalises`.
-/

namespace BankedMemory

/-- Word `i` of stored bytes, its lowest byte first. -/
def wordAt (bytes : List UInt8) (i : Nat) : UInt32 :=
  wordOfBytes (bytes.getD (4 * i) 0) (bytes.getD (4 * i + 1) 0) (bytes.getD (4 * i + 2) 0)
    (bytes.getD (4 * i + 3) 0)

namespace Slot

/-- The four words that bytes spell. -/
def spelt (bytes : List UInt8) : Slot :=
  ⟨wordAt bytes 0, wordAt bytes 1, wordAt bytes 2, wordAt bytes 3⟩

/-- The five lowest bits of the tag word. -/
def typeCode (s : Slot) : Nat := (s.tag &&& 0x1F).toNat

/-- The type is that of an array, a string or a dictionary. -/
def IsComposite (s : Slot) : Prop := 6 ≤ s.typeCode ∧ s.typeCode ≤ 8

instance (s : Slot) : Decidable s.IsComposite := inferInstanceAs (Decidable (_ ∧ _))

/-- How many of the words beside the tag, from the first on, an object of the type uses. -/
def wordsUsed (s : Slot) : Nat :=
  match s.typeCode with
  | 0 | 1 | 2 => 0
  | 3 | 4 | 5 => 1
  | 6 | 7 | 8 => 3
  | _ => 2

/-- There is such a type, and what it does not use is zero. -/
structure Canonical (s : Slot) : Prop where
  known : s.typeCode ≤ 10
  high : s.tag >>> 8 = 0
  /-- Only a composite has rights and a bank. -/
  flags : ¬s.IsComposite → (s.tag >>> 5) &&& 7 = 0
  truth : s.typeCode = 3 → s.first = 0 ∨ s.first = 1
  first : s.wordsUsed < 1 → s.first = 0
  second : s.wordsUsed < 2 → s.second = 0
  third : s.wordsUsed < 3 → s.third = 0

instance (s : Slot) : Decidable s.Canonical :=
  decidable_of_iff (s.typeCode ≤ 10 ∧ s.tag >>> 8 = 0 ∧ (¬s.IsComposite → (s.tag >>> 5) &&& 7 = 0) ∧
      (s.typeCode = 3 → s.first = 0 ∨ s.first = 1) ∧ (s.wordsUsed < 1 → s.first = 0) ∧
      (s.wordsUsed < 2 → s.second = 0) ∧ (s.wordsUsed < 3 → s.third = 0))
    ⟨fun ⟨known, high, flags, truth, first, second, third⟩ =>
        ⟨known, high, flags, truth, first, second, third⟩,
      fun ⟨known, high, flags, truth, first, second, third⟩ =>
        ⟨known, high, flags, truth, first, second, third⟩⟩

end Slot

/-- The bytes of a slot in which nothing is set that its type does not use. -/
def Canonical (bytes : List UInt8) : Prop :=
  bytes.length = Slot.width ∧ (Slot.spelt bytes).Canonical

instance (bytes : List UInt8) : Decidable (Canonical bytes) := inferInstanceAs (Decidable (_ ∧ _))

variable {bytes : List UInt8} {s : Slot} {o : Object} {shape : Shape}

namespace Slot

theorem ofBytes?_of_length : ∀ {bytes : List UInt8}, bytes.length = width →
    ofBytes? bytes = some (spelt bytes)
  | [_, _, _, _, _, _, _, _, _, _, _, _, _, _, _, _], _ => rfl

theorem length_of_ofBytes? (h : ofBytes? bytes = some s) : bytes.length = width := by
  rw [ofBytes?_eq_some_iff.mp h]
  rfl

theorem spelt_bytes (s : Slot) : spelt s.bytes = s := by
  have hspelt := ofBytes?_of_length s.length_bytes
  rw [ofBytes?_bytes] at hspelt
  exact (Option.some.inj hspelt).symm

theorem wordsUsed_of_isComposite (hs : s.IsComposite) : s.wordsUsed = 3 := by
  obtain ⟨hlow, hhigh⟩ := hs
  have hcode : s.typeCode = 6 ∨ s.typeCode = 7 ∨ s.typeCode = 8 := by omega
  unfold wordsUsed
  rcases hcode with h | h | h <;> simp only [h]

/-! ## Fields of the tag word as numbers -/

theorem toNat_and {m : UInt32} {n : Nat} (hm : m.toNat = 2 ^ n - 1) (t : UInt32) :
    (t &&& m).toNat = t.toNat % 2 ^ n := by
  rw [UInt32.toNat_and, hm, Nat.and_two_pow_sub_one_eq_mod]

theorem typeCode_eq (s : Slot) : s.typeCode = s.tag.toNat % 32 :=
  toNat_and (n := 5) rfl s.tag

theorem toNat_shiftRight (t : UInt32) {n : UInt32} (hn : n.toNat < 32) :
    (t >>> n).toNat = t.toNat / 2 ^ n.toNat := by
  rw [UInt32.toNat_shiftRight, Nat.mod_eq_of_lt hn, Nat.shiftRight_eq_div_pow]

/-- A canonical tag has nothing above its eight lowest bits. -/
theorem Canonical.tag_lt (hc : s.Canonical) : s.tag.toNat < 256 := by
  have hhigh := toNat_shiftRight s.tag (n := 8) (by decide)
  rw [hc.high, UInt32.toNat_zero] at hhigh
  simp only [UInt32.reduceToNat] at hhigh
  omega

/-- The tag of anything but a composite is the code of its type. -/
theorem Canonical.tag_eq (hc : s.Canonical) (hplain : ¬s.IsComposite) : s.tag.toNat = s.typeCode := by
  have hlt := hc.tag_lt
  have hcode := s.typeCode_eq
  have hflags := toNat_and (m := 7) (n := 3) rfl (s.tag >>> 5)
  rw [hc.flags hplain, UInt32.toNat_zero, toNat_shiftRight s.tag (by decide)] at hflags
  simp only [UInt32.reduceToNat] at hflags
  omega

theorem Canonical.eq_of_words (hc : s.Canonical) {tag first second third : UInt32}
    (hcode : s.typeCode = tag.toNat) (hplain : tag.toNat < 6 ∨ 8 < tag.toNat)
    (hfirst : s.first = first) (hsecond : s.second = second) (hthird : s.third = third) :
    ⟨tag, first, second, third⟩ = s := by
  have htag : s.tag = tag := by
    apply UInt32.toNat_inj.mp
    rw [← hcode]
    refine hc.tag_eq fun hcomposite => ?_
    obtain ⟨hlow, hhigh⟩ := hcomposite
    omega
  obtain ⟨tag', first', second', third'⟩ := s
  simp only at htag hfirst hsecond hthird
  rw [htag, hfirst, hsecond, hthird]

end Slot

theorem Access.code_ofCode (w : UInt32) : (Access.ofCode w).code = w &&& 3 := by
  have hlt := Slot.toNat_and (m := 3) (n := 2) rfl w
  apply UInt32.toNat_inj.mp
  unfold ofCode
  split
  · next h => rw [h]; rfl
  · next h => rw [h]; rfl
  · next h => rw [h]; rfl
  · next h0 h1 h2 =>
    have hne : (w &&& 3).toNat ≠ 0 ∧ (w &&& 3).toNat ≠ 1 ∧ (w &&& 3).toNat ≠ 2 := ⟨h0, h1, h2⟩
    show 3 = _
    omega

theorem Bank.code_ofCode (w : UInt32) : (Bank.ofCode w).code = w &&& 1 := by
  have hlt := Slot.toNat_and (m := 1) (n := 1) rfl w
  unfold ofCode
  split
  · next h => rw [h]; rfl
  · next h =>
    have hne : (w &&& 1).toNat ≠ 0 := fun h0 => h (UInt32.toNat_inj.mp h0)
    apply UInt32.toNat_inj.mp
    show 1 = _
    omega

namespace View

theorem toNat_tag (shape : Shape) (access : Access) (bank : Bank) :
    (tag shape access bank).toNat =
      shape.code.toNat + 32 * access.code.toNat + 128 * bank.code.toNat := by
  cases shape <;> cases access <;> cases bank <;> decide

theorem typeCode_toSlot (shape : Shape) (v : View) :
    (v.toSlot shape).typeCode = shape.code.toNat :=
  congrArg UInt32.toNat (typeBits_tag shape v.access v.bank)

theorem isComposite_toSlot (shape : Shape) (v : View) : (v.toSlot shape).IsComposite := by
  unfold Slot.IsComposite
  rw [typeCode_toSlot]
  cases shape <;> decide

theorem canonical_toSlot (shape : Shape) (v : View) : (v.toSlot shape).Canonical := by
  have hcode := typeCode_toSlot shape v
  have hcomposite := isComposite_toSlot shape v
  have hused := Slot.wordsUsed_of_isComposite hcomposite
  have hrange : 6 ≤ (v.toSlot shape).typeCode ∧ (v.toSlot shape).typeCode ≤ 8 := hcomposite
  refine ⟨by omega, ?_, fun hplain => absurd hcomposite hplain, by omega, by omega, by omega, by omega⟩
  obtain ⟨access, bank, size, ent, offset⟩ := v
  show tag shape access bank >>> 8 = 0
  cases shape <;> cases access <;> cases bank <;> decide

/-- A composite that is read from a canonical slot is stored as that slot. -/
theorem toSlot_ofSlot (hc : s.Canonical) (htype : s.typeCode = shape.code.toNat) :
    (ofSlot s).toSlot shape = s := by
  have hlt := hc.tag_lt
  have hcode := s.typeCode_eq
  have hrights := Slot.toNat_and (m := 3) (n := 2) rfl (s.tag >>> 5)
  have hbank := Slot.toNat_and (m := 1) (n := 1) rfl (s.tag >>> 7)
  rw [Slot.toNat_shiftRight s.tag (by decide)] at hrights hbank
  simp only [UInt32.reduceToNat] at hrights hbank
  have htag : tag shape (.ofCode (s.tag >>> 5)) (.ofCode (s.tag >>> 7)) = s.tag := by
    apply UInt32.toNat_inj.mp
    rw [toNat_tag, Access.code_ofCode, Bank.code_ofCode, hrights, hbank, ← htype]
    omega
  unfold toSlot ofSlot
  rw [htag]

end View

namespace Object

/-! ## Reading -/

theorem exists_ofSlot? : (∃ o, ofSlot? s = some o) ↔ s.typeCode ≤ 10 := by
  unfold ofSlot? Slot.typeCode
  split <;> simp_all
  omega

theorem decode_eq_ok_iff :
    decode bytes = .ok o ↔ bytes.length = Slot.width ∧ ofSlot? (Slot.spelt bytes) = some o := by
  unfold decode
  by_cases hlen : bytes.length = Slot.width
  · rw [Slot.ofBytes?_of_length hlen]
    simp only [hlen, true_and]
    cases ofSlot? (Slot.spelt bytes) <;> simp
  · cases hslot : Slot.ofBytes? bytes with
    | none => simp [hlen]
    | some s => exact absurd (Slot.length_of_ofBytes? hslot) hlen

/-- Bytes are read if there are as many as a slot has and their type is known. -/
theorem exists_decode : (∃ o, decode bytes = .ok o) ↔
    bytes.length = Slot.width ∧ (wordAt bytes 0 &&& 0x1F).toNat ≤ 10 := by
  simp only [decode_eq_ok_iff, exists_and_left, exists_ofSlot?]
  rfl

/-! ## Storing -/

theorem canonical_toSlot (o : Object) : o.toSlot.Canonical := by
  cases o with
  | composite shape v => exact v.canonical_toSlot shape
  | boolean b => cases b <;> decide
  | _ => constructor <;> simp [toSlot, Slot.typeCode, Slot.wordsUsed, Slot.IsComposite] <;> rfl

/-- What is read from a canonical slot is stored as that slot. -/
theorem toSlot_of_canonical (hc : s.Canonical) (ho : ofSlot? s = some o) : o.toSlot = s := by
  have hfirst := hc.first
  have hsecond := hc.second
  have hthird := hc.third
  unfold Slot.wordsUsed at hfirst hsecond hthird
  have hcode : (s.tag &&& 0x1F).toNat = s.typeCode := rfl
  unfold ofSlot? at ho
  rw [hcode] at ho
  split at ho
  case h_1 hk | h_2 hk | h_3 hk =>
    cases ho
    simp only [hk] at hfirst hsecond hthird
    exact hc.eq_of_words hk (by decide) (hfirst (by decide)) (hsecond (by decide)) (hthird (by decide))
  case h_4 hk =>
    cases ho
    simp only [hk] at hsecond hthird
    refine hc.eq_of_words hk (by decide) ?_ (hsecond (by decide)) (hthird (by decide))
    rcases hc.truth hk with h | h <;> rw [h] <;> rfl
  case h_5 hk | h_6 hk =>
    cases ho
    simp only [hk] at hsecond hthird
    exact hc.eq_of_words hk (by decide) (by simp) (hsecond (by decide)) (hthird (by decide))
  case h_7 hk | h_8 hk | h_9 hk =>
    cases ho
    exact View.toSlot_ofSlot hc hk
  case h_10 hk | h_11 hk =>
    cases ho
    simp only [hk] at hthird
    exact hc.eq_of_words hk (by decide) rfl rfl (hthird (by decide))
  case h_12 => cases ho

theorem canonical_encode (o : Object) : Canonical o.encode := by
  refine ⟨o.length_encode, ?_⟩
  rw [encode, Slot.spelt_bytes]
  exact o.canonical_toSlot

/-- Bytes that are read are stored again as they were just when they are canonical. -/
theorem encode_eq_iff (ho : decode bytes = .ok o) : o.encode = bytes ↔ Canonical bytes := by
  obtain ⟨hlen, ho⟩ := decode_eq_ok_iff.mp ho
  constructor
  · rintro rfl
    exact o.canonical_encode
  · rintro ⟨-, hc⟩
    rw [encode, toSlot_of_canonical hc ho]
    exact (Slot.ofBytes?_eq_some_iff.mp (Slot.ofBytes?_of_length hlen)).symm

/-- Read bytes and store again what was read. -/
def recode (bytes : List UInt8) : Except Fault (List UInt8) := do
  return (← decode bytes).encode

theorem recode_of_ok (ho : decode bytes = .ok o) : recode bytes = .ok o.encode :=
  bind_eq_of_ok ho

/-- Bytes are read if there are sixteen of them and the type is known. Storing what was read gives
canonical bytes for the same object, and changes no bytes that are canonical; these are the bytes
objects are stored as. -/
theorem decode_normalises (bytes : List UInt8) :
    ((∃ o, decode bytes = .ok o) ↔
      bytes.length = 16 ∧ (wordAt bytes 0 &&& 0x1F).toNat ≤ 10) ∧
    (∀ o, decode bytes = .ok o → decode o.encode = .ok o ∧
      (recode bytes >>= recode) = recode bytes ∧ (o.encode = bytes ↔ Canonical bytes)) ∧
    (Canonical bytes ↔ ∃ o : Object, o.encode = bytes) := by
  refine ⟨exists_decode, fun o ho => ⟨o.decode_encode, ?_, encode_eq_iff ho⟩, fun hc => ?_, ?_⟩
  · rw [recode_of_ok ho]
    exact recode_of_ok o.decode_encode
  · obtain ⟨o, ho⟩ := exists_decode.mpr ⟨hc.1, hc.2.known⟩
    exact ⟨o, (encode_eq_iff ho).mpr hc⟩
  · rintro ⟨o, rfl⟩
    exact o.canonical_encode

/-- A boolean whose word is neither 0 nor 1, under a tag with rights and a bank. -/
theorem decode_normalises_boolean :
    let bytes : List UInt8 := [0xE3, 0, 0, 0, 5, 0, 0, 0, 9, 0, 0, 0, 0, 0, 0, 0]
    decode bytes = .ok (.boolean true) ∧ ¬Canonical bytes ∧ (Object.boolean true).encode ≠ bytes ∧
      decode (Object.boolean true).encode = .ok (.boolean true) := by
  intro bytes
  have hread : decode bytes = .ok (.boolean true) := rfl
  obtain ⟨-, hagain, -⟩ := decode_normalises bytes
  obtain ⟨hsame, -, hiff⟩ := hagain _ hread
  have hnot : ¬Canonical bytes := by decide
  exact ⟨hread, hnot, fun heq => hnot (hiff.mp heq), hsame⟩

end Object

end BankedMemory
