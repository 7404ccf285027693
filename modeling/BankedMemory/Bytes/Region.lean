/-!
# Byte regions

A region is a run of bytes that grows at its end and is read and written by spans. `Region.slice?`
gives nothing for a span that is reversed or reaches outside. `Region.getElem?_overwrite` says what
a write changes: the bytes it covers, as far as they lie in the region, and no other.
-/

namespace BankedMemory

structure Region where
  bytes : Array UInt8
deriving DecidableEq

namespace Region

def empty : Region := ⟨#[]⟩

def length (r : Region) : Nat := r.bytes.size

/-- The span from `start` up to `stop` runs forward and lies in the region. -/
def Covers (r : Region) (start stop : Nat) : Prop := start ≤ stop ∧ stop ≤ r.length

instance (r : Region) (start stop : Nat) : Decidable (r.Covers start stop) :=
  inferInstanceAs (Decidable (_ ∧ _))

/-- The bytes from `start` up to `stop`, if the region has them. -/
def slice? (r : Region) (start stop : Nat) : Option (List UInt8) :=
  if r.Covers start stop then some (r.bytes.extract start stop).toList else none

/-- Write `src` from `start` on. Bytes that would fall outside are dropped. -/
def overwrite (r : Region) (start : Nat) (src : List UInt8) : Region :=
  ⟨go r.bytes start src⟩
where
  go (bytes : Array UInt8) (i : Nat) : List UInt8 → Array UInt8
    | [] => bytes
    | b :: src => go (bytes.setIfInBounds i b) (i + 1) src

/-- Write zeros on `n` bytes from `start` on. -/
def clear (r : Region) (start n : Nat) : Region :=
  r.overwrite start (List.replicate n 0)

/-- Make the region `n` bytes long: cut it off there, or add zeros at its end. -/
def resize (r : Region) (n : Nat) : Region :=
  if n ≤ r.length then ⟨r.bytes.extract 0 n⟩
  else ⟨r.bytes ++ Array.replicate (n - r.length) 0⟩

theorem overwrite.size_go (bytes : Array UInt8) (i : Nat) (src : List UInt8) :
    (overwrite.go bytes i src).size = bytes.size := by
  induction src generalizing bytes i with
  | nil => rfl
  | cons b src ih => simp [overwrite.go, ih]

@[simp] theorem length_overwrite (r : Region) (start : Nat) (src : List UInt8) :
    (r.overwrite start src).length = r.length :=
  overwrite.size_go ..

theorem overwrite.getElem?_go (bytes : Array UInt8) (i : Nat) (src : List UInt8) (k : Nat) :
    (overwrite.go bytes i src)[k]? =
      if i ≤ k ∧ k < i + src.length ∧ k < bytes.size then src[k - i]? else bytes[k]? := by
  induction src generalizing bytes i with
  | nil =>
    have : ¬(i ≤ k ∧ k < i + ([] : List UInt8).length ∧ k < bytes.size) := by simp; omega
    rw [if_neg this, overwrite.go]
  | cons b src ih =>
    rw [overwrite.go, ih]
    simp only [Array.size_setIfInBounds, List.length_cons]
    by_cases hk : i = k
    · subst hk
      have : ¬(i + 1 ≤ i ∧ i < i + 1 + src.length ∧ i < bytes.size) := by omega
      rw [if_neg this]
      by_cases hb : i < bytes.size
      · rw [if_pos (by omega)]; simp [hb]
      · rw [if_neg (by omega)]; simp [hb]
    · by_cases h : i + 1 ≤ k ∧ k < i + 1 + src.length ∧ k < bytes.size
      · obtain ⟨j, rfl⟩ : ∃ j, k = i + 1 + j := ⟨k - (i + 1), by omega⟩
        rw [if_pos h, if_pos (by omega), show i + 1 + j - i = j + 1 by omega,
          show i + 1 + j - (i + 1) = j by omega, List.getElem?_cons_succ]
      · rw [if_neg h, if_neg (by omega)]
        simp [hk]

theorem getElem?_overwrite (r : Region) (start : Nat) (src : List UInt8) (k : Nat) :
    (r.overwrite start src).bytes[k]? =
      if start ≤ k ∧ k < start + src.length ∧ k < r.length then src[k - start]?
      else r.bytes[k]? :=
  overwrite.getElem?_go ..

@[simp] theorem length_resize (r : Region) (n : Nat) : (r.resize n).length = n := by
  unfold resize
  split
  · next h => simp only [length, Array.size_extract] at *; omega
  · next h => simp only [length, Array.size_append, Array.size_replicate] at *; omega

end Region

end BankedMemory
