import BankedMemory.Bytes.Region
import BankedMemory.Bytes.Word

/-!
# Runs of bytes

`Region.run` is the bytes of one entity as a list, and `patch` what a write does to such a list.
Writing into one run patches it and leaves every run apart from it as it is; a region that grows
keeps all its runs. `slotAt` cuts a run into slots, and a patch of one slot changes no other.
-/

namespace BankedMemory

/-- `l` with `src` written over it from position `i` on. -/
def patch (l : List UInt8) (i : Nat) (src : List UInt8) : List UInt8 :=
  l.take i ++ src ++ l.drop (i + src.length)

theorem length_patch {l : List UInt8} {i : Nat} {src : List UInt8} (h : i + src.length ≤ l.length) :
    (patch l i src).length = l.length := by
  simp only [patch, List.length_append, List.length_take, List.length_drop]; omega

theorem getElem?_patch {l : List UInt8} {i : Nat} {src : List UInt8}
    (h : i + src.length ≤ l.length) (k : Nat) :
    (patch l i src)[k]? = if i ≤ k ∧ k < i + src.length then src[k - i]? else l[k]? := by
  have hi : (l.take i).length = i := by rw [List.length_take]; omega
  unfold patch
  split
  · next hk =>
    rw [List.getElem?_append_left (by rw [List.length_append, hi]; omega),
      List.getElem?_append_right (by omega), hi]
  · next hk =>
    rcases Nat.lt_or_ge k i with hlt | hge
    · rw [List.getElem?_append_left (by rw [List.length_append, hi]; omega),
        List.getElem?_append_left (by omega), List.getElem?_take, if_pos hlt]
    · rw [List.getElem?_append_right (by rw [List.length_append, hi]; omega),
        List.getElem?_drop, List.length_append, hi]
      congr 1; omega

/-- Slot `i` of a run of slots. -/
def slotAt (l : List UInt8) (i : Nat) : List UInt8 := (l.drop (i * Slot.width)).take Slot.width

theorem getElem?_slotAt (l : List UInt8) (i k : Nat) :
    (slotAt l i)[k]? = if k < Slot.width then l[i * Slot.width + k]? else none := by
  rw [slotAt, List.getElem?_take, List.getElem?_drop]

theorem slotAt_patch_self {l : List UInt8} {i : Nat} {src : List UInt8}
    (hw : src.length = Slot.width) (h : i * Slot.width + src.length ≤ l.length) :
    slotAt (patch l (i * Slot.width) src) i = src := by
  refine List.ext_getElem? fun k => ?_
  rw [getElem?_slotAt, getElem?_patch h]
  split
  · next hk => rw [if_pos (by omega), Nat.add_sub_cancel_left]
  · next hk => rw [List.getElem?_eq_none (by omega)]

theorem slotAt_patch_ne {l : List UInt8} {i j : Nat} {src : List UInt8}
    (hw : src.length = Slot.width) (h : i * Slot.width + src.length ≤ l.length) (hij : j ≠ i) :
    slotAt (patch l (i * Slot.width) src) j = slotAt l j := by
  refine List.ext_getElem? fun k => ?_
  rw [getElem?_slotAt, getElem?_slotAt, getElem?_patch h]
  split
  · next hk =>
    rw [if_neg]
    simp only [Slot.width] at *
    omega
  · rfl

/-- A run written over the start of a longer one shows its own slots there. -/
theorem slotAt_patch_zero {l src : List UInt8} {i : Nat} (h : src.length ≤ l.length)
    (hi : i * Slot.width + Slot.width ≤ src.length) : slotAt (patch l 0 src) i = slotAt src i := by
  refine List.ext_getElem? fun k => ?_
  rw [getElem?_slotAt, getElem?_slotAt]
  split
  · next hk => rw [getElem?_patch (by omega), if_pos (by omega), Nat.sub_zero]
  · rfl

namespace Region

/-- The `n` bytes from `start` on. -/
def run (r : Region) (start n : Nat) : List UInt8 := (r.bytes.extract start (start + n)).toList

theorem getElem?_run (r : Region) (start n k : Nat) :
    (r.run start n)[k]? = if k < n then r.bytes[start + k]? else none := by
  rw [run, Array.getElem?_toList, Array.getElem?_extract]
  rcases Nat.lt_or_ge k n with hk | hk
  · rw [if_pos hk]
    rcases Nat.lt_or_ge (start + k) r.bytes.size with hs | hs
    · rw [if_pos (by omega)]
    · rw [if_neg (by omega), Array.getElem?_eq_none hs]
  · rw [if_neg (by omega), if_neg (by omega)]

theorem length_run {r : Region} {start n : Nat} (h : start + n ≤ r.length) :
    (r.run start n).length = n := by
  simp only [run, Array.length_toList, Array.size_extract]
  unfold length at h
  omega

theorem slice?_eq_run {r : Region} {start n : Nat} (h : start + n ≤ r.length) :
    r.slice? start (start + n) = some (r.run start n) := by
  rw [slice?, if_pos ⟨by omega, h⟩, run]

/-- The part of a run is a run. -/
theorem drop_take_run {r : Region} {start n i m : Nat} (h : i + m ≤ n) :
    ((r.run start n).drop i).take m = r.run (start + i) m := by
  refine List.ext_getElem? fun k => ?_
  rw [List.getElem?_take, List.getElem?_drop, getElem?_run, getElem?_run]
  split
  · rw [if_pos (by omega), Nat.add_assoc]
  · rfl

theorem run_overwrite_apart {r : Region} {start n at' : Nat} {src : List UInt8}
    (h : start + n ≤ at' ∨ at' + src.length ≤ start) :
    (r.overwrite at' src).run start n = r.run start n := by
  refine List.ext_getElem? fun k => ?_
  rw [getElem?_run, getElem?_run]
  split
  · rw [getElem?_overwrite, if_neg (by omega)]
  · rfl

theorem run_overwrite_inside {r : Region} {start n i : Nat} {src : List UInt8}
    (hi : i + src.length ≤ n) (hr : start + n ≤ r.length) :
    (r.overwrite (start + i) src).run start n = patch (r.run start n) i src := by
  refine List.ext_getElem? fun k => ?_
  rw [getElem?_run, getElem?_patch (by rw [length_run hr]; exact hi), getElem?_run,
    getElem?_overwrite]
  split
  · next hk =>
    by_cases hin : i ≤ k ∧ k < i + src.length
    · rw [if_pos (by omega), if_pos hin]; congr 1; omega
    · rw [if_neg (by omega), if_neg hin]
  · next hk => rw [if_neg (by omega)]

theorem run_clear_self {r : Region} {start n : Nat} (h : start + n ≤ r.length) :
    (r.clear start n).run start n = List.replicate n 0 := by
  have hp : (r.overwrite (start + 0) (List.replicate n 0)).run start n =
      patch (r.run start n) 0 (List.replicate n 0) := run_overwrite_inside (by simp) h
  rw [Nat.add_zero] at hp
  rw [clear, hp, patch, List.drop_eq_nil_of_le (by rw [length_run h]; simp)]
  simp

theorem run_clear_apart {r : Region} {start n at' m : Nat}
    (h : start + n ≤ at' ∨ at' + m ≤ start) : (r.clear at' m).run start n = r.run start n :=
  run_overwrite_apart (by simpa using h)

theorem run_resize {r : Region} {start n m : Nat} (h : start + n ≤ r.length) (hm : r.length ≤ m) :
    (r.resize m).run start n = r.run start n := by
  refine List.ext_getElem? fun k => ?_
  rw [getElem?_run, getElem?_run]
  split
  · next hk =>
    have hlt : start + k < r.bytes.size := by unfold length at h; omega
    unfold resize
    split
    · rw [Array.getElem?_extract, if_pos (by omega), Nat.zero_add]
    · rw [Array.getElem?_append_left hlt]
  · rfl

/-- What a region grows by is zeros. -/
theorem run_resize_new (r : Region) (n : Nat) :
    (r.resize (r.length + n)).run r.length n = List.replicate n 0 := by
  refine List.ext_getElem? fun k => ?_
  rw [getElem?_run, List.getElem?_replicate]
  split
  · next hk =>
    unfold resize
    rw [if_neg (by omega), Array.getElem?_append_right (by unfold length; omega)]
    rw [Array.getElem?_replicate, if_pos]
    unfold length; omega
  · rfl

end Region

end BankedMemory
