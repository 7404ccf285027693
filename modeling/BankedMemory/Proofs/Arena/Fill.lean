import BankedMemory.Arena.Arrays
import BankedMemory.Proofs.Stack.Layout

/-!
# New arrays

The storage of a new array is stamped with the current level and filled with nulls.
-/

namespace BankedMemory.Arena

variable {a : Arena} {h : Handle} {x : Cell}

theorem fillSlots_spec (hs : a.Sound) (hc : a.cell h = some x) :
    ∀ n, n * Slot.width ≤ x.bytes.length →
      ∃ b, (List.range n).forM (writeSlot h · .null) a = .ok () b ∧ Rewrites {h} a b ∧
        ∃ y, b.cell h = some y ∧ y.mark = x.mark ∧ y.bytes.length = x.bytes.length ∧
          ∀ i < n, y.slot i = Object.null.encode
  | 0, _ => ⟨a, rfl, .refl hs, x, hc, rfl, rfl, fun i hi => absurd hi (Nat.not_lt_zero i)⟩
  | n + 1, hn => by
    have hw := Object.length_encode .null
    obtain ⟨b, hrun, hr, y, hy, hmark, hlen, hnull⟩ :=
      fillSlots_spec hs hc n (by rw [Nat.succ_mul] at hn; omega)
    have hslot : y.HasSlot n := by
      unfold Cell.HasSlot
      rw [hlen, ← Nat.succ_mul]
      exact hn
    obtain ⟨c, hrun', hr', hc'⟩ := writeSlot_spec hr.sound hy hslot .null
    have hsplit : (List.range (n + 1)).forM (writeSlot h · .null) =
        ((List.range n).forM (writeSlot h · .null) >>= fun _ => [n].forM (writeSlot h · .null)) := by
      rw [List.range_succ]
      exact List.forM_append
    refine ⟨c, ?_, hr.comp hr', _, hc', hmark, ?_, fun i hi => ?_⟩
    · rw [hsplit, EStateM.bind_of_ok hrun]
      change (writeSlot h n .null >>= fun _ => pure ()) b = _
      rw [EStateM.bind_of_ok hrun']
      rfl
    · rw [Cell.length_put hslot hw, hlen]
    · rcases eq_or_ne i n with rfl | hne
      · exact Cell.slot_put_self hslot hw
      · rw [Cell.slot_put_ne hslot hw hne]
        exact hnull i (by omega)

theorem checkLevel_of_le {level : UInt32} (hle : level ≤ Mark.maxLevel) :
    checkLevel level a = .ok () a := by
  unfold checkLevel
  rw [if_neg (UInt32.not_lt.mpr hle)]
  rfl

theorem fillNew_spec (hs : a.Sound) (hc : a.cell h = some x) {size : Nat} {level : UInt32}
    (hfits : size * Slot.width ≤ x.bytes.length) (hdepth : a.depth = .ok level)
    (hlevel : level ≤ Mark.maxLevel) :
    ∃ b, fillNew h size a = .ok () b ∧ Rewrites {h} a b ∧
      ∃ y, b.cell h = some y ∧ y.mark = .ofLevel level ∧
        ∀ i < size, y.HasSlot i ∧ y.slot i = Object.null.encode := by
  obtain ⟨b, hrun, hr, hb⟩ := setMark_spec hs hc (.ofLevel level)
  obtain ⟨c, hrun', hr', y, hy, hmark, hlen, hnull⟩ := fillSlots_spec hr.sound hb size hfits
  refine ⟨c, ?_, hr.comp hr', y, hy, hmark, fun i hi => ⟨?_, hnull i hi⟩⟩
  · unfold fillNew
    rw [ArenaM.reading_bind hdepth, EStateM.bind_of_ok (checkLevel_of_le hlevel),
      EStateM.bind_of_ok hrun]
    exact hrun'
  · have : (i + 1) * Slot.width ≤ size * Slot.width := Nat.mul_le_mul_right _ hi
    unfold Cell.HasSlot
    rw [hlen, ← Nat.succ_mul]
    exact Nat.le_trans this hfits

end BankedMemory.Arena
