import BankedMemory.Proofs.Arena.Tiling
import BankedMemory.Proofs.Stack.Layout

/-!
# Objects in slots

An object that was stored in a slot is read there again, bit for bit, and no other slot shows the
write, of whatever entity: `stored_object_intact`.
-/

namespace BankedMemory

open Arena (Reachable)

theorem Object.encode_injective : Function.Injective encode := fun o p heq => by
  have hsame := decode_encode o
  rw [heq, decode_encode] at hsame
  exact (Except.ok.inj hsame).symm

namespace Arena

variable {limit : Nat} {a b : Arena} {h k : Handle} {i j : Nat} {o : Object} {x : Cell}

/-- A slot within the entity is read off its cell; there is none behind its end. -/
theorem Sound.readSlot_of_cell (hs : a.Sound) (hc : a.cell h = some x) (i : Nat) :
    a.readSlot h i = if i * Slot.width + Slot.width ≤ x.bytes.length then Object.decode (x.slot i)
      else .error (missed i Slot.width) := by
  have hread := hs.placed.read_of_cell hc i Slot.width
  unfold readSlot
  split
  · next hfit =>
    rw [if_pos hfit] at hread
    exact bind_eq_of_ok hread
  · next hfit =>
    rw [if_neg hfit] at hread
    exact bind_eq_of_error hread

/-- A store into a slot of the entity succeeds and is seen there alone. -/
theorem writeSlot_within (hs : a.Sound) {e : Entry} (live : a.entry h = .ok e)
    (hfit : i * Slot.width + Slot.width ≤ e.capacity) (o : Object) :
    ∃ b, writeSlot h i o a = .ok () b ∧ Rewrites {h} a b ∧
      ∃ x, a.cell h = some x ∧ x.HasSlot i ∧ b.cell h = some (x.put i o.encode) := by
  have hc := cell_eq_of_entry live
  have hslot : Cell.HasSlot ⟨a.region.run e.address e.capacity, e.mark, e.kind⟩ i := by
    unfold Cell.HasSlot
    rw [hs.placed.length_cell live hc]
    exact hfit
  obtain ⟨b, hrun, hr, hb⟩ := writeSlot_spec hs hc hslot o
  exact ⟨b, hrun, hr, _, hc, hslot, hb⟩

/-- No other store succeeds. -/
theorem writeSlot_of_ok (hs : a.Sound) (hok : writeSlot h i o a = .ok () b) :
    Rewrites {h} a b ∧ ∃ x, a.cell h = some x ∧ x.HasSlot i ∧ b.cell h = some (x.put i o.encode) := by
  have hlen := o.length_encode
  obtain ⟨e, live, hfit, -⟩ | ⟨f, hfail⟩ := write_cases hs.placed h i o.encode
  · rw [hlen] at hfit
    obtain ⟨b', hrun, hwritten⟩ := writeSlot_within hs live hfit o
    rw [hok] at hrun
    cases hrun
    exact hwritten
  · have hok' : write h i o.encode a = .ok () b := hok
    rw [hfail] at hok'
    cases hok'

theorem readSlot_written (hs : a.Sound) (hok : writeSlot h i o a = .ok () b) :
    b.readSlot h i = .ok o := by
  obtain ⟨hr, x, -, hslot, hb⟩ := writeSlot_of_ok hs hok
  have hlen := o.length_encode
  exact readSlot_of_slot hr.sound hb (hslot.put hslot hlen) (Cell.slot_put_self hslot hlen)

theorem readSlot_elsewhere (hs : a.Sound) (hok : writeSlot h i o a = .ok () b)
    (hne : k ≠ h ∨ j ≠ i) : b.readSlot k j = a.readSlot k j := by
  obtain ⟨hr, x, hc, hslot, hb⟩ := writeSlot_of_ok hs hok
  rcases eq_or_ne k h with rfl | hkh
  · have hlen := o.length_encode
    have hji : j ≠ i := hne.resolve_left fun hkk => hkk rfl
    rw [hs.readSlot_of_cell hc, hr.sound.readSlot_of_cell hb, Cell.length_put hslot hlen,
      Cell.slot_put_ne hslot hlen hji]
  · have hread := read_congr hs.placed hr.sound.placed (hr.cell k hkh) j Slot.width
    unfold readSlot
    rw [hread]

end Arena

/-- Nothing of an object is lost in its bytes, and what is stored in one slot of an arena is read
there and seen in no other. -/
theorem stored_object_intact :
    (∀ o : Object, Object.decode o.encode = .ok o) ∧ Function.Injective Object.encode ∧
    ∀ {limit : Nat} {a b : Arena} {h : Handle} {i : Nat} {o : Object}, Reachable limit a →
      Arena.writeSlot h i o a = .ok () b → b.readSlot h i = .ok o ∧
      ∀ (k : Handle) (j : Nat), k ≠ h ∨ j ≠ i → b.readSlot k j = a.readSlot k j := by
  refine ⟨Object.decode_encode, Object.encode_injective, fun reached hok => ?_⟩
  have hs := reached.reach.2
  exact ⟨Arena.readSlot_written hs hok, fun _ _ => Arena.readSlot_elsewhere hs hok⟩

/-- A real that is no number is stored in the second slot of an array of two, in storage that held
something else before. -/
theorem stored_object_intact_nan :
    let nan : Object := .real ⟨0xFFC00001⟩
    let a := (Arena.Call.newArray 2).run.after ((Arena.Call.free 1).run.after
      ((Arena.Call.allocate 48 .string).run.after (.empty 100)))
    ∃ b, Reachable 100 a ∧ Arena.writeSlot 1 1 nan a = .ok () b ∧ b.readSlot 1 1 = .ok nan ∧
      b.readSlot 1 0 = a.readSlot 1 0 := by
  intro nan a
  have reached : Reachable 100 a :=
    ((Reachable.fresh.call (.allocate 48 .string)).call (.free 1)).call (.newArray 2)
  have live : a.entry 1 = .ok ⟨0, 48, .blank, .used .array⟩ := by decide +kernel
  obtain ⟨b, hok, -⟩ := Arena.writeSlot_within reached.reach.2 live (i := 1) (by decide) nan
  obtain ⟨-, -, hslots⟩ := stored_object_intact
  obtain ⟨hhere, helsewhere⟩ := hslots reached hok
  exact ⟨b, reached, hok, hhere, helsewhere 1 0 (.inr (by decide))⟩

end BankedMemory
