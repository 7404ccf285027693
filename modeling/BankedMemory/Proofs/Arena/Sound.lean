import BankedMemory.Arena.Slots
import BankedMemory.Proofs.Arena.Running
import BankedMemory.Proofs.Bytes.Runs
import Mathlib.Data.List.Nodup
import Mathlib.Data.List.Perm.Subperm

/-!
# Sound arenas

`Placed` says where rows may lie, and is enough for reading and writing. `Sound` is what every
operation keeps: the rows lie apart from each other, row 0 alone is reserved, and the list of free
rows is exact. `cell` is what a handle shows of its entity, wherever the bytes lie. In a sound arena
reading is a function of the cell.
-/

namespace BankedMemory

/-- The byte is one of the row's. -/
def Entry.Covers (e : Entry) (n : Nat) : Prop := e.address ≤ n ∧ n < e.address + e.capacity

namespace Arena

/-- The region is no longer than a region can be, and the rows lie in it without sharing a byte. -/
structure Placed (a : Arena) : Prop where
  region_le : a.region.length ≤ longestRegion
  inside : ∀ {i : Nat} {e : Entry}, a.table[i]? = some e →
    e.address + e.capacity ≤ a.region.length
  disjoint : ∀ {i j : Nat} {e f : Entry} {n : Nat}, i ≠ j → a.table[i]? = some e →
    a.table[j]? = some f → e.Covers n → ¬f.Covers n

/-- Two rows do not overlap. -/
def Apart (e f : Entry) : Prop :=
  e.address + e.capacity ≤ f.address ∨ f.address + f.capacity ≤ e.address

structure Sound (a : Arena) : Prop where
  region_le : a.region.length ≤ longestRegion
  length_le : a.region.length ≤ a.limit
  size_pos : 0 < a.table.size
  size_le : a.table.size ≤ 0x100000000
  inside : ∀ {i : Nat} {e : Entry}, a.table[i]? = some e →
    e.address + e.capacity ≤ a.region.length
  apart : ∀ {i j : Nat} {e f : Entry}, i ≠ j → a.table[i]? = some e → a.table[j]? = some f →
    Apart e f
  reserved : ∀ {i : Nat} {e : Entry}, a.table[i]? = some e → (e.kind = .reserved ↔ i = 0)
  freed_nodup : a.freed.Nodup
  mem_freed : ∀ h : Handle, h ∈ a.freed ↔ ∃ e, a.table[h.toNat]? = some e ∧ e.kind = .free

/-- What a handle shows of a live entity. -/
structure Cell where
  bytes : List UInt8
  mark : Mark
  kind : Kind

def Cell.slot (x : Cell) (i : Nat) : List UInt8 := slotAt x.bytes i

def Cell.HasSlot (x : Cell) (i : Nat) : Prop := i * Slot.width + Slot.width ≤ x.bytes.length

def cell (a : Arena) (h : Handle) : Option Cell :=
  match a.entry h with
  | .ok e => some ⟨a.region.run e.address e.capacity, e.mark, e.kind⟩
  | .error _ => none

/-- The handle names an entity that is not free; the reserved one counts. -/
def Live (a : Arena) (h : Handle) : Prop := ∃ e, a.entry h = .ok e

variable {a : Arena} {h : Handle} {e : Entry} {x : Cell}

theorem entry_eq_ok_iff : a.entry h = .ok e ↔ a.table[h.toNat]? = some e ∧ e.kind ≠ .free := by
  have hf : ∀ f : Entry, f.isFree = true ↔ f.kind = .free := fun f => by simp [Entry.isFree]
  unfold entry
  constructor
  · intro hok
    split at hok
    · next f hrow =>
      split at hok
      · cases hok
      · next hfree => cases hok; exact ⟨hrow, fun hk => hfree ((hf e).mpr hk)⟩
    · cases hok
  · rintro ⟨hrow, hk⟩
    rw [hrow]
    simp only
    rw [if_neg fun hc => hk ((hf e).mp hc)]

theorem cell_eq_of_entry (he : a.entry h = .ok e) :
    a.cell h = some ⟨a.region.run e.address e.capacity, e.mark, e.kind⟩ := by
  unfold cell; rw [he]

theorem entry_of_cell (hc : a.cell h = some x) :
    ∃ e, a.entry h = .ok e ∧ x = ⟨a.region.run e.address e.capacity, e.mark, e.kind⟩ := by
  unfold cell at hc
  split at hc
  · next e he => cases hc; exact ⟨e, he, rfl⟩
  · cases hc

theorem live_iff_cell : a.Live h ↔ ∃ x, a.cell h = some x := by
  constructor
  · rintro ⟨e, he⟩; exact ⟨_, cell_eq_of_entry he⟩
  · rintro ⟨x, hx⟩
    obtain ⟨e, he, -⟩ := entry_of_cell hx
    exact ⟨e, he⟩

theorem cell_eq_none_iff : a.cell h = none ↔ ¬a.Live h := by
  rw [live_iff_cell]
  cases a.cell h <;> simp

theorem entry_of_dead (hdead : a.cell h = none) : a.entry h = .error .noSuchEntity := by
  cases hrow : a.table[h.toNat]? with
  | none =>
    unfold entry
    rw [hrow]
  | some e =>
    have hk : e.kind = .free := Decidable.byContradiction fun hk =>
      cell_eq_none_iff.mp hdead ⟨e, entry_eq_ok_iff.mpr ⟨hrow, hk⟩⟩
    unfold entry Entry.isFree
    rw [hrow]
    simp only
    rw [hk]
    rfl

theorem addWords_eq {m n : Nat} (h : m + n < 0x10000000000000000) : addWords m n = .ok (m + n) :=
  if_pos h

theorem toNat_lt_size (hl : a.Live h) : h.toNat < a.table.size := by
  obtain ⟨e, he⟩ := hl
  exact (Array.getElem?_eq_some_iff.mp (entry_eq_ok_iff.mp he).1).1

/-- There are no more live handles than rows. -/
theorem length_le_size {l : List Handle} (hnodup : l.Nodup) (hlive : ∀ k ∈ l, a.Live k) :
    l.length ≤ a.table.size := by
  have hsub : l.map UInt32.toNat ⊆ List.range a.table.size := by
    intro n hn
    obtain ⟨k, hk, rfl⟩ := List.mem_map.mp hn
    exact List.mem_range.mpr (toNat_lt_size (hlive k hk))
  have hnodup' : (l.map UInt32.toNat).Nodup :=
    List.Nodup.map (fun _ _ heq => UInt32.toNat_inj.mp heq) hnodup
  have := (hnodup'.subperm hsub).length_le
  rwa [List.length_map, List.length_range] at this

theorem Sound.placed (hs : a.Sound) : a.Placed where
  region_le := hs.region_le
  inside := hs.inside
  disjoint hij hi hj he hf := by
    have := hs.apart hij hi hj
    unfold Apart at this
    unfold Entry.Covers at he hf
    omega

namespace Placed

theorem length_cell (hp : a.Placed) (he : a.entry h = .ok e) (hc : a.cell h = some x) :
    x.bytes.length = e.capacity := by
  rw [cell_eq_of_entry he] at hc
  cases hc
  exact Region.length_run (hp.inside (entry_eq_ok_iff.mp he).1)

theorem capacity_le (hp : a.Placed) (he : a.entry h = .ok e) : e.capacity ≤ longestRegion := by
  have h1 := hp.inside (entry_eq_ok_iff.mp he).1
  have h2 := hp.region_le
  omega

/-- Every sum on the way to an element that lies in the row is a word. -/
theorem span_eq (hp : a.Placed) (he : a.entry h = .ok e) {i w : Nat}
    (hfit : i * w + w ≤ e.capacity) :
    a.span h i w = .ok ⟨e.address + i * w, e.address + i * w + w⟩ := by
  have h1 := hp.inside (entry_eq_ok_iff.mp he).1
  have h2 : a.region.length ≤ 0x7FFFFFFFFFFFFFFF := hp.region_le
  unfold span
  rw [bind_eq_of_ok he]
  simp only
  rw [if_neg (by omega), bind_eq_of_ok (addWords_eq (by omega)), if_neg (by omega),
    bind_eq_of_ok (addWords_eq (by omega)), bind_eq_of_ok (addWords_eq (by omega))]
  rfl

theorem read_eq (hp : a.Placed) (he : a.entry h = .ok e) {i w : Nat}
    (hfit : i * w + w ≤ e.capacity) :
    a.read h i w = .ok (a.region.run (e.address + i * w) w) := by
  have h1 := hp.inside (entry_eq_ok_iff.mp he).1
  unfold read
  rw [bind_eq_of_ok (hp.span_eq he hfit)]
  simp only
  rw [Region.slice?_eq_run (by omega)]
  rfl

end Placed

namespace Sound

/-- A slot is read off the cell. -/
theorem read_slot (hs : a.Sound) (hc : a.cell h = some x) {i : Nat} (hi : x.HasSlot i) :
    a.read h i Slot.width = .ok (x.slot i) := by
  obtain ⟨e, he, -⟩ := entry_of_cell hc
  have hlen := hs.placed.length_cell he hc
  unfold Cell.HasSlot at hi
  rw [hs.placed.read_eq he (by omega)]
  rw [cell_eq_of_entry he] at hc
  cases hc
  rw [Cell.slot, slotAt, Region.drop_take_run (by rw [← hlen]; exact hi)]

/-- All the bytes a client can read of an entity. -/
theorem contents_eq (hs : a.Sound) : a.contents h = (a.cell h).map (·.bytes) := by
  unfold contents cell
  cases he : a.entry h with
  | error f => rfl
  | ok e =>
    simp only
    rw [Region.slice?_eq_run (hs.inside (entry_eq_ok_iff.mp he).1)]
    rfl

theorem live_zero (hs : a.Sound) : a.Live 0 := by
  obtain ⟨e, hrow⟩ : ∃ e, a.table[0]? = some e :=
    ⟨_, Array.getElem?_eq_getElem hs.size_pos⟩
  refine ⟨e, entry_eq_ok_iff.mpr ⟨hrow, fun hk => ?_⟩⟩
  have := (hs.reserved hrow).mpr rfl
  rw [hk] at this
  cases this

/-- A handle in the table is live or on the list of free rows. -/
theorem mem_freed_iff (hs : a.Sound) :
    h ∈ a.freed ↔ h.toNat < a.table.size ∧ ¬a.Live h := by
  rw [hs.mem_freed]
  constructor
  · rintro ⟨e, hrow, hk⟩
    obtain ⟨hlt, -⟩ := Array.getElem?_eq_some_iff.mp hrow
    refine ⟨hlt, ?_⟩
    rintro ⟨f, hf⟩
    obtain ⟨hrow', hk'⟩ := entry_eq_ok_iff.mp hf
    rw [hrow] at hrow'
    cases hrow'
    exact hk' hk
  · rintro ⟨hlt, hdead⟩
    refine ⟨_, Array.getElem?_eq_getElem hlt, Decidable.byContradiction fun hk => hdead ?_⟩
    exact ⟨_, entry_eq_ok_iff.mpr ⟨Array.getElem?_eq_getElem hlt, hk⟩⟩

/-- Which stack is the save stack is no matter of rows. -/
theorem with_saves (hs : a.Sound) (saves : Option Handle) : ({ a with saves } : Arena).Sound :=
  ⟨hs.region_le, hs.length_le, hs.size_pos, hs.size_le, hs.inside, hs.apart, hs.reserved,
    hs.freed_nodup, hs.mem_freed⟩

end Sound

theorem sound_empty (limit : Nat) : (Arena.empty limit).Sound where
  region_le := Nat.zero_le _
  length_le := Nat.zero_le _
  size_pos := by simp [Arena.empty]
  size_le := by simp [Arena.empty]
  inside := by
    intro i e hrow
    have : i = 0 ∧ e = .reserved := by
      cases i <;> simp_all [Arena.empty]
    obtain ⟨-, rfl⟩ := this
    simp [Entry.reserved]
  apart := by
    intro i j e f hij hi hj
    cases i <;> cases j <;> simp_all [Arena.empty]
  reserved := by
    intro i e hrow
    cases i <;> simp_all [Arena.empty]
    subst hrow
    rfl
  freed_nodup := List.nodup_nil
  mem_freed := by
    intro h
    simp only [Arena.empty, List.not_mem_nil, false_iff]
    rintro ⟨e, hrow, hk⟩
    rcases Nat.eq_zero_or_pos h.toNat with h0 | h0
    · rw [h0] at hrow
      simp at hrow
      subst hrow
      cases hk
    · rw [Array.getElem?_eq_none h0] at hrow
      cases hrow

theorem cell_empty {limit : Nat} : (Arena.empty limit).cell h = none ↔ h ≠ 0 := by
  rw [cell_eq_none_iff, not_congr]
  constructor
  · rintro ⟨e, he⟩
    obtain ⟨hrow, -⟩ := entry_eq_ok_iff.mp he
    obtain ⟨hlt, -⟩ := Array.getElem?_eq_some_iff.mp hrow
    apply UInt32.toNat_inj.mp
    simpa [Arena.empty] using hlt
  · rintro rfl
    exact (sound_empty limit).live_zero

end Arena

end BankedMemory
